import Tombstash.Loading
import Tombstash.Tiered

set_option autoImplicit false

namespace Tombstash

-- The directory of a store at rest, with its MANIFEST or without one.
structure StoreDirectory (disk : Disk Bytes) : Prop where
  rest : ∀ name file, disk name = some file → file.synced = file.data.length
  names : ∀ name, (disk name).isSome = true → StoreName name
  last : disk (sstName (2 ^ 64 - 1)) = none
  manifest : ∀ file, disk manifestName = some file → ∃ m, file.data = manifestBytes m ∧ m.Fits ∧
    (∀ entry ∈ m.tables, ∃ seq, seq < m.nextSeq ∧ entry.name = sstName seq) ∧ (m.tables.map ManifestEntry.name).Nodup

-- The store as it would be with its current value log alone.
def DB.alone (db : DB) (log : ValueLog) : DB := { db with logs := [log], vlogs := [(db.currentGen, 0)] }

theorem store_table_name (name : Bytes) (seq : Nat) (store : StoreName name) (parsed : parseSeq name = .ok (some seq)) :
    name = sstName seq ∧ seq < 2 ^ 64 := by
  have kind := parse_seq_kind name seq parsed
  rcases store with other | ⟨number, fits, files⟩ | ⟨gen, rfl⟩
  · have kinds : ∀ other ∈ otherFiles, nameKind other ≠ (some 0x73, some 0x2d, some 0x74) := by decide
    exact absurd kind (kinds name other)
  · simp only [tableFiles, List.mem_cons, List.not_mem_nil, or_false] at files
    rcases files with rfl | rfl
    · rw [parse_seq_sst_name number fits] at parsed
      cases parsed
      exact ⟨rfl, fits⟩
    · rw [kind_sst_tmp] at kind
      exact absurd kind (by decide)
  · rw [kind_vlog] at kind
    exact absurd kind (by decide)

theorem store_vlog_name (name : Bytes) (gen : UInt32) (store : StoreName name)
    (parsed : parseVlogGen name = .ok (some gen)) :
    name = vlogName gen := by
  have first := parse_vlog_gen_first name gen parsed
  rcases store with other | ⟨number, _, files⟩ | ⟨found, rfl⟩
  · exact absurd first (other_first name other).2
  · exact absurd first (by rw [table_file_first number name files]; decide)
  · rw [parse_vlog_gen_vlog_name] at parsed
    cases parsed
    rfl

theorem open_tables_inverse (disk : Disk Bytes)
    (rest : ∀ name file, disk name = some file → file.synced = file.data.length) (id : Nat)
    (entries : List ManifestEntry) (tables : List Table) (done : openTables disk id entries = .ok tables)
    (formed : ∀ table ∈ tables, table.sst.WellFormed) :
    ∃ ssts, List.Forall₂ (fun entry sst => Stored disk entry.name sst) entries ssts ∧
    tables = tablesFrom id entries ssts := by
  induction entries generalizing id tables with
  | nil =>
      cases done
      exact ⟨[], .nil, rfl⟩
  | cons entry others ih =>
      obtain ⟨sst, opens, done⟩ := bind_returns _ _ _ done
      obtain ⟨more, later, done⟩ := bind_returns _ _ _ done
      cases done
      obtain ⟨here, there⟩ := List.forall_mem_cons.mp formed
      obtain ⟨ssts, stored, rfl⟩ := ih (id + 1) more later there
      refine ⟨sst :: ssts, .cons ?_ stored, rfl⟩
      cases present : disk entry.name with
      | none => simp [openFile, fileData, present] at opens
      | some file =>
          obtain ⟨data, synced⟩ := file
          have whole : synced = data.length := rest _ _ present
          subst whole
          simp only [openFile, fileData, present, Option.map_some] at opens
          exact ⟨data, present, opens, here⟩

theorem max_gen_spec (logs : List ValueLog) (some : logs ≠ []) : ∃ log ∈ logs, log.gen = maxGen logs := by
  have upper : ∀ a b : UInt32, a ≤ max a b ∧ b ≤ max a b := by
    intro a b
    by_cases less : a ≤ b
    · rw [show max a b = b from if_pos less]
      exact ⟨less, UInt32.le_refl b⟩
    · rw [show max a b = a from if_neg less]
      exact ⟨UInt32.le_refl a, (UInt32.le_total a b).resolve_left less⟩
  have chooses : ∀ a b : UInt32, max a b = a ∨ max a b = b := by
    intro a b
    by_cases less : a ≤ b
    · exact .inr (if_pos less)
    · exact .inl (if_neg less)
  exact foldl_max_attained ValueLog.gen UInt32.le_refl (fun _ _ _ => UInt32.le_trans) upper chooses logs 0
    (fun _ => UInt32.le_zero_iff.mp) some

theorem vlog_index_spec (logs : List ValueLog) (gen : UInt32) (there : ∃ log ∈ logs, log.gen = gen) :
    ∃ k log, logIndex (vlogIndex logs) gen = some k ∧ logs[k]? = some log ∧ log.gen = gen := by
  have entries : ∀ entry ∈ vlogIndex logs, ∃ log, logs[entry.2]? = some log ∧ log.gen = entry.1 := by
    intro entry member
    rw [vlogIndex, List.mem_reverse] at member
    obtain ⟨⟨log, k⟩, inside, rfl⟩ := List.mem_map.mp member
    exact ⟨log, by simpa using List.mem_zipIdx_iff_getElem?.mp inside, rfl⟩
  cases found : (vlogIndex logs).find? (fun entry => decide (entry.1 = gen)) with
  | some entry =>
      obtain ⟨log, object, same⟩ := entries entry (List.mem_of_find?_eq_some found)
      have matching : entry.1 = gen := by simpa using List.find?_some found
      exact ⟨entry.2, log, by rw [logIndex, found]; rfl, object, same.trans matching⟩
  | none =>
      obtain ⟨log, member, rfl⟩ := there
      obtain ⟨k, inside⟩ := List.getElem?_of_mem member
      have indexed : (log.gen, k) ∈ vlogIndex logs := by
        rw [vlogIndex, List.mem_reverse]
        exact List.mem_map.mpr ⟨(log, k), List.mem_zipIdx_iff_getElem?.mpr (by simpa using inside), rfl⟩
      have missed := List.find?_eq_none.mp found _ indexed
      simp at missed

-- What either branch of the constructor has loaded, seen after the steps it has
-- taken so far: with m as its MANIFEST the directory would be a complete store,
-- and with its current log alone the state is what that store loads.
structure Adopts (disk : Disk Bytes) (loaded : DB) (ops : List DiskOp) (m : ManifestData) (ssts : List SSTable)
    (file : File) (k : Nat) :
    Prop where
  present : applyAll disk ([.create walName] ++ ops) (vlogName m.currentGen) = some file
  committed : Committed False
    ((applyAll disk ([.create walName] ++ ops)).set manifestName (some (durable (manifestBytes m)))) m [] ssts
  state : loaded.alone (ValueLog.opened (vlogName m.currentGen) m.currentGen file.data) = loadedDb m ssts file.data []
  index : logIndex loaded.vlogs loaded.currentGen = some k
  object : loaded.logs[k]? = some (ValueLog.opened (vlogName m.currentGen) m.currentGen file.data)
  wal : ∀ name ∈ walFiles, applyAll disk ([.create walName] ++ ops) name = (FsOp.create walName).apply disk name
  names : ∀ op ∈ ops, ∀ name ∈ op.touches, StoreName name

theorem created_file (disk : Disk Bytes) (name : Bytes) :
    ∃ file, (FsOp.create name).apply disk name = some file ∧ (fileData disk name).getD [] = file.data := by
  refine ⟨(disk name).getD ⟨[], 0⟩, set_same _ _ _, ?_⟩
  cases present : disk name with
  | none => simp [fileData, present]
  | some file => simp [fileData, present]

theorem committed_parts (disk : Disk Bytes) (m : ManifestData) (ssts : List SSTable) (file : File)
    (manifest : disk manifestName = some (durable (manifestBytes m))) (fits : m.Fits)
    (stored : List.Forall₂ (fun entry sst => Stored disk entry.name sst) m.tables ssts)
    (named : ∀ entry ∈ m.tables, ∃ seq, seq < m.nextSeq ∧ entry.name = sstName seq)
    (distinct : (m.tables.map ManifestEntry.name).Nodup) (present : disk (vlogName m.currentGen) = some file)
    (inside : file.synced ≤ file.data.length) (small : file.data.length < offMax) : Committed False disk m [] ssts :=
  ⟨manifest, fits, stored, named, distinct, file, present, List.nil_prefix, inside, small, fun never => never.elim⟩

theorem stored_frame (disk later : Disk Bytes) (entries : List ManifestEntry) (ssts : List SSTable)
    (stored : List.Forall₂ (fun entry sst => Stored disk entry.name sst) entries ssts)
    (same : ∀ entry ∈ entries, later entry.name = disk entry.name) :
    List.Forall₂ (fun entry sst => Stored later entry.name sst) entries ssts := by
  induction stored with
  | nil => exact .nil
  | cons here _ ih =>
      obtain ⟨first, rest⟩ := List.forall_mem_cons.mp same
      exact .cons (stored_same disk later _ _ first here) (ih rest)

theorem valid_rest (disk : Disk Bytes) (rest : ∀ name file, disk name = some file → file.synced = file.data.length) :
    disk.Valid :=
  fun name file present => Nat.le_of_eq (rest name file present)

theorem wal_kinds : ∀ name ∈ walFiles, name[0]? = some 0x77 ∧ isTmp name = false ∧ name ≠ manifestName := by decide

section Branches

variable (listing : List Bytes) (disk : Disk Bytes) (lists : Lists disk listing) (directory : StoreDirectory disk)

include lists directory in
theorem manifest_adopts (m : ManifestData) (loaded : DB) (ops : List DiskOp)
    (reads : manifestRead (fileData disk manifestName) = .ok (some m))
    (done : loadManifest listing disk m = .ok (loaded, ops))
      (formed : ∀ table ∈ loaded.sstables, table.sst.WellFormed) :
    (∃ ssts file, Adopts disk loaded ops m ssts file 0) ∧
      applyAll disk ([.create walName] ++ ops) manifestName = some (durable (manifestBytes m)) := by
  obtain ⟨tables, log, orphans, opens, opened, swept, rfl, rfl⟩ := load_manifest_returns listing disk m loaded ops done
  obtain ⟨file, there⟩ : ∃ file, disk manifestName = some file := by
    cases absent : disk manifestName with
    | none => simp [fileData, absent, manifestRead] at reads
    | some file => exact ⟨file, rfl⟩
  obtain ⟨m', data, fits, named, distinct⟩ := directory.manifest file there
  have same : m' = m := by
    rw [fileData, there, Option.map_some, data, manifest_round_trip m' fits] at reads
    cases reads
    rfl
  subst same
  have manifest : disk manifestName = some (durable (manifestBytes m')) := by
    rw [there, durable, ← data, ← directory.rest _ _ there]
  obtain ⟨ssts, stored, rfl⟩ := open_tables_inverse disk directory.rest 0 m'.tables tables opens formed
  obtain ⟨rfl, aligned⟩ := open_log_spec _ _ _ log opened
  -- The two creations leave the files of the MANIFEST as they are.
  have apart : ∀ name, name[0]? ≠ some 0x77 → name ≠ vlogName m'.currentGen →
      applyAll disk [.create walName, .create (vlogName m'.currentGen)] name = disk name := by
    intro name notWal notLog
    refine apply_all_frame disk _ name (fun op member touched => ?_)
    simp only [List.mem_cons, List.not_mem_nil, or_false] at member
    rcases member with rfl | rfl
    · rw [List.mem_singleton.mp touched] at notWal
      exact notWal rfl
    · exact notLog (List.mem_singleton.mp touched)
  obtain ⟨file', present, same⟩ := created_file ((FsOp.create walName).apply disk) (vlogName m'.currentGen)
  have before : (FsOp.create walName).apply disk (vlogName m'.currentGen) = disk (vlogName m'.currentGen) :=
    apply_frame disk _ _ (by simpa [FsOp.touches] using ne_of_kind _ _ (by simp))
  rw [fileData, before, ← fileData] at same
  have committed : Committed False (applyAll disk [.create walName, .create (vlogName m'.currentGen)]) m' [] ssts := by
    refine committed_parts _ m' ssts file' ?_ fits ?_ named distinct present ?_ ?_
    · rw [apart _ (by decide) (ne_of_kind _ _ (by simp))]
      exact manifest
    · refine stored_frame disk _ _ ssts stored (fun entry member => ?_)
      obtain ⟨seq, _, name⟩ := named entry member
      rw [name]
      exact apart _ (by rw [sst_first]; decide) (ne_of_kind _ _ (by simp))
    · exact apply_all_valid disk [.create walName, .create (vlogName m'.currentGen)]
        (valid_rest disk directory.rest) _ _ present
    · rw [← same]
      exact aligned.small
  obtain ⟨needed, wal⟩ := orphans_apart _ m' [] ssts committed.prepared listing orphans swept
  have swept' := throughout_last _ _ _ (committed_apart _ m' [] ssts orphans committed needed)
  have manifest' : applyAll disk ([.create walName] ++ .create (vlogName m'.currentGen) :: orphans) manifestName =
      some (durable (manifestBytes m')) := swept'.manifest
  refine ⟨⟨ssts, file', ?_, ?_, ?_, ?_, ?_, ?_, ?_⟩, manifest'⟩
  · exact (apart_frame _ _ orphans needed _ (by simp [neededFiles])).trans present
  · rw [set_present _ _ _ manifest']
    exact swept'
  · simp only [DB.alone, loadedDb, length_tables_from 0 m'.tables ssts stored.length_eq]
    rfl
  · simp [logIndex]
  · simp [same]
  · intro name inside
    obtain ⟨first, _⟩ := wal_kinds name inside
    change applyAll ((FsOp.create (vlogName m'.currentGen)).apply ((FsOp.create walName).apply disk)) orphans name = _
    rw [apart_frame _ _ orphans wal name inside]
    refine apply_frame _ _ _ (fun touched => ?_)
    rw [List.mem_singleton.mp touched, vlog_first] at first
    exact absurd first (by decide)
  · intro op member name touched
    rcases List.mem_cons.mp member with rfl | orphan
    · exact .inr (.inr ⟨_, List.mem_singleton.mp touched⟩)
    · obtain ⟨gone, listed, rfl, _⟩ := (cleanup_spec _ _ listing orphans swept op).mp orphan
      rw [List.mem_singleton.mp touched]
      exact directory.names gone ((lists.2 gone).mp listed)

include lists directory in
theorem bare_logs (logs : List ValueLog) (created : List DiskOp) (done : loadVlogs listing disk = .ok (logs, created)) :
    ∃ k log, logIndex (vlogIndex logs) (maxGen logs) = some k ∧ logs[k]? = some log ∧ log.Aligned ∧
      log = ValueLog.opened (vlogName (maxGen logs)) (maxGen logs) ((fileData disk (vlogName (maxGen logs))).getD []) ∧
      (created = [] ∧ (disk (vlogName (maxGen logs))).isSome = true ∨
        created = [.create (vlogName (maxGen logs))]) := by
  obtain ⟨found, finds, done⟩ := bind_returns _ _ _ done
  split at done
  · obtain ⟨log, opens, done⟩ := bind_returns _ _ _ done
    cases done
    obtain ⟨rfl, aligned⟩ := open_log_spec _ _ _ log opens
    have zero : maxGen [ValueLog.opened (vlogName 0) 0 ((fileData disk (vlogName 0)).getD [])] = 0 := rfl
    rw [zero]
    exact ⟨0, _, rfl, rfl, aligned, rfl, .inr rfl⟩
  · next filled =>
      cases done
      have some : logs ≠ [] := by simpa using filled
      obtain ⟨k, log, index, object, gen⟩ := vlog_index_spec logs _ (max_gen_spec logs some)
      obtain ⟨aligned, listed, parsed, shape⟩ :=
        find_vlogs_spec disk listing logs finds log (List.mem_of_getElem? object)
      have there := (lists.2 _).mp listed
      have name := store_vlog_name log.name log.gen (directory.names _ there) parsed
      rw [gen] at name
      rw [name, gen] at shape
      exact ⟨k, log, index, object, aligned, shape, .inl ⟨rfl, by rw [← name]; exact there⟩⟩

include lists directory in
theorem bare_numbers (found : List (Nat × Bytes)) (finds : findSstables listing = .ok found) :
    (∀ entry ∈ found, entry.2 = sstName entry.1 ∧ entry.1 < if found.isEmpty then 0 else (maxSeq found + 1) % 2 ^ 64) ∧
      (found.map Prod.snd).Nodup := by
  obtain ⟨sub, parsed, _⟩ := find_sstables_spec listing found finds
  obtain ⟨most, attained⟩ := max_seq_spec found
  refine ⟨fun entry member => ?_, lists.1.sublist sub⟩
  have store : ∀ entry ∈ found, entry.2 = sstName entry.1 ∧ entry.1 + 1 < 2 ^ 64 := by
    intro entry member
    have there := (lists.2 _).mp (sub.subset (List.mem_map_of_mem member))
    obtain ⟨name, small⟩ := store_table_name entry.2 entry.1 (directory.names _ there) (parsed entry member)
    refine ⟨name, ?_⟩
    have notLast : entry.1 ≠ 2 ^ 64 - 1 := by
      intro last
      rw [name, last, directory.last] at there
      cases there
    omega
  rcases attained with rfl | ⟨top, inside, same⟩
  · cases member
  · have filled : found.isEmpty = false := by
      cases found with
      | nil => cases member
      | cons first rest => rfl
    have small := (store top inside).2
    rw [same] at small
    rw [filled, if_neg (by simp), Nat.mod_eq_of_lt small]
    exact ⟨(store entry member).1, Nat.lt_succ_of_le (most entry member)⟩

-- The MANIFEST that such a directory could have had.
def bareManifest (found : List (Nat × Bytes)) (gen : UInt32) : ManifestData where
  nextSeq := if found.isEmpty then 0 else (maxSeq found + 1) % 2 ^ 64
  currentGen := gen
  tables := (found.insertionSort (fun a b => b.1 ≤ a.1)).map (fun entry => ⟨entry.2, 0⟩)

include lists directory in
theorem bare_entries (found : List (Nat × Bytes)) (finds : findSstables listing = .ok found) (gen : UInt32) :
    (∀ entry ∈ (bareManifest found gen).tables, ∃ seq, seq < (bareManifest found gen).nextSeq ∧
      entry.name = sstName seq ∧ entry.level = 0) ∧
      ((bareManifest found gen).tables.map ManifestEntry.name).Nodup := by
  obtain ⟨numbers, distinct⟩ := bare_numbers listing disk lists directory found finds
  have sorted := List.perm_insertionSort (fun a b : Nat × Bytes => b.1 ≤ a.1) found
  refine ⟨fun entry member => ?_, ?_⟩
  · obtain ⟨pair, inside, rfl⟩ := List.mem_map.mp member
    obtain ⟨name, less⟩ := numbers pair (sorted.mem_iff.mp inside)
    exact ⟨pair.1, less, name, rfl⟩
  · rw [bareManifest, List.map_map]
    exact (sorted.map Prod.snd).nodup_iff.mpr distinct

include lists directory in
theorem bare_fits (found : List (Nat × Bytes)) (finds : findSstables listing = .ok found) (gen : UInt32)
    (few : (bareManifest found gen).tables.length < 2 ^ 32) : (bareManifest found gen).Fits := by
  obtain ⟨entries, _⟩ := bare_entries listing disk lists directory found finds gen
  refine ⟨?_, few, fun entry member => ?_, fun entry member => ?_⟩
  · show (if found.isEmpty = true then 0 else (maxSeq found + 1) % 2 ^ 64) < 2 ^ 64
    split <;> omega
  · obtain ⟨seq, _, name, _⟩ := entries entry member
    rw [name]
    exact lt_of_le_of_lt (length_sst_name seq) (by decide)
  · obtain ⟨_, _, _, level⟩ := entries entry member
    rw [level]
    decide

theorem bare_touches (created : List DiskOp) (gen : UInt32)
    (creates : created = [] ∨ created = [.create (vlogName gen)]) :
    ∀ op ∈ (listing.filter isTmp).map FsOp.unlink ++ created, ∀ name ∈ op.touches,
      name ∈ listing ∧ isTmp name = true ∨ name = vlogName gen := by
  intro op member name touched
  rcases List.mem_append.mp member with unlink | create
  · obtain ⟨gone, inside, rfl⟩ := List.mem_map.mp unlink
    rw [List.mem_singleton.mp touched]
    exact .inl (List.mem_filter.mp inside)
  · rcases creates with rfl | rfl
    · cases create
    · rw [List.mem_singleton.mp create, FsOp.touches, List.mem_singleton] at touched
      exact .inr touched

theorem bare_log_file (created : List DiskOp) (gen : UInt32)
    (creates : created = [] ∧ (disk (vlogName gen)).isSome = true ∨ created = [.create (vlogName gen)]) :
    ∃ file, applyAll disk ([.create walName] ++ ((listing.filter isTmp).map FsOp.unlink ++ created))
    (vlogName gen) = some file ∧
      (fileData disk (vlogName gen)).getD [] = file.data := by
  have before : applyAll disk ([.create walName] ++ (listing.filter isTmp).map FsOp.unlink) (vlogName gen) = disk
    (vlogName gen) := by
    refine apply_all_frame disk _ _ (fun op member touched => ?_)
    rcases List.mem_append.mp member with create | unlink
    · rw [List.mem_singleton.mp create, FsOp.touches, List.mem_singleton] at touched
      exact ne_of_kind _ _ (by simp) touched
    · obtain ⟨gone, inside, rfl⟩ := List.mem_map.mp unlink
      have temporary := (List.mem_filter.mp inside).2
      rw [← List.mem_singleton.mp touched, vlog_not_tmp] at temporary
      cases temporary
  rw [← List.append_assoc, apply_all_append]
  rcases creates with ⟨rfl, there⟩ | rfl
  · obtain ⟨file, here⟩ := Option.isSome_iff_exists.mp there
    exact ⟨file, before.trans here, by simp [fileData, here]⟩
  · have made :=
      created_file (applyAll disk ([.create walName] ++ (listing.filter isTmp).map FsOp.unlink)) (vlogName gen)
    rw [fileData, before, ← fileData] at made
    exact made

include lists directory in
theorem bare_adopts (loaded : DB) (ops : List DiskOp) (done : loadDirectory listing disk = .ok (loaded, ops))
    (formed : ∀ table ∈ loaded.sstables, table.sst.WellFormed) (few : loaded.sstables.length < 2 ^ 32) :
    ∃ m ssts file k, Adopts disk loaded ops m ssts file k := by
  obtain ⟨found, tables, logs, created, finds, opens, vlogs, rfl, rfl⟩ :=
    load_directory_returns listing disk loaded ops done
  obtain ⟨k, log, index, object, aligned, shape, creates⟩ := bare_logs listing disk lists directory logs created vlogs
  obtain ⟨ssts, stored, rfl⟩ := open_tables_inverse disk directory.rest 0 _ tables opens formed
  obtain ⟨entries, distinct⟩ := bare_entries listing disk lists directory found finds (maxGen logs)
  obtain ⟨file, present, data⟩ := bare_log_file listing disk created (maxGen logs) creates
  have touches := bare_touches listing created (maxGen logs) (creates.imp And.left id)
  have count : (tablesFrom 0 (bareManifest found (maxGen logs)).tables ssts).length =
    (bareManifest found (maxGen logs)).tables.length :=
    length_tables_from 0 _ ssts stored.length_eq
  refine ⟨bareManifest found (maxGen logs), ssts, file, k, present, ?_, ?_, index, ?_, fun name inside => ?_,
    fun op member name touched => ?_⟩
  · refine committed_parts _ _ ssts file (set_same _ _ _)
      (bare_fits listing disk lists directory found finds _ (by rw [← count]; exact few)) ?_
      (fun entry member => ?_) distinct ?_ ?_ ?_
    · refine stored_frame disk _ _ ssts stored (fun entry member => ?_)
      obtain ⟨seq, _, name, _⟩ := entries entry member
      rw [name, set_other _ _ _ _ (ne_of_kind _ _ (by simp))]
      refine apply_all_frame disk _ _ (fun op member touched => ?_)
      rcases List.mem_cons.mp member with rfl | later
      · exact absurd (List.mem_singleton.mp touched) (ne_of_kind _ _ (by simp))
      · rcases touches op later _ touched with ⟨_, temporary⟩ | log
        · rw [sst_not_tmp] at temporary
          cases temporary
        · exact absurd log (ne_of_kind _ _ (by simp))
    · obtain ⟨seq, less, name, _⟩ := entries entry member
      exact ⟨seq, less, name⟩
    · rw [set_other _ _ _ _ (ne_of_kind _ _ (by simp [bareManifest]))]
      exact present
    · exact apply_all_valid disk _ (valid_rest disk directory.rest) _ _ present
    · rw [← data]
      rw [shape] at aligned
      exact aligned.small
  · simp only [DB.alone, loadedDb, ← count]
    rfl
  · rw [← data]
    rw [shape] at object
    exact object
  · obtain ⟨first, notTmp, _⟩ := wal_kinds name inside
    change applyAll ((FsOp.create walName).apply disk) ((listing.filter isTmp).map FsOp.unlink ++ created) name = _
    refine apply_all_frame _ _ name (fun op member touched => ?_)
    rcases touches op member name touched with ⟨_, temporary⟩ | rfl
    · rw [notTmp] at temporary
      cases temporary
    · rw [vlog_first] at first
      exact absurd first (by decide)
  · rcases touches op member name touched with ⟨listed, _⟩ | log
    · exact directory.names name ((lists.2 name).mp listed)
    · exact .inr (.inr ⟨_, log⟩)

end Branches

end Tombstash
