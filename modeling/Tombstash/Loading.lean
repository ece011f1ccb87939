import Tombstash.Interleave
import Tombstash.NameRuns

set_option autoImplicit false

namespace Tombstash

-- An opening that succeeds: what it reads, what it loads, and the flush of what
-- it has replayed.
structure OpenReturns (cfg : Config) (listing : List Bytes) (disk : Disk Bytes) (db : DB) (ops : List DiskOp)
    (man : Option ManifestData) (loaded : DB) (loadOps : List DiskOp) (kind : Kind) (front : List DiskOp) : Prop where
  reads : manifestRead (fileData disk manifestName) = .ok man
  loads : (∃ m, man = some m ∧ loadManifest listing disk m = .ok (loaded, loadOps)) ∨
    man = none ∧ loadDirectory listing disk = .ok (loaded, loadOps)
  plain : kind = .flushed ∨ kind = .idle
  move : Move cfg [] { loaded with memtable := memOf (replayedWrites disk) } kind db front []
  ops : ops = [.create walName] ++ loadOps ++ (front ++ dropFlushing (disk flushingWalName).isSome ++
    if man.isNone then writeManifestLocked db else [])
  emptied : (disk flushingWalName).isSome = true → db.memtable.isEmpty = true
  unflushed : (disk flushingWalName).isSome = false → kind = .idle ∧
    db = { loaded with memtable := memOf (replayedWrites disk) }

theorem load_manifest_returns (listing : List Bytes) (disk : Disk Bytes) (m : ManifestData) (loaded : DB)
    (ops : List DiskOp) (done : loadManifest listing disk m = .ok (loaded, ops)) :
    ∃ tables log orphans, openTables disk 0 m.tables = .ok tables ∧
      openLog (vlogName m.currentGen) m.currentGen ((fileData disk (vlogName m.currentGen)).getD []) = .ok log ∧
      cleanupOrphans (m.tables.map ManifestEntry.name) m.currentGen listing = .ok orphans ∧
      loaded = { sstables := tables, logs := [log], vlogs := [(m.currentGen, 0)], currentGen := m.currentGen,
                 nextSeq := m.nextSeq, nextId := tables.length } ∧
      ops = .create (vlogName m.currentGen) :: orphans := by
  obtain ⟨tables, opens, rest⟩ := bind_returns _ _ _ done
  obtain ⟨log, opened, rest⟩ := bind_returns _ _ _ rest
  obtain ⟨orphans, swept, rest⟩ := bind_returns _ _ _ rest
  cases rest
  exact ⟨tables, log, orphans, opens, opened, swept, rfl, rfl⟩

theorem load_directory_returns (listing : List Bytes) (disk : Disk Bytes) (loaded : DB) (ops : List DiskOp)
    (done : loadDirectory listing disk = .ok (loaded, ops)) :
    ∃ found tables logs created, findSstables listing = .ok found ∧
      openTables disk 0 ((found.insertionSort (fun a b => b.1 ≤ a.1)).map (fun entry => ⟨entry.2, 0⟩)) = .ok tables ∧
      loadVlogs listing disk = .ok (logs, created) ∧
      loaded = { sstables := tables, logs := logs, vlogs := vlogIndex logs, currentGen := maxGen logs,
                 nextSeq := if found.isEmpty then 0 else (maxSeq found + 1) % 2 ^ 64, nextId := tables.length } ∧
      ops = (listing.filter isTmp).map FsOp.unlink ++ created := by
  obtain ⟨sorted, loads, rest⟩ := bind_returns _ _ _ done
  obtain ⟨found, finds, loads⟩ := bind_returns _ _ _ loads
  obtain ⟨tables, opens, loads⟩ := bind_returns _ _ _ loads
  cases loads
  obtain ⟨⟨logs, created⟩, vlogs, rest⟩ := bind_returns _ _ _ rest
  cases rest
  exact ⟨found, tables, logs, created, finds, opens, vlogs, rfl, rfl⟩

theorem open_parts (cfg : Config) (listing : List Bytes) (disk : Disk Bytes) (db : DB) (ops : List DiskOp)
    (done : openDB cfg listing disk = .ok (db, ops)) :
    ∃ man loaded loadOps flushOps, manifestRead (fileData disk manifestName) = .ok man ∧
      ((∃ m, man = some m ∧ loadManifest listing disk m = .ok (loaded, loadOps)) ∨
        man = none ∧ loadDirectory listing disk = .ok (loaded, loadOps)) ∧
      finishRecovery cfg { loaded with memtable := memOf (replayedWrites disk) } (disk flushingWalName).isSome =
        .ok (db, flushOps) ∧
      ops = [.create walName] ++ loadOps ++ flushOps ++ if man.isNone then writeManifestLocked db else [] := by
  obtain ⟨man, reads, rest⟩ := bind_returns _ _ _ done
  cases man with
  | some m =>
      obtain ⟨⟨loaded, loadOps⟩, loads, rest⟩ := bind_returns _ _ _ rest
      obtain ⟨⟨next, flushOps⟩, finished, rest⟩ := bind_returns _ _ _ rest
      cases rest
      exact ⟨some m, loaded, loadOps, flushOps, reads, .inl ⟨m, rfl, loads⟩, finished, rfl⟩
  | none =>
      obtain ⟨⟨loaded, loadOps⟩, loads, rest⟩ := bind_returns _ _ _ rest
      obtain ⟨⟨next, flushOps⟩, finished, rest⟩ := bind_returns _ _ _ rest
      cases rest
      exact ⟨none, loaded, loadOps, flushOps, reads, .inr ⟨rfl, loads⟩, finished, rfl⟩

theorem open_returns (cfg : Config) (listing : List Bytes) (disk : Disk Bytes) (db : DB) (ops : List DiskOp)
    (done : openDB cfg listing disk = .ok (db, ops)) :
    ∃ man loaded loadOps kind front, OpenReturns cfg listing disk db ops man loaded loadOps kind front := by
  obtain ⟨man, loaded, loadOps, flushOps, reads, loads, finished, rfl⟩ := open_parts cfg listing disk db ops done
  have free : loaded.hasFlushing = false := by
    rcases loads with ⟨m, _, loads⟩ | ⟨_, loads⟩
    · obtain ⟨_, _, _, _, _, _, shape, _⟩ := load_manifest_returns listing disk m loaded loadOps loads
      rw [shape]
    · obtain ⟨_, _, _, _, _, _, _, shape, _⟩ := load_directory_returns listing disk loaded loadOps loads
      rw [shape]
  obtain ⟨kind, front, plain, move, rfl, empty, idle⟩ :=
    finish_recovery_move cfg { loaded with memtable := memOf (replayedWrites disk) } db _ flushOps free finished
  exact ⟨man, loaded, loadOps, kind, front, reads, loads, plain, move, by simp, empty, idle⟩

theorem open_tables_names (disk : Disk Bytes) (id : Nat) (entries : List ManifestEntry) (tables : List Table)
    (done : openTables disk id entries = .ok tables) : tables.map Table.name = entries.map ManifestEntry.name := by
  induction entries generalizing id tables with
  | nil =>
      cases done
      rfl
  | cons entry rest ih =>
      obtain ⟨sst, _, done⟩ := bind_returns _ _ _ done
      obtain ⟨others, opens, done⟩ := bind_returns _ _ _ done
      cases done
      rw [List.map_cons, List.map_cons, ih (id + 1) others opens]

theorem find_sstables_spec (listing : List Bytes) (found : List (Nat × Bytes))
    (done : findSstables listing = .ok found) :
    (found.map Prod.snd).Sublist listing ∧ (∀ entry ∈ found, parseSeq entry.2 = .ok (some entry.1)) ∧
      ∀ name ∈ listing, isTmp name = false → ∀ seq, parseSeq name = .ok (some seq) → (seq, name) ∈ found := by
  induction listing generalizing found with
  | nil =>
      cases done
      exact ⟨List.Sublist.refl _, by simp, by simp⟩
  | cons name rest ih =>
      rw [findSstables] at done
      by_cases tmp : isTmp name = true
      · rw [if_pos tmp] at done
        obtain ⟨sub, parsed, all⟩ := ih found done
        refine ⟨sub.cons name, parsed, fun other member plain => ?_⟩
        rcases List.mem_cons.mp member with rfl | later
        · rw [tmp] at plain
          cases plain
        · exact all other later plain
      · rw [if_neg tmp] at done
        obtain ⟨seq, parses, done⟩ := bind_returns _ _ _ done
        obtain ⟨others, finds, done⟩ := bind_returns _ _ _ done
        cases done
        obtain ⟨sub, parsed, all⟩ := ih others finds
        refine ⟨?_, fun entry member => ?_, fun other member plain number same => ?_⟩
        · cases seq with
          | none => exact sub.cons name
          | some number => exact sub.cons_cons name
        · rcases List.mem_append.mp member with here | later
          · obtain ⟨number, inside, rfl⟩ := List.mem_map.mp here
            rw [parses, Option.mem_toList.mp inside]
          · exact parsed entry later
        · rcases List.mem_cons.mp member with rfl | later
          · rw [parses] at same
            cases same
            simp
          · exact List.mem_append_right _ (all other later plain number same)

theorem max_seq_spec (found : List (Nat × Bytes)) :
    (∀ entry ∈ found, entry.1 ≤ maxSeq found) ∧ (found = [] ∨ ∃ entry ∈ found, entry.1 = maxSeq found) := by
  have upper : ∀ a b : Nat, a ≤ max a b ∧ b ≤ max a b := fun a b => ⟨Nat.le_max_left a b, Nat.le_max_right a b⟩
  have chooses : ∀ a b : Nat, max a b = a ∨ max a b = b := fun a b =>
    (Nat.le_total b a).imp Nat.max_eq_left Nat.max_eq_right
  obtain ⟨_, all, _⟩ := foldl_max_spec Prod.fst Nat.le_refl (fun _ _ _ => Nat.le_trans) upper chooses found 0
  refine ⟨all, ?_⟩
  by_cases empty : found = []
  · exact .inl empty
  · exact .inr (foldl_max_attained Prod.fst Nat.le_refl (fun _ _ _ => Nat.le_trans) upper chooses found 0
      (fun _ => Nat.le_zero.mp) empty)

theorem find_vlogs_spec (disk : Disk Bytes) (listing : List Bytes) (logs : List ValueLog)
    (done : findVlogs disk listing = .ok logs) :
    ∀ log ∈ logs, log.Aligned ∧ log.name ∈ listing ∧ parseVlogGen log.name = .ok (some log.gen) ∧
      log = ValueLog.opened log.name log.gen ((fileData disk log.name).getD []) := by
  induction listing generalizing logs with
  | nil =>
      cases done
      simp
  | cons name rest ih =>
      rw [findVlogs] at done
      obtain ⟨gen, parses, done⟩ := bind_returns _ _ _ done
      have later : ∀ others, findVlogs disk rest = .ok others → ∀ log ∈ others,
          log.Aligned ∧ log.name ∈ name :: rest ∧ parseVlogGen log.name = .ok (some log.gen) ∧
            log = ValueLog.opened log.name log.gen ((fileData disk log.name).getD []) := by
        intro others finds log member
        obtain ⟨aligned, inside, rest⟩ := ih others finds log member
        exact ⟨aligned, by simp [inside], rest⟩
      cases gen with
      | none => exact later logs done
      | some gen =>
          obtain ⟨log, opens, done⟩ := bind_returns _ _ _ done
          obtain ⟨others, finds, done⟩ := bind_returns _ _ _ done
          cases done
          obtain ⟨rfl, aligned⟩ := open_log_spec _ _ _ log opens
          exact List.forall_mem_cons.mpr ⟨⟨aligned, by simp [ValueLog.opened], parses, rfl⟩, later others finds⟩

-- A directory that a store may be opened in: with a MANIFEST of a store or with
-- none, and with any files whatever next to it.
structure Directory (disk : Disk Bytes) : Prop where
  valid : disk.Valid
  tame : ∀ name, (disk name).isSome = true → Tame name
  manifest : OrderedDisk disk

-- What both branches of the constructor load, and the steps they take.
structure LoadedNames (disk : Disk Bytes) (loaded : DB) (ops : List DiskOp) : Prop where
  names : ∀ table ∈ loaded.sstables, NumberedBelow loaded.nextSeq table.name
  distinct : (loaded.sstables.map Table.name).Nodup
  idle : loaded.hasFlushing = false ∧ loaded.flusher = none ∧ inFlight loaded = []
  logs : ∀ log ∈ loaded.logs, log.Aligned ∧ LogName log.name
  gone : ∀ n, loaded.nextSeq ≤ n → n < 2 ^ 64 → disk (sstName n) = none ∨ .unlink (sstName n) ∈ ops
  steps : ∀ op ∈ ops, (∃ name, op = .unlink name ∧ Tame name ∧ name ≠ manifestName) ∨
    ∃ name, op = .create name ∧ LogName name

section Loaded

variable (listing : List Bytes) (disk : Disk Bytes) (lists : Lists disk listing) (directory : Directory disk)

include lists directory in
theorem load_manifest_loads (m : ManifestData) (loaded : DB) (ops : List DiskOp) (ordered : Ordered m)
    (done : loadManifest listing disk m = .ok (loaded, ops)) : LoadedNames disk loaded ops := by
  obtain ⟨tables, log, orphans, opens, opened, swept, rfl, rfl⟩ := load_manifest_returns listing disk m loaded ops done
  have names := open_tables_names disk 0 m.tables tables opens
  obtain ⟨rfl, aligned⟩ := open_log_spec _ _ _ log opened
  have below : ∀ name ∈ m.tables.map ManifestEntry.name, NumberedBelow m.nextSeq name := by
    intro name member
    obtain ⟨entry, inside, rfl⟩ := List.mem_map.mp member
    exact ordered.names entry inside
  refine ⟨fun table member => below _ (names ▸ List.mem_map_of_mem member), names ▸ ordered.distinct,
    ⟨rfl, rfl, rfl⟩, ?_, ?_, ?_⟩
  · intro log member
    rw [List.mem_singleton.mp member]
    exact ⟨aligned, vlog_log_name m.currentGen⟩
  · intro n high small
    cases present : disk (sstName n) with
    | none => exact .inl rfl
    | some file =>
        have live : sstName n ∉ m.tables.map ManifestEntry.name := fun member =>
          below_not_sst m.nextSeq n _ (below _ member) high small rfl
        refine .inr (List.mem_cons_of_mem _ ((cleanup_spec _ _ listing orphans swept _).mpr ⟨sstName n, ?_, rfl, ?_⟩))
        · exact (lists.2 _).mpr (by rw [present]; rfl)
        · rw [orphan_table _ _ n small, decide_eq_true live]
  · intro op member
    rcases List.mem_cons.mp member with rfl | orphan
    · exact .inr ⟨_, rfl, vlog_log_name m.currentGen⟩
    · obtain ⟨name, listed, rfl, removed⟩ := (cleanup_spec _ _ listing orphans swept op).mp orphan
      refine .inl ⟨name, rfl, directory.tame name ((lists.2 name).mp listed), ?_⟩
      rintro rfl
      rw [orphan_other _ _ _ (by decide)] at removed
      exact absurd (Except.ok.inj removed) (by decide)

include lists directory in
theorem load_vlogs_named (logs : List ValueLog) (ops : List DiskOp) (done : loadVlogs listing disk = .ok (logs, ops)) :
    (∀ log ∈ logs, log.Aligned ∧ LogName log.name) ∧ ∀ op ∈ ops, op = .create (vlogName 0) := by
  obtain ⟨found, finds, done⟩ := bind_returns _ _ _ done
  split at done
  · obtain ⟨log, opens, done⟩ := bind_returns _ _ _ done
    cases done
    obtain ⟨rfl, aligned⟩ := open_log_spec _ _ _ log opens
    refine ⟨fun log member => ?_, fun op member => List.mem_singleton.mp member⟩
    rw [List.mem_singleton.mp member]
    exact ⟨aligned, vlog_log_name 0⟩
  · cases done
    refine ⟨fun log member => ?_, by simp⟩
    obtain ⟨aligned, listed, parsed, _⟩ := find_vlogs_spec disk listing logs finds log member
    exact ⟨aligned, parse_vlog_gen_first _ _ parsed, (directory.tame _ ((lists.2 _).mp listed)).1⟩

include lists directory in
theorem load_directory_loads (loaded : DB) (ops : List DiskOp) (done : loadDirectory listing disk = .ok (loaded, ops)) :
    LoadedNames disk loaded ops := by
  obtain ⟨found, tables, logs, created, finds, opens, vlogs, rfl, rfl⟩ :=
    load_directory_returns listing disk loaded ops done
  obtain ⟨sub, parsed, all⟩ := find_sstables_spec listing found finds
  obtain ⟨most, attained⟩ := max_seq_spec found
  obtain ⟨named, creates⟩ := load_vlogs_named listing disk lists directory logs created vlogs
  have sorted := List.perm_insertionSort (fun a b : Nat × Bytes => b.1 ≤ a.1) found
  have names : tables.map Table.name = (found.insertionSort (fun a b => b.1 ≤ a.1)).map Prod.snd := by
    rw [open_tables_names disk 0 _ tables opens, List.map_map]
    rfl
  -- The counter does not wrap around.
  have counter : ∀ entry ∈ found, entry.1 < if found.isEmpty then 0 else (maxSeq found + 1) % 2 ^ 64 := by
    intro entry member
    have some : found.isEmpty = false := by
      cases found with
      | nil => cases member
      | cons first rest => rfl
    rw [some, if_neg (by simp)]
    rcases attained with rfl | ⟨top, inside, same⟩
    · cases member
    · have tame := directory.tame top.2 ((lists.2 _).mp (sub.subset (List.mem_map_of_mem inside)))
      have small := tame.2 top.1 (parsed top inside)
      rw [same] at small
      rw [Nat.mod_eq_of_lt small]
      exact Nat.lt_succ_of_le (most entry member)
  refine ⟨fun table member => ?_, ?_, ⟨rfl, rfl, rfl⟩, named, fun n high small => ?_, fun op member => ?_⟩
  · have inNames : table.name ∈ tables.map Table.name := List.mem_map_of_mem member
    rw [names] at inNames
    obtain ⟨entry, inside, same⟩ := List.mem_map.mp inNames
    have there := sorted.mem_iff.mp inside
    have listed : table.name ∈ listing := same ▸ sub.subset (List.mem_map_of_mem there)
    refine ⟨(directory.tame _ ((lists.2 _).mp listed)).1, entry.1, ?_, counter entry there⟩
    rw [← same]
    exact parsed entry there
  · rw [names]
    exact (sorted.map Prod.snd).nodup_iff.mpr (lists.1.sublist sub)
  · cases present : disk (sstName n) with
    | none => exact .inl rfl
    | some file =>
        have listed : sstName n ∈ listing := (lists.2 _).mpr (by rw [present]; rfl)
        have less := counter _ (all _ listed (sst_not_tmp n) n (parse_seq_sst_name n small))
        exact absurd (Nat.lt_of_lt_of_le less high) (Nat.lt_irrefl _)
  · rcases List.mem_append.mp member with tmp | create
    · obtain ⟨name, inside, rfl⟩ := List.mem_map.mp tmp
      obtain ⟨listed, isTemp⟩ := List.mem_filter.mp inside
      refine .inl ⟨name, rfl, directory.tame name ((lists.2 name).mp listed), ?_⟩
      rintro rfl
      cases isTemp
    · rw [creates op create]
      exact .inr ⟨_, rfl, vlog_log_name 0⟩

end Loaded

theorem section_more (disk : Disk Bytes) (start db : DB) (ops more : List DiskOp) (inv : SectionInv disk start db ops)
    (others : ∀ op ∈ more, ∀ name ∈ op.touches, name ∈ otherFiles)
    (manifest : Throughout OrderedDisk (applyAll disk ops) more) (splits : ∀ op ∈ more, Splits op) :
    SectionInv disk start db (ops ++ more) := by
  obtain ⟨seqs, writes, nodup, inside⟩ := inv.writes
  have both := writes_append otherFiles seqs [] ops more writes (writes_others more others)
  rw [List.append_nil] at both
  exact ⟨inv.named, inv.work, inv.logs, inv.small, inv.counter, ⟨seqs, both, nodup, inside⟩, inv.owed,
    (throughout_append _ _ _ _).mpr ⟨inv.manifest, manifest⟩,
    fun op member => (List.mem_append.mp member).elim (inv.splits op) (splits op)⟩

theorem single_splits (op : DiskOp) (name : Bytes) (touches : op.touches = [name]) : Splits op := by
  rw [Splits, touches]
  by_cases inside : name ∈ manifestFiles
  · exact .inl (fun other member => List.mem_singleton.mp member ▸ inside)
  · exact .inr (fun other member => List.mem_singleton.mp member ▸ inside)

theorem load_prelude (disk : Disk Bytes) (loaded next : DB) (ops : List DiskOp) (directory : Directory disk)
    (loads : LoadedNames disk loaded ops) (idle : owed next = []) :
    Prelude disk loaded next ([.create walName] ++ ops) := by
  have touched : ∀ op ∈ [.create walName] ++ ops, ∃ name, op.touches = [name] ∧ Tame name ∧ name ≠ manifestName ∧
      installed op = none ∧ (IsTable name → op = .unlink name) := by
    intro op member
    rcases List.mem_append.mp member with first | rest
    · rw [List.mem_singleton.mp first]
      exact ⟨walName, rfl, tame_other _ (by decide), by decide, rfl, fun table => absurd table (by decide)⟩
    · rcases loads.steps op rest with ⟨name, rfl, tame, different⟩ | ⟨name, rfl, log⟩
      · exact ⟨name, rfl, tame, different, rfl, fun _ => rfl⟩
      · refine ⟨name, rfl, tame_log name log, ?_, rfl, fun table => absurd table (log_not_table name log)⟩
        rintro rfl
        exact absurd log.1 (by decide)
  refine ⟨fun op member => ?_, fun n high small => ⟨?_, fun op member inside => ?_⟩, by simp [idle],
    fun op member other inside => ?_,
    ordered_apart disk _ directory.manifest (fun op member inside => ?_), fun op member => ?_⟩
  · obtain ⟨_, _, _, _, quiet, _⟩ := touched op member
    exact quiet
  · exact (loads.gone n high small).imp id (List.mem_append_right _)
  · obtain ⟨name, only, _, _, _, unlinks⟩ := touched op member
    rw [only, List.mem_singleton] at inside
    rw [inside]
    exact unlinks (inside ▸ sst_is_table n)
  · obtain ⟨name, only, tame, _⟩ := touched op member
    rw [only, List.mem_singleton] at inside
    rw [inside]
    exact tame
  · obtain ⟨name, only, _, different, _⟩ := touched op member
    rw [only, List.mem_singleton] at inside
    exact different inside.symm
  · obtain ⟨name, only, _⟩ := touched op member
    exact single_splits op name only

theorem idle_work (db : DB) (free : db.hasFlushing = false) (jobs : inFlight db = []) :
    workSeqs db = [] ∧ owed db = [] := by
  simp [workSeqs, flushSeqs, owed, flushOwed, free, jobs]

theorem owed_plain {found : Bytes} (cfg : Config) (db next : DB) (kind : Kind) (ops : List DiskOp)
    (garbage : List Bytes) (plain : kind = .flushed ∨ kind = .idle) (move : Move cfg found db kind next ops garbage)
    (idle : owed db = []) :
    owed next = [] := by
  rcases plain with rfl | rfl <;> cases move <;> exact idle

theorem loaded_section (disk later : Disk Bytes) (loaded : DB) (ops : List DiskOp) (memtable : Memtable)
    (loads : LoadedNames disk loaded ops) (small : loaded.nextSeq < 2 ^ 64) (ordered : OrderedDisk later) :
    SectionInv later { loaded with memtable := memtable } { loaded with memtable := memtable } [] := by
  obtain ⟨free, noFlusher, noMerges⟩ := loads.idle
  have jobs : inFlight { loaded with memtable := memtable } = [] := noMerges
  have noWork := (idle_work { loaded with memtable := memtable } free noMerges).1
  refine section_start later _ ⟨fun name member => ?_, by simp [noWork], ?_⟩ ?_ loads.logs small ordered
  · rw [usedNames, noWork, List.map_nil, List.append_nil] at member
    obtain ⟨table, inside, rfl⟩ := List.mem_map.mp member
    exact loads.names table inside
  · rw [usedNames, noWork, List.map_nil, List.append_nil]
    exact loads.distinct
  · refine work_files_of _ (fun job running => ?_) (fun job running => ?_) (by simp [jobs])
    · rw [show loaded.flusher = some job from running] at noFlusher
      cases noFlusher
    · rw [show loaded.flusher = some job from running] at noFlusher
      cases noFlusher

theorem opens_name_inv (cfg : Config) (disk : Disk Bytes) (s : Sys) (directory : Directory disk)
    (opens : Opens cfg disk s) :
    NameInv s := by
  obtain ⟨listing, lists, done⟩ := opens.opened
  obtain ⟨man, loaded, loadOps, kind, front, returned⟩ := open_returns cfg listing disk s.db s.todo done
  have loads : LoadedNames disk loaded loadOps := by
    rcases returned.loads with ⟨m, rfl, load⟩ | ⟨_, load⟩
    · refine load_manifest_loads listing disk lists directory m loaded loadOps ?_ load
      exact ordered_reads disk (fun file present => directory.valid manifestName file present)
        directory.manifest m returned.reads
    · exact load_directory_loads listing disk lists directory loaded loadOps load
  obtain ⟨free, noFlusher, noMerges⟩ := loads.idle
  have idle : owed s.db = [] := owed_plain cfg _ s.db kind front [] returned.plain returned.move
    (idle_work { loaded with memtable := memOf (replayedWrites disk) } free noMerges).2
  have counter := move_counter cfg _ s.db kind front [] returned.move
  have prelude := load_prelude disk loaded s.db loadOps directory loads idle
  have started := loaded_section disk _ loaded loadOps (memOf (replayedWrites disk)) loads
    (Nat.lt_of_le_of_lt counter opens.limits.1) (throughout_last _ _ _ prelude.manifest)
  have limits := within_limits_listable _ opens.limits
  have flushed := section_move cfg _ _ _ s.db kind [] front [] started returned.move
    (by rcases returned.plain with rfl | rfl <;> decide) limits
  -- What is left of the constructor touches the logs and MANIFEST.
  have wal := drop_flushing_files (disk flushingWalName).isSome
  have dropped := section_more _ _ s.db _ _ flushed
    (fun op member name touched => List.mem_append_left _ (wal op member name touched))
    (ordered_apart _ _ (throughout_last _ _ _ flushed.manifest) (fun op member touched =>
      wal_not_manifest _ (wal op member _ touched) (by decide)))
    (fun op member => .inr (fun name touched => wal_not_manifest name (wal op member name touched)))
  have ordered := throughout_last _ _ _ dropped.manifest
  have whole : SectionInv (applyAll disk ([.create walName] ++ loadOps))
    { loaded with memtable := memOf (replayedWrites disk) } s.db
      (front ++ dropFlushing (disk flushingWalName).isSome ++ if man.isNone then writeManifestLocked s.db else []) := by
    refine section_more _ _ s.db _ _ dropped ?_ ?_ ?_
    all_goals split
    · exact manifest_others _
    · simp
    · exact ordered_commit _ s.db ordered dropped.named limits
    · exact throughout_nil _ _ ordered
    · intro op member
      refine .inl (fun name touched => ?_)
      rcases manifest_files _ op member name touched with rfl | rfl <;> decide
    · simp
  have same := opens.disk
  refine section_name_inv s { loaded with memtable := memOf (replayedWrites disk) } ([.create walName] ++ loadOps)
    (front ++ dropFlushing (disk flushingWalName).isSome ++ if man.isNone then writeManifestLocked s.db else [])
    returned.ops ?_ ?_
    opens.limits ?_ ?_ ?_
  · rw [same]
    exact ⟨prelude.quiet, prelude.beyond, prelude.owed, prelude.touched, prelude.manifest, prelude.splits⟩
  · rw [same]
    exact whole
  · rw [same]
    exact directory.valid
  · rw [same]
    exact directory.tame
  · simp [opens.garbage, opens.doomed]

theorem crash_directory (s : Sys) (image : Disk Bytes) (inv : NameInv s) (cut : CrashImage s.disk image) :
    Directory image := by
  refine ⟨fun name file present => Nat.le_of_eq (crash_valid s.disk image cut name file present),
    fun name present => ?_, ?_⟩
  · cases before : s.disk name with
    | none =>
        rw [crash_none s.disk image cut name before] at present
        cases present
    | some file => exact inv.tame name (by rw [before]; rfl)
  · intro file kept m present synced reads
    cases before : s.disk manifestName with
    | none =>
        rw [crash_none s.disk image cut manifestName before] at present
        cases present
    | some old =>
        obtain ⟨cutAt, low, high, eq⟩ := crash_some s.disk image cut manifestName old before
        rw [eq] at present
        cases present
        refine inv.manifest [] List.nil_prefix old cutAt m before low ?_
        have all : (old.data.take cutAt).length ≤ kept := Nat.le_trans (List.length_take_le _ _) synced
        rw [List.take_of_length_le all] at reads
        exact reads

theorem step_name_inv (s next : Sys) (event : Event) (inv : NameInv s) (stepped : s.Step event next) :
    NameInv next := by
  cases stepped with
  | lock label effect free locked finds done => exact lock_name_inv s label effect inv free locked done
  | work label effect off done =>
      obtain ⟨performed, limits⟩ := Option.filter_eq_some_iff.mp done
      have move : Move s.cfg [] s.db .worked effect.db effect.ops effect.garbage :=
        worked_move s.cfg s.db label effect off performed
      exact work_name_inv s effect.db effect.ops effect.garbage inv move (by simpa using limits)
  | io op rest todo => exact io_name_inv s op rest inv todo
  | collect name marked => exact collect_name_inv s name inv marked
  | reopen cfg next closed opens =>
      exact opens_name_inv cfg s.disk next ⟨inv.valid, inv.tame, inv.manifest [] List.nil_prefix⟩ opens
  | crash cfg image next cut opens => exact opens_name_inv cfg image next (crash_directory s image inv cut) opens

theorem run_name_inv (s last : Sys) (events : List Event) (inv : NameInv s) (run : s.Run events last) :
    NameInv last := by
  induction events generalizing s with
  | nil =>
      cases run
      exact inv
  | cons event rest ih =>
      obtain ⟨next, stepped, later⟩ := run
      exact ih next (step_name_inv s next event inv stepped) later

theorem performed_renames (s next : Sys) (event : Event) (inv : NameInv s) (stepped : s.Step event next) :
    Reserves s.disk (s.performed event) := by
  have single : ∀ op : DiskOp, (∀ name, installed op = some name → s.disk name = none) → Reserves s.disk [op] := by
    intro op absent done other rest name split renamed
    cases done with
    | nil =>
        cases split
        exact (gone_nil s.disk name).mpr (absent name renamed)
    | cons first done => simp at split
  cases stepped with
  | lock label effect free locked finds done => exact fun done op rest name split => by simp [Sys.performed] at split
  | work label effect off done =>
      obtain ⟨performed, _⟩ := Option.filter_eq_some_iff.mp done
      have move : Move s.cfg [] s.db .worked effect.db effect.ops effect.garbage :=
        worked_move s.cfg s.db label effect off performed
      have objects := inv_objects s inv
      have writes := worked_writes s.cfg s.db effect.db effect.ops effect.garbage inv.work objects move
      have owes := worked_owed s.cfg s.db effect.db effect.ops effect.garbage inv.work objects move
      have distinct := worked_distinct s effect.db effect.ops effect.garbage inv move
      rw [Sys.performed, done]
      refine section_reserves s.disk [] effect.ops _ [] (by simp) writes (List.nodup_append.mp distinct).1
        (fun name member => ?_)
      exact (gone_nil s.disk name).mpr (inv.owed name (owes.subset (List.mem_append_left _ member))).1
  | io op rest todo =>
      rw [Sys.performed, todo]
      refine single op (fun name renamed => ?_)
      exact (gone_nil s.disk name).mp (inv.mine [] op rest name todo renamed)
  | collect name marked => exact single _ (fun name renamed => by cases renamed)
  | reopen cfg next closed opens => exact fun done op rest name split => by simp [Sys.performed] at split
  | crash cfg image next cut opens => exact fun done op rest name split => by simp [Sys.performed] at split

theorem table_names_unused (cfg : Config) (disk : Disk Bytes) (start last : Sys) (events : List Event)
    (directory : Directory disk) (opens : Opens cfg disk start) (run : start.Run events last) :
    (∀ table ∈ last.db.sstables, tableSeq table < last.db.nextSeq) ∧ (∀ n ∈ workSeqs last.db, n < last.db.nextSeq) ∧
      (usedNames last.db).Nodup ∧
      (∀ event next, last.Step event next → ∀ done source name rest,
        last.performed event = done ++ .rename source name :: rest → IsTable name →
        applyAll last.disk done name = none) ∧
      ∀ n, n < 2 ^ 64 → parseSeq (sstName n) = .ok (some n) ∧ seqOfPath (sstName n) = n := by
  have inv := run_name_inv start last events (opens_name_inv cfg disk start directory opens) run
  refine ⟨named_table_seq last.db inv.named, inv.named.work, inv.named.distinct, ?_, fun n small =>
    ⟨parse_seq_sst_name n small, seq_of_sst_name n small⟩⟩
  intro event next stepped done source name rest split table
  refine gone_applied last.disk done name (performed_renames last next event inv stepped done _ rest name split ?_)
  exact if_pos table

-- A directory without a MANIFEST: table 3 and a sealed log.
def bareDisk : Disk Bytes := fun name =>
  if name = sstName 3 then
    some (durable (((buildTable smallBloom [⟨Op.put, [0x61], [0x62], false, {}⟩]).toOption).getD []))
  else if name = flushingWalName then some
    (durable (((walAppend ⟨Op.put, [0x61], [0x63], false, {}⟩).toOption).getD []))
  else none

def bareStart : Option Sys :=
  (((openDB (smallStore 1000 1000) [sstName 3, flushingWalName] bareDisk).toOption).filter (fun opened =>
    decide (WithinLimits opened.1))).map (fun opened => ⟨smallStore 1000 1000, opened.1, bareDisk, opened.2, [], []⟩)

theorem bare_lists : Lists bareDisk [sstName 3, flushingWalName] := by
  refine ⟨by decide, fun name => ?_⟩
  simp only [bareDisk, List.mem_cons, List.not_mem_nil, or_false]
  by_cases first : name = sstName 3
  · simp [first]
  · by_cases second : name = flushingWalName
    · rw [if_neg first, if_pos second]
      simp [second]
    · simp [first, second]

theorem bare_directory : Directory bareDisk := by
  refine ⟨fun name file present => ?_, fun name present => ?_, fun file kept m present => ?_⟩
  · simp only [bareDisk] at present
    split at present
    · cases present
      exact Nat.le_refl _
    · split at present
      · cases present
        exact Nat.le_refl _
      · cases present
  · have known := (bare_lists.2 name).mpr present
    simp only [List.mem_cons, List.not_mem_nil, or_false] at known
    rcases known with rfl | rfl
    · exact tame_table_file 3 _ (by decide) (by simp [tableFiles])
    · exact tame_other _ (by decide)
  · have absent : bareDisk manifestName = none := rfl
    rw [absent] at present
    cases present

-- The flush of the recovered log takes the name of table 4.
theorem fourth_table_unused : ∃ start ∈ bareStart, ∃ last ∈ start.execAll (List.replicate 5 .io),
    last.performed .io = [.rename (tmpName (sstName 4)) (sstName 4)] ∧ last.disk (sstName 4) = none := by
  have runs : (bareStart.bind (fun s => (s.execAll (List.replicate 5 .io)).bind (fun last =>
      (last.exec .io).map (fun _ => last.performed .io)))) = some [.rename (tmpName (sstName 4)) (sstName 4)] := by
    decide +kernel
  obtain ⟨start, starts, rest⟩ := Option.bind_eq_some_iff.mp runs
  obtain ⟨last, run, rest⟩ := Option.bind_eq_some_iff.mp rest
  obtain ⟨next, stepped, performed⟩ := Option.map_eq_some_iff.mp rest
  obtain ⟨⟨db, todo⟩, opened, rfl⟩ := Option.map_eq_some_iff.mp starts
  obtain ⟨returned, limits⟩ := Option.filter_eq_some_iff.mp opened
  refine ⟨_, starts, last, run, performed, ?_⟩
  have opens : Opens (smallStore 1000 1000) bareDisk ⟨smallStore 1000 1000, db, bareDisk, todo, [], []⟩ :=
    ⟨⟨_, bare_lists, to_option_ok _ _ returned⟩, of_decide_eq_true limits, rfl, rfl, rfl, rfl⟩
  have unused := (table_names_unused (smallStore 1000 1000) bareDisk _ last (List.replicate 5 .io) bare_directory opens
    (exec_all_run _ last _ run)).2.2.2.1 .io next (exec_step last next .io stepped) []
    (tmpName (sstName 4)) (sstName 4) []
  exact unused performed (sst_is_table 4)

end Tombstash
