import Tombstash.DiskCommits

set_option autoImplicit false

namespace Tombstash

variable {serial : Prop}

-- The tables of a MANIFEST as the constructor opens them.
def tablesFrom : Nat → List ManifestEntry → List SSTable → List Table
  | id, entry :: entries, sst :: ssts => ⟨id, entry.name, entry.level, sst⟩ :: tablesFrom (id + 1) entries ssts
  | _, _, _ => []

theorem tables_from_fields (id : Nat) (entries : List ManifestEntry) (ssts : List SSTable)
    (same : entries.length = ssts.length) :
    (tablesFrom id entries ssts).map Table.sst = ssts ∧
      (tablesFrom id entries ssts).map (fun table => (⟨table.name, table.level⟩ : ManifestEntry)) = entries ∧
      tableIds (tablesFrom id entries ssts) = List.range' id entries.length := by
  induction entries generalizing id ssts with
  | nil =>
      cases ssts with
      | nil => exact ⟨rfl, rfl, rfl⟩
      | cons sst ssts => simp at same
  | cons entry entries ih =>
      cases ssts with
      | nil => simp at same
      | cons sst ssts =>
          obtain ⟨tables, names, ids⟩ := ih (id + 1) ssts (by simpa using same)
          refine ⟨?_, ?_, ?_⟩
          · rw [tablesFrom, List.map_cons, tables]
          · rw [tablesFrom, List.map_cons, names]
          · rw [tablesFrom, tableIds, List.map_cons, ← tableIds, ids, List.length_cons, List.range'_succ]

theorem length_tables_from (id : Nat) (entries : List ManifestEntry) (ssts : List SSTable)
    (same : entries.length = ssts.length) :
    (tablesFrom id entries ssts).length = entries.length := by
  have count := congrArg List.length (tables_from_fields id entries ssts same).2.1
  rwa [List.length_map] at count

theorem tables_from_map {A : Type} (f : Table → A)
    (blind : ∀ (table : Table) (id : Nat), f { table with id := id } = f table) (id : Nat) (tables : List Table) :
    (tablesFrom id (tables.map (fun table => ⟨table.name, table.level⟩)) (tables.map Table.sst)).map f =
    tables.map f := by
  induction tables generalizing id with
  | nil => rfl
  | cons table rest ih =>
      simp only [List.map_cons, tablesFrom]
      rw [ih (id + 1), ← blind table id]

theorem open_tables_stored (disk : Disk Bytes) (id : Nat) (entries : List ManifestEntry) (ssts : List SSTable)
    (stored : List.Forall₂ (fun entry sst => Stored disk entry.name sst) entries ssts) :
    openTables disk id entries = .ok (tablesFrom id entries ssts) := by
  induction stored generalizing id with
  | nil => rfl
  | cons here _ ih =>
      obtain ⟨bytes, present, opened, _⟩ := here
      simp only [openTables, openFile, fileData, present, Option.map_some, durable, opened, ih (id + 1),
        bind, Except.bind, pure, Except.pure, tablesFrom]

-- The state after the load of a MANIFEST and the replay of some writes.
def loadedDb (m : ManifestData) (ssts : List SSTable) (file : Bytes) (replayed : List Write) : DB :=
  { memtable := memOf replayed
    sstables := tablesFrom 0 m.tables ssts
    logs := [ValueLog.opened (vlogName m.currentGen) m.currentGen file]
    vlogs := [(m.currentGen, 0)]
    currentGen := m.currentGen
    nextSeq := m.nextSeq
    nextId := m.tables.length }

section Loaded

variable (disk : Disk Bytes) (m : ManifestData) (text : Bytes) (ssts : List SSTable)
variable (committed : Committed serial disk m text ssts)
variable (file : File) (present : disk (vlogName m.currentGen) = some file) (replayed : List Write)

include committed in
theorem loaded_fields :
    (tablesFrom 0 m.tables ssts).map Table.sst = ssts ∧
      (tablesFrom 0 m.tables ssts).map (fun table => (⟨table.name, table.level⟩ : ManifestEntry)) = m.tables ∧
      tableIds (tablesFrom 0 m.tables ssts) = List.range' 0 m.tables.length :=
  tables_from_fields 0 m.tables ssts committed.prepared.tables.length_eq

include committed in
theorem loaded_entry (table : Table) (member : table ∈ tablesFrom 0 m.tables ssts) :
    ⟨table.name, table.level⟩ ∈ m.tables ∧ table.sst ∈ ssts := by
  obtain ⟨tables, entries, _⟩ := loaded_fields disk m text ssts committed
  refine ⟨?_, ?_⟩
  · rw [← entries]
    exact List.mem_map_of_mem member
  · rw [← tables]
    exact List.mem_map_of_mem member

include committed present in
theorem loaded_log : text <+: file.data.take file.synced ∧ file.synced ≤ file.data.length ∧ file.data.length < offMax ∧
    (serial → ∀ sst ∈ ssts, ∀ rec ∈ sst.records, Inside m.currentGen text.length rec) := by
  obtain ⟨other, there, rest⟩ := committed.prepared.vlog
  rw [present] at there
  cases there
  exact rest

include committed present in
theorem loaded_sound :
    Sound serial (loadedDb m ssts file.data replayed) 0
    (ValueLog.opened (vlogName m.currentGen) m.currentGen file.data) := by
  obtain ⟨begins, inside, small, ranges⟩ := loaded_log disk m text ssts committed file present
  obtain ⟨_, _, ids⟩ := loaded_fields disk m text ssts committed
  obtain ⟨_, aligned⟩ := open_log_spec (vlogName m.currentGen) m.currentGen file.data _
    (by rw [openLog, if_neg (Nat.not_le_of_lt small)])
  have formed : ∀ table ∈ tablesFrom 0 m.tables ssts, table.sst.WellFormed := by
    intro table member
    obtain ⟨_, _, _, _, _, formed⟩ := forall_two_right _ _ _ committed.prepared.tables _
      (loaded_entry disk m text ssts committed table member).2
    exact formed
  exact { vlogs := rfl, object := rfl, gen := rfl, name := rfl, aligned := aligned
          small := fun log member => by rw [List.mem_singleton.mp member]; exact small
          formed := formed
          ranges := fun one table member rec row separated => by
            obtain ⟨gen, bound⟩ :=
              ranges one _ (loaded_entry disk m text ssts committed table member).2 rec row separated
            exact ⟨gen, Nat.le_trans bound (begins.trans (List.take_prefix _ _)).length_le⟩
          distinct := by
            rw [show tableIds (loadedDb m ssts file.data replayed).sstables = _ from ids]
            exact List.nodup_range'
          older := fun table member => by
            have there : table.id ∈ tableIds (tablesFrom 0 m.tables ssts) := List.mem_map_of_mem member
            rw [ids] at there
            have bound := (List.mem_range'_1.mp there).2
            rwa [Nat.zero_add] at bound
          idle := fun _ => rfl
          flusher := fun job running => by cases running
          single := fun _ => by simp [inFlight, loadedDb]
          flag := fun _ => rfl
          merges := by simp [inFlight, loadedDb] }

include committed in
theorem loaded_numbered : Numbered (loadedDb m ssts file.data replayed) := by
  obtain ⟨_, entries, _⟩ := loaded_fields disk m text ssts committed
  have seqs : ∀ table ∈ tablesFrom 0 m.tables ssts, table.name = sstName (tableSeq table) ∧
    tableSeq table < m.nextSeq := by
    intro table member
    obtain ⟨seq, bound, name⟩ := committed.prepared.named _ (loaded_entry disk m text ssts committed table member).1
    have same : table.name = sstName seq := name
    have number : tableSeq table = seq := by
      rw [tableSeq, same]
      exact seq_of_sst_name seq (Nat.lt_trans bound committed.prepared.fits.nextSeq)
    rw [number]
    exact ⟨same, bound⟩
  have reserved : reservedSeqs (loadedDb m ssts file.data replayed) = (tablesFrom 0 m.tables ssts).map tableSeq := by
    simp [reservedSeqs, flushSeqs, inFlight, loadedDb]
  have names : (tablesFrom 0 m.tables ssts).map Table.name = m.tables.map ManifestEntry.name := by
    have mapped := congrArg (List.map ManifestEntry.name) entries
    rwa [List.map_map] at mapped
  refine ⟨fun table member => (seqs table member).1, fun n member => ?_, ?_⟩
  · rw [reserved] at member
    obtain ⟨table, inside, rfl⟩ := List.mem_map.mp member
    exact (seqs table inside).2
  · rw [reserved]
    have distinct := committed.prepared.distinct
    rw [← names] at distinct
    refine List.Nodup.of_map sstName ?_
    rw [List.map_map]
    have same : (tablesFrom 0 m.tables ssts).map (sstName ∘ tableSeq) = (tablesFrom 0 m.tables ssts).map Table.name :=
      List.map_inj_left.mpr (fun table member => (seqs table member).1.symm)
    rw [same]
    exact distinct

include committed in
theorem loaded_bounds : LevelBounds (loadedDb m ssts file.data replayed) := by
  refine ⟨fun table member => ?_, by simp [inFlight, loadedDb]⟩
  have level := committed.prepared.fits.levels _ (loaded_entry disk m text ssts committed table member).1
  simp only at level
  unfold intMax
  omega

include committed present in
theorem loaded_backed :
    Backed serial (loadedDb m ssts file.data replayed)
    (ValueLog.opened (vlogName m.currentGen) m.currentGen file.data) disk := by
  obtain ⟨tables, entries, _⟩ := loaded_fields disk m text ssts committed
  obtain ⟨begins, _⟩ := loaded_log disk m text ssts committed file present
  refine ⟨⟨m.nextSeq, text, Nat.le_refl _, begins.trans (List.take_prefix _ _), ?_⟩, ⟨file.synced, present⟩,
    by simp [loadedDb], by simp [inFlight, loadedDb]⟩
  have same : manifestAt m.nextSeq (loadedDb m ssts file.data replayed) = m := by
    simp only [manifestAt, manifestOf, loadedDb, entries]
  rw [same]
  change Committed serial disk m text ((tablesFrom 0 m.tables ssts).map Table.sst)
  rw [tables]
  exact committed

end Loaded

-- The names that the store gives to its files.
def StoreName (name : Bytes) : Prop :=
  name ∈ otherFiles ∨ (∃ seq, seq < 2 ^ 64 ∧ name ∈ tableFiles seq) ∨ ∃ gen, name = vlogName gen

section Orphans

variable (live : List Bytes) (gen : UInt32)

theorem orphan_other (name : Bytes) (other : name ∈ otherFiles) :
    isOrphan live gen name = .ok (decide (name = manifestTmpName)) := by
  simp only [otherFiles, walFiles, List.cons_append, List.nil_append, List.mem_cons, List.not_mem_nil,
    or_false] at other
  rcases other with rfl | rfl | rfl | rfl <;> rfl

theorem orphan_table (seq : Nat) (fits : seq < 2 ^ 64) :
    isOrphan live gen (sstName seq) = .ok (decide (sstName seq ∉ live)) := by
  simp [isOrphan, sst_not_tmp, parse_seq_sst_name seq fits, bind, Except.bind, pure, Except.pure]

theorem orphan_tmp (name : Bytes) : isOrphan live gen (tmpName name) = .ok true := by
  simp [isOrphan, is_tmp_name]

theorem orphan_vlog (other : UInt32) : isOrphan live gen (vlogName other) = .ok (decide (other ≠ gen)) := by
  have noTable : parseSeq (vlogName other) = .ok none := by
    have front : (vlogName other).take sstFront.length ≠ sstFront := by simp [vlogName, vlogFront, sstFront]
    rw [parseSeq, nameDigits, if_pos front]
    split <;> simp_all
  simp [isOrphan, vlog_not_tmp, noTable, parse_vlog_gen_vlog_name, bind, Except.bind, pure, Except.pure]

theorem orphan_decided (name : Bytes) (store : StoreName name) :
    ∃ orphan, isOrphan live gen name = .ok orphan ∧
      (orphan = false → name ∈ walFiles ∨ name = manifestName ∨ name ∈ live ∨ name = vlogName gen) := by
  rcases store with other | ⟨seq, fits, files⟩ | ⟨found, rfl⟩
  · refine ⟨_, orphan_other live gen name other, fun kept => ?_⟩
    simp only [decide_eq_false_iff_not] at kept
    simp only [otherFiles, List.mem_append, List.mem_cons, List.not_mem_nil, or_false] at other
    rcases other with wal | manifest | tmp
    · exact .inl wal
    · exact .inr (.inl manifest)
    · exact absurd tmp kept
  · simp only [tableFiles, List.mem_cons, List.not_mem_nil, or_false] at files
    rcases files with rfl | rfl
    · refine ⟨_, orphan_table live gen seq fits, fun kept => ?_⟩
      exact .inr (.inr (.inl (by simpa using kept)))
    · exact ⟨true, orphan_tmp live gen _, fun kept => by cases kept⟩
  · refine ⟨_, orphan_vlog live gen found, fun kept => ?_⟩
    have same : found = gen := by simpa using kept
    exact .inr (.inr (.inr (by rw [same])))

theorem cleanup_spec (listing : List Bytes) (ops : List DiskOp) (done : cleanupOrphans live gen listing = .ok ops)
    (op : DiskOp) :
    op ∈ ops ↔ ∃ name ∈ listing, op = .unlink name ∧ isOrphan live gen name = .ok true := by
  induction listing generalizing ops with
  | nil =>
      cases done
      simp
  | cons name rest ih =>
      rw [cleanupOrphans] at done
      obtain ⟨removed, orphan, done⟩ := bind_returns _ _ _ done
      obtain ⟨more, others, done⟩ := bind_returns _ _ _ done
      cases done
      have later := ih more others
      cases removed with
      | true => simp [later, orphan]
      | false => simp [later, orphan]

-- cleanup_orphans can tell what the file is: where its name has a number, the
-- number fits. That depends on the name alone.
def Classified (name : Bytes) : Prop := ∀ live gen, ∃ orphan, isOrphan live gen name = .ok orphan

theorem orphan_classified (name : Bytes) (orphan : Bool) (decided : isOrphan live gen name = .ok orphan) :
    Classified name := by
  intro live' gen'
  unfold isOrphan at decided ⊢
  split
  · exact ⟨true, rfl⟩
  · next notTmp =>
      rw [if_neg notTmp] at decided
      cases seq : parseSeq name with
      | error e => simp [seq, bind, Except.bind] at decided
      | ok number =>
          cases number with
          | some _ => exact ⟨_, rfl⟩
          | none =>
              cases log : parseVlogGen name with
              | error e => simp [seq, log, bind, Except.bind] at decided
              | ok found => cases found <;> exact ⟨_, rfl⟩

theorem store_name_classified (name : Bytes) (store : StoreName name) : Classified name := fun live gen =>
  (orphan_decided live gen name store).imp (fun _ both => both.1)

theorem cleanup_total (listing : List Bytes) (known : ∀ name ∈ listing, Classified name) :
    ∃ ops, cleanupOrphans live gen listing = .ok ops := by
  induction listing with
  | nil => exact ⟨[], rfl⟩
  | cons name rest ih =>
      obtain ⟨orphan, decided⟩ := known name (by simp) live gen
      obtain ⟨ops, others⟩ := ih (fun other member => known other (by simp [member]))
      simp [cleanupOrphans, decided, others, bind, Except.bind, pure, Except.pure]

theorem cleanup_classified (listing : List Bytes) (ops : List DiskOp)
    (done : cleanupOrphans live gen listing = .ok ops) :
    ∀ name ∈ listing, Classified name := by
  induction listing generalizing ops with
  | nil => simp
  | cons name rest ih =>
      rw [cleanupOrphans] at done
      obtain ⟨orphan, decided, remaining⟩ := bind_returns _ _ _ done
      obtain ⟨more, others, _⟩ := bind_returns _ _ _ remaining
      exact List.forall_mem_cons.mpr ⟨orphan_classified live gen name orphan decided, ih more others⟩

end Orphans

theorem orphans_apart (disk : Disk Bytes) (m : ManifestData) (text : Bytes) (ssts : List SSTable)
    (prepared : Prepared serial disk m text ssts)
    (listing : List Bytes) (ops : List DiskOp)
    (done : cleanupOrphans (m.tables.map ManifestEntry.name) m.currentGen listing = .ok ops) :
    Apart (manifestName :: neededFiles m) ops ∧ Apart walFiles ops := by
  have removed : ∀ op ∈ ops, ∀ name ∈ op.touches, isOrphan (m.tables.map ManifestEntry.name) m.currentGen
    name = .ok true := by
    intro op member name touched
    obtain ⟨other, _, rfl, orphan⟩ := (cleanup_spec _ _ listing ops done op).mp member
    rw [List.mem_singleton.mp touched]
    exact orphan
  refine ⟨fun op member name touched needed => ?_, fun op member name touched wal => ?_⟩
  · have orphan := removed op member name touched
    rcases List.mem_cons.mp needed with rfl | inside
    · rw [orphan_other _ _ _ (by decide)] at orphan
      exact absurd (Except.ok.inj orphan) (by decide)
    rcases List.mem_cons.mp inside with rfl | inTables
    · rw [orphan_vlog] at orphan
      simp at orphan
    · obtain ⟨entry, there, rfl⟩ := List.mem_map.mp inTables
      obtain ⟨seq, bound, same⟩ := prepared.named entry there
      rw [same, orphan_table _ _ seq (Nat.lt_trans bound prepared.fits.nextSeq), ← same] at orphan
      have gone := of_decide_eq_true (Except.ok.inj orphan)
      exact gone inTables
  · have orphan := removed op member name touched
    rw [orphan_other _ _ _ (List.mem_append_left _ wal)] at orphan
    have same := of_decide_eq_true (Except.ok.inj orphan)
    rw [same] at wal
    exact absurd wal (by decide)

end Tombstash
