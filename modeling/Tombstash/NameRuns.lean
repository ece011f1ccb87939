import Tombstash.FileNames
import Tombstash.SessionRuns

set_option autoImplicit false

namespace Tombstash

-- The name of a table with a number below a bound, short enough for a MANIFEST.
def NumberedBelow (bound : Nat) (name : Bytes) : Prop :=
  name.length < 2 ^ 32 ∧ ∃ seq, parseSeq name = .ok (some seq) ∧ seq < bound

-- The numbers and names in use are below next_seq_ and distinct. A table loaded
-- from a directory may have a name that sst_name does not give.
structure Named (db : DB) : Prop where
  names : ∀ name ∈ usedNames db, NumberedBelow db.nextSeq name
  work : ∀ n ∈ workSeqs db, n < db.nextSeq
  distinct : (usedNames db).Nodup

theorem numbered_below_mono (low high : Nat) (name : Bytes) (below : NumberedBelow low name) (le : low ≤ high) :
    NumberedBelow high name := by
  obtain ⟨short, seq, parsed, less⟩ := below
  exact ⟨short, seq, parsed, Nat.lt_of_lt_of_le less le⟩

theorem sst_name_below (n bound : Nat) (less : n < bound) (small : bound ≤ 2 ^ 64) : NumberedBelow bound (sstName n) :=
  ⟨Nat.lt_of_le_of_lt (length_sst_name n) (by decide), n, parse_seq_sst_name n (Nat.lt_of_lt_of_le less small), less⟩

theorem below_not_sst (bound n : Nat) (name : Bytes) (below : NumberedBelow bound name) (high : bound ≤ n)
    (small : n < 2 ^ 64) :
    sstName n ≠ name := by
  rintro rfl
  obtain ⟨_, seq, parsed, less⟩ := below
  rw [parse_seq_sst_name n small] at parsed
  cases parsed
  omega

theorem below_is_table (bound : Nat) (name : Bytes) (below : NumberedBelow bound name) : IsTable name := by
  obtain ⟨_, seq, parsed, _⟩ := below
  exact parse_seq_kind name seq parsed

theorem named_table (db : DB) (named : Named db) (table : Table) (member : table ∈ db.sstables) :
    NumberedBelow db.nextSeq table.name :=
  named.names _ (List.mem_append_left _ (List.mem_map_of_mem member))

theorem named_table_seq (db : DB) (named : Named db) (table : Table) (member : table ∈ db.sstables) :
    tableSeq table < db.nextSeq := by
  obtain ⟨_, seq, parsed, less⟩ := named_table db named table member
  rw [tableSeq, seqOfPath, parsed]
  exact less

theorem renames_named (db next : DB) (named : Named db) (renames : Renames db next) (bound : next.nextSeq < 2 ^ 64) :
    Named next := by
  obtain ⟨count, taken, counter⟩ := renames.taken
  have inside : ∀ n ∈ List.range' db.nextSeq count, db.nextSeq ≤ n ∧ n < next.nextSeq := by
    intro n member
    have range := List.mem_range'_1.mp member
    omega
  refine ⟨fun name member => ?_, fun n member => ?_, ?_⟩
  · rcases List.mem_append.mp (taken.subset member) with new | old
    · obtain ⟨n, range, rfl⟩ := List.mem_map.mp new
      exact sst_name_below n next.nextSeq (inside n range).2 (Nat.le_of_lt bound)
    · exact numbered_below_mono db.nextSeq next.nextSeq name (named.names name old) (by omega)
  · rcases renames.work n member with old | new
    · have less := named.work n old
      omega
    · exact new.2
  · obtain ⟨middle, perm, sub⟩ := taken
    have small : ∀ n ∈ List.range' db.nextSeq count, n < 2 ^ 64 := fun n range => Nat.lt_trans (inside n range).2 bound
    have whole : ((List.range' db.nextSeq count).map sstName ++ usedNames db).Nodup := by
      refine List.nodup_append.mpr ⟨?_, named.distinct, ?_⟩
      · refine List.Nodup.map_on (fun left inLeft right inRight same => ?_) List.nodup_range'
        exact sst_name_injective left right (small left inLeft) (small right inRight) same
      · intro name new other old
        obtain ⟨n, range, rfl⟩ := List.mem_map.mp new
        exact below_not_sst db.nextSeq n other (named.names other old) (inside n range).1 (small n range)
    exact perm.nodup_iff.mp (whole.sublist sub)

-- What a MANIFEST of the store says.
structure Ordered (m : ManifestData) : Prop where
  names : ∀ entry ∈ m.tables, NumberedBelow m.nextSeq entry.name
  distinct : (m.tables.map ManifestEntry.name).Nodup

-- Whatever a crash leaves of MANIFEST, if it can be read, is ordered.
def OrderedDisk (disk : Disk Bytes) : Prop :=
  ∀ file kept m, disk manifestName = some file → file.synced ≤ kept →
    manifestRead (some (file.data.take kept)) = .ok (some m) →
    Ordered m

theorem ordered_reads (disk : Disk Bytes)
    (valid : ∀ file, disk manifestName = some file → file.synced ≤ file.data.length) (ordered : OrderedDisk disk)
    (m : ManifestData) (reads : manifestRead (fileData disk manifestName) = .ok (some m)) :
    Ordered m := by
  rw [fileData] at reads
  cases present : disk manifestName with
  | none => simp [present, manifestRead] at reads
  | some file =>
      rw [present] at reads
      refine ordered file file.data.length m present (valid file present) ?_
      rw [List.take_length]
      exact reads

theorem manifest_named (db : DB) (named : Named db) : Ordered (manifestOf db) := by
  refine ⟨fun entry member => ?_, ?_⟩
  · obtain ⟨table, inside, rfl⟩ := List.mem_map.mp member
    exact named_table db named table inside
  · rw [manifestOf, List.map_map]
    exact (List.nodup_append.mp named.distinct).1

theorem ordered_stored (m : ManifestData) (ordered : Ordered m) : Ordered m.stored := by
  refine ⟨fun entry member => ?_, ?_⟩
  · obtain ⟨original, inside, same⟩ := List.mem_map.mp member
    rw [← show original.name = entry.name by rw [← same]]
    exact ordered.names original inside
  · have same : m.stored.tables.map ManifestEntry.name = m.tables.map ManifestEntry.name := by
      simp [ManifestData.stored, Function.comp_def]
    rw [same]
    exact ordered.distinct

-- The two files of manifest_write.
def manifestFiles : List Bytes := [manifestName, manifestTmpName]

theorem ordered_apart (disk : Disk Bytes) (ops : List DiskOp) (ordered : OrderedDisk disk)
    (apart : ∀ op ∈ ops, manifestName ∉ op.touches) : Throughout OrderedDisk disk ops := by
  refine throughout_kept OrderedDisk disk ops ordered (fun op member d holds => ?_)
  intro file kept m present
  rw [apply_frame d op manifestName (apart op member)] at present
  exact holds file kept m present

theorem ordered_commit (disk : Disk Bytes) (db : DB) (ordered : OrderedDisk disk) (named : Named db)
    (limits : Listable db) :
    Throughout OrderedDisk disk (writeManifestLocked db) := by
  have different : manifestName ≠ manifestTmpName := by decide
  have bytes :
    ∀ d : Disk Bytes, d manifestName = some ⟨manifestBytes (manifestOf db), (manifestBytes (manifestOf db)).length⟩ →
      OrderedDisk d := by
    intro d written file kept m present synced reads
    rw [written] at present
    cases present
    rw [List.take_of_length_le synced, manifest_read_stored _ limits.1 (by simpa [manifestOf] using limits.2)] at reads
    · cases reads
      exact ordered_stored _ (manifest_named db named)
    · exact fun entry member => ((manifest_named db named).names entry member).1
  have first : Throughout OrderedDisk disk
      [.truncate manifestTmpName, .append manifestTmpName (manifestBytes (manifestOf db)), .fsync manifestTmpName] := by
    refine ordered_apart disk _ ordered (fun op member => ?_)
    simp only [List.mem_cons, List.not_mem_nil, or_false] at member
    rcases member with rfl | rfl | rfl <;> simp [FsOp.touches, different]
  have split :
    writeManifestLocked db = [.truncate manifestTmpName, .append manifestTmpName (manifestBytes (manifestOf db)),
      .fsync manifestTmpName] ++ [.rename manifestTmpName manifestName, .fsyncDir] := rfl
  rw [split]
  refine (throughout_append _ _ _ _).mpr ⟨first, (throughout_cons _ _ _ _).mpr ⟨throughout_last _ _ _ first, ?_⟩⟩
  have renamed := bytes _ (show applyAll disk ([.truncate manifestTmpName, .append manifestTmpName
      (manifestBytes (manifestOf db)), .fsync manifestTmpName, .rename manifestTmpName manifestName])
      manifestName = _ by
    simp [applyAll, FsOp.apply, Disk.set, different])
  exact (throughout_cons _ _ _ _).mpr ⟨renamed, throughout_nil _ _ renamed⟩

theorem work_not_manifest (seqs : List Nat) (ops : List DiskOp) (writes : WritesTables [] seqs ops) :
    ∀ op ∈ ops, ∀ name ∈ op.touches, name ∉ manifestFiles := by
  intro op member name touched inside
  have first : ∀ other ∈ manifestFiles, other[0]? = some 0x4d := by decide
  rcases writes.touches op member name touched with table | log | other
  · obtain ⟨seq, _, file⟩ := List.mem_flatMap.mp table
    exact absurd ((first name inside).symm.trans (table_file_first seq name file)) (by decide)
  · exact absurd ((first name inside).symm.trans log.1) (by decide)
  · cases other

theorem marked_not_manifest (name : Bytes) (marked : IsTable name ∨ LogName name) : name ∉ manifestFiles := by
  intro inside
  have first : ∀ other ∈ manifestFiles, other[0]? = some 0x4d := by decide
  rcases marked with table | log
  · exact absurd ((first name inside).symm.trans (table_first name table)) (by decide)
  · exact absurd ((first name inside).symm.trans log.1) (by decide)

theorem wal_not_manifest (name : Bytes) (wal : name ∈ walFiles) : name ∉ manifestFiles := by
  have apart : ∀ other ∈ walFiles, other ∉ manifestFiles := by decide
  exact apart name wal

-- A step leaves MANIFEST and its temporary file alone or touches nothing else.
def Splits (op : DiskOp) :
    Prop := (∀ name ∈ op.touches, name ∈ manifestFiles) ∨ ∀ name ∈ op.touches, name ∉ manifestFiles

theorem section_splits (next : DB) (seqs : List Nat) (ops : List DiskOp) (shape : SectionOps next seqs ops) :
    ∀ op ∈ ops, Splits op := by
  obtain ⟨front, commit, back, rfl, writes, commits, wal⟩ := shape
  intro op member
  rcases List.mem_append.mp member with inBoth | inBack
  · rcases List.mem_append.mp inBoth with inFront | inCommit
    · exact .inr (work_not_manifest seqs front writes op inFront)
    · rcases commits with rfl | rfl
      · cases inCommit
      · refine .inl (fun name touched => ?_)
        rcases manifest_files _ op inCommit name touched with rfl | rfl <;> decide
  · exact .inr (fun name touched => wal_not_manifest name (wal op inBack name touched))

theorem section_manifest (disk : Disk Bytes) (next : DB) (seqs : List Nat) (ops : List DiskOp)
    (shape : SectionOps next seqs ops) (ordered : OrderedDisk disk) (named : Named next) (limits : Listable next) :
    Throughout OrderedDisk disk ops := by
  obtain ⟨front, commit, back, rfl, writes, commits, wal⟩ := shape
  have away : ∀ part : List DiskOp, (∀ op ∈ part, ∀ name ∈ op.touches, name ∉ manifestFiles) → ∀ d, OrderedDisk d →
      Throughout OrderedDisk d part := fun part apart d holds =>
    ordered_apart d part holds (fun op member touched => apart op member _ touched (by simp [manifestFiles]))
  have first := away front (work_not_manifest seqs front writes) disk ordered
  have middle : Throughout OrderedDisk (applyAll disk front) commit := by
    rcases commits with rfl | rfl
    · exact throughout_nil _ _ (throughout_last _ _ _ first)
    · exact ordered_commit _ next (throughout_last _ _ _ first) named limits
  have both := (throughout_append _ _ _ _).mpr ⟨first, middle⟩
  exact (throughout_append _ _ _ _).mpr ⟨both, away back
    (fun op member name touched => wal_not_manifest name (wal op member name touched)) _ (throughout_last _ _ _ both)⟩

theorem manifest_elsewhere (disk later : Disk Bytes) (todo : List DiskOp) (all : Throughout OrderedDisk disk todo)
    (splits : ∀ op ∈ todo, Splits op) (same : ∀ name ∈ manifestFiles, later name = disk name) :
    Throughout OrderedDisk later todo := by
  intro done part file kept m present
  refine all done part file kept m ?_
  rw [← present]
  refine (apply_all_agree (fun name => name ∈ manifestFiles) later disk done
    (fun op member => splits op (part.subset member)) same
    manifestName (by decide)).symm

-- The names that a directory may hold: no number is the last one of 64 bits.
def Tame (name : Bytes) : Prop := name.length < 2 ^ 32 ∧ ∀ seq, parseSeq name = .ok (some seq) → seq + 1 < 2 ^ 64

theorem tame_of_kind (name : Bytes) (short : name.length < 2 ^ 32) (strange : ¬ IsTable name) : Tame name :=
  ⟨short, fun seq parsed => absurd (parse_seq_kind name seq parsed) strange⟩

theorem tame_log (name : Bytes) (log : LogName name) : Tame name := tame_of_kind name log.2 (log_not_table name log)

theorem tame_other (name : Bytes) (other : name ∈ otherFiles) : Tame name := by
  have short : ∀ one ∈ otherFiles, one.length < 2 ^ 32 := by decide
  exact tame_of_kind name (short name other) (other_not_table name other)

theorem tame_table_file (seq : Nat) (name : Bytes) (small : seq + 1 < 2 ^ 64) (file : name ∈ tableFiles seq) :
    Tame name := by
  have length := length_sst_name seq
  simp only [tableFiles, List.mem_cons, List.not_mem_nil, or_false] at file
  rcases file with rfl | rfl
  · refine ⟨Nat.lt_of_le_of_lt length (by decide), fun found parsed => ?_⟩
    rw [parse_seq_sst_name seq (Nat.lt_of_succ_lt small)] at parsed
    cases parsed
    exact small
  · refine tame_of_kind _ ?_ (tmp_not_table seq)
    rw [tmpName, List.length_append]
    exact Nat.lt_of_le_of_lt (Nat.add_le_add_right length _) (by decide)

-- Steps that give a table its name when there is no such file.
def Reserves (disk : Disk Bytes) (ops : List DiskOp) : Prop :=
  ∀ done op rest name, ops = done ++ op :: rest → installed op = some name → Gone disk done name

structure NameInv (s : Sys) : Prop where
  named : Named s.db
  work : WorkFiles s.db
  logs : ∀ log ∈ s.db.logs, log.Aligned ∧ LogName log.name
  limits : WithinLimits s.db
  mine : Reserves s.disk s.todo
  owed : ∀ name ∈ owed s.db, s.disk name = none ∧ ∀ op ∈ s.todo, name ∉ op.touches
  beyond : ∀ n, s.db.nextSeq ≤ n → n < 2 ^ 64 → Gone s.disk s.todo (sstName n)
  valid : s.disk.Valid
  tame : ∀ name, (s.disk name).isSome = true → Tame name
  touched : ∀ op ∈ s.todo, ∀ name ∈ op.touches, Tame name
  manifest : Throughout OrderedDisk s.disk s.todo
  splits : ∀ op ∈ s.todo, Splits op
  junk : ∀ name ∈ s.garbage ++ s.doomed, name ∉ manifestFiles

theorem inv_objects (s : Sys) (inv : NameInv s) : Objects s.db :=
  ⟨fun table member => below_is_table _ _ (named_table s.db inv.named table member), inv.logs⟩

theorem apply_present (disk : Disk Bytes) (ops : List DiskOp) (name : Bytes)
    (present : (applyAll disk ops name).isSome = true) :
    (disk name).isSome = true ∨ ∃ op ∈ ops, name ∈ op.touches := by
  by_cases touched : ∃ op ∈ ops, name ∈ op.touches
  · exact .inr touched
  · rw [apply_all_frame disk ops name (fun op member inside => touched ⟨op, member, inside⟩)] at present
    exact .inl present

theorem io_name_inv (s : Sys) (op : DiskOp) (rest : List DiskOp) (inv : NameInv s) (next : s.todo = op :: rest) :
    NameInv { s with disk := op.apply s.disk, todo := rest } := by
  have member : ∀ other ∈ rest, other ∈ s.todo := fun other inside => by rw [next]; simp [inside]
  have first : op ∈ s.todo := by rw [next]; simp
  refine ⟨inv.named, inv.work, inv.logs, inv.limits, ?_, ?_, ?_, apply_valid _ _ inv.valid, ?_, ?_, ?_, ?_, inv.junk⟩
  · intro done later tail name split renamed
    refine gone_next s.disk op done name (inv.mine (op :: done) later tail name ?_ renamed)
    exact next.trans (congrArg (List.cons op) split)
  · intro name owes
    obtain ⟨absent, untouched⟩ := inv.owed name owes
    exact ⟨(apply_frame s.disk op name (untouched op first)).trans absent, fun other inside =>
      untouched other (member other inside)⟩
  · intro n high small
    have gone := inv.beyond n high small
    rw [next] at gone
    exact gone_next s.disk op rest (sstName n) gone
  · intro name present
    rcases apply_present s.disk [op] name present with before | ⟨other, inside, touched⟩
    · exact inv.tame name before
    · rw [List.mem_singleton.mp inside] at touched
      exact inv.touched op first name touched
  · exact fun other inside => inv.touched other (member other inside)
  · have all := inv.manifest
    rw [next] at all
    exact ((throughout_cons _ _ _ _).mp all).2
  · exact fun other inside => inv.splits other (member other inside)

section Work

variable {found : Bytes} (s : Sys) (next : DB) (ops : List DiskOp) (garbage : List Bytes)

theorem worked_distinct (inv : NameInv s) (move : Move s.cfg found s.db .worked next ops garbage) :
    (installs ops ++ owed next).Nodup := by
  obtain ⟨middle, perm, sub⟩ := worked_owed s.cfg s.db next ops garbage inv.work (inv_objects s inv) move
  have all : (owed s.db).Nodup := (List.nodup_append.mp inv.named.distinct).2.1.sublist (owed_held s.db inv.work)
  exact perm.nodup_iff.mp (all.sublist sub)

theorem work_name_inv (inv : NameInv s) (move : Move s.cfg found s.db .worked next ops garbage)
    (limits : WithinLimits next) :
    NameInv { s with db := next, disk := applyAll s.disk ops } := by
  have objects := inv_objects s inv
  have writes := worked_writes s.cfg s.db next ops garbage inv.work objects move
  have owes := worked_owed s.cfg s.db next ops garbage inv.work objects move
  have frames := (worked_frames s.cfg s.db next ops garbage move).1
  have held : ∀ name ∈ owed s.db, ∃ n, n < s.db.nextSeq ∧ name = sstName n := by
    intro name member
    obtain ⟨n, inside, rfl⟩ := List.mem_map.mp ((owed_held s.db inv.work).subset member)
    exact ⟨n, inv.named.work n inside, rfl⟩
  -- The only tables that the work touches are those it owes.
  have frame : ∀ name, IsTable name → name ∉ installs ops → applyAll s.disk ops name = s.disk name := by
    intro name table notHere
    refine apply_all_frame s.disk ops name (fun op member touched => notHere ?_)
    exact installs_member [] _ ops writes op member name touched table
  have here : ∀ name ∈ installs ops, name ∈ owed s.db := fun name member => owes.subset (List.mem_append_left _ member)
  have distinct := worked_distinct s next ops garbage inv move
  refine ⟨?_, move_work_files s.cfg s.db next .worked ops garbage inv.work objects move,
    move_logs s.cfg s.db next .worked ops garbage inv.logs move, limits, ?_, ?_, ?_,
    apply_all_valid _ _ inv.valid, ?_, inv.touched, ?_, inv.splits, inv.junk⟩
  · exact renames_named s.db next inv.named
      (move_renames s.cfg s.db next .worked ops garbage inv.work.named move) limits.1
  · intro done op rest name split renamed
    obtain ⟨touches, table⟩ := installed_touches op name renamed
    refine gone_of_less s.disk _ done name (inv.mine done op rest name split renamed) (fun absent => ?_)
    refine (frame name table (fun member => ?_)).trans absent
    refine (inv.owed name (here name member)).2 op ?_ touches
    rw [show s.todo = done ++ op :: rest from split]
    simp
  · intro name member
    have before : name ∈ owed s.db := owes.subset (List.mem_append_right _ member)
    obtain ⟨n, _, rfl⟩ := held name before
    have notHere : sstName n ∉ installs ops := fun also => (List.nodup_append.mp distinct).2.2 _ also _ member rfl
    exact ⟨(frame _ (sst_is_table n) notHere).trans (inv.owed _ before).1, (inv.owed _ before).2⟩
  · intro n high small
    rw [show next.nextSeq = s.db.nextSeq from frames.counter] at high
    refine gone_of_less s.disk _ s.todo _ (inv.beyond n high small) (fun absent => ?_)
    refine (frame _ (sst_is_table n) (fun member => ?_)).trans absent
    obtain ⟨k, less, same⟩ := held _ (here _ member)
    have equal := sst_name_injective n k small (Nat.lt_trans less inv.limits.1) same
    omega
  · intro name present
    rcases apply_present s.disk ops name present with before | ⟨op, inside, touched⟩
    · exact inv.tame name before
    · rcases writes.touches op inside name touched with file | log | other
      · obtain ⟨seq, member, there⟩ := List.mem_flatMap.mp file
        have less := inv.named.work seq member
        exact tame_table_file seq name (Nat.lt_of_le_of_lt less inv.limits.1) there
      · exact tame_log name log
      · cases other
  · refine manifest_elsewhere s.disk _ s.todo inv.manifest inv.splits (fun name inside => ?_)
    refine apply_all_frame s.disk ops name (fun op member touched => ?_)
    exact work_not_manifest _ ops writes op member name touched inside

end Work

theorem collect_name_inv (s : Sys) (name : Bytes) (inv : NameInv s)
    (marked : name ∈ s.garbage ∨ s.todo = [] ∧ name ∈ s.doomed) :
    NameInv { s with
      disk := (FsOp.unlink name).apply s.disk
      doomed := s.doomed.filter (fun other => decide (other ≠ name))
      garbage := s.garbage.filter (fun other => decide (other ≠ name)) } := by
  have less : ∀ other, s.disk other = none → (FsOp.unlink name).apply s.disk other = none := by
    intro other absent
    by_cases same : other = name
    · rw [same]
      exact set_same s.disk name none
    · exact (set_other s.disk name other none same).trans absent
  have away : name ∉ manifestFiles := inv.junk name (List.mem_append.mpr (marked.imp id And.right))
  refine ⟨inv.named, inv.work, inv.logs, inv.limits, ?_, ?_, ?_, apply_valid s.disk (.unlink name) inv.valid,
    ?_, inv.touched, ?_, inv.splits, ?_⟩
  · exact fun done op rest other split renamed =>
      gone_of_less s.disk _ done other (inv.mine done op rest other split renamed) (less other)
  · exact fun other owes => ⟨less other (inv.owed other owes).1, (inv.owed other owes).2⟩
  · exact fun n high small => gone_of_less s.disk _ s.todo _ (inv.beyond n high small) (less _)
  · intro other present
    by_cases gone : s.disk other = none
    · exact absurd ((congrArg Option.isSome (less other gone)).symm.trans present) (by decide)
    · exact inv.tame other (Option.isSome_iff_ne_none.mpr gone)
  · refine manifest_elsewhere s.disk _ s.todo inv.manifest inv.splits (fun other inside => ?_)
    refine set_other s.disk name other none (fun same => away (same ▸ inside))
  · intro other member
    refine inv.junk other ?_
    rcases List.mem_append.mp member with old | new
    · exact List.mem_append_left _ (List.mem_filter.mp old).1
    · exact List.mem_append_right _ (List.mem_filter.mp new).1

-- A section under way: the members after some of its moves and the steps of these.
structure SectionInv (disk : Disk Bytes) (start db : DB) (ops : List DiskOp) : Prop where
  named : Named db
  work : WorkFiles db
  logs : ∀ log ∈ db.logs, log.Aligned ∧ LogName log.name
  small : db.nextSeq < 2 ^ 64
  counter : start.nextSeq ≤ db.nextSeq
  writes : ∃ seqs, WritesTables otherFiles seqs ops ∧ seqs.Nodup ∧
    ∀ seq ∈ seqs, start.nextSeq ≤ seq ∧ seq < db.nextSeq ∧ seq ∉ workSeqs db
  owed : ∀ name ∈ owed db, name ∈ owed start ∨ ∃ n, name = sstName n ∧ start.nextSeq ≤ n ∧ n < db.nextSeq
  manifest : Throughout OrderedDisk disk ops
  splits : ∀ op ∈ ops, Splits op

theorem section_start (disk : Disk Bytes) (db : DB) (named : Named db) (work : WorkFiles db)
    (logs : ∀ log ∈ db.logs, log.Aligned ∧ LogName log.name) (small : db.nextSeq < 2 ^ 64)
      (ordered : OrderedDisk disk) :
    SectionInv disk db db [] :=
  ⟨named, work, logs, small, le_refl _, ⟨[], ⟨List.nil_sublist _, by simp, by simp⟩, List.nodup_nil, by simp⟩,
    fun name member => .inl member, throughout_nil _ _ ordered, by simp⟩

theorem section_objects (disk : Disk Bytes) (start db : DB) (ops : List DiskOp) (inv : SectionInv disk start db ops) :
    Objects db :=
  ⟨fun table member => below_is_table _ _ (named_table db inv.named table member), inv.logs⟩

theorem section_move {found : Bytes} (cfg : Config) (disk : Disk Bytes) (start db next : DB) (kind : Kind)
    (ops more : List DiskOp) (garbage : List Bytes) (inv : SectionInv disk start db ops)
    (move : Move cfg found db kind next more garbage) (locked : kind ≠ .worked) (limits : Listable next) :
    SectionInv disk start next (ops ++ more) := by
  have objects := section_objects disk start db ops inv
  have renames := move_renames cfg db next kind more garbage inv.work.named move
  have named := renames_named db next inv.named renames limits.1
  have counter := move_counter cfg db next kind more garbage move
  obtain ⟨seqs, writes, nodup, inside⟩ := inv.writes
  obtain ⟨new, shape, numbers⟩ := locked_ops cfg db next kind more garbage objects move locked
  have splits := section_splits next new more shape
  have manifest :=
    section_manifest (applyAll disk ops) next new more shape (throughout_last _ _ _ inv.manifest) named limits
  refine ⟨named, move_work_files cfg db next kind more garbage inv.work objects move,
    move_logs cfg db next kind more garbage inv.logs move, limits.1, Nat.le_trans inv.counter counter,
    ⟨seqs ++ new, writes_append otherFiles seqs new ops more writes (section_writes next new more shape), ?_, ?_⟩, ?_,
    (throughout_append _ _ _ _).mpr ⟨inv.manifest, manifest⟩, ?_⟩
  · refine List.nodup_append.mpr ⟨nodup, ?_, ?_⟩
    · rcases numbers with rfl | ⟨rfl, _⟩
      · exact List.nodup_nil
      · exact List.nodup_singleton _
    · intro old inOld other inNew same
      rcases numbers with rfl | ⟨rfl, _⟩
      · cases inNew
      · have less := (inside old inOld).2.1
        have equal := List.mem_singleton.mp inNew
        omega
  · intro seq member
    rcases List.mem_append.mp member with old | fresh
    · obtain ⟨low, high, free⟩ := inside seq old
      refine ⟨low, Nat.lt_of_lt_of_le high counter, fun held => ?_⟩
      rcases renames.work seq held with before | after
      · exact free before
      · omega
    · rcases numbers with rfl | ⟨rfl, grown, same⟩
      · cases fresh
      · rw [List.mem_singleton.mp fresh, same]
        exact ⟨inv.counter, grown, fun held => Nat.lt_irrefl _ (inv.named.work _ held)⟩
  · intro name member
    rcases locked_owed cfg db next kind more garbage inv.work move locked name member with before | ⟨n, same, low, high⟩
    · refine (inv.owed name before).imp id ?_
      rintro ⟨n, same, low, high⟩
      exact ⟨n, same, low, Nat.lt_of_lt_of_le high counter⟩
    · exact .inr ⟨n, same, Nat.le_trans inv.counter low, high⟩
  · exact fun op member => (List.mem_append.mp member).elim (inv.splits op) (splits op)

theorem section_reserves (disk : Disk Bytes) (front ops : List DiskOp) (seqs : List Nat) (others : List Bytes)
    (quiet : ∀ op ∈ front, installed op = none) (writes : WritesTables others seqs ops) (whole : (installs ops).Nodup)
    (gone : ∀ name ∈ installs ops, Gone disk front name) : Reserves disk (front ++ ops) := by
  intro done op rest name split renamed
  have located : ∃ early, done = front ++ early ∧ ops = early ++ op :: rest := by
    rcases List.append_eq_append_iff.mp split with ⟨early, same, later⟩ | ⟨late, same, later⟩
    · exact ⟨early, same, later⟩
    · cases late with
      | nil => exact ⟨[], by simpa using same.symm, by simpa using later.symm⟩
      | cons first tail =>
          cases later
          rw [quiet op (by simp [same])] at renamed
          cases renamed
  obtain ⟨early, rfl, later⟩ := located
  have member : name ∈ installs ops := by
    rw [later]
    exact List.mem_filterMap.mpr ⟨op, by simp, renamed⟩
  rw [later, installs, List.filterMap_append, List.filterMap_cons_some renamed] at whole
  -- The steps of the section before the rename leave the name alone.
  refine gone_append disk front early _ (gone name member) (fun other there touched => ?_)
  have again : name ∈ installs early := by
    refine List.mem_filterMap.mpr
      ⟨other, there, writes.renames other ?_ _ touched (installed_touches op name renamed).2⟩
    rw [later]
    exact List.mem_append_left _ there
  exact (List.nodup_append.mp whole).2.2 _ again _ (by simp) rfl

-- What the steps before a section leave to it.
structure Prelude (disk : Disk Bytes) (start next : DB) (front : List DiskOp) : Prop where
  quiet : ∀ op ∈ front, installed op = none
  beyond : ∀ n, start.nextSeq ≤ n → n < 2 ^ 64 → Gone disk front (sstName n)
  owed : ∀ name ∈ owed next, disk name = none ∧ ∀ op ∈ front, name ∉ op.touches
  touched : ∀ op ∈ front, ∀ name ∈ op.touches, Tame name
  manifest : Throughout OrderedDisk disk front
  splits : ∀ op ∈ front, Splits op

theorem section_name_inv (s : Sys) (start : DB) (front ops : List DiskOp) (todo : s.todo = front ++ ops)
    (prelude : Prelude s.disk start s.db front) (inv : SectionInv (applyAll s.disk front) start s.db ops)
    (limits : WithinLimits s.db) (valid : s.disk.Valid) (tame : ∀ name, (s.disk name).isSome = true → Tame name)
    (junk : ∀ name ∈ s.garbage ++ s.doomed, name ∉ manifestFiles) : NameInv s := by
  obtain ⟨seqs, writes, nodup, inside⟩ := inv.writes
  have fits : ∀ seq ∈ seqs, seq < 2 ^ 64 := fun seq member => Nat.lt_trans (inside seq member).2.1 inv.small
  have located : ∀ op ∈ ops, ∀ n, n < 2 ^ 64 → sstName n ∈ op.touches → n ∈ seqs := by
    intro op member n small touched
    have there := installs_member otherFiles seqs ops writes op member _ touched (sst_is_table n)
    obtain ⟨seq, found, same⟩ := List.mem_map.mp (writes.installs.subset there)
    rw [← sst_name_injective seq n (fits seq found) small same]
    exact found
  refine ⟨inv.named, inv.work, inv.logs, limits, ?_, ?_, ?_, valid, tame, ?_, ?_, ?_, junk⟩
  · rw [todo]
    refine section_reserves s.disk front ops seqs otherFiles prelude.quiet writes
      (List.Nodup.sublist writes.installs ?_) (fun name member => ?_)
    · exact List.Nodup.map_on (fun left inLeft right inRight same =>
        sst_name_injective left right (fits left inLeft) (fits right inRight) same) nodup
    · obtain ⟨seq, found, rfl⟩ := List.mem_map.mp (writes.installs.subset member)
      exact prelude.beyond seq (inside seq found).1 (fits seq found)
  · intro name member
    obtain ⟨absent, untouched⟩ := prelude.owed name member
    refine ⟨absent, fun op there touched => ?_⟩
    rw [todo] at there
    rcases List.mem_append.mp there with early | late
    · exact untouched op early touched
    · obtain ⟨n, held, rfl⟩ := List.mem_map.mp ((owed_held s.db inv.work).subset member)
      have small := Nat.lt_trans (inv.named.work n held) inv.small
      exact (inside n (located op late n small touched)).2.2 held
  · intro n high small
    rw [todo]
    refine gone_append s.disk front ops _ (prelude.beyond n (Nat.le_trans inv.counter high) small)
      (fun op member touched => ?_)
    have less := (inside n (located op member n small touched)).2.1
    omega
  · intro op member name touched
    rw [todo] at member
    rcases List.mem_append.mp member with early | late
    · exact prelude.touched op early name touched
    · rcases writes.touches op late name touched with file | log | other
      · obtain ⟨seq, found, there⟩ := List.mem_flatMap.mp file
        exact tame_table_file seq name (Nat.lt_of_le_of_lt (inside seq found).2.1 inv.small) there
      · exact tame_log name log
      · exact tame_other name other
  · rw [todo]
    exact (throughout_append _ _ _ _).mpr ⟨prelude.manifest, inv.manifest⟩
  · intro op member
    rw [todo] at member
    exact (List.mem_append.mp member).elim (prelude.splits op) (inv.splits op)

theorem lock_name_inv (s : Sys) (label : Label) (effect : Effect) (inv : NameInv s) (free : s.todo = [])
    (locked : label.kind ≠ .worked) (done : step s.cfg s.db label = some effect) :
    NameInv ⟨s.cfg, effect.db, s.disk, effect.ops, effect.garbage, s.garbage ++ s.doomed⟩ := by
  obtain ⟨⟨middle, front, back, early, late, first, second, takes, one, two, ops, garbage, grown⟩, limits⟩ :=
    step_moves s.cfg s.db label effect done
  obtain ⟨firstLocked, _, secondLocked⟩ := takes_locked label first second takes locked
  have ordered : OrderedDisk s.disk := inv.manifest [] List.nil_prefix
  have absent : ∀ n, s.db.nextSeq ≤ n → n < 2 ^ 64 → s.disk (sstName n) = none := by
    intro n high small
    have gone := inv.beyond n high small
    rw [free] at gone
    exact (gone_nil s.disk _).mp gone
  have counter := move_counter s.cfg middle effect.db second back late two
  have bound := inv.limits.2
  have listable : Listable middle := by
    refine ⟨Nat.lt_of_le_of_lt counter limits.1, ?_⟩
    have most := limits.2
    omega
  have start := section_start s.disk s.db inv.named inv.work inv.logs inv.limits.1 ordered
  have between := section_move s.cfg s.disk s.db s.db middle first [] front early start one firstLocked listable
  have after := section_move s.cfg s.disk s.db middle effect.db second _ back late between two secondLocked
    (within_limits_listable _ limits)
  rw [List.nil_append, ← ops] at after
  refine section_name_inv _ s.db [] effect.ops rfl ⟨by simp, fun n high small => ?_, fun name member => ?_, by simp,
    throughout_nil _ _ ordered, by simp⟩ after limits inv.valid inv.tame ?_
  · exact (gone_nil s.disk _).mpr (absent n high small)
  · refine ⟨?_, by simp⟩
    rcases after.owed name member with old | ⟨n, rfl, low, high⟩
    · exact (inv.owed name old).1
    · exact absent n low (Nat.lt_trans high limits.1)
  · intro name member
    rcases List.mem_append.mp member with old | new
    · exact inv.junk name old
    · rw [show effect.garbage = early ++ late from garbage] at new
      refine marked_not_manifest name ?_
      rcases List.mem_append.mp new with inEarly | inLate
      · exact move_garbage s.cfg s.db middle first front early inv.work (inv_objects s inv) one name inEarly
      · exact move_garbage s.cfg middle effect.db second back late between.work
          (section_objects _ _ _ _ between) two name inLate

end Tombstash
