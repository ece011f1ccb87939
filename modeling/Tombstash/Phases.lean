import Tombstash.Backed

set_option autoImplicit false

namespace Tombstash

variable {found : Bytes} {serial : Prop}

-- Levels that the MANIFEST can hold, for the tables and for those to come.
structure LevelBounds (db : DB) : Prop where
  tables : ∀ table ∈ db.sstables, -2 ^ 31 ≤ table.level ∧ table.level ≤ intMax
  jobs : ∀ job ∈ inFlight db, -2 ^ 31 ≤ job.outputLevel ∧ job.outputLevel ≤ intMax

theorem zero_level_bounds : (-2 ^ 31 : Int) ≤ 0 ∧ (0 : Int) ≤ intMax := by decide

theorem same_job_level (job next : MergeJob) (same : SameJob job next) : next.outputLevel = job.outputLevel := by
  rw [MergeJob.outputLevel, MergeJob.outputLevel, same.leveled, same.dest]

theorem picked_level (cfg : Config) (db next : DB) (job : MergeJob) (picks : pickJob cfg db = some (next, job)) :
    -2 ^ 31 ≤ job.outputLevel ∧ job.outputLevel ≤ intMax := by
  cases strategy : cfg.leveled with
  | false =>
      obtain ⟨_, shape, _⟩ := pick_job_tiered cfg db next job strategy picks
      rw [MergeJob.outputLevel, shape]
      exact zero_level_bounds
  | true =>
      obtain ⟨_, pick, chosen, rfl⟩ := pick_job_leveled cfg db next job strategy picks
      obtain ⟨source, first, rest, choice⟩ := pick_leveled_choice cfg db.sstables pick chosen
      have low := choice.nonneg
      have high := choice.bounded
      change -2 ^ 31 ≤ pick.destLevel ∧ pick.destLevel ≤ intMax
      rw [choice.dest]
      omega

theorem move_level_bounds (cfg : Config) (db next : DB) (i : Nat) (log : ValueLog) (kind : Kind) (ops : List DiskOp)
    (garbage : List Bytes) (sound : Sound serial db i log) (bounds : LevelBounds db)
    (move : Move cfg found db kind next ops garbage) : LevelBounds next := by
  have same : ∀ worker job later, db.job worker = some job → SameJob job later →
    LevelBounds (db.setJob later worker) := by
    intro worker job later running same
    have old := bounds.jobs job (job_running db worker job running)
    rw [← same_job_level job later same] at old
    refine ⟨by cases worker <;> exact bounds.tables, fun other member => ?_⟩
    rcases set_job_members db worker job later other running member with rfl | there
    · exact old
    · exact bounds.jobs other there
  cases move with
  | flushed k current grown recs vlogOps bytes sst filled free index object separated built =>
      exact ⟨List.forall_mem_cons.mpr ⟨zero_level_bounds, bounds.tables⟩, bounds.jobs⟩
  | collected merged relocated opened grown vlogOps bytes sst free quiet flushed merges opens relocates built =>
      exact ⟨List.forall_mem_cons.mpr ⟨zero_level_bounds, by simp⟩, bounds.jobs⟩
  | published job sst running complete =>
      exact ⟨List.forall_mem_cons.mpr ⟨zero_level_bounds, bounds.tables⟩, bounds.jobs⟩
  | picked picked job noJob picks =>
      have level := picked_level cfg db picked job picks
      obtain ⟨⟨seq, rfl, _⟩, _⟩ := pick_job_fresh cfg db picked job picks
      refine ⟨bounds.tables, fun other member => ?_⟩
      rcases List.mem_cons.mp member with rfl | caller
      · exact level
      · exact bounds.jobs other (List.mem_append_right _ caller)
  | pickedAll many =>
      refine ⟨bounds.tables, fun other member => ?_⟩
      simp only [inFlight, ← List.append_assoc] at member
      rcases List.mem_append.mp member with old | new
      · exact bounds.jobs other old
      · rw [List.mem_singleton.mp new]
        exact zero_level_bounds
  | merged worker job next running unmerged merges =>
      have merge := sound.merges job (job_running db worker job running)
      exact same worker job next running (run_merge_sound cfg db.sstables job next merge unmerged merges).2
  | reserved job next groups running grouped unbuilt builds =>
      have merge := sound.merges job (job_running db .compactor job running)
      have kept := (reserve_merge_sound cfg db.sstables job next _ groups merge grouped (by simp) builds).2
      exact ⟨bounds.tables, (same .compactor job next running kept).jobs⟩
  | mergeIo worker job op rest outputs running building =>
      exact same worker job _ running ⟨rfl, rfl, rfl, rfl⟩
  | installed worker job outputs running complete =>
      have member := job_running db worker job running
      obtain ⟨whole, _⟩ := built_outputs db.sstables job [] outputs (sound.merges job member) complete
      obtain ⟨tables, eq, perm⟩ := install_job_spec db job outputs whole
      have levels : ∀ table ∈ tables, -2 ^ 31 ≤ table.level ∧ table.level ≤ intMax := by
        intro table inside
        rcases List.mem_append.mp (perm.mem_iff.mp inside) with kept | new
        · exact bounds.tables table (List.mem_filter.mp kept).1
        · rw [(output_tables_member _ _ _ table new).2.2.1]
          exact bounds.jobs job member
      rw [eq]
      refine ⟨by cases worker <;> exact levels, fun other inside => ?_⟩
      have left :=
        ended_jobs db { db with sstables := tables, nextId := db.nextId + outputs.length, compacting := false }
        worker rfl rfl
      exact bounds.jobs other (end_job_members db worker job other running (left ▸ inside))
  | _ => exact ⟨bounds.tables, bounds.jobs⟩

def walFiles : List Bytes := [walName, flushingWalName]

theorem table_file_first (seq : Nat) (name : Bytes) (member : name ∈ tableFiles seq) : name[0]? = some 0x73 := by
  simp only [tableFiles, List.mem_cons, List.not_mem_nil, or_false] at member
  rcases member with rfl | rfl
  · exact sst_first seq
  · exact congrArg Prod.fst (kind_sst_tmp seq)

theorem work_first (db : DB) (name : Bytes) (member : name ∈ workFiles db) :
    name[0]? = some 0x73 ∨ name[0]? = some 0x76 := by
  rcases List.mem_append.mp member with flush | merge
  · cases running : db.flusher with
    | none => simp [flusherFiles, running] at flush
    | some job =>
        rcases (mem_flusher_files db job running name).mp flush with rfl | inside
        · exact .inr (vlog_first db.currentGen)
        · exact .inl (table_file_first job.seq name inside)
  · obtain ⟨job, _, inside⟩ := List.mem_flatMap.mp merge
    obtain ⟨seq, _, there⟩ := List.mem_flatMap.mp inside
    exact .inl (table_file_first seq name there)

-- Steps on the MANIFEST and on the write-ahead logs leave every worker alone.
def otherFiles : List Bytes := walFiles ++ [manifestName, manifestTmpName]

theorem other_first (name : Bytes) (other : name ∈ otherFiles) : name[0]? ≠ some 0x73 ∧ name[0]? ≠ some 0x76 := by
  have first : ∀ other ∈ otherFiles, other[0]? ≠ some 0x73 ∧ other[0]? ≠ some 0x76 := by decide
  exact first name other

theorem other_files_apart (db : DB) (ops : List DiskOp) (others : ∀ op ∈ ops, ∀ name ∈ op.touches, name ∈ otherFiles) :
    Apart (workFiles db) ops := by
  intro op member name touched inside
  obtain ⟨notTable, notLog⟩ := other_first name (others op member name touched)
  rcases work_first db name inside with table | log
  · exact notTable table
  · exact notLog log

theorem wal_files_live (db : DB) (numbered : Numbered db) (ops : List DiskOp)
    (wal : ∀ op ∈ ops, ∀ name ∈ op.touches, name ∈ walFiles) : Apart (liveFiles db) ops := by
  intro op member name touched live
  have kinds : ∀ other ∈ walFiles, other[0]? = some 0x77 ∧ other ≠ manifestName := by decide
  obtain ⟨first, notManifest⟩ := kinds name (wal op member name touched)
  rcases List.mem_cons.mp live with same | needed
  · exact notManifest same
  rcases List.mem_cons.mp needed with same | inTables
  · have kind := vlog_first db.currentGen
    rw [← same] at kind
    exact absurd (first.symm.trans kind) (by decide)
  · obtain ⟨table, inside, rfl⟩ := List.mem_map.mp inTables
    have kind := sst_first (tableSeq table)
    rw [← numbered.named table inside] at kind
    exact absurd (first.symm.trans kind) (by decide)

-- What a MANIFEST can count.
def Listable (db : DB) : Prop := db.nextSeq < 2 ^ 64 ∧ db.sstables.length < 2 ^ 32

theorem within_limits_listable (db : DB) (limits : WithinLimits db) : Listable db :=
  ⟨limits.1, Nat.lt_trans limits.2 (by decide)⟩

theorem prepared_db (db : DB) (disk : Disk Bytes) (numbered : Numbered db) (bounds : LevelBounds db)
    (limits : Listable db) (stored : ∀ table ∈ db.sstables, Stored disk table.name table.sst) (text : Bytes)
    (vlog : LogHolds serial disk db.currentGen text (db.sstables.map Table.sst)) :
    Prepared serial disk (manifestOf db) text (db.sstables.map Table.sst) := by
  have names : (manifestOf db).tables.map ManifestEntry.name = db.sstables.map Table.name := by
    simp [manifestOf, Function.comp_def]
  have entries : ∀ entry ∈ (manifestOf db).tables, ∃ table ∈ db.sstables, entry = ⟨table.name, table.level⟩ := by
    intro entry member
    obtain ⟨table, inside, same⟩ := List.mem_map.mp member
    exact ⟨table, inside, same.symm⟩
  refine ⟨⟨limits.1, ?_, ?_, ?_⟩, ?_, ?_, ?_, vlog⟩
  · have few := limits.2
    simp only [manifestOf, List.length_map]
    omega
  · intro entry member
    obtain ⟨table, inside, rfl⟩ := entries entry member
    have short := length_sst_name (tableSeq table)
    rw [← numbered.named table inside] at short
    exact lt_of_le_of_lt short (by decide)
  · intro entry member
    obtain ⟨table, inside, rfl⟩ := entries entry member
    have level := bounds.tables table inside
    unfold intMax at level
    simp only
    omega
  · simp only [manifestOf]
    rw [List.forall₂_map_left_iff, List.forall₂_map_right_iff, List.forall₂_same]
    exact stored
  · intro entry member
    obtain ⟨table, inside, rfl⟩ := entries entry member
    exact ⟨tableSeq table, table_seq_fresh db numbered table inside, numbered.named table inside⟩
  · rw [names]
    have distinct : (db.sstables.map tableSeq).Nodup := by
      have whole := numbered.distinct
      rw [reservedSeqs, List.append_assoc] at whole
      exact (List.nodup_append.mp whole).1
    refine List.Nodup.of_map seqOfPath ?_
    rw [List.map_map]
    exact distinct

-- What a move does to the write-ahead logs.
def Kind.walOps : Kind → List DiskOp
  | .wrote write sync => [.append walName (walRecord (writeRecord write))] ++ if sync then [.fsync walName] else []
  | .synced => [.fsync walName]
  | .sealed => [.fsync walName, .rename walName flushingWalName, .fsyncDir, .truncate walName]
  | .flushed => [.truncate walName]
  | .published => [.unlink flushingWalName]
  | _ => []

theorem wal_ops_files (kind : Kind) : ∀ op ∈ kind.walOps, ∀ name ∈ op.touches, name ∈ walFiles := by
  have single : ∀ op : DiskOp, op.touches = [walName] → ∀ name ∈ op.touches, name ∈ walFiles := by
    intro op touches name touched
    rw [touches, List.mem_singleton] at touched
    rw [touched]
    decide
  intro op member
  cases kind with
  | wrote write sync =>
      rcases List.mem_append.mp member with first | second
      · exact single op (by rw [List.mem_singleton.mp first]; rfl)
      · cases sync with
        | false => cases second
        | true => exact single op (by rw [List.mem_singleton.mp second]; rfl)
  | synced => exact single op (by rw [List.mem_singleton.mp member]; rfl)
  | sealed =>
      simp only [Kind.walOps, List.mem_cons, List.not_mem_nil, or_false] at member
      rcases member with rfl | rfl | rfl | rfl <;> decide
  | flushed => exact single op (by rw [List.mem_singleton.mp member]; rfl)
  | published =>
      rw [List.mem_singleton.mp member]
      decide
  | _ => cases member

-- The phases of a move: the old store stays committed until the new one is,
-- and only then do the write-ahead logs change.
def Phased (serial : Prop) (db : DB) (log : ValueLog) (next : DB) (later : ValueLog) (wal : List DiskOp)
    (disk : Disk Bytes) (ops : List DiskOp) : Prop :=
  ∃ work, ops = work ++ wal ∧ Apart walFiles work ∧
    Throughout (fun d => CommittedDb serial db log d ∨ CommittedDb serial next later d) disk work ∧
    CommittedDb serial next later (applyAll disk work)

theorem manifest_files (m : ManifestData) : ∀ op ∈ manifestOps m, ∀ name ∈ op.touches,
    name = manifestName ∨ name = manifestTmpName := by
  intro op member name touched
  simp only [manifestOps, List.mem_cons, List.not_mem_nil, or_false] at member
  rcases member with rfl | rfl | rfl | rfl | rfl <;> simp [FsOp.touches] at touched <;> grind

theorem commit_phase (db next : DB) (log later : ValueLog) (disk : Disk Bytes) (work wal : List DiskOp) (text : Bytes)
    (numbered : Numbered next) (bounds : LevelBounds next) (limits : Listable next) (apart : Apart walFiles work)
    (old : Throughout (CommittedDb serial db log) disk work)
    (stored : ∀ table ∈ next.sstables, Stored (applyAll disk work) table.name table.sst) (known : text <+: later.file)
    (vlog : LogHolds serial (applyAll disk work) next.currentGen text (next.sstables.map Table.sst)) :
    Phased serial db log next later wal disk (work ++ writeManifestLocked next ++ wal) := by
  obtain ⟨seq, oldText, le, oldKnown, committed⟩ := throughout_last _ _ _ old
  have prepared := prepared_db next (applyAll disk work) numbered bounds limits stored text vlog
  obtain ⟨during, after⟩ := manifest_commits (applyAll disk work) _ (manifestOf next) _ _ _ _ committed prepared
  refine ⟨work ++ writeManifestLocked next, rfl, ?_, ?_, ?_⟩
  · refine (apart_append _ _ _).mpr ⟨apart, fun op member name touched inside => ?_⟩
    rcases manifest_files _ op member name touched with rfl | rfl
    · exact absurd inside (by decide)
    · exact absurd inside (by decide)
  · refine (throughout_append _ _ _ _).mpr ⟨throughout_imp _ _ _ _ old (fun d holds => .inl holds), ?_⟩
    exact throughout_imp _ _ _ _ during (fun d both => both.imp (fun holds => ⟨seq, oldText, le, oldKnown, holds⟩)
      (fun holds => ⟨next.nextSeq, text, Nat.le_refl _, known, holds⟩))
  · rw [apply_all_append]
    exact ⟨next.nextSeq, text, Nat.le_refl _, known, after⟩

theorem same_tables_committed (db next : DB) (log later : ValueLog) (disk : Disk Bytes)
    (tables : next.sstables = db.sstables) (gen : next.currentGen = db.currentGen) (counter : db.nextSeq ≤ next.nextSeq)
    (grows : log.file <+: later.file) (committed : CommittedDb serial db log disk) :
    CommittedDb serial next later disk := by
  obtain ⟨seq, text, le, known, holds⟩ := committed
  refine ⟨seq, text, Nat.le_trans le counter, known.trans grows, ?_⟩
  have same : manifestAt seq next = manifestAt seq db := by simp [manifestAt, manifestOf, tables, gen]
  rw [same, tables]
  exact holds

theorem same_tables_phased (db next : DB) (log later : ValueLog) (disk : Disk Bytes) (work wal : List DiskOp)
    (apart : Apart walFiles work) (tables : next.sstables = db.sstables) (gen : next.currentGen = db.currentGen)
    (counter : db.nextSeq ≤ next.nextSeq) (grows : log.file <+: later.file)
    (old : Throughout (CommittedDb serial db log) disk work) : Phased serial db log next later wal disk (work ++ wal) :=
  ⟨work, rfl, apart, throughout_imp _ _ _ _ old (fun _ holds => .inl holds),
    same_tables_committed db next log later _ tables gen counter grows (throughout_last _ _ _ old)⟩

end Tombstash
