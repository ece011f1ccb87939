import Tombstash.DiskMoves
import Tombstash.Open

set_option autoImplicit false

namespace Tombstash

variable {found : Bytes} {serial : Prop}

theorem phased_committed (db next : DB) (log later : ValueLog) (wal : List DiskOp) (disk : Disk Bytes)
    (ops : List DiskOp) (numbered : Numbered next) (onWal : ∀ op ∈ wal, ∀ name ∈ op.touches, name ∈ walFiles)
    (phased : Phased serial db log next later wal disk ops) : CommittedDb serial next later (applyAll disk ops) := by
  obtain ⟨work, rfl, _, _, committed⟩ := phased
  rw [apply_all_append]
  exact throughout_last _ _ _ (committed_db_apart next later _ wal committed (wal_files_live next numbered wal onWal))

section Commits

variable (cfg : Config) (db : DB) (i : Nat) (log : ValueLog) (disk : Disk Bytes)

theorem advances_commit (next : DB) (j : Nat) (later : ValueLog) (work wal : List DiskOp) (text : Bytes)
    (soundNext : Sound serial next j later)
    (numbered : Numbered next) (bounds : LevelBounds next) (limits : Listable next) (apart : Apart walFiles work)
    (onWal : ∀ op ∈ wal, ∀ name ∈ op.touches, name ∈ walFiles) (old : Throughout (CommittedDb serial db log) disk work)
    (stored : ∀ table ∈ next.sstables, Stored (applyAll disk work) table.name table.sst) (known : text <+: later.file)
    (holds : LogHolds serial (applyAll disk work) next.currentGen text (next.sstables.map Table.sst))
    (vlog : ∃ synced, applyAll disk work (vlogName next.currentGen) = some ⟨later.file, synced⟩)
    (flush : ∀ job, next.flusher = some job → FlushBacked serial (applyAll disk work) next.currentGen later job)
    (merges : ∀ job ∈ inFlight next, MergeBacked (applyAll disk work) job) :
    Advances serial db log next wal disk (work ++ writeManifestLocked next ++ wal) := by
  have phased := commit_phase db next log later disk work wal text numbered bounds limits apart old stored known holds
  have committed := phased_committed db next log later wal disk _ numbered onWal phased
  have others : ∀ op ∈ writeManifestLocked next ++ wal, ∀ name ∈ op.touches, name ∈ otherFiles := by
    intro op member name touched
    rcases List.mem_append.mp member with manifest | inWal
    · rcases manifest_files _ op manifest name touched with rfl | rfl
      · decide
      · decide
    · exact List.mem_append_left _ (onWal op inWal name touched)
  have work' := other_files_apart next _ others
  have flusher : Apart (flusherFiles next) (writeManifestLocked next ++ wal) := fun op member name touched inside =>
    work' op member name touched (List.mem_append_left _ inside)
  have merge : Apart (mergeFiles next) (writeManifestLocked next ++ wal) := fun op member name touched inside =>
    work' op member name touched (List.mem_append_right _ inside)
  have noLog : vlogName next.currentGen ∉ otherFiles := by
    intro inside
    have kinds : ∀ other ∈ otherFiles, other[0]? ≠ some 0x76 := by decide
    exact kinds _ inside (vlog_first _)
  obtain ⟨synced, present⟩ := vlog
  refine ⟨j, later, soundNext, ⟨committed, ⟨synced, ?_⟩, ?_, ?_⟩, phased⟩
  · rw [List.append_assoc, apply_all_append]
    exact (apply_all_frame _ _ _ (fun op member touched => noLog (others op member _ touched))).trans present
  · rw [List.append_assoc, apply_all_append]
    exact fun job running => flush_backed_apart next later _ _ job running (flush job running) flusher
  · rw [List.append_assoc, apply_all_append]
    exact merges_backed_apart next j later _ _ soundNext merges merge

theorem next_seq_unused (numbered : Numbered db) :
    db.nextSeq ∉ db.sstables.map tableSeq ∧ db.nextSeq ∉ (inFlight db).flatMap MergeJob.seqs := by
  refine ⟨fun member => ?_, fun member => ?_⟩
  · obtain ⟨table, inside, same⟩ := List.mem_map.mp member
    exact absurd (table_seq_fresh db numbered table inside) (by omega)
  · exact absurd (numbered.fresh _ (List.mem_append_right _ member)) (by omega)

-- The steps of a flush before it commits: the log, its fsync if anything was
-- written, and the table.
def flushWork (log : ValueLog) (ops : List DiskOp) (seq : Nat) (bytes : Bytes) : List DiskOp :=
  ops ++ ((if ops.isEmpty then [] else [.fsync log.name]) ++ (writeTable (sstName seq) bytes ++ [.fsyncDir]))

theorem flush_ops_work (ops : List DiskOp) (bytes : Bytes) (next : DB) :
    flushOps db log ops bytes next = flushWork log ops db.nextSeq bytes ++ writeManifestLocked next ++
    [.truncate walName] := by
  simp only [flushOps, flushWork, List.append_assoc]

theorem flush_work_sync (ops : List DiskOp) (name : log.name = vlogName db.currentGen) :
    ∀ op ∈ (if ops.isEmpty then [] else [FsOp.fsync log.name] : List DiskOp), op = .fsync (vlogName db.currentGen) := by
  intro op member
  cases empty : ops.isEmpty <;> simp [empty] at member
  rw [member, name]

section FlushWork

variable (later : ValueLog) (ops : List DiskOp) (bytes : Bytes) (appended : Appended log later ops)
    (sound : Sound serial db i log)

include appended sound in
theorem flush_work_touches : ∀ op ∈ flushWork log ops db.nextSeq bytes, ∀ name ∈ op.touches,
    name = vlogName db.currentGen ∨ name ∈ tableFiles db.nextSeq := by
  intro op member name touched
  rcases List.mem_append.mp member with first | rest
  · rw [appended.touches op first, List.mem_singleton] at touched
    exact .inl (touched.trans sound.name)
  rcases List.mem_append.mp rest with second | third
  · rw [flush_work_sync db log ops sound.name op second] at touched
    exact .inl (List.mem_singleton.mp touched)
  · exact .inr (write_ops_touches db.nextSeq bytes op third name touched)

include appended sound in
theorem flush_work_kept (synced : Nat) (present : disk (vlogName db.currentGen) = some ⟨log.file, synced⟩)
    (inside : synced ≤ log.file.length) (committed : CommittedDb serial db log disk)
    (live : Apart (manifestName :: db.sstables.map Table.name) (flushWork log ops db.nextSeq bytes)) :
    Throughout (CommittedDb serial db log) disk (flushWork log ops db.nextSeq bytes) ∧
      applyAll disk (flushWork log ops db.nextSeq bytes) (vlogName db.currentGen) =
        some ⟨later.file, if ops.isEmpty then synced else later.file.length⟩ := by
  have atLog : disk log.name = some ⟨log.file, synced⟩ := by rw [sound.name]; exact present
  have calm : LogQuiet db.currentGen
      ((if ops.isEmpty then [] else [.fsync log.name]) ++ (writeTable (sstName db.nextSeq) bytes ++ [.fsyncDir])) := by
    intro op member
    rcases List.mem_append.mp member with second | third
    · exact .inl (flush_work_sync db log ops sound.name op second)
    · refine .inr (fun touched => ?_)
      exact absurd
        ((vlog_first _).symm.trans (table_file_first _ _ (write_ops_touches db.nextSeq bytes op third _ touched)))
        (by decide)
  have kept := appended_log_kept db.currentGen log later disk synced ops _ sound.name appended atLog inside calm
  refine ⟨committed_db_log db log disk _ committed live kept, ?_⟩
  have written := appended.written disk synced atLog inside
  rw [sound.name] at written
  rw [flushWork, apply_all_append, apply_all_append, write_ops_log]
  cases empty : ops.isEmpty with
  | true => simpa [empty] using written
  | false => simp [FsOp.apply, Disk.set, sound.name, written]

end FlushWork

theorem advances_flushed (later : ValueLog) (recs : List Record) (ops : List DiskOp) (bytes : Bytes) (sst : SSTable)
    (sound : Sound serial db i log) (numbered : Numbered db) (valid : disk.Valid) (backed : Backed serial db log disk)
    (numberedNext : Numbered (flushedDb db i later sst)) (bounds : LevelBounds (flushedDb db i later sst))
    (limits : Listable (flushedDb db i later sst)) (free : db.hasFlushing = false)
    (separated : separateAll cfg log db.memtable.snapshot = .ok (later, recs, ops))
    (built : buildAndOpen cfg recs = .ok (bytes, sst)) :
    Advances serial db log (flushedDb db i later sst) Kind.flushed.walOps disk (flushOps db log ops bytes
      (flushedDb db i later sst)) := by
  have small : db.nextSeq < 2 ^ 64 := Nat.lt_of_succ_lt limits.1
  obtain ⟨notTable, notMerge⟩ := next_seq_unused db numbered
  obtain ⟨appended, separations⟩ := separate_all_spec cfg log later _ recs ops sound.aligned separated
  obtain ⟨represents, formed, ranges⟩ := snapshot_table cfg db.memtable later recs bytes sst separations built
  have soundNext := sound_flushed cfg db i log later recs ops bytes sst sound free separated built
  have laterGen : later.gen = db.currentGen := appended.grows.gen.trans sound.gen
  obtain ⟨synced, present⟩ := backed.vlog
  have inside : synced ≤ log.file.length := valid _ _ present
  obtain ⟨live, merge, wal⟩ :=
    table_ops_apart db db.nextSeq (flushWork log ops db.nextSeq bytes) numbered small small notTable notMerge
    (fun op member name touched =>
      (flush_work_touches db i log later ops bytes appended sound op member name touched).imp
      (fun same => ⟨_, same⟩) id)
  obtain ⟨old, logAfter⟩ :=
    flush_work_kept db i log disk later ops bytes appended sound synced present inside backed.committed live
  obtain ⟨oldStored, oldText, oldKnown, oldHolds⟩ := committed_db_stored db log _ (throughout_last _ _ _ old)
  have ascending := separations_ascending later _ recs separations (snapshot_ascending _)
  have shaped : ∀ rec ∈ recs, Shaped rec := by
    intro rec member
    obtain ⟨original, there, separation⟩ := forall_two_right _ _ recs separations rec member
    exact separation_shaped later original rec (snapshot_shaped _ original there).1 separation
  have newStored : Stored (applyAll disk (flushWork log ops db.nextSeq bytes)) (sstName db.nextSeq) sst := by
    rw [flushWork, apply_all_append, apply_all_append, apply_all_append]
    exact built_table_stored cfg _ recs bytes sst _ ascending shaped built
  have newHolds : ∃ text, text <+: later.file ∧
      LogHolds serial (applyAll disk (flushWork log ops db.nextSeq bytes)) db.currentGen text [sst] := by
    cases empty : ops.isEmpty with
    | true =>
        have none : ops = [] := List.isEmpty_iff.mp empty
        subst none
        have inline : ∀ rec ∈ sst.records, rec.separated = false := by
          rw [represents_records sst recs represents, separate_all_inline cfg log later _ recs separated]
          exact fun rec member => (snapshot_shaped _ rec member).2
        exact ⟨oldText, oldKnown.trans appended.grows.file, log_holds_inline _ _ _ _ sst oldHolds inline⟩
    | false =>
        refine ⟨later.file, List.prefix_rfl, ?_⟩
        rw [← laterGen]
        refine log_holds_synced _ later [sst] appended.aligned ?_ (fun _ other member => ?_)
        · rw [laterGen, logAfter, empty]
          rfl
        · rw [List.mem_singleton.mp member]
          exact ranges
  have noFlusher : (flushedDb db i later sst).flusher = none := sound.idle free
  obtain ⟨newText, newKnown, newHolds⟩ := newHolds
  obtain ⟨text, known, holds⟩ := log_holds_append _ _ later.file newText oldText [sst] _ newKnown
    (oldKnown.trans appended.grows.file) newHolds oldHolds
  rw [flush_ops_work]
  refine advances_commit db log disk _ i later _ _ text soundNext numberedNext bounds limits wal
    (wal_ops_files .flushed) old ?_
    known holds ⟨_, logAfter⟩ ?_ ?_
  · exact List.forall_mem_cons.mpr ⟨newStored, oldStored⟩
  · intro job running
    rw [noFlusher] at running
    cases running
  · exact merges_backed_apart db i log disk _ sound backed.merges merge

theorem collected_log (gen : UInt32) (opened later : ValueLog) (ops : List DiskOp) (valid : disk.Valid)
    (opens : openLog (vlogName gen) gen ((fileData disk (vlogName gen)).getD []) = .ok opened)
    (appended : Appended opened later ops) :
    opened.name = vlogName gen ∧
      applyAll disk ([.create opened.name] ++ ops ++ [.fsync opened.name]) (vlogName gen) =
        some ⟨later.file, later.file.length⟩ := by
  obtain ⟨rfl, _⟩ := open_log_spec _ _ _ opened opens
  refine ⟨rfl, ?_⟩
  change applyAll disk ([.create (vlogName gen)] ++ ops ++ [.fsync (vlogName gen)]) (vlogName gen) = _
  have created : ∃ synced, synced ≤ ((fileData disk (vlogName gen)).getD []).length ∧
      applyAll disk [.create (vlogName gen)] (vlogName gen) =
      some ⟨(fileData disk (vlogName gen)).getD [], synced⟩ := by
    cases present : disk (vlogName gen) with
    | none => exact ⟨0, by simp [fileData, present], by simp [FsOp.apply, Disk.set, fileData, present]⟩
    | some file =>
        refine ⟨file.synced, ?_, by simp [FsOp.apply, Disk.set, fileData, present]⟩
        simpa [fileData, present] using valid _ file present
  obtain ⟨synced, inside, atLog⟩ := created
  have written := appended.written (applyAll disk [.create (vlogName gen)]) synced atLog inside
  change applyAll (applyAll disk [.create (vlogName gen)]) ops (vlogName gen) = some ⟨later.file, synced⟩ at written
  rw [apply_all_append, apply_all_append, apply_all_cons, apply_all_nil, FsOp.apply, set_same, written]
  rfl

-- The steps of gc before it commits: the new log and the table.
def collectWork (opened : ValueLog) (ops : List DiskOp) (seq : Nat) (bytes : Bytes) : List DiskOp :=
  ([.create opened.name] ++ ops ++ [.fsync opened.name]) ++ (writeTable (sstName seq) bytes ++ [.fsyncDir])

theorem collect_work_touches (gen : UInt32) (opened later : ValueLog) (ops : List DiskOp) (seq : Nat) (bytes : Bytes)
    (name : opened.name = vlogName gen) (appended : Appended opened later ops) :
    ∀ op ∈ collectWork opened ops seq bytes, ∀ other ∈ op.touches, other = vlogName gen ∨ other ∈ tableFiles seq := by
  intro op member other touched
  rw [← name]
  rcases List.mem_append.mp member with onLog | table
  · refine .inl ?_
    rcases List.mem_append.mp onLog with front | last
    · rcases List.mem_append.mp front with first | middle
      · rw [List.mem_singleton.mp first] at touched
        exact List.mem_singleton.mp touched
      · rw [appended.touches op middle] at touched
        exact List.mem_singleton.mp touched
    · rw [List.mem_singleton.mp last] at touched
      exact List.mem_singleton.mp touched
  · exact .inr (write_ops_touches seq bytes op table other touched)

theorem advances_collected (merged relocated : List Record) (opened later : ValueLog) (ops : List DiskOp)
    (bytes : Bytes) (sst : SSTable) (sound : Sound serial db i log) (numbered : Numbered db) (valid : disk.Valid)
    (backed : Backed serial db log disk) (numberedNext : Numbered (collectedDb db later sst))
    (bounds : LevelBounds (collectedDb db later sst)) (limits : Listable (collectedDb db later sst))
    (free : db.hasFlushing = false) (calm : db.compacting = false)
    (merges : mergeRecords (db.sstables.map Table.sst) true = .ok merged)
    (opens : openLog (vlogName (db.currentGen + 1)) (db.currentGen + 1)
      ((fileData disk (vlogName (db.currentGen + 1))).getD []) = .ok opened)
    (relocates : relocateAll db.logs db.vlogs opened merged = .ok (later, relocated, ops))
    (built : buildAndOpen cfg relocated = .ok (bytes, sst)) :
    Advances serial db log (collectedDb db later sst) [] disk
      ([.create opened.name] ++ ops ++ [.fsync opened.name] ++ writeTable (sstName db.nextSeq) bytes ++ [.fsyncDir] ++
        writeManifestLocked (collectedDb db later sst)) := by
  have small : db.nextSeq < 2 ^ 64 := Nat.lt_of_succ_lt limits.1
  obtain ⟨notTable, notMerge⟩ := next_seq_unused db numbered
  obtain ⟨_, aligned⟩ := open_log_spec _ _ _ opened opens
  obtain ⟨appended, relocations⟩ :=
    relocate_all_spec db.logs db.vlogs opened later merged relocated ops aligned relocates
  obtain ⟨soundNext, represents⟩ :=
    sound_collected cfg db i log _ merged relocated opened later ops bytes sst sound free
    (calm_no_jobs db i log sound calm) merges opens relocates built
  obtain ⟨name, logAfter⟩ := collected_log disk (db.currentGen + 1) opened later ops valid opens appended
  obtain ⟨mergedAscending, mergedShaped, _⟩ := merged_records_fit db.sstables sound.formed true merged merges
  have ascending := relocations_ascending db.logs db.vlogs later merged relocated relocations mergedAscending
  have shaped : ∀ rec ∈ relocated, Shaped rec := by
    intro rec member
    obtain ⟨original, there, relocation⟩ := forall_two_right _ _ relocated relocations rec member
    exact relocation_shaped db.logs db.vlogs later original rec (mergedShaped original there) relocation
  have touches := collect_work_touches (db.currentGen + 1) opened later ops db.nextSeq bytes name appended
  obtain ⟨live, merge, wal⟩ :=
    table_ops_apart db db.nextSeq (collectWork opened ops db.nextSeq bytes) numbered small small notTable notMerge
    (fun op member other touched => (touches op member other touched).imp (fun same => ⟨_, same⟩) id)
  -- The old log is another file.
  have quiet : LogQuiet db.currentGen (collectWork opened ops db.nextSeq bytes) := by
    refine fun op member => .inr (fun touched => ?_)
    rcases touches op member _ touched with same | files
    · exact absurd (vlog_name_injective _ _ same) (by simp)
    · exact absurd ((vlog_first _).symm.trans (table_file_first _ _ files)) (by decide)
  have old := committed_db_log db log disk _ backed.committed live (quiet_log_kept _ disk _ quiet)
  have atLog : applyAll disk (collectWork opened ops db.nextSeq bytes) (vlogName (db.currentGen + 1)) =
      some ⟨later.file, later.file.length⟩ := by
    rw [collectWork, apply_all_append, write_ops_log]
    exact logAfter
  have shape : [.create opened.name] ++ ops ++ [.fsync opened.name] ++ writeTable
    (sstName db.nextSeq) bytes ++ [.fsyncDir] ++
      writeManifestLocked (collectedDb db later sst) =
      collectWork opened ops db.nextSeq bytes ++ writeManifestLocked (collectedDb db later sst) ++ [] := by
    simp only [collectWork, List.append_assoc, List.append_nil]
  rw [shape]
  refine advances_commit db log disk _ db.logs.length later _ _ later.file soundNext numberedNext bounds
    limits wal (by simp) old
    ?_ List.prefix_rfl ?_ ⟨_, atLog⟩ ?_ ?_
  · refine List.forall_mem_cons.mpr ⟨?_, by simp⟩
    rw [collectWork, apply_all_append, apply_all_append]
    exact built_table_stored cfg _ relocated bytes sst _ ascending shaped built
  · have gen : later.gen = db.currentGen + 1 := soundNext.gen
    change LogHolds serial _ (db.currentGen + 1) later.file [sst]
    rw [← gen]
    refine log_holds_synced _ later [sst] soundNext.aligned (by rw [gen]; exact atLog) (fun one other member => ?_)
    rw [List.mem_singleton.mp member]
    exact soundNext.ranges one ⟨db.nextId, sstName db.nextSeq, 0, sst⟩ (by simp [collectedDb])
  · intro job running
    have none : db.flusher = none := sound.idle free
    rw [show (collectedDb db later sst).flusher = db.flusher from rfl, none] at running
    cases running
  · exact merges_backed_apart db i log disk _ sound backed.merges merge

theorem advances_published (job : FlushJob) (sst : SSTable) (sound : Sound serial db i log)
    (backed : Backed serial db log disk) (numbered : Numbered (flusherPublish db job sst))
    (bounds : LevelBounds (flusherPublish db job sst)) (limits : Listable (flusherPublish db job sst))
    (running : db.flusher = some job) (complete : job.built = some ([], sst)) :
    Advances serial db log (flusherPublish db job sst) Kind.published.walOps disk
      (writeManifestLocked (flusherPublish db job sst) ++ [.unlink flushingWalName]) := by
  obtain ⟨stored, newText, newKnown, newHolds⟩ := (backed.flush job running).stored [] sst complete
  obtain ⟨oldStored, oldText, oldKnown, oldHolds⟩ := committed_db_stored db log disk backed.committed
  obtain ⟨text, known, holds⟩ :=
    log_holds_append _ _ log.file newText oldText [sst] _ newKnown oldKnown newHolds oldHolds
  refine advances_commit db log disk _ i log [] _ text
    (sound_published db i log job sst sound running complete) numbered bounds
    limits (by simp [Apart]) (wal_ops_files .published) (throughout_nil _ _ backed.committed) ?_ known
    holds backed.vlog ?_
    backed.merges
  · exact List.forall_mem_cons.mpr ⟨stored, oldStored⟩
  · intro other there
    cases there

theorem advances_installed (worker : Worker) (job : MergeJob) (outputs : List (Bytes × SSTable))
    (sound : Sound serial db i log) (backed : Backed serial db log disk)
    (numbered : Numbered ({ installJob db job outputs with compacting := false }.endJob worker))
    (bounds : LevelBounds ({ installJob db job outputs with compacting := false }.endJob worker))
    (limits : Listable ({ installJob db job outputs with compacting := false }.endJob worker))
    (running : db.job worker = some job) (complete : job.built = some ([], outputs)) :
    Advances serial db log ({ installJob db job outputs with compacting := false }.endJob worker) [] disk
      (writeManifestLocked (installJob db job outputs)) := by
  have inside := job_running db worker job running
  have merge := sound.merges job inside
  obtain ⟨whole, good⟩ := built_outputs db.sstables job [] outputs merge complete
  have soundNext := sound_installed db i log worker job outputs sound running complete
  obtain ⟨tables, eq, perm⟩ := install_job_spec db job outputs whole
  rw [eq] at numbered bounds limits soundNext ⊢
  obtain ⟨oldStored, text, known, oldHolds⟩ := committed_db_stored db log disk backed.committed
  have newStored := (backed.merges job inside).stored [] outputs complete
  have stored : ∀ table ∈ tables, Stored disk table.name table.sst := by
    intro table member
    rcases List.mem_append.mp (perm.mem_iff.mp member) with kept | new
    · exact oldStored table (List.mem_filter.mp kept).1
    · exact newStored _ (output_tables_member _ _ _ table new).2.2.2
  -- A merge only repeats records of its inputs, so the log holds them already.
  have holds : LogHolds serial disk db.currentGen text (tables.map Table.sst) := by
    obtain ⟨file, present, begins, bound, small, ranges⟩ := oldHolds
    refine ⟨file, present, begins, bound, small, fun one sst member => ?_⟩
    obtain ⟨table, there, rfl⟩ := List.mem_map.mp member
    rcases List.mem_append.mp (perm.mem_iff.mp there) with kept | new
    · exact ranges one _ (List.mem_map_of_mem (List.mem_filter.mp kept).1)
    · intro rec row
      obtain ⟨input, inInputs, origin⟩ := (good _ (output_tables_member _ _ _ table new).2.2.2).2 rec row
      exact ranges one _ (List.mem_map_of_mem (merge.present one input inInputs)) rec origin
  have left := ended_jobs db { db with sstables := tables, nextId := db.nextId + outputs.length, compacting := false }
    worker rfl rfl
  have same : writeManifestLocked { db with sstables := tables, nextId := db.nextId + outputs.length } =
      [] ++ writeManifestLocked
      ({ db with sstables := tables, nextId := db.nextId + outputs.length, compacting := false }.endJob
        worker) ++ [] := by
    cases worker <;> simp [writeManifestLocked, manifestOf, DB.endJob]
  rw [same]
  refine advances_commit db log disk _ i log [] [] text soundNext numbered bounds limits (by simp [Apart]) (by simp)
    (throughout_nil _ _ backed.committed) ?_ known ?_ ?_ ?_ ?_
  · cases worker <;> exact stored
  · cases worker <;> exact holds
  · cases worker <;> exact backed.vlog
  · cases worker <;> exact backed.flush
  · exact fun other there => backed.merges other (end_job_members db worker job other running (left ▸ there))

theorem job_seqs_nodup (job : MergeJob) (numbered : Numbered db) (running : job ∈ inFlight db) : job.seqs.Nodup := by
  obtain ⟨_, jobs, _⟩ := List.nodup_append.mp numbered.distinct
  exact (List.nodup_flatMap.mp jobs).1 job running

theorem move_advances (next : DB) (kind : Kind) (ops : List DiskOp) (garbage : List Bytes)
    (sound : Sound serial db i log) (numbered : Numbered db) (bounds : LevelBounds db)
    (move : Move cfg found db kind next ops garbage) (calm : serial → kind.Picks → inFlight db = [])
    (valid : disk.Valid) (backed : Backed serial db log disk) (limits : Listable next)
    (there : next.currentGen ≠ db.currentGen → found = (fileData disk (vlogName next.currentGen)).getD []) :
    Advances serial db log next kind.walOps disk ops := by
  have small : db.nextSeq < 2 ^ 64 := lt_of_le_of_lt (move_counter cfg db next kind ops garbage move) limits.1
  have numberedNext := move_numbered cfg db next i log kind ops garbage sound numbered move limits.1
  have boundsNext := move_level_bounds cfg db next i log kind ops garbage sound bounds move
  have refl : SameFiles db db := ⟨rfl, rfl, Nat.le_refl _, rfl, rfl⟩
  cases move with
  | rest => exact advances_still db i log disk db sound sound numbered backed refl
  | wrote write bytes sync encoded =>
      have same : [.append walName bytes] ++ (if sync = true then [.fsync walName] else []) =
        (Kind.wrote write sync).walOps := by
        rw [Kind.walOps, wal_append_bytes (writeRecord write) bytes encoded]
      rw [same]
      exact advances_wal db i log disk _ _ sound { sound with } numbered backed ⟨rfl, rfl, Nat.le_refl _, rfl, rfl⟩
        (wal_ops_files (.wrote write sync))
  | waits waiters =>
      exact advances_still db i log disk _ sound { sound with } numbered backed ⟨rfl, rfl, Nat.le_refl _, rfl, rfl⟩
  | bloom on =>
      exact advances_still db i log disk _ sound { sound with } numbered backed ⟨rfl, rfl, Nat.le_refl _, rfl, rfl⟩
  | synced => exact advances_wal db i log disk db _ sound sound numbered backed refl (wal_ops_files .synced)
  | sealed filled free =>
      have noFlusher := sound.idle free
      have soundNext : Sound serial (sealedDb db) i log := by
        refine { sound with idle := fun _ => noFlusher, flusher := fun job running => ?_ }
        rw [show (sealedDb db).flusher = db.flusher from rfl, noFlusher] at running
        cases running
      exact advances_wal db i log disk _ _ sound soundNext numbered backed ⟨rfl, rfl, Nat.le_succ _, rfl, rfl⟩
        (wal_ops_files .sealed)
  | flushed k current later recs vlogOps bytes sst filled free index object separated built =>
      obtain ⟨rfl, rfl⟩ := sound_current db i log sound k current index object
      exact advances_flushed cfg db i _ disk later recs vlogOps bytes sst sound numbered valid backed
        numberedNext boundsNext
        limits free separated built
  | collected merged relocated opened later vlogOps bytes sst free quiet flushed merges opens relocates built =>
      have different : (collectedDb db later sst).currentGen ≠ db.currentGen := by simp [collectedDb]
      rw [there different] at opens
      exact advances_collected cfg db i log disk merged relocated opened later vlogOps bytes sst sound
        numbered valid backed
        numberedNext boundsNext limits free quiet merges opens relocates built
  | snapshot k has noJob index =>
      obtain ⟨here, _⟩ := sound_index db i log sound
      rw [here] at index
      cases index
      refine advances_worker db i log disk _ (sound_snapshot db i log sound has) backed rfl rfl
        (Nat.le_refl _) ?_ backed.merges
      intro job running
      cases running
      exact flush_unbuilt_backed _ _ _ _ rfl (by simp)
  | separated job rec stored rest current later io running unbuilt next object separates =>
      exact advances_separated cfg db i log disk job rec stored rest current later _ sound numbered small
        valid backed running
        unbuilt next object separates
  | flushBuilt job current bytes sst running unbuilt finished object built =>
      have target := (sound.flusher job running).target
      rw [target, sound.object] at object
      cases object
      refine advances_worker db i log disk _
        (sound_flush_built cfg db i log job _ bytes sst sound running finished built) backed
        rfl rfl (Nat.le_refl _) ?_ backed.merges
      intro next there
      cases there
      exact flush_io_spec cfg db i log disk job bytes sst sound backed running finished built
  | flushIo job op rest sst running building =>
      have working := sound.flusher job running
      have soundNext := sound_flusher db i log job { job with built := some (rest, sst) } sound running
        ⟨working.reserved, working.target, working.progress,
          fun io table eq => by cases eq; exact working.built _ sst building⟩
      exact advances_flush_io db i log disk job op rest sst sound soundNext numbered small backed running building
  | published job sst running complete =>
      exact advances_published db i log disk job sst sound backed numberedNext boundsNext limits running complete
  | picked picked job noJob picks =>
      obtain ⟨⟨seq, rfl, above⟩, fresh⟩ := pick_job_fresh cfg db picked job picks
      have soundNext := sound_started db i log _ job sound seq fresh (fun one => calm one trivial) (.inl ⟨noJob, rfl⟩)
      refine advances_worker db i log disk _ soundNext backed rfl rfl above backed.flush (fun other member => ?_)
      rcases List.mem_cons.mp member with rfl | caller
      · exact merge_unbuilt_backed disk _ fresh.unbuilt
      · exact backed.merges other (List.mem_append_right _ caller)
  | pickedAll many =>
      have soundNext := sound_started db i log _ _ sound (db.nextSeq + 1) (pick_all_fresh db many)
        (fun one => calm one trivial) (.inr rfl)
      refine advances_worker db i log disk _ soundNext backed rfl rfl (Nat.le_succ _) backed.flush
        (fun other member => ?_)
      simp only [inFlight, ← List.append_assoc] at member
      rcases List.mem_append.mp member with old | new
      · exact backed.merges other old
      · rw [List.mem_singleton.mp new]
        exact merge_unbuilt_backed disk _ rfl
  | merged worker job next running unmerged merges =>
      have inside := job_running db worker job running
      have merge := sound.merges job inside
      have stepped := (run_merge_sound cfg db.sstables job next merge unmerged merges).1
      have files := run_merge_backed cfg disk db.sstables job next merge unmerged
        (job_seqs_nodup db job numbered inside)
        (fun seq member => (merge_seq db job seq numbered small inside member).2) merges
      exact advances_merge db i log disk worker job next sound stepped backed running files
  | reserved job next groups running grouped unbuilt builds =>
      have merge := sound.merges job (job_running db .compactor job running)
      have stepped := (reserve_merge_sound cfg db.sstables job next _ groups merge grouped (by simp) builds).1
      obtain ⟨records, merges, flat, _⟩ := merge.merged groups grouped
      obtain ⟨ascending, shaped, _⟩ := merged_records_fit job.inputs merge.formed _ records merges
      have fits : ∀ seq ∈ List.range' db.nextSeq groups.length, seq < 2 ^ 64 := fun seq member =>
        Nat.lt_trans (List.mem_range'_1.mp member).2 limits.1
      have files :=
        started_merge_backed cfg disk job next _ groups records List.nodup_range' fits flat ascending shaped builds
      refine advances_worker db i log disk _ { sound_set_job db i log .compactor job next sound running stepped with }
        backed rfl
        rfl (Nat.le_add_right _ _) backed.flush (fun other member => ?_)
      rcases set_job_members db .compactor job next other running member with rfl | old
      · exact files
      · exact backed.merges other old
  | mergeIo worker job op rest outputs running building =>
      exact advances_merge_io db i log disk worker job op rest outputs sound numbered small backed running building
  | installed worker job outputs running complete =>
      exact advances_installed db i log disk worker job outputs sound backed numberedNext boundsNext
        limits running complete

end Commits

end Tombstash
