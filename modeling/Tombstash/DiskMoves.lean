import Tombstash.Phases

set_option autoImplicit false

namespace Tombstash

variable {serial : Prop}

theorem table_files_injective (left right : Nat) (leftFits : left < 2 ^ 64) (rightFits : right < 2 ^ 64) (name : Bytes)
    (inLeft : name ∈ tableFiles left) (inRight : name ∈ tableFiles right) : left = right := by
  simp only [tableFiles, List.mem_cons, List.not_mem_nil, or_false] at inLeft inRight
  have apart : ∀ a b, sstName a ≠ tmpName (sstName b) := fun a b => ne_of_kind _ _ (by simp)
  rcases inLeft with rfl | rfl
  · rcases inRight with same | same
    · exact sst_name_injective left right leftFits rightFits same
    · exact absurd same (apart left right)
  · rcases inRight with same | same
    · exact absurd same.symm (apart right left)
    · exact sst_name_injective left right leftFits rightFits (tmp_name_injective _ _ same)

theorem unused_files_live (db : DB) (numbered : Numbered db) (small : db.nextSeq < 2 ^ 64) (seq : Nat)
    (fits : seq < 2 ^ 64) (unused : seq ∉ db.sstables.map tableSeq) (name : Bytes) (member : name ∈ tableFiles seq) :
    name ∉ liveFiles db := by
  have first := table_file_first seq name member
  intro live
  rcases List.mem_cons.mp live with same | needed
  · rw [same] at first
    exact absurd first (by decide)
  rcases List.mem_cons.mp needed with same | inTables
  · rw [same, vlog_first] at first
    exact absurd first (by decide)
  · obtain ⟨table, inside, rfl⟩ := List.mem_map.mp inTables
    have fresh := table_seq_fresh db numbered table inside
    have own : table.name ∈ tableFiles (tableSeq table) := by
      rw [tableFiles, ← numbered.named table inside]
      simp
    have same := table_files_injective seq (tableSeq table) fits (Nat.lt_trans fresh small) _ member own
    exact unused (List.mem_map.mpr ⟨table, inside, same.symm⟩)

theorem unused_files_merge (db : DB) (numbered : Numbered db) (small : db.nextSeq < 2 ^ 64) (seq : Nat)
    (fits : seq < 2 ^ 64) (unused : seq ∉ (inFlight db).flatMap MergeJob.seqs) (name : Bytes)
    (member : name ∈ tableFiles seq) :
    name ∉ mergeFiles db := by
  intro inside
  obtain ⟨job, running, inJob⟩ := List.mem_flatMap.mp inside
  obtain ⟨n, inSeqs, there⟩ := List.mem_flatMap.mp inJob
  have held : n ∈ (inFlight db).flatMap MergeJob.seqs := List.mem_flatMap.mpr ⟨job, running, inSeqs⟩
  have fresh := numbered.fresh n (List.mem_append_right _ held)
  have same := table_files_injective seq n fits (Nat.lt_trans fresh small) name member there
  exact unused (same ▸ held)

theorem vlog_not_merge (db : DB) (gen : UInt32) : vlogName gen ∉ mergeFiles db := by
  intro inside
  obtain ⟨job, _, inJob⟩ := List.mem_flatMap.mp inside
  obtain ⟨n, _, there⟩ := List.mem_flatMap.mp inJob
  exact absurd ((vlog_first gen).symm.trans (table_file_first n _ there)) (by decide)

theorem reserved_apart (db : DB) (numbered : Numbered db) :
    (∀ n ∈ flushSeqs db, n ∉ db.sstables.map tableSeq ∧ n ∉ (inFlight db).flatMap MergeJob.seqs) ∧
      ∀ n ∈ (inFlight db).flatMap MergeJob.seqs, n ∉ db.sstables.map tableSeq ∧ n ∉ flushSeqs db := by
  obtain ⟨front, _, back⟩ := List.nodup_append.mp numbered.distinct
  obtain ⟨_, _, tables⟩ := List.nodup_append.mp front
  refine ⟨fun n member => ⟨fun inside => tables n inside n member rfl, fun inside => ?_⟩,
    fun n member => ⟨fun inside => ?_, fun inside => ?_⟩⟩
  · exact back n (List.mem_append_right _ member) n inside rfl
  · exact back n (List.mem_append_left _ inside) n member rfl
  · exact back n (List.mem_append_right _ inside) n member rfl

theorem jobs_apart (db : DB) (numbered : Numbered db) (before after : List MergeJob) (job other : MergeJob)
    (jobs : inFlight db = before ++ job :: after) (there : other ∈ before ++ after) :
    ∀ n ∈ job.seqs, n ∉ other.seqs := by
  have whole := (List.nodup_append.mp numbered.distinct).2.1
  rw [jobs] at whole
  have first : ((job :: (before ++ after)).flatMap MergeJob.seqs).Nodup :=
    (List.perm_middle.flatMap_right MergeJob.seqs).nodup_iff.mp whole
  rw [List.flatMap_cons] at first
  intro n mine theirs
  exact (List.nodup_append.mp first).2.2 n mine n (List.mem_flatMap.mpr ⟨other, there, theirs⟩) rfl

-- Steps that keep the durable part of the log.
def LogQuiet (gen : UInt32) (ops : List DiskOp) : Prop :=
  ∀ op ∈ ops, op = .fsync (vlogName gen) ∨ vlogName gen ∉ op.touches

theorem log_kept_trans (first second third : Disk Bytes) (gen : UInt32) (one : LogKept first second gen)
    (two : LogKept second third gen) : LogKept first third gen := by
  intro file present inside small
  obtain ⟨middle, there, more, insideMiddle, smallMiddle⟩ := one file present inside small
  obtain ⟨last, finally_, evenMore, rest⟩ := two middle there insideMiddle smallMiddle
  exact ⟨last, finally_, more.trans evenMore, rest⟩

theorem quiet_log_kept (gen : UInt32) (disk : Disk Bytes) (ops : List DiskOp) (calm : LogQuiet gen ops) :
    Throughout (fun d => LogKept disk d gen) disk ops := by
  induction ops generalizing disk with
  | nil => exact throughout_nil _ _ (log_kept_same _ _ _ rfl)
  | cons op rest ih =>
      have one : LogKept disk (op.apply disk) gen := by
        rcases calm op (by simp) with rfl | untouched
        · intro file present inside small
          refine ⟨⟨file.data, file.data.length⟩, ?_, ?_, Nat.le_refl _, small⟩
          · simp [FsOp.apply, Disk.set, present]
          · exact List.take_prefix_take_left inside
        · exact log_kept_same _ _ _ (apply_frame disk op _ untouched)
      refine (throughout_cons _ _ _ _).mpr ⟨log_kept_same _ _ _ rfl, ?_⟩
      exact throughout_imp _ _ _ _ (ih (op.apply disk) (fun other member => calm other (by simp [member])))
        (fun d later => log_kept_trans _ _ _ _ one later)

theorem appended_log_kept (gen : UInt32) (log later : ValueLog) (disk : Disk Bytes) (synced : Nat)
    (ops rest : List DiskOp) (name : log.name = vlogName gen) (appended : Appended log later ops)
    (present : disk log.name = some ⟨log.file, synced⟩) (inside : synced ≤ log.file.length) (calm : LogQuiet gen rest) :
    Throughout (fun d => LogKept disk d gen) disk (ops ++ rest) := by
  have during : Throughout (fun d => LogKept disk d gen) disk ops := by
    refine throughout_imp _ _ _ _ (appended.during disk synced present inside) ?_
    rintro d ⟨file, there, longer, small⟩ old atOld _ _
    rw [name] at present there
    rw [present] at atOld
    cases atOld
    refine ⟨_, there, ?_, Nat.le_trans inside longer.length_le, small⟩
    obtain ⟨more, rfl⟩ := longer
    simp only [List.take_append_of_le_length inside]
    exact List.prefix_rfl
  refine (throughout_append _ _ _ _).mpr ⟨during, ?_⟩
  exact throughout_imp _ _ _ _ (quiet_log_kept gen _ rest calm)
    (fun d later => log_kept_trans _ _ _ _ (throughout_last _ _ _ during) later)

theorem committed_db_log (db : DB) (log : ValueLog) (disk : Disk Bytes) (ops : List DiskOp)
    (committed : CommittedDb serial db log disk) (apart : Apart (manifestName :: db.sstables.map Table.name) ops)
    (kept : Throughout (fun d => LogKept disk d db.currentGen) disk ops) :
    Throughout (CommittedDb serial db log) disk ops := by
  obtain ⟨seq, text, le, known, holds⟩ := committed
  intro done part
  have fewer : Apart (manifestName :: db.sstables.map Table.name) done := fun op member => apart op (part.subset member)
  refine ⟨seq, text, le, known, committed_kept disk _ _ _ _ holds (apart_frame _ disk done fewer _ (by simp))
    ?_ (kept done part)⟩
  intro entry member
  obtain ⟨table, inside, rfl⟩ := List.mem_map.mp member
  exact apart_frame _ disk done fewer _ (List.mem_cons_of_mem _ (List.mem_map_of_mem inside))

theorem committed_db_stored (db : DB) (log : ValueLog) (disk : Disk Bytes)
    (committed : CommittedDb serial db log disk) :
    (∀ table ∈ db.sstables, Stored disk table.name table.sst) ∧
      ∃ text, text <+: log.file ∧ LogHolds serial disk db.currentGen text (db.sstables.map Table.sst) := by
  obtain ⟨seq, text, _, known, holds⟩ := committed
  have tables := holds.prepared.tables
  simp only [manifestAt, manifestOf] at tables
  rw [List.forall₂_map_left_iff, List.forall₂_map_right_iff, List.forall₂_same] at tables
  exact ⟨tables, text, known, holds.prepared.vlog⟩

theorem log_holds_append (disk : Disk Bytes) (gen : UInt32) (log front back : Bytes) (first second : List SSTable)
    (knownFront : front <+: log) (knownBack : back <+: log) (one : LogHolds serial disk gen front first)
    (two : LogHolds serial disk gen back second) :
    ∃ text, text <+: log ∧ LogHolds serial disk gen text (first ++ second) := by
  obtain ⟨file, present, begins, inside, small, ranges⟩ := one
  obtain ⟨other, there, alsoBegins, _, _, more⟩ := two
  rw [present] at there
  cases there
  rcases List.prefix_or_prefix_of_prefix knownFront knownBack with shorter | shorter
  · refine ⟨back, knownBack, file, present, alsoBegins, inside, small, fun one sst member rec row => ?_⟩
    rcases List.mem_append.mp member with early | late
    · exact inside_mono _ _ _ rec shorter.length_le (ranges one sst early rec row)
    · exact more one sst late rec row
  · refine ⟨front, knownFront, file, present, begins, inside, small, fun one sst member rec row => ?_⟩
    rcases List.mem_append.mp member with early | late
    · exact ranges one sst early rec row
    · exact inside_mono _ _ _ rec shorter.length_le (more one sst late rec row)

theorem log_holds_inline (disk : Disk Bytes) (gen : UInt32) (text : Bytes) (ssts : List SSTable) (sst : SSTable)
    (holds : LogHolds serial disk gen text ssts) (inline : ∀ rec ∈ sst.records, rec.separated = false) :
    LogHolds serial disk gen text [sst] := by
  obtain ⟨file, present, begins, inside, small, _⟩ := holds
  refine ⟨file, present, begins, inside, small, fun _ other member rec row separated => ?_⟩
  rw [List.mem_singleton.mp member] at row
  rw [inline rec row] at separated
  cases separated

theorem log_holds_synced (disk : Disk Bytes) (log : ValueLog) (ssts : List SSTable) (aligned : log.Aligned)
    (present : disk (vlogName log.gen) = some ⟨log.file, log.file.length⟩)
    (ranges : serial → ∀ sst ∈ ssts, ∀ rec ∈ sst.records, InRange log rec) :
    LogHolds serial disk log.gen log.file ssts :=
  ⟨_, present, by simp, Nat.le_refl _, aligned.small, ranges⟩

-- What a move leaves on disk.
def Advances (serial : Prop) (db : DB) (log : ValueLog) (next : DB) (wal : List DiskOp) (disk : Disk Bytes)
    (ops : List DiskOp) : Prop :=
  ∃ j later, Sound serial next j later ∧ Backed serial next later (applyAll disk ops) ∧
    Phased serial db log next later wal disk ops

-- The parts of the state that its files depend on.
structure SameFiles (db next : DB) : Prop where
  sstables : next.sstables = db.sstables
  gen : next.currentGen = db.currentGen
  counter : db.nextSeq ≤ next.nextSeq
  flusher : next.flusher = db.flusher
  jobs : inFlight next = inFlight db

theorem backed_same (db next : DB) (log : ValueLog) (disk : Disk Bytes) (same : SameFiles db next)
    (backed : Backed serial db log disk) : Backed serial next log disk := by
  refine ⟨same_tables_committed db next log log disk same.sstables same.gen same.counter
    List.prefix_rfl backed.committed,
    ?_, ?_, ?_⟩
  · rw [same.gen]
    exact backed.vlog
  · rw [same.gen, same.flusher]
    exact backed.flush
  · rw [same.jobs]
    exact backed.merges

section Moves

variable (cfg : Config) (db : DB) (i : Nat) (log : ValueLog) (disk : Disk Bytes)

theorem advances_wal (next : DB) (ops : List DiskOp) (sound : Sound serial db i log)
    (soundNext : Sound serial next i log) (numbered : Numbered db) (backed : Backed serial db log disk)
    (same : SameFiles db next) (wal : ∀ op ∈ ops, ∀ name ∈ op.touches, name ∈ walFiles) :
    Advances serial db log next ops disk ops := by
  have others : ∀ op ∈ ops, ∀ name ∈ op.touches, name ∈ otherFiles := fun op member name touched =>
    List.mem_append_left _ (wal op member name touched)
  have after := backed_apart db i log disk ops sound backed (wal_files_live db numbered ops wal)
    (other_files_apart db ops others)
  refine ⟨i, log, soundNext, backed_same db next log _ same after, ?_⟩
  exact same_tables_phased db next log log disk [] ops (by simp [Apart]) same.sstables same.gen
    same.counter List.prefix_rfl (throughout_nil _ _ backed.committed)

theorem advances_still (next : DB) (sound : Sound serial db i log) (soundNext : Sound serial next i log)
    (numbered : Numbered db) (backed : Backed serial db log disk) (same : SameFiles db next) :
    Advances serial db log next [] disk [] :=
  advances_wal db i log disk next [] sound soundNext numbered backed same (by simp)

theorem advances_worker (next : DB) (soundNext : Sound serial next i log) (backed : Backed serial db log disk)
    (tables : next.sstables = db.sstables) (gen : next.currentGen = db.currentGen) (counter : db.nextSeq ≤ next.nextSeq)
    (flush : ∀ job, next.flusher = some job → FlushBacked serial disk db.currentGen log job)
    (merges : ∀ job ∈ inFlight next, MergeBacked disk job) : Advances serial db log next [] disk [] := by
  refine ⟨i, log, soundNext,
    ⟨same_tables_committed db next log log disk tables gen counter List.prefix_rfl backed.committed, ?_, ?_, merges⟩,
    ?_⟩
  · rw [gen]
    exact backed.vlog
  · rw [gen]
    exact flush
  · exact same_tables_phased db next log log disk [] [] (by simp [Apart]) tables gen counter List.prefix_rfl
      (throughout_nil _ _ backed.committed)

theorem merge_unbuilt_backed (job : MergeJob) (unbuilt : job.built = none) : MergeBacked disk job :=
  ⟨by simp [unbuilt], by simp [unbuilt]⟩

theorem flush_unbuilt_backed (gen : UInt32) (job : FlushJob) (unbuilt : job.built = none)
    (inline : job.written = false → ∀ rec ∈ job.finished, rec.separated = false) :
    FlushBacked serial disk gen log job :=
  ⟨inline, by simp [unbuilt], by simp [unbuilt]⟩

theorem flusher_seq (job : FlushJob) (sound : Sound serial db i log) (numbered : Numbered db)
    (small : db.nextSeq < 2 ^ 64) (running : db.flusher = some job) : job.seq ∈ flushSeqs db ∧ job.seq < 2 ^ 64 := by
  have has : db.hasFlushing = true := by
    cases flushing : db.hasFlushing with
    | true => rfl
    | false =>
        rw [sound.idle flushing] at running
        cases running
  have reserved := (sound.flusher job running).reserved
  refine ⟨by simp [flushSeqs, has, reserved], ?_⟩
  rw [reserved]
  exact Nat.lt_trans (flushing_seq_fresh db numbered has) small

theorem merge_seq (job : MergeJob) (seq : Nat) (numbered : Numbered db) (small : db.nextSeq < 2 ^ 64)
    (running : job ∈ inFlight db) (member : seq ∈ job.seqs) :
    seq ∈ (inFlight db).flatMap MergeJob.seqs ∧ seq < 2 ^ 64 := by
  have held : seq ∈ (inFlight db).flatMap MergeJob.seqs := List.mem_flatMap.mpr ⟨job, running, member⟩
  exact ⟨held, Nat.lt_trans (numbered.fresh seq (List.mem_append_right _ held)) small⟩

theorem table_ops_apart (seq : Nat) (ops : List DiskOp) (numbered : Numbered db) (small : db.nextSeq < 2 ^ 64)
    (fits : seq < 2 ^ 64) (notTable : seq ∉ db.sstables.map tableSeq)
    (notMerge : seq ∉ (inFlight db).flatMap MergeJob.seqs)
    (touches : ∀ op ∈ ops, ∀ name ∈ op.touches, (∃ gen, name = vlogName gen) ∨ name ∈ tableFiles seq) :
    Apart (manifestName :: db.sstables.map Table.name) ops ∧ Apart (mergeFiles db) ops ∧ Apart walFiles ops := by
  refine ⟨fun op member name touched inside => ?_, fun op member name touched inside => ?_,
    fun op member name touched inside => ?_⟩
  · rcases touches op member name touched with ⟨gen, rfl⟩ | own
    · have first := vlog_first gen
      rcases List.mem_cons.mp inside with same | inTables
      · rw [same] at first
        exact absurd first (by decide)
      · obtain ⟨table, there, same⟩ := List.mem_map.mp inTables
        have kind := sst_first (tableSeq table)
        rw [← numbered.named table there, same] at kind
        exact absurd (first.symm.trans kind) (by decide)
    · refine unused_files_live db numbered small seq fits notTable name own ?_
      rcases List.mem_cons.mp inside with same | inTables
      · exact same ▸ List.mem_cons_self
      · exact List.mem_cons_of_mem _ (List.mem_cons_of_mem _ inTables)
  · rcases touches op member name touched with ⟨gen, rfl⟩ | own
    · exact vlog_not_merge db _ inside
    · exact unused_files_merge db numbered small seq fits notMerge name own inside
  · have kinds : ∀ other ∈ walFiles, other[0]? ≠ some 0x76 ∧ other[0]? ≠ some 0x73 := by decide
    obtain ⟨notLog, notFile⟩ := kinds name inside
    rcases touches op member name touched with ⟨gen, rfl⟩ | own
    · exact notLog (vlog_first _)
    · exact notFile (table_file_first _ name own)

theorem write_ops_touches (seq : Nat) (bytes : Bytes) : ∀ op ∈ writeTable (sstName seq) bytes ++ [.fsyncDir],
    ∀ name ∈ op.touches, name ∈ tableFiles seq := by
  intro op member name touched
  rcases List.mem_append.mp member with inWrite | last
  · simpa [tableFiles] using write_table_touches _ bytes op inWrite name touched
  · rw [List.mem_singleton.mp last] at touched
    cases touched

theorem write_ops_log (gen : UInt32) (seq : Nat) (bytes : Bytes) (d : Disk Bytes) :
    applyAll d (writeTable (sstName seq) bytes ++ [.fsyncDir]) (vlogName gen) = d (vlogName gen) :=
  apply_all_frame d _ _ (fun op member touched =>
    absurd ((vlog_first _).symm.trans (table_file_first _ _ (write_ops_touches seq bytes op member _ touched)))
      (by decide))

theorem advances_flusher (next : DB) (later : ValueLog) (job : FlushJob) (ops : List DiskOp)
    (sound : Sound serial db i log) (soundNext : Sound serial next i later) (numbered : Numbered db)
    (small : db.nextSeq < 2 ^ 64) (backed : Backed serial db log disk) (running : db.flusher = some job)
    (tables : next.sstables = db.sstables) (gen : next.currentGen = db.currentGen) (counter : db.nextSeq ≤ next.nextSeq)
    (jobs : inFlight next = inFlight db)
    (touches : ∀ op ∈ ops, ∀ name ∈ op.touches, name = vlogName db.currentGen ∨ name ∈ tableFiles job.seq)
    (kept : Throughout (fun d => LogKept disk d db.currentGen) disk ops)
    (vlog : ∃ synced, applyAll disk ops (vlogName db.currentGen) = some ⟨later.file, synced⟩)
    (grows : log.file <+: later.file)
    (flush : ∀ job, next.flusher = some job → FlushBacked serial (applyAll disk ops) db.currentGen later job) :
    Advances serial db log next [] disk ops := by
  obtain ⟨held, fits⟩ := flusher_seq db i log job sound numbered small running
  obtain ⟨notTable, notMerge⟩ := (reserved_apart db numbered).1 job.seq held
  obtain ⟨live, merge, wal⟩ := table_ops_apart db job.seq ops numbered small fits notTable notMerge
    (fun op member name touched => (touches op member name touched).imp (fun same => ⟨_, same⟩) id)
  have committed := committed_db_log db log disk ops backed.committed live kept
  refine ⟨i, later, soundNext, ⟨?_, ?_, ?_, ?_⟩, ?_⟩
  · exact same_tables_committed db next log later _ tables gen counter grows (throughout_last _ _ _ committed)
  · rw [gen]
    exact vlog
  · rw [gen]
    exact flush
  · rw [jobs]
    exact merges_backed_apart db i log disk ops sound backed.merges merge
  · have phased := same_tables_phased db next log later disk ops [] wal tables gen counter grows committed
    rwa [List.append_nil] at phased

theorem separate_record_inline (later : ValueLog) (rec stored : Record)
    (done : separateRecord cfg log rec = .ok (later, stored, [])) : stored = rec := by
  rw [separateRecord] at done
  split at done
  · obtain ⟨result, appended, done⟩ := bind_returns _ _ _ done
    cases done
  · cases done
    rfl

theorem separate_all_inline (later : ValueLog) (originals records : List Record)
    (done : separateAll cfg log originals = .ok (later, records, [])) : records = originals := by
  induction originals generalizing log records with
  | nil =>
      cases done
      rfl
  | cons rec rest ih =>
      rw [separateAll] at done
      obtain ⟨⟨middle, stored, front⟩, first, done⟩ := bind_returns _ _ _ done
      obtain ⟨⟨final, others, back⟩, second, done⟩ := bind_returns _ _ _ done
      simp only [pure, Except.pure, Except.ok.injEq, Prod.mk.injEq, List.append_eq_nil_iff] at done
      obtain ⟨rfl, rfl, rfl, rfl⟩ := done
      rw [separate_record_inline cfg log middle rec stored first, ih middle others second]

theorem advances_separated (job : FlushJob) (rec stored : Record) (rest : List Record) (current later : ValueLog)
    (ops : List DiskOp) (sound : Sound serial db i log) (numbered : Numbered db) (small : db.nextSeq < 2 ^ 64)
    (valid : disk.Valid) (backed : Backed serial db log disk) (running : db.flusher = some job)
    (unbuilt : job.built = none) (next : job.pending = rec :: rest) (object : db.logs[job.log]? = some current)
    (separates : separateRecord cfg current rec = .ok (later, stored, ops)) :
    Advances serial db log (separatedDb db job later rest stored (!ops.isEmpty)) [] disk ops := by
  obtain ⟨rfl, _, appended, _, soundNext⟩ :=
    sound_separated cfg db i log job rec stored rest current later ops sound running
    unbuilt next object separates
  obtain ⟨synced, present⟩ := backed.vlog
  have inside : synced ≤ current.file.length := valid _ _ present
  have onLog : ∀ op ∈ ops, ∀ name ∈ op.touches, name = vlogName db.currentGen := by
    intro op member name touched
    rw [appended.touches op member, List.mem_singleton] at touched
    rw [touched, sound.name]
  rw [← sound.name] at present
  have kept := appended_log_kept db.currentGen current later disk synced ops [] sound.name appended present inside
    (by simp [LogQuiet])
  rw [List.append_nil] at kept
  refine advances_flusher db i current disk _ later job ops sound soundNext numbered small backed running rfl
    rfl (Nat.le_refl _)
    rfl (fun op member name touched => .inl (onLog op member name touched)) kept ⟨synced, ?_⟩
    appended.grows.file ?_
  · rw [← sound.name]
    exact appended.written disk synced present inside
  · intro working there
    cases there
    refine flush_unbuilt_backed _ _ _ _ unbuilt (fun quiet => ?_)
    simp only [Bool.or_eq_false_iff, Bool.not_eq_false', List.isEmpty_iff] at quiet
    obtain ⟨unwritten, rfl⟩ := quiet
    have same := separate_record_inline cfg current later rec stored separates
    obtain ⟨originals, split, _⟩ := (sound.flusher job running).progress
    have inSnapshot : rec ∈ db.flushingMemtable.snapshot := by
      rw [split, next]
      simp
    intro other member
    rcases List.mem_append.mp member with old | new
    · exact (backed.flush job running).inline unwritten other old
    · rw [List.mem_singleton.mp new, same]
      exact (snapshot_shaped _ rec inSnapshot).2

theorem advances_flush_io (job : FlushJob) (op : DiskOp) (rest : List DiskOp) (sst : SSTable)
    (sound : Sound serial db i log)
    (soundNext : Sound serial { db with flusher := some { job with built := some (rest, sst) } } i log)
    (numbered : Numbered db) (small : db.nextSeq < 2 ^ 64) (backed : Backed serial db log disk)
    (running : db.flusher = some job) (building : job.built = some (op :: rest, sst)) :
    Advances serial db log { db with flusher := some { job with built := some (rest, sst) } } [] disk [op] := by
  have working := backed.flush job running
  have touches := working.touches _ sst building
  have here := touches op (by simp)
  obtain ⟨synced, present⟩ := backed.vlog
  have quiet : LogQuiet db.currentGen [op] := by
    intro other member
    rw [List.mem_singleton.mp member]
    refine here.imp id (fun files touched => ?_)
    exact absurd ((vlog_first _).symm.trans (table_file_first _ _ (files _ touched))) (by decide)
  refine advances_flusher db i log disk _ log job [op] sound soundNext numbered small backed running rfl rfl
    (Nat.le_refl _) rfl
    ?_ (quiet_log_kept _ disk [op] quiet) ?_ List.prefix_rfl ?_
  · intro other member name touched
    rw [List.mem_singleton.mp member] at touched
    rcases here with rfl | files
    · exact .inl (List.mem_singleton.mp touched)
    · exact .inr (files name touched)
  · rcases quiet op (by simp) with rfl | untouched
    · exact ⟨log.file.length, by simp [FsOp.apply, Disk.set, present]⟩
    · exact ⟨synced, (apply_frame disk op _ untouched).trans present⟩
  · intro next there
    cases there
    refine ⟨working.inline, fun io other built => ?_, fun io other built => ?_⟩
    · cases built
      exact working.stored (op :: rest) sst building
    · cases built
      exact fun later member => touches later (List.mem_cons_of_mem _ member)

theorem built_table_stored (records : List Record) (bytes : Bytes) (sst : SSTable) (name : Bytes)
    (ascending : Ascending Record.key records) (shaped : ∀ rec ∈ records, Shaped rec)
    (built : buildAndOpen cfg records = .ok (bytes, sst)) :
    Stored (applyAll disk (writeTable name bytes)) name sst := by
  obtain ⟨represents, _, opened, _⟩ := build_and_open_spec cfg records bytes sst ascending shaped built
  exact write_table_stored disk name bytes sst opened (represents_well_formed sst records represents)

theorem flush_io_spec (job : FlushJob) (bytes : Bytes) (sst : SSTable) (sound : Sound serial db i log)
    (backed : Backed serial db log disk) (running : db.flusher = some job) (finished : job.pending = [])
    (built : buildAndOpen cfg job.finished = .ok (bytes, sst)) :
    FlushBacked serial disk db.currentGen log { job with
      built := some ((if job.written then [FsOp.fsync log.name] else []) ++ writeTable (sstName job.seq) bytes ++
        [.fsyncDir], sst) } := by
  obtain ⟨originals, split, separations⟩ := (sound.flusher job running).progress
  rw [finished, List.append_nil] at split
  rw [← split] at separations
  have shaped : ∀ rec ∈ job.finished, Shaped rec := by
    intro rec member
    obtain ⟨original, inside, separation⟩ := forall_two_right _ _ job.finished separations rec member
    exact separation_shaped log original rec (snapshot_shaped _ original inside).1 separation
  have ascending := separations_ascending log _ job.finished separations (snapshot_ascending _)
  obtain ⟨represents, formed, ranges⟩ :=
    snapshot_table cfg db.flushingMemtable log job.finished bytes sst separations built
  have working := backed.flush job running
  obtain ⟨synced, present⟩ := backed.vlog
  refine ⟨working.inline, fun io other eq => ?_, fun io other eq => ?_⟩
  · cases eq
    rw [List.append_assoc, apply_all_append]
    refine ⟨?_, ?_⟩
    · rw [apply_all_append]
      exact built_table_stored cfg _ job.finished bytes sst _ ascending shaped built
    · cases wrote : job.written with
      | true =>
          refine ⟨log.file, List.prefix_rfl, ?_⟩
          rw [← sound.gen]
          refine log_holds_synced _ log [sst] sound.aligned ?_ (fun _ other member => ?_)
          · rw [sound.gen, write_ops_log, if_pos rfl, sound.name]
            simp [FsOp.apply, Disk.set, present]
          · rw [List.mem_singleton.mp member]
            exact ranges
      | false =>
          have inline := working.inline wrote
          rw [← represents_records sst _ represents] at inline
          obtain ⟨_, text, known, holds⟩ := committed_db_stored db log disk backed.committed
          exact ⟨text, known, log_holds_kept disk _ _ _ _ (log_kept_same _ _ _ (write_ops_log _ _ _ disk))
            (log_holds_inline disk _ _ _ sst holds inline)⟩
  · cases eq
    intro op member
    rw [List.append_assoc] at member
    rcases List.mem_append.mp member with sync | rest
    · left
      rw [← sound.name]
      cases wrote : job.written <;> simp [wrote] at sync
      exact sync
    · exact .inr (write_ops_touches job.seq bytes op rest)

theorem build_groups_stored (seqs : List Nat) (groups : List (List Record)) (ops : List DiskOp)
    (outputs : List (Bytes × SSTable)) (distinct : seqs.Nodup) (fits : ∀ seq ∈ seqs, seq < 2 ^ 64)
    (ascending : ∀ group ∈ groups, Ascending Record.key group) (shaped : ∀ group ∈ groups, ∀ rec ∈ group, Shaped rec)
    (done : buildGroups cfg seqs groups = .ok (ops, outputs)) :
    (∀ output ∈ outputs, Stored (applyAll disk ops) output.1 output.2) ∧
      ∀ op ∈ ops, ∀ name ∈ op.touches, name ∈ seqs.flatMap tableFiles := by
  induction groups generalizing disk seqs ops outputs with
  | nil =>
      cases seqs <;> cases done <;> simp
  | cons group groups ih =>
      cases seqs with
      | nil =>
          cases done
          simp
      | cons seq seqs =>
          obtain ⟨new, others⟩ := List.nodup_cons.mp distinct
          rw [buildGroups] at done
          obtain ⟨⟨bytes, sst⟩, built, done⟩ := bind_returns _ _ _ done
          obtain ⟨⟨more, tables⟩, rest, done⟩ := bind_returns _ _ _ done
          cases done
          obtain ⟨stored, touches⟩ := ih (applyAll disk (writeTable (sstName seq) bytes)) seqs more tables others
            (fun n member => fits n (List.mem_cons_of_mem _ member))
            (fun other member => ascending other (List.mem_cons_of_mem _ member))
            (fun other member => shaped other (List.mem_cons_of_mem _ member)) rest
          have first := built_table_stored cfg disk group bytes sst (sstName seq) (ascending group (by simp))
            (shaped group (by simp)) built
          have own : ∀ op ∈ more, sstName seq ∉ op.touches := by
            intro op member touched
            obtain ⟨n, inSeqs, there⟩ := List.mem_flatMap.mp (touches op member _ touched)
            have same := table_files_injective seq n (fits seq (by simp)) (fits n (List.mem_cons_of_mem _ inSeqs)) _
              (by simp [tableFiles]) there
            exact new (same ▸ inSeqs)
          rw [apply_all_append]
          refine ⟨List.forall_mem_cons.mpr ⟨stored_same _ _ _ sst (apply_all_frame _ more _ own) first, stored⟩, ?_⟩
          intro op member name touched
          rw [List.flatMap_cons]
          rcases List.mem_append.mp member with inWrite | inMore
          · have files := write_table_touches _ bytes op inWrite name touched
            exact List.mem_append_left _ (by simpa [tableFiles] using files)
          · exact List.mem_append_right _ (touches op inMore name touched)

theorem started_merge_backed (job next : MergeJob) (seqs : List Nat) (groups : List (List Record))
    (records : List Record) (distinct : seqs.Nodup) (fits : ∀ seq ∈ seqs, seq < 2 ^ 64)
    (flat : groups.flatten = records) (ascending : Ascending Record.key records) (shaped : ∀ rec ∈ records, Shaped rec)
    (done : startBuild cfg job seqs groups = .ok next) : MergeBacked disk next := by
  obtain ⟨ops, outputs, built, rfl⟩ := start_build_spec cfg job next seqs groups done
  obtain ⟨groupsAscending, groupsShaped⟩ := group_members groups records flat ascending shaped
  obtain ⟨stored, touches⟩ :=
    build_groups_stored cfg disk seqs groups ops outputs distinct fits groupsAscending groupsShaped built
  refine ⟨fun io others eq => ?_, fun io others eq => ?_⟩
  · cases eq
    rw [apply_all_append]
    exact stored
  · cases eq
    intro op member name touched
    rcases List.mem_append.mp member with inOps | last
    · exact touches op inOps name touched
    · rw [List.mem_singleton.mp last] at touched
      cases touched

theorem run_merge_backed (tables : List Table) (job next : MergeJob) (sound : MergeSound serial tables job)
    (unmerged : job.groups = none) (distinct : job.seqs.Nodup) (fits : ∀ seq ∈ job.seqs, seq < 2 ^ 64)
    (done : runMerge cfg job = .ok next) : MergeBacked disk next := by
  rw [runMerge] at done
  obtain ⟨records, merges, done⟩ := bind_returns _ _ _ done
  obtain ⟨ascending, shaped, _⟩ := merged_records_fit job.inputs sound.formed _ records merges
  split at done
  · cases done
    exact merge_unbuilt_backed disk _ (sound.waiting unmerged)
  · exact started_merge_backed cfg disk job next job.seqs [records] records distinct fits
      (by simp) ascending shaped done

theorem advances_merge (worker : Worker) (job next : MergeJob) (sound : Sound serial db i log)
    (merge : MergeSound serial db.sstables next) (backed : Backed serial db log disk)
    (running : db.job worker = some job) (files : MergeBacked disk next) :
    Advances serial db log (db.setJob next worker) [] disk [] := by
  have soundNext := sound_set_job db i log worker job next sound running merge
  have only : ∀ other ∈ inFlight (db.setJob next worker), MergeBacked disk other := by
    intro other member
    rcases set_job_members db worker job next other running member with rfl | there
    · exact files
    · exact backed.merges other there
  cases worker <;> exact advances_worker db i log disk _ soundNext backed rfl rfl (Nat.le_refl _) backed.flush only

theorem advances_merge_io (worker : Worker) (job : MergeJob) (op : DiskOp) (rest : List DiskOp)
    (outputs : List (Bytes × SSTable)) (sound : Sound serial db i log) (numbered : Numbered db)
    (small : db.nextSeq < 2 ^ 64) (backed : Backed serial db log disk) (running : db.job worker = some job)
    (building : job.built = some (op :: rest, outputs)) :
    Advances serial db log (db.setJob { job with built := some (rest, outputs) } worker) [] disk [op] := by
  obtain ⟨before, after, jobs, set, _⟩ := job_split db worker job running
  have inside := job_running db worker job running
  have working := backed.merges job inside
  have soundNext := sound_set_job db i log worker job _ sound running
    (merge_io_sound db.sstables job op rest outputs (sound.merges job inside) building)
  -- The step touches files of one number that the merge holds.
  have own : ∀ other ∈ [op], ∀ name ∈ other.touches, ∃ seq ∈ job.seqs, name ∈ tableFiles seq := by
    intro other member name touched
    rw [List.mem_singleton.mp member] at touched
    exact List.mem_flatMap.mp (working.touches _ outputs building op (by simp) name touched)
  have live : Apart (liveFiles db) [op] := by
    intro other member name touched needed
    obtain ⟨seq, inSeqs, files⟩ := own other member name touched
    obtain ⟨held, fits⟩ := merge_seq db job seq numbered small inside inSeqs
    exact unused_files_live db numbered small seq fits ((reserved_apart db numbered).2 seq held).1 name files needed
  have flusher : Apart (flusherFiles db) [op] := by
    intro other member name touched mine
    obtain ⟨seq, inSeqs, files⟩ := own other member name touched
    obtain ⟨held, fits⟩ := merge_seq db job seq numbered small inside inSeqs
    cases flushing : db.flusher with
    | none => simp [flusherFiles, flushing] at mine
    | some flush =>
        rcases (mem_flusher_files db flush flushing name).mp mine with rfl | there
        · exact absurd ((vlog_first _).symm.trans (table_file_first _ _ files)) (by decide)
        · obtain ⟨inFlush, flushFits⟩ := flusher_seq db i log flush sound numbered small flushing
          have same := table_files_injective seq flush.seq fits flushFits name files there
          exact ((reserved_apart db numbered).2 seq held).2 (same ▸ inFlush)
  have wal : Apart walFiles [op] := by
    intro other member name touched there
    obtain ⟨seq, _, files⟩ := own other member name touched
    have kinds : ∀ wal ∈ walFiles, wal[0]? ≠ some 0x73 := by decide
    exact kinds name there (table_file_first _ name files)
  have committed := committed_db_apart db log disk [op] backed.committed live
  obtain ⟨synced, present⟩ := backed.vlog
  have moved : MergeBacked (applyAll disk [op]) { job with built := some (rest, outputs) } := by
    refine ⟨fun io others eq => ?_, fun io others eq => ?_⟩
    · cases eq
      exact working.stored _ outputs building
    · cases eq
      exact fun later member => working.touches _ outputs building later (List.mem_cons_of_mem _ member)
  have only : ∀ other ∈ inFlight (db.setJob { job with built := some (rest, outputs) } worker),
      MergeBacked (applyAll disk [op]) other := by
    intro other member
    have others : other ∈ before ++ after → MergeBacked (applyAll disk [op]) other := by
      intro there
      have flying : other ∈ inFlight db := by
        rw [jobs]
        simp only [List.mem_append, List.mem_cons] at there ⊢
        exact there.imp id .inr
      refine merge_backed_apart db.sstables disk [op] other (sound.merges other flying) (backed.merges other flying) ?_
      intro touching first name touched files
      obtain ⟨seq, inSeqs, mine⟩ := own touching first name touched
      obtain ⟨n, inOther, theirs⟩ := List.mem_flatMap.mp files
      have same := table_files_injective seq n (merge_seq db job seq numbered small inside inSeqs).2
        (merge_seq db other n numbered small flying inOther).2 name mine theirs
      exact jobs_apart db numbered before after job other jobs there seq inSeqs (same ▸ inOther)
    rw [set] at member
    rcases List.mem_append.mp member with early | late
    · exact others (List.mem_append_left _ early)
    · rcases List.mem_cons.mp late with rfl | later
      · exact moved
      · exact others (List.mem_append_right _ later)
  have vlog : applyAll disk [op] (vlogName db.currentGen) = some ⟨log.file, synced⟩ :=
    (apart_frame _ disk [op] live _ (by simp [liveFiles])).trans present
  have flush : ∀ flush, db.flusher = some flush → FlushBacked serial (applyAll disk [op]) db.currentGen log flush :=
    fun flush there => flush_backed_apart db log disk [op] flush there (backed.flush flush there) flusher
  have phased : Phased serial db log (db.setJob { job with built := some (rest, outputs) } worker) log [] disk
    ([op] ++ []) := by
    cases worker <;>
      exact same_tables_phased db _ log log disk [op] [] wal rfl rfl (Nat.le_refl _) List.prefix_rfl committed
  refine ⟨i, log, soundNext, ?_, phased⟩
  cases worker <;> exact ⟨throughout_last _ _ _ committed, ⟨synced, vlog⟩, flush, only⟩

end Moves

end Tombstash
