import Tombstash.Garbage
import Tombstash.Recover

set_option autoImplicit false

namespace Tombstash

variable {found : Bytes} {serial : Prop}

section Worked

variable (cfg : Config) (db next : DB) (i : Nat) (log : ValueLog) (disk : Disk Bytes) (ops : List DiskOp)
    (garbage : List Bytes)

-- What work outside the lock leaves alone.
structure Frames (db next : DB) : Prop where
  tables : next.sstables = db.sstables
  gen : next.currentGen = db.currentGen
  counter : next.nextSeq = db.nextSeq
  flusher : next.flusher = none ↔ db.flusher = none
  files : workFiles next = workFiles db

theorem frames_flusher (job later : FlushJob) (running : db.flusher = some job) (changed : next.flusher = some later)
    (same : later.seq = job.seq) (tables : next.sstables = db.sstables) (gen : next.currentGen = db.currentGen)
    (counter : next.nextSeq = db.nextSeq) (jobs : inFlight next = inFlight db) : Frames db next := by
  refine ⟨tables, gen, counter, by simp [running, changed], ?_⟩
  simp only [workFiles, flusherFiles, running, changed, gen, same, mergeFiles, jobs]

theorem frames_merge (worker : Worker) (job later : MergeJob) (running : db.job worker = some job)
    (same : later.seqs = job.seqs) : Frames db (db.setJob later worker) := by
  obtain ⟨before, after, jobs, set, _⟩ := job_split db worker job running
  have files : mergeFiles (db.setJob later worker) = mergeFiles db := by
    simp only [mergeFiles, jobs, set later, List.flatMap_append, List.flatMap_cons, same]
  have flusher : flusherFiles (db.setJob later worker) = flusherFiles db := by cases worker <;> rfl
  refine ⟨by cases worker <;> rfl, by cases worker <;> rfl, by cases worker <;> rfl,
    by cases worker <;> exact Iff.rfl, ?_⟩
  rw [workFiles, workFiles, files, flusher]

theorem worked_frames (move : Move cfg found db .worked next ops garbage) : Frames db next ∧ garbage = [] := by
  cases move with
  | separated job rec stored rest current later io running unbuilt pending object separates =>
      exact ⟨frames_flusher db _ job _ running rfl rfl rfl rfl rfl rfl, rfl⟩
  | flushBuilt job current bytes sst running unbuilt finished object built =>
      exact ⟨frames_flusher db _ job _ running rfl rfl rfl rfl rfl rfl, rfl⟩
  | flushIo job op rest sst running building =>
      exact ⟨frames_flusher db _ job _ running rfl rfl rfl rfl rfl rfl, rfl⟩
  | merged worker job later running unmerged merges =>
      exact ⟨frames_merge db worker job later running (run_merge_seqs cfg job later merges), rfl⟩
  | mergeIo worker job op rest outputs running building =>
      exact ⟨frames_merge db worker job { job with built := some (rest, outputs) } running rfl, rfl⟩

theorem merge_file_work (job : MergeJob) (running : job ∈ inFlight db) (name : Bytes)
    (files : name ∈ job.seqs.flatMap tableFiles) :
    name ∈ workFiles db :=
  List.mem_append_right _ (List.mem_flatMap.mpr ⟨job, running, files⟩)

theorem worked_touches (sound : Sound serial db i log) (backed : Backed serial db log disk)
    (move : Move cfg found db .worked next ops garbage) : ∀ op ∈ ops, ∀ name ∈ op.touches, name ∈ workFiles db := by
  cases move with
  | separated job rec stored rest current later io running unbuilt pending object separates =>
      obtain ⟨rfl, _, appended, _, _⟩ :=
        sound_separated cfg db i log job rec stored rest current later ops sound running unbuilt
        pending object separates
      intro op member name touched
      rw [appended.touches op member, List.mem_singleton] at touched
      refine List.mem_append_left _ ((mem_flusher_files db job running name).mpr (.inl ?_))
      rw [touched, sound.name]
  | flushIo job op rest sst running building =>
      intro other member name touched
      rw [List.mem_singleton.mp member] at touched
      exact List.mem_append_left _
        (flush_touches disk db log job _ sst (backed.flush job running) running building op (by simp)
        name touched)
  | mergeIo worker job op rest outputs running building =>
      have inside := job_running db worker job running
      intro other member name touched
      rw [List.mem_singleton.mp member] at touched
      exact merge_file_work db job inside name
        ((backed.merges job inside).touches _ outputs building op (by simp) name touched)
  | _ => simp

theorem worked_log_kept (sound : Sound serial db i log) (backed : Backed serial db log disk)
    (move : Move cfg found db .worked next ops garbage) (other : Disk Bytes) (synced : Nat)
    (present : other (vlogName db.currentGen) = some ⟨log.file, synced⟩) (inside : synced ≤ log.file.length) :
    LogKept other (applyAll other ops) db.currentGen := by
  have quiet : LogQuiet db.currentGen ops → LogKept other (applyAll other ops) db.currentGen := fun calm =>
    throughout_last _ _ _ (quiet_log_kept db.currentGen other ops calm)
  cases move with
  | separated job rec stored rest current later io running unbuilt pending object separates =>
      obtain ⟨rfl, _, appended, _, _⟩ :=
        sound_separated cfg db i log job rec stored rest current later ops sound running unbuilt
        pending object separates
      have atLog : other current.name = some ⟨current.file, synced⟩ := by rw [sound.name]; exact present
      have kept := appended_log_kept db.currentGen current later other synced ops [] sound.name appended atLog inside
        (by simp [LogQuiet])
      rw [List.append_nil] at kept
      exact throughout_last _ _ _ kept
  | flushIo job op rest sst running building =>
      refine quiet (fun one member => ?_)
      rw [List.mem_singleton.mp member]
      refine ((backed.flush job running).touches _ sst building op (by simp)).imp id (fun files touched => ?_)
      exact absurd ((vlog_first _).symm.trans (table_file_first _ _ (files _ touched))) (by decide)
  | mergeIo worker job op rest outputs running building =>
      refine quiet (fun one member => .inr (fun touched => ?_))
      rw [List.mem_singleton.mp member] at touched
      have files :=
        (backed.merges job (job_running db worker job running)).touches _ outputs building op (by simp) _ touched
      obtain ⟨seq, _, there⟩ := List.mem_flatMap.mp files
      exact absurd ((vlog_first _).symm.trans (table_file_first _ _ there)) (by decide)
  | _ => exact quiet (by simp [LogQuiet])

end Worked

-- The files that a section touches.
def Touch (db next : DB) (name : Bytes) : Prop :=
  name ∈ otherFiles ∨ name ∈ tableFiles db.nextSeq ∧ workSeqs next = workSeqs db ∨
    name = vlogName next.currentGen ∧ next.flusher = none

section Locked

variable (cfg : Config) (db next : DB) (i : Nat) (log : ValueLog) (kind : Kind) (ops : List DiskOp)
    (garbage : List Bytes)

theorem wal_touch (op : DiskOp) (member : op ∈ kind.walOps) :
    ∀ name ∈ op.touches, Touch db next name := fun name touched =>
  .inl (List.mem_append_left _ (wal_ops_files kind op member name touched))

theorem manifest_touch (base : DB) (op : DiskOp) (member : op ∈ writeManifestLocked base) :
    ∀ name ∈ op.touches, Touch db next name := by
  intro name touched
  rcases manifest_files _ op member name touched with rfl | rfl
  · exact .inl (by decide)
  · exact .inl (by decide)

theorem write_touch (work : workSeqs next = workSeqs db) (bytes : Bytes) (op : DiskOp)
    (member : op ∈ writeTable (sstName db.nextSeq) bytes) :
    ∀ name ∈ op.touches, Touch db next name := fun name touched =>
  .inr (.inl ⟨write_ops_touches db.nextSeq bytes op (List.mem_append_left _ member) name touched, work⟩)

theorem locked_touches (sound : Sound serial db i log) (move : Move cfg found db kind next ops garbage)
    (locked : kind ≠ .worked) : ∀ op ∈ ops, ∀ name ∈ op.touches, Touch db next name := by
  have sync : ∀ op, op = FsOp.fsyncDir → ∀ name ∈ op.touches, Touch db next name := by
    rintro op rfl name touched
    cases touched
  cases move with
  | wrote write bytes forced encoded =>
      intro op member
      refine wal_touch db _ (.wrote write forced) op ?_
      rw [Kind.walOps, ← wal_append_bytes (writeRecord write) bytes encoded]
      exact member
  | synced => exact fun op member => wal_touch db _ .synced op member
  | sealed filled free => exact fun op member => wal_touch db _ .sealed op member
  | flushed k current later recs vlogOps bytes sst filled free index object separated built =>
      obtain ⟨rfl, rfl⟩ := sound_current db i log sound k current index object
      obtain ⟨appended, _⟩ := separate_all_spec cfg log later _ recs vlogOps sound.aligned separated
      have onLog : ∀ name, name = log.name → Touch db (flushedDb db i later sst) name := by
        rintro name rfl
        exact .inr (.inr ⟨sound.name, sound.idle free⟩)
      intro op member
      simp only [flushOps, List.mem_append] at member
      rcases member with ((((inLog | inSync) | inTable) | dir) | manifest) | wal
      · intro name touched
        rw [appended.touches op inLog] at touched
        exact onLog name (List.mem_singleton.mp touched)
      · split at inSync
        · cases inSync
        · intro name touched
          rw [List.mem_singleton.mp inSync] at touched
          exact onLog name (List.mem_singleton.mp touched)
      · exact write_touch db _ rfl bytes op inTable
      · exact sync op (List.mem_singleton.mp dir)
      · exact manifest_touch db _ _ op manifest
      · exact wal_touch db _ .flushed op wal
  | collected merged relocated opened later vlogOps bytes sst free quiet flushed merges opens relocates built =>
      obtain ⟨rfl, aligned⟩ := open_log_spec _ _ _ opened opens
      obtain ⟨appended, _⟩ := relocate_all_spec db.logs db.vlogs _ later merged relocated vlogOps aligned relocates
      have onLog : ∀ name, name = vlogName (db.currentGen + 1) → Touch db (collectedDb db later sst) name := by
        rintro name rfl
        exact .inr (.inr ⟨rfl, sound.idle free⟩)
      intro op member
      simp only [List.mem_append] at member
      rcases member with ((((create | inLog) | inSync) | inTable) | dir) | manifest
      · intro name touched
        rw [List.mem_singleton.mp create] at touched
        exact onLog name (List.mem_singleton.mp touched)
      · intro name touched
        rw [appended.touches op inLog] at touched
        exact onLog name (List.mem_singleton.mp touched)
      · intro name touched
        rw [List.mem_singleton.mp inSync] at touched
        exact onLog name (List.mem_singleton.mp touched)
      · exact write_touch db (collectedDb db later sst) rfl bytes op inTable
      · exact sync op (List.mem_singleton.mp dir)
      · exact manifest_touch db _ _ op manifest
  | published job sst running complete =>
      intro op member
      rcases List.mem_append.mp member with manifest | wal
      · exact manifest_touch db _ _ op manifest
      · exact wal_touch db _ .published op wal
  | installed worker job outputs running complete => exact fun op member => manifest_touch db _ _ op member
  | separated job rec stored rest current later io running unbuilt pending object separates => exact absurd rfl locked
  | flushIo job op rest sst running building => exact absurd rfl locked
  | mergeIo worker job op rest outputs running building => exact absurd rfl locked
  | _ => simp

theorem other_moves_touch (move : Move cfg found db kind next ops garbage) (locked : kind ≠ .worked)
    (unflushed : kind ≠ .flushed) (uncollected : kind ≠ .collected) :
    ∀ op ∈ ops, ∀ name ∈ op.touches, name ∈ otherFiles := by
  have wal : ∀ op ∈ kind.walOps, ∀ name ∈ op.touches, name ∈ otherFiles := fun op member name touched =>
    List.mem_append_left _ (wal_ops_files kind op member name touched)
  have manifest : ∀ base : DB, ∀ op ∈ writeManifestLocked base, ∀ name ∈ op.touches, name ∈ otherFiles := by
    intro base op member name touched
    rcases manifest_files _ op member name touched with rfl | rfl <;> decide
  cases move with
  | wrote write bytes sync encoded =>
      rw [Kind.walOps, ← wal_append_bytes (writeRecord write) bytes encoded] at wal
      exact wal
  | synced => exact wal
  | sealed filled free => exact wal
  | published job sst running complete => exact List.forall_mem_append.mpr ⟨manifest _, wal⟩
  | installed worker job outputs running complete => exact manifest _
  | flushed => exact absurd rfl unflushed
  | collected => exact absurd rfl uncollected
  | separated | flushBuilt | flushIo | merged | mergeIo => exact absurd rfl locked
  | _ => exact List.forall_mem_nil _

theorem touch_store_name (small : db.nextSeq < 2 ^ 64) (name : Bytes) (touch : Touch db next name) :
    StoreName name := by
  rcases touch with other | ⟨files, _⟩ | ⟨log, _⟩
  · exact .inl other
  · exact .inr (.inl ⟨db.nextSeq, small, files⟩)
  · exact .inr (.inr ⟨_, log⟩)

theorem touch_not_work (numbered : Numbered db) (soundNext : Sound serial next i log) (numberedNext : Numbered next)
    (small : next.nextSeq < 2 ^ 64) (counter : db.nextSeq ≤ next.nextSeq) (name : Bytes) (touch : Touch db next name) :
    name ∉ workFiles next := by
  intro member
  rcases touch with other | ⟨files, work⟩ | ⟨log, idle⟩
  · rcases work_first next name member with table | log
    · exact (other_first name other).1 table
    · exact (other_first name other).2 log
  · refine unheld_not_work next i log soundNext numberedNext small db.nextSeq (Nat.lt_of_le_of_lt counter small)
      ?_ name files member
    rw [work]
    intro held
    exact absurd (numbered.fresh _ ((mem_reserved db _).mpr (.inr held))) (Nat.lt_irrefl _)
  · rcases work_file_seq next i _ soundNext numberedNext small name member with ⟨_, running⟩ | ⟨seq, _, _, files⟩
    · exact running idle
    · rw [log] at files
      exact absurd ((vlog_first _).symm.trans (table_file_first seq _ files)) (by decide)

theorem touch_not_stale (small : db.nextSeq < 2 ^ 64) (gens : db.currentGen.toNat ≤ next.currentGen.toNat)
    (name : Bytes) (touch : Touch db next name) : ¬ Stale db name := by
  rintro (⟨seq, old, _, rfl⟩ | ⟨gen, older, rfl⟩)
  · rcases touch with other | ⟨files, _⟩ | ⟨log, _⟩
    · exact (other_first _ other).1 (sst_first seq)
    · have same := table_files_injective seq db.nextSeq (Nat.lt_trans old small) small _ (by simp [tableFiles]) files
      exact Nat.ne_of_lt old same
    · have kind := sst_first seq
      rw [log] at kind
      exact absurd ((vlog_first _).symm.trans kind) (by decide)
  · rcases touch with other | ⟨files, _⟩ | ⟨log, _⟩
    · exact (other_first _ other).2 (vlog_first gen)
    · exact absurd ((vlog_first gen).symm.trans (table_file_first _ _ files)) (by decide)
    · rw [vlog_name_injective _ _ log] at older
      omega

theorem plain_work_files (sound : Sound serial db i log) (move : Move cfg found db kind next ops garbage)
    (plain : kind.Plain) :
    workFiles next = workFiles db := by
  cases move with
  | rest => rfl
  | waits waiters => rfl
  | bloom on => rfl
  | sealed filled free => rfl
  | collected merged relocated opened later vlogOps bytes sst free quiet flushed merges opens relocates built =>
      have none := sound.idle free
      simp [workFiles, flusherFiles, none, collectedDb, mergeFiles, inFlight]
  | _ => exact plain.elim

end Locked

end Tombstash
