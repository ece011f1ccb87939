import Tombstash.Commit
import Tombstash.Numbers

set_option autoImplicit false

namespace Tombstash

variable {serial : Prop}

def manifestAt (seq : Nat) (db : DB) : ManifestData := { manifestOf db with nextSeq := seq }

-- The MANIFEST on disk names the tables of the store. Its next_seq may lag, and
-- so may the durable part of the log.
def CommittedDb (serial : Prop) (db : DB) (log : ValueLog) (disk : Disk Bytes) : Prop :=
  ∃ seq text, seq ≤ db.nextSeq ∧ text <+: log.file ∧
    Committed serial disk (manifestAt seq db) text (db.sstables.map Table.sst)

-- The files that building a table touches.
def tableFiles (seq : Nat) : List Bytes := [sstName seq, tmpName (sstName seq)]

-- A flush at work. The steps it has left complete its table and its log.
structure FlushBacked (serial : Prop) (disk : Disk Bytes) (gen : UInt32) (log : ValueLog) (job : FlushJob) : Prop where
  inline : job.written = false → ∀ rec ∈ job.finished, rec.separated = false
  stored : ∀ io sst, job.built = some (io, sst) →
    Stored (applyAll disk io) (sstName job.seq) sst ∧
      ∃ text, text <+: log.file ∧ LogHolds serial (applyAll disk io) gen text [sst]
  touches : ∀ io sst, job.built = some (io, sst) → ∀ op ∈ io, op = .fsync (vlogName gen) ∨
    ∀ name ∈ op.touches, name ∈ tableFiles job.seq

-- A merge at work, likewise.
structure MergeBacked (disk : Disk Bytes) (job : MergeJob) : Prop where
  stored : ∀ io outputs, job.built = some (io, outputs) →
    ∀ output ∈ outputs, Stored (applyAll disk io) output.1 output.2
  touches : ∀ io outputs, job.built = some (io, outputs) → ∀ op ∈ io, ∀ name ∈ op.touches,
    name ∈ job.seqs.flatMap tableFiles

structure Backed (serial : Prop) (db : DB) (log : ValueLog) (disk : Disk Bytes) : Prop where
  committed : CommittedDb serial db log disk
  vlog : ∃ synced, disk (vlogName db.currentGen) = some ⟨log.file, synced⟩
  flush : ∀ job, db.flusher = some job → FlushBacked serial disk db.currentGen log job
  merges : ∀ job ∈ inFlight db, MergeBacked disk job

-- The files that workers may still change.
def flusherFiles (db : DB) : List Bytes :=
  match db.flusher with
  | none => []
  | some job => vlogName db.currentGen :: tableFiles job.seq

def mergeFiles (db : DB) : List Bytes := (inFlight db).flatMap (fun job => job.seqs.flatMap tableFiles)

def workFiles (db : DB) : List Bytes := flusherFiles db ++ mergeFiles db

-- The files whose contents the store relies on.
def liveFiles (db : DB) : List Bytes := manifestName :: vlogName db.currentGen :: db.sstables.map Table.name

theorem needed_live (seq : Nat) (db : DB) : manifestName :: neededFiles (manifestAt seq db) = liveFiles db := by
  simp [neededFiles, manifestAt, manifestOf, liveFiles, Function.comp_def]

theorem committed_db_apart (db : DB) (log : ValueLog) (disk : Disk Bytes) (ops : List DiskOp)
    (committed : CommittedDb serial db log disk) (apart : Apart (liveFiles db) ops) :
    Throughout (CommittedDb serial db log) disk ops := by
  obtain ⟨seq, text, le, known, holds⟩ := committed
  refine throughout_imp _ _ disk ops (committed_apart disk _ _ _ ops holds ?_)
    (fun d there => ⟨seq, text, le, known, there⟩)
  rw [needed_live]
  exact apart

theorem stored_same (disk later : Disk Bytes) (name : Bytes) (sst : SSTable) (same : later name = disk name)
    (stored : Stored disk name sst) : Stored later name sst := by
  obtain ⟨bytes, present, rest⟩ := stored
  exact ⟨bytes, same.trans present, rest⟩

theorem mem_flusher_files (db : DB) (job : FlushJob) (running : db.flusher = some job) (name : Bytes) :
    name ∈ flusherFiles db ↔ name = vlogName db.currentGen ∨ name ∈ tableFiles job.seq := by
  simp [flusherFiles, running]

theorem flush_touches (disk : Disk Bytes) (db : DB) (log : ValueLog) (job : FlushJob) (io : List DiskOp) (sst : SSTable)
    (backed : FlushBacked serial disk db.currentGen log job) (running : db.flusher = some job)
    (built : job.built = some (io, sst)) :
    ∀ op ∈ io, ∀ name ∈ op.touches, name ∈ flusherFiles db := by
  intro op member name touched
  rw [mem_flusher_files db job running]
  rcases backed.touches io sst built op member with rfl | files
  · exact .inl (List.mem_singleton.mp touched)
  · exact .inr (files name touched)

theorem flush_backed_apart (db : DB) (log : ValueLog) (disk : Disk Bytes) (ops : List DiskOp) (job : FlushJob)
    (running : db.flusher = some job) (backed : FlushBacked serial disk db.currentGen log job)
    (apart : Apart (flusherFiles db) ops) : FlushBacked serial (applyAll disk ops) db.currentGen log job := by
  have mine : ∀ name, name = vlogName db.currentGen ∨ name ∈ tableFiles job.seq → name ∈ flusherFiles db := fun name =>
    (mem_flusher_files db job running name).mpr
  refine ⟨backed.inline, fun io sst built => ?_, backed.touches⟩
  obtain ⟨stored, text, known, holds⟩ := backed.stored io sst built
  have swap : applyAll (applyAll disk ops) io = applyAll (applyAll disk io) ops :=
    apply_all_swap disk ops io (fun op member other inside name touched both =>
      apart op member name touched (flush_touches disk db log job io sst backed running built other inside name both))
  rw [swap]
  refine ⟨stored_same _ _ _ sst (apart_frame _ _ ops apart _ (mine _ (.inr (by simp [tableFiles])))) stored, text,
    known, ?_⟩
  exact log_holds_kept _ _ _ _ _ (log_kept_same _ _ _ (apart_frame _ _ ops apart _ (mine _ (.inl rfl)))) holds

theorem merge_backed_apart (tables : List Table) (disk : Disk Bytes) (ops : List DiskOp) (job : MergeJob)
    (sound : MergeSound serial tables job) (backed : MergeBacked disk job)
    (apart : Apart (job.seqs.flatMap tableFiles) ops) :
    MergeBacked (applyAll disk ops) job := by
  refine ⟨fun io outputs built output member => ?_, backed.touches⟩
  have swap : applyAll (applyAll disk ops) io = applyAll (applyAll disk io) ops :=
    apply_all_swap disk ops io (fun op first other inside name touched both =>
      apart op first name touched (backed.touches io outputs built other inside name both))
  rw [swap]
  refine stored_same _ _ _ output.2 (apart_frame _ _ ops apart _ ?_) (backed.stored io outputs built output member)
  have name : output.1 ∈ job.seqs.map sstName := sound.named io outputs built ▸ List.mem_map_of_mem member
  obtain ⟨seq, inSeqs, same⟩ := List.mem_map.mp name
  exact List.mem_flatMap.mpr ⟨seq, inSeqs, by simp [tableFiles, same]⟩

theorem merges_backed_apart (db : DB) (i : Nat) (log : ValueLog) (disk : Disk Bytes) (ops : List DiskOp)
    (sound : Sound serial db i log) (merges : ∀ job ∈ inFlight db, MergeBacked disk job)
    (apart : Apart (mergeFiles db) ops) :
    ∀ job ∈ inFlight db, MergeBacked (applyAll disk ops) job := fun job running =>
  merge_backed_apart db.sstables disk ops job (sound.merges job running) (merges job running)
    (fun op member name touched inside => apart op member name touched (List.mem_flatMap.mpr ⟨job, running, inside⟩))

theorem backed_apart (db : DB) (i : Nat) (log : ValueLog) (disk : Disk Bytes) (ops : List DiskOp)
    (sound : Sound serial db i log) (backed : Backed serial db log disk) (live : Apart (liveFiles db) ops)
    (work : Apart (workFiles db) ops) :
    Backed serial db log (applyAll disk ops) := by
  have flusher : Apart (flusherFiles db) ops := fun op member name touched inside =>
    work op member name touched (List.mem_append_left _ inside)
  have merge : Apart (mergeFiles db) ops := fun op member name touched inside =>
    work op member name touched (List.mem_append_right _ inside)
  obtain ⟨synced, present⟩ := backed.vlog
  refine ⟨throughout_last _ _ _ (committed_db_apart db log disk ops backed.committed live), ⟨synced, ?_⟩, ?_, ?_⟩
  · rw [apart_frame _ disk ops live _ (by simp [liveFiles])]
    exact present
  · exact fun job running => flush_backed_apart db log disk ops job running (backed.flush job running) flusher
  · exact merges_backed_apart db i log disk ops sound backed.merges merge

end Tombstash
