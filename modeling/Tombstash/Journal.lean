import Tombstash.Failures
import Tombstash.Reload
import Tombstash.Reopen

set_option autoImplicit false

namespace Tombstash

variable {found : Bytes} {serial : Prop}

def writesBytes (writes : List Write) : Bytes := walBytes (writes.map writeRecord)

theorem record_write (write : Write) : recordWrite (writeRecord write) = write := by
  obtain ⟨key, value⟩ := write
  cases value <;> rfl

theorem writes_bytes_append (front : List Write) (write : Write) :
    writesBytes (front ++ [write]) = writesBytes front ++ walRecord (writeRecord write) := by
  rw [writesBytes, List.map_append, wal_bytes_append]
  simp [writesBytes, walBytes]

theorem replay_file_writes (disk : Disk Bytes) (name : Bytes) (writes : List Write) (synced : Nat)
    (fits : ∀ write ∈ writes, Logged (writeRecord write)) (present : disk name = some ⟨writesBytes writes, synced⟩) :
    replayFile disk name = writes := by
  have logged : ∀ rec ∈ writes.map writeRecord, Logged rec := by
    intro rec member
    obtain ⟨write, inside, rfl⟩ := List.mem_map.mp member
    exact fits write inside
  have whole := (replay_wal_bytes (writes.map writeRecord) [] logged).1
  rw [List.append_nil] at whole
  rw [replayFile, fileData, present]
  simp only [Option.map_some, Option.elim_some, writesBytes, whole]
  simp [replay, replayLoop, Function.comp_def, record_write]

theorem replay_file_none (disk : Disk Bytes) (name : Bytes) (absent : disk name = none) :
    replayFile disk name = [] := by
  rw [replayFile, fileData, absent]
  rfl

theorem replay_file_same (disk later : Disk Bytes) (name : Bytes) (same : later name = disk name) :
    replayFile later name = replayFile disk name := by
  rw [replayFile, fileData, same, ← fileData, ← replayFile]

theorem replay_file_empty (disk : Disk Bytes) (name : Bytes) (synced : Nat) (present : disk name = some ⟨[], synced⟩) :
    replayFile disk name = [] := by
  rw [replayFile, fileData, present]
  simp [replay, replayLoop]

theorem replay_created (disk : Disk Bytes) (name : Bytes) :
    replayFile ((FsOp.create name).apply disk) name = replayFile disk name := by
  cases present : disk name with
  | some file => rw [create_present disk name file present]
  | none =>
      rw [replay_file_none disk name present, replay_file_empty _ name 0]
      simp [FsOp.apply, set_same, present]

theorem fsync_file (disk : Disk Bytes) (name data : Bytes) (synced : Nat) (present : disk name = some ⟨data, synced⟩) :
    (FsOp.fsync name).apply disk name = some (durable data) := by
  rw [FsOp.apply, set_same, present]
  rfl

-- The write-ahead logs of a store whose writes lie as the split says: the
-- active one holds those of the memtable, the sealed one, which is complete on
-- disk, those of the sealed memtable.
structure Journaled (db : DB) (split : Split) (disk : Disk Bytes) : Prop where
  wal : ∃ synced, disk walName = some ⟨writesBytes split.active, synced⟩
  flushing : disk flushingWalName = if db.hasFlushing then some (durable (writesBytes split.sealed)) else none
  fits : ∀ write ∈ split.sealed ++ split.active, Logged (writeRecord write)

theorem journaled_same (db next : DB) (split : Split) (disk later : Disk Bytes) (journaled : Journaled db split disk)
    (slot : next.hasFlushing = db.hasFlushing) (files : ∀ name ∈ walFiles, later name = disk name) :
    Journaled next split later := by
  obtain ⟨wal, flushing, fits⟩ := journaled
  refine ⟨?_, ?_, fits⟩
  · rw [files walName (by decide)]
    exact wal
  · rw [files flushingWalName (by decide), slot]
    exact flushing

section Moved

variable (cfg : Config) (db next : DB) (split : Split) (disk : Disk Bytes) (kind : Kind)

theorem journaled_wrote (write : Write) (bytes : Bytes) (sync : Bool) (journaled : Journaled db split disk)
    (encoded : walAppend (writeRecord write) = .ok bytes) :
    Journaled { db with memtable := db.memtable.apply write } ((Kind.wrote write sync).shift split)
      (applyAll disk (Kind.wrote write sync).walOps) := by
  obtain ⟨⟨synced, wal⟩, flushing, fits⟩ := journaled
  have appended : (FsOp.append walName (walRecord (writeRecord write))).apply disk walName =
      some ⟨writesBytes (split.active ++ [write]), synced⟩ := by
    rw [FsOp.apply, set_same, wal, writes_bytes_append]
    rfl
  refine ⟨?_, ?_, fun other member => ?_⟩
  · cases sync with
    | false => exact ⟨synced, appended⟩
    | true => exact ⟨_, fsync_file _ walName _ synced appended⟩
  · rw [apply_all_frame disk _ flushingWalName]
    · exact flushing
    · cases sync <;> simp [Kind.walOps, FsOp.touches] <;> decide
  · rw [Kind.shift, ← List.append_assoc, List.mem_append, List.mem_singleton] at member
    rcases member with old | rfl
    · exact fits other old
    · exact append_logged _ bytes (write_record_inline other).1 (write_record_inline other).2 encoded

theorem journaled_sealed (journaled : Journaled db split disk) :
    Journaled (sealedDb db) (Kind.sealed.shift split) (applyAll disk Kind.sealed.walOps) := by
  obtain ⟨⟨synced, wal⟩, flushing, fits⟩ := journaled
  refine ⟨⟨0, ?_⟩, ?_, fun write member => fits write ?_⟩
  · simp [Kind.walOps, Kind.shift, FsOp.apply, Disk.set, writesBytes, walBytes]
  · have different : flushingWalName ≠ walName := by decide
    simp [Kind.walOps, Kind.shift, FsOp.apply, Disk.set, different, wal, sealedDb, durable]
  · simp only [Kind.shift, List.append_nil] at member
    exact List.mem_append_right _ member

theorem journaled_flushed (free : db.hasFlushing = false) (slot : next.hasFlushing = false)
    (journaled : Journaled db split disk) :
    Journaled next (Kind.flushed.shift split) (applyAll disk Kind.flushed.walOps) := by
  obtain ⟨_, flushing, _⟩ := journaled
  refine ⟨⟨0, ?_⟩, ?_, nofun⟩
  · simp [Kind.walOps, Kind.shift, FsOp.apply, set_same, writesBytes, walBytes]
  · rw [apply_all_frame disk _ flushingWalName (by decide), flushing, free, slot]
    rfl

theorem journaled_published (slot : next.hasFlushing = false) (journaled : Journaled db split disk) :
    Journaled next (Kind.published.shift split) (applyAll disk Kind.published.walOps) := by
  obtain ⟨wal, _, fits⟩ := journaled
  refine ⟨?_, ?_, fun write member => fits write ?_⟩
  · rw [apply_all_frame disk _ walName (by decide)]
    exact wal
  · rw [slot]
    simp [Kind.walOps, FsOp.apply, set_same]
  · simp only [Kind.shift, List.nil_append] at member
    exact List.mem_append_right _ member

theorem install_slot (job : MergeJob) (outputs : List (Bytes × SSTable)) :
    (installJob db job outputs).hasFlushing = db.hasFlushing := by
  obtain ⟨_, _, frame⟩ := install_job_frame db job outputs
  rw [frame]

theorem journaled_moved (work : List DiskOp) (garbage : List Bytes) (journaled : Journaled db split disk)
    (move : Move cfg found db kind next (work ++ kind.walOps) garbage) (apart : Apart walFiles work) :
    Journaled next (kind.shift split) (applyAll disk (work ++ kind.walOps)) := by
  have before :=
    journaled_same db db split disk (applyAll disk work) journaled rfl (apart_frame walFiles disk work apart)
  rw [apply_all_append]
  generalize steps : work ++ kind.walOps = ops at move
  cases move with
  | wrote write bytes sync encoded => exact journaled_wrote db split _ write bytes sync before encoded
  | sealed filled free => exact journaled_sealed db split _ before
  | flushed k current grown recs vlogOps bytes sst filled free index object separated built =>
      exact journaled_flushed db _ split _ free free before
  | published job sst running complete => exact journaled_published db _ split _ rfl before
  | synced =>
      obtain ⟨⟨synced, wal⟩, flushing, fits⟩ := before
      refine ⟨⟨_, fsync_file _ walName _ synced wal⟩, ?_, fits⟩
      rw [apply_all_frame _ _ flushingWalName (by decide)]
      exact flushing
  | picked picked job noJob picks =>
      obtain ⟨⟨seq, rfl, _⟩, _⟩ := pick_job_fresh cfg db picked job picks
      exact journaled_same db _ split _ _ before rfl (fun _ _ => rfl)
  | installed worker job outputs running complete =>
      have slot := install_slot db job outputs
      cases worker <;> exact journaled_same db _ split _ _ before slot (fun _ _ => rfl)
  | merged worker job later running unmerged merges =>
      cases worker <;> exact journaled_same db _ split _ _ before rfl (fun _ _ => rfl)
  | mergeIo worker job op rest outputs running building =>
      cases worker <;> exact journaled_same db _ split _ _ before rfl (fun _ _ => rfl)
  | collected merged relocated opened grown vlogOps bytes sst free quiet filled merges opens relocates built =>
      exact journaled_same db _ split _ _ before rfl (fun _ _ => rfl)
  | _ => exact journaled_same db _ split _ _ before rfl (fun _ _ => rfl)

end Moved

theorem flush_keeps_slot (cfg : Config) (db next : DB) (kind : Kind) (ops : List DiskOp) (garbage : List Bytes)
    (plain : kind = .flushed ∨ kind = .idle) (move : Move cfg found db kind next ops garbage) :
    next.hasFlushing = db.hasFlushing ∧ (kind = .idle → next.memtable = db.memtable ∧ ops = []) := by
  rcases plain with rfl | rfl
  · cases move
    exact ⟨rfl, nofun⟩
  · cases move <;> exact ⟨rfl, fun _ => ⟨rfl, rfl⟩⟩

end Tombstash
