import Tombstash.ClosedStore

set_option autoImplicit false

namespace Tombstash

variable {serial : Prop}

-- What the constructor has done with a complete store: it loads the tables and
-- replays the logs and, where a sealed log was left, flushes what it replayed.
structure Loads (serial : Prop) (cfg : Config) (disk : Disk Bytes) (m : ManifestData) (ssts : List SSTable)
    (file : File) (next : Sys) (kind : Kind) (orphans work : List DiskOp) : Prop where
  present : disk (vlogName m.currentGen) = some file
  plain : kind = .flushed ∨ kind = .idle
  sound : Sound serial (loadedDb m ssts file.data (replayedWrites disk)) 0
    (ValueLog.opened (vlogName m.currentGen) m.currentGen file.data)
  numbered : Numbered (loadedDb m ssts file.data (replayedWrites disk))
  move : Move cfg [] (loadedDb m ssts file.data (replayedWrites disk)) kind next.db (work ++ kind.walOps) []
  apart : Apart walFiles work
  start : ∀ name ∈ walFiles, applyAll disk (startOps m orphans) name = (FsOp.create walName).apply disk name
  todo : next.todo = startOps m orphans ++ (work ++ kind.walOps ++ dropFlushing (disk flushingWalName).isSome)
  leftover : (disk flushingWalName).isSome = true → next.db.memtable.isEmpty = true
  clean : (disk flushingWalName).isSome = false → kind = .idle ∧
    next.db = loadedDb m ssts file.data (replayedWrites disk)

theorem opens_loads (cfg : Config) (disk : Disk Bytes) (m : ManifestData) (text : Bytes) (ssts : List SSTable)
    (file : File) (next : Sys) (committed : Committed serial disk m text ssts)
    (present : disk (vlogName m.currentGen) = some file) (valid : disk.Valid) (opens : Opens cfg disk next) :
    ∃ kind orphans work, Loads serial cfg disk m ssts file next kind orphans work := by
  obtain ⟨listing, lists, opened⟩ := opens.opened
  obtain ⟨orphans, kind, front, swept, plain, move, shape, leftover, clean⟩ :=
    opened_move cfg listing disk m text ssts committed
    file present next.db next.todo opened
  obtain ⟨_, _, start⟩ := start_ops_committed listing disk m text ssts committed file present orphans swept
  obtain ⟨_, _, _, _, work, rfl, apart, _⟩ :=
    opened_advances cfg listing disk m text ssts committed file present next.db orphans
    front kind (replayedWrites disk) swept plain move valid (within_limits_listable next.db opens.limits)
  exact ⟨kind, orphans, work, present, plain,
    loaded_sound disk m text ssts committed file present (replayedWrites disk),
    loaded_numbered disk m text ssts committed file (replayedWrites disk), move, apart, start, shape, leftover, clean⟩

-- A clean close and the constructor after it.
structure Reopened (serial : Prop) (cfg : Config) (s next : Sys) (i : Nat) (log : ValueLog)
    (seq synced : Nat) (kind : Kind) (orphans work : List DiskOp) : Prop where
  sound : Sound serial s.db i log
  backed : Backed serial s.db log s.disk
  counter : seq ≤ s.db.nextSeq
  loads : Loads serial cfg s.disk (manifestAt seq s.db) (s.db.sstables.map Table.sst) ⟨log.file, synced⟩
    next kind orphans work

theorem reopen_loads (good : Good) (empty : Prop) (cfg : Config) (s next : Sys) (inv : SysInv serial good empty s)
    (closed : Closed s) (opens : Opens cfg s.disk next) :
    ∃ i log seq synced kind orphans work, Reopened serial cfg s next i log seq synced kind orphans work := by
  obtain ⟨i, log, sound, backed⟩ := inv.state
  rw [closed.todo, apply_all_nil] at backed
  obtain ⟨seq, text, le, _, committed⟩ := backed.committed
  obtain ⟨synced, present⟩ := backed.vlog
  obtain ⟨kind, orphans, work, loads⟩ :=
    opens_loads cfg s.disk (manifestAt seq s.db) text _ ⟨log.file, synced⟩ next committed present
    inv.valid opens
  exact ⟨i, log, seq, synced, kind, orphans, work, sound, backed, le, loads⟩

end Tombstash
