import Tombstash.Promises
import Tombstash.Strategies

set_option autoImplicit false

namespace Tombstash

variable {serial : Prop}

theorem opened_reopens (cfg : Config) (listing : List Bytes) (disk : Disk Bytes) (m : ManifestData) (text : Bytes)
    (ssts : List SSTable) (committed : Committed serial disk m text ssts) (file : File)
    (present : disk (vlogName m.currentGen) = some file) (names : ∀ name, (disk name).isSome = true → Classified name)
    (lists : Lists disk listing) : Reopens cfg listing disk := by
  obtain ⟨orphans, swept⟩ := cleanup_total (m.tables.map ManifestEntry.name) m.currentGen listing
    (fun name member => names name ((lists.2 name).mp member))
  obtain ⟨manifest, loads⟩ := manifest_loads listing disk m text ssts committed file present
  rw [Reopens, open_committed cfg listing disk m text ssts committed file present, swept]
  cases sealed : (disk flushingWalName).isSome with
  | false => exact .inl ⟨_, rfl⟩
  | true =>
      rw [finishRecovery, if_pos rfl]
      cases flush : flushLocked cfg (loadedDb m ssts file.data (replayedWrites disk)) with
      | ok flushed => exact .inl ⟨_, rfl⟩
      | error e =>
          obtain ⟨what, rfl⟩ :=
            flush_only_io cfg _ 0 _ (loaded_sound disk m text ssts committed file present (replayedWrites disk))
            ⟨replayedWrites disk, rfl, replayed_logged disk⟩ e flush
          refine .inr ⟨rfl, _, what, ?_, flush, rfl⟩
          rw [loadDB, manifest]
          simp only [bind, Except.bind, loads, swept, Except.map]
          rfl

theorem openable_reopens (cfg : Config) (listing : List Bytes) (disk : Disk Bytes)
    (names : ∀ name, (disk name).isSome = true → StoreName name) (lists : Lists disk listing)
    (openable : Blank disk ∨ ∃ m text ssts, Committed serial disk m text ssts) : Reopens cfg listing disk := by
  rcases openable with blank | ⟨m, text, ssts, committed⟩
  · exact .inl ⟨_, open_blank cfg listing disk blank lists⟩
  · obtain ⟨file, present, _⟩ := committed.prepared.vlog
    exact opened_reopens cfg listing disk m text ssts committed file present
      (fun name there => store_name_classified name (names name there)) lists

section Opened

variable (cfg : Config) (listing : List Bytes) (disk : Disk Bytes) (m : ManifestData) (text : Bytes)
    (ssts : List SSTable)
variable (committed : Committed True disk m text ssts) (file : File)
    (present : disk (vlogName m.currentGen) = some file)

include committed present in
theorem opened_get (db : DB) (ops : List DiskOp) (opens : openDB cfg listing disk = .ok (db, ops)) (done : List Write)
    (holds : TablesHold (ValueLog.opened (vlogName m.currentGen) m.currentGen file.data) done ssts) (key : Bytes) :
    db.get key = .ok (valueOf (done ++ replayedWrites disk) key) := by
  obtain ⟨_, kind, front, _, plain, move, _⟩ :=
    opened_move cfg listing disk m text ssts committed file present db ops opens
  have sound := loaded_sound disk m text ssts committed file present (replayedWrites disk)
  obtain ⟨stamp, hist⟩ :=
    loaded_hist m ssts file.data (replayedWrites disk) done committed.prepared.tables.length_eq holds
  obtain ⟨j, later, soundNext, grow⟩ := move_sound cfg _ 0 _ kind db front [] sound move
    (fun _ picks => by rcases plain with rfl | rfl <;> cases picks)
  obtain ⟨⟨stamp', histNext⟩, same⟩ := move_hist _ db _ later _ _ _ stamp 0 cfg kind front [] j sound hist
    (by simp [inFlight, loadedDb]) move soundNext grow
  have writes : kind.writes = [] := by rcases plain with rfl | rfl <;> rfl
  rw [DB.get, get_correct db j later _ _ _ stamp' db.logs key soundNext histNext (logs_grow_refl _) soundNext.small]
  rw [writes] at same
  simpa [Split.all] using congrArg (fun history => Except.ok (ε := Error) (valueOf history key)) same

end Opened

-- Two logs that begin with the same text say the same to records that point
-- into it.
theorem denotes_within (log later : ValueLog) (text : Bytes) (rec : Record) (value : Option Bytes)
    (gen : later.gen = log.gen) (old : text <+: log.file) (new : text <+: later.file)
    (inside : Inside log.gen text.length rec) (denotes : Denotes log rec value) : Denotes later rec value := by
  cases value with
  | none => exact denotes
  | some v =>
      obtain ⟨put, stored⟩ := denotes
      refine ⟨put, ?_⟩
      cases separated : rec.separated with
      | false => simpa [separated] using stored
      | true =>
          rw [separated, if_pos rfl] at stored
          rw [if_pos rfl]
          obtain ⟨extra, eq⟩ := old
          have within := (inside separated).2
          refine ⟨stored.1.trans gen.symm, ?_⟩
          have short : Points { log with file := text } rec.vptr v := by
            refine ⟨within, ?_⟩
            rw [← stored.2.bytes, ← eq, slice_append_left _ _ _ _ within]
          obtain ⟨more, eq'⟩ := new
          exact ⟨Nat.le_trans within (by rw [← eq']; simp),
            by rw [← eq', slice_append_left _ _ _ _ within]; exact short.bytes⟩

theorem tables_hold_within (log later : ValueLog) (text : Bytes) (done : List Write) (ssts : List SSTable)
    (gen : later.gen = log.gen) (old : text <+: log.file) (new : text <+: later.file)
    (inside : ∀ sst ∈ ssts, ∀ rec ∈ sst.records, Inside log.gen text.length rec) (holds : TablesHold log done ssts) :
    TablesHold later done ssts := by
  obtain ⟨layers, faithful, stamped⟩ := holds
  refine ⟨layers, faithful, ?_⟩
  clear faithful
  induction stamped with
  | nil => exact .nil
  | cons here _ ih =>
      obtain ⟨mine, others⟩ := List.forall_mem_cons.mp inside
      refine .cons ⟨here.absent, fun key rec found => ?_⟩ (ih others)
      obtain ⟨n, value, there, version, denotes⟩ := here.present key rec found
      have member := (find_key_some Record.key key _ rec found).1
      exact ⟨n, value, there, version, denotes_within log later text rec value gen old new (mine rec member) denotes⟩

-- What a crash may leave: tables that hold a beginning of the history, and logs
-- that replay what follows, up to some write past the first p.
def Recoverable (history : List Write) (p : Nat) : Good := fun wal flushing m text ssts =>
  ∃ base log, log.gen = m.currentGen ∧ text <+: log.file ∧ TablesHold log (history.take base) ssts ∧
    (∀ write ∈ history, Logged (writeRecord write)) ∧ Replays history p base wal flushing

theorem replay_cut_log (writes : List Write) (fits : ∀ write ∈ writes, Logged (writeRecord write))
    (disk image : Disk Bytes) (name : Bytes) (synced sure : Nat) (cut : CrashImage disk image)
    (present : disk name = some ⟨writesBytes writes, synced⟩) (within : sure ≤ writes.length)
    (durable : (writesBytes (writes.take sure)).length ≤ synced) :
    ∃ n, sure ≤ n ∧ n ≤ writes.length ∧ replayFile image name = writes.take n := by
  obtain ⟨kept, low, high, after⟩ := crash_some disk image cut name _ present
  have logged : ∀ rec ∈ writes.map writeRecord, Logged rec := by
    intro rec member
    obtain ⟨write, inside, rfl⟩ := List.mem_map.mp member
    exact fits write inside
  obtain ⟨n, bound, replayed, most⟩ := replay_prefix (writes.map writeRecord) ((writesBytes writes).take kept)
    ((writesBytes writes).drop kept) logged (List.take_append_drop kept _).symm
  rw [List.length_map] at bound most
  refine ⟨n, ?_, bound, ?_⟩
  · refine most sure within ?_
    rw [← List.map_take, List.length_take, Nat.min_eq_left high]
    exact Nat.le_trans durable low
  · rw [replayFile, fileData, after]
    simp only [Option.map_some, Option.elim_some, replayed, ← List.map_take, List.map_map]
    simp [Function.comp_def, record_write]

theorem replays_cut (history : List Write) (p base : Nat) (disk image : Disk Bytes) (cut : CrashImage disk image)
    (fits : ∀ write ∈ history, Logged (writeRecord write))
    (replays : Replays history p base (disk walName) (disk flushingWalName)) :
    ∃ start n, start ≤ base ∧ base ≤ n ∧ p ≤ n ∧ n ≤ history.length ∧
    replayedWrites image = (history.take n).drop start := by
  obtain ⟨front, sealed, active, more, sure, rfl, low, high, bound, within, sealedLog, activeLog⟩ := replays
  have first : replayFile image flushingWalName = sealed := by
    rcases sealedLog with ⟨gone, rfl⟩ | present
    · exact replay_file_none image flushingWalName (crash_none disk image cut _ gone)
    · exact replay_file_writes image flushingWalName sealed _ (fun write member => fits write (by simp [member]))
        (crash_durable disk image cut _ _ present)
  obtain ⟨k, atLeast, atMost, second⟩ : ∃ k, sure ≤ k ∧ k ≤ active.length ∧
    replayFile image walName = active.take k := by
    rcases activeLog with ⟨gone, rfl⟩ | ⟨synced, present, durable⟩
    · refine ⟨0, by simpa using within, Nat.le_refl _, ?_⟩
      rw [replay_file_none image walName (crash_none disk image cut _ gone)]
      rfl
    · exact replay_cut_log active (fun write member => fits write (by simp [member])) disk image walName
        synced sure cut present
        within durable
  refine ⟨front.length, front.length + sealed.length + k, low, by omega, by omega, by simp; omega, ?_⟩
  rw [replayedWrites, first, second]
  have taken : (front ++ sealed ++ active ++ more).take (front.length + sealed.length + k) = front ++
    (sealed ++ active.take k) := by
    rw [← List.length_append, List.append_assoc (front ++ sealed), List.take_length_add_append,
      List.take_append_of_le_length atMost, List.append_assoc]
  rw [taken, List.drop_left]

-- After a crash the constructor finds a beginning of the history that has every
-- promised write.
theorem recoverable_opens (cfg : Config) (listing : List Bytes) (history : List Write) (p : Nat)
    (disk image : Disk Bytes) (m : ManifestData) (text : Bytes) (ssts : List SSTable) (cut : CrashImage disk image)
    (committed : Committed True disk m text ssts)
    (recoverable : Recoverable history p (disk walName) (disk flushingWalName) m text ssts) (db : DB)
    (ops : List DiskOp) (opens : openDB cfg listing image = .ok (db, ops)) :
    ∃ n, p ≤ n ∧ n ≤ history.length ∧ ∀ key, db.get key = .ok (valueOf (history.take n) key) := by
  have after := committed_crash disk image m text ssts cut committed
  obtain ⟨file, present, begins, inside, _, ranges⟩ := after.prepared.vlog
  obtain ⟨base, log, gen, known, holds, fits, replays⟩ := recoverable
  obtain ⟨start, n, early, late, kept, bound, replayed⟩ := replays_cut history p base disk image cut fits replays
  have again : TablesHold (ValueLog.opened (vlogName m.currentGen) m.currentGen file.data)
    (history.take base) ssts := by
    refine tables_hold_within log _ text _ ssts gen.symm known (begins.trans (List.take_prefix _ _)) ?_ holds
    rw [gen]
    exact ranges trivial
  refine ⟨n, kept, bound, fun key => ?_⟩
  rw [opened_get cfg listing image m text ssts after file present db ops opens _ again key, replayed,
    valueOf, latest_append, replay_overlap history start base n key early late]
  rfl

end Tombstash
