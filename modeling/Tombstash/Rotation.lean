import Tombstash.Restart

set_option autoImplicit false

namespace Tombstash

variable {found : Bytes}

-- The steps of seal_locked that can throw: wal_.sync(), the rename, fsync_dir
-- and the new wal.log.
inductive Fault where
  | sync
  | rename
  | fsyncDir
  | reopen
deriving DecidableEq

-- A process whose log may have lost its name: when seal_locked throws behind its
-- rename, wal_ still writes to what is now wal-flushing.log.
structure Rotation where
  sys : Sys
  moved : Bool

-- A step as before, a writer whose seal_locked throws, or a publication whose
-- fs::remove fails.
inductive RotationEvent where
  | plain (event : Event)
  | fails (label : Label) (fault : Fault)
  | keeps

def openName (moved : Bool) : Bytes := if moved then flushingWalName else walName

-- wal_ writes through its descriptor, whatever the file is called by now.
def redirect (moved : Bool) : DiskOp → DiskOp
  | .append name bytes => .append (if name = walName then openName moved else name) bytes
  | .fsync name => .fsync (if name = walName then openName moved else name)
  | op => op

def logWrite (db : DB) (write : Write) (sync : Bool) : Except Error (DB × List DiskOp) := do
  let bytes ← walAppend (writeRecord write)
  return ({ db with memtable := db.memtable.apply write },
    [.append walName bytes] ++ if sync then [.fsync walName] else [])

-- What put, del and a writer that wakes up have done when they come to
-- seal_locked.
def beforeSeal (db : DB) : Label → Except Error (DB × List DiskOp)
  | .put key value sync => logWrite db (key, some value) sync
  | .del key sync => logWrite db (key, none) sync
  | .wakeSeal => .ok ({ db with sealWaiters := db.sealWaiters - 1 }, [])
  | _ => .ok (db, [])

-- What seal_locked has done when it throws.
def Fault.ops (moved : Bool) : Fault → List DiskOp
  | .sync => []
  | .rename => [.fsync (openName moved)]
  | .fsyncDir => [.fsync walName, .rename walName flushingWalName]
  | .reopen => [.fsync walName, .rename walName flushingWalName, .fsyncDir]

def Fault.moves : Fault → Bool
  | .sync | .rename => false
  | .fsyncDir | .reopen => true

-- Once the log is moved there is no wal.log, and the rename of a seal fails.
-- Any other wal.log opened by a flush is the open log again.
inductive Rotation.Step (r : Rotation) : RotationEvent → Rotation → Prop
  | lock (label : Label) (effect : Effect) (free : r.sys.todo = []) (locked : label.kind ≠ .worked)
      (finds : GcFinds r.sys label)
      (done : step r.sys.cfg r.sys.db label = some effect) (there : .rename walName flushingWalName ∈ effect.ops →
        r.moved = false) :
      Step r (.plain (.lock label))
        ⟨⟨r.sys.cfg, effect.db, r.sys.disk, effect.ops.map (redirect r.moved), effect.garbage,
          r.sys.garbage ++ r.sys.doomed⟩,
          r.moved && !effect.ops.contains (.truncate walName)⟩
  | fails (label : Label) (fault : Fault) (effect : Effect) (db : DB) (ops : List DiskOp) (free : r.sys.todo = [])
      (writer : label.after = .sealed)
      (done : step r.sys.cfg r.sys.db label = some effect) (seals : .rename walName flushingWalName ∈ effect.ops)
      (before : beforeSeal r.sys.db label = .ok (db, ops)) (possible : r.moved = true → fault.moves = false) :
      Step r (.fails label fault)
        ⟨⟨r.sys.cfg, db, r.sys.disk, ops.map (redirect r.moved) ++ fault.ops r.moved, [],
          r.sys.garbage ++ r.sys.doomed⟩,
          r.moved || fault.moves⟩
  | keeps (effect : Effect) (free : r.sys.todo = []) (done : step r.sys.cfg r.sys.db .flusherPublish = some effect) :
      Step r .keeps
        ⟨⟨r.sys.cfg, effect.db, r.sys.disk, effect.ops.filter (fun op => decide (op ≠ .unlink flushingWalName)),
          effect.garbage,
          r.sys.garbage ++ r.sys.doomed⟩, r.moved⟩
  | unlocked (event : Event) (next : Sys) (within : event.Within) (unlocked : ∀ label, event ≠ .lock label)
      (stepped : r.sys.Step event next) : Step r (.plain event) ⟨next, r.moved⟩
  | reopen (cfg : Config) (next : Sys) (closed : Closed r.sys) (opens : Opens cfg r.sys.disk next) :
      Step r (.plain (.reopen cfg)) ⟨next, false⟩

-- The writes of a log that is left over are what the tables say by now.
def Covered (old done : List Write) : Prop := ∀ key value, latest old key = some value → valueOf done key = value

-- The logs of such a process, with its writes where the split says. A sealed
-- log that nothing waits for is left over.
structure Rotated (moved : Bool) (db : DB) (split : Split) (disk : Disk Bytes) : Prop where
  active : ∃ synced, disk (openName moved) = some ⟨writesBytes split.active, synced⟩
  nameless : moved = true → db.hasFlushing = false ∧ disk walName = none
  busy : db.hasFlushing = true → ∃ synced, disk flushingWalName = some ⟨writesBytes split.sealed, synced⟩
  leftover : moved = false → db.hasFlushing = false → disk flushingWalName = none ∨
    ∃ old synced, disk flushingWalName = some ⟨writesBytes old, synced⟩ ∧ (∀ write ∈ old, Logged (writeRecord write)) ∧
      Covered old split.done
  fits : ∀ write ∈ split.sealed ++ split.active, Logged (writeRecord write)

theorem rotated_same (moved : Bool) (db next : DB) (split : Split) (disk later : Disk Bytes)
    (rotated : Rotated moved db split disk) (slot : next.hasFlushing = db.hasFlushing)
    (files : ∀ name ∈ walFiles, later name = disk name) : Rotated moved next split later := by
  have wal := files walName (by decide)
  have flushing := files flushingWalName (by decide)
  have active : later (openName moved) = disk (openName moved) := by cases moved <;> assumption
  refine ⟨?_, ?_, ?_, ?_, rotated.fits⟩
  · rw [active]
    exact rotated.active
  · rw [slot, wal]
    exact rotated.nameless
  · rw [slot, flushing]
    exact rotated.busy
  · rw [slot, flushing]
    exact rotated.leftover

theorem covered_appended (done writes : List Write) : Covered writes (done ++ writes) := by
  intro key value last
  rw [valueOf, latest_append, last]
  rfl

theorem covered_agreed (old done writes : List Write) (covered : Covered old done) (agree : Agree old writes) :
    Covered old (done ++ writes) := by
  intro key value last
  rw [valueOf, latest_append]
  cases newer : latest writes key with
  | none => exact covered key value last
  | some other => exact (agree key value other last newer).symm

theorem covered_replayed (old done writes : List Write) (covered : Covered old done) (key : Bytes) :
    valueOf (done ++ (old ++ writes)) key = valueOf (done ++ writes) key := by
  simp only [valueOf, latest_append]
  cases latest writes key with
  | some value => rfl
  | none =>
      cases last : latest old key with
      | none => rfl
      | some value => exact (covered key value last).symm

section Logs

variable (moved : Bool) (db next : DB) (split : Split) (disk : Disk Bytes) (rotated : Rotated moved db split disk)
variable (free : db.hasFlushing = false → split.sealed = [])

include rotated in
theorem rotated_active : replayFile disk (openName moved) = split.active := by
  obtain ⟨synced, present⟩ := rotated.active
  exact replay_file_writes disk _ _ synced
    (fun write member => rotated.fits write (List.mem_append_right _ member)) present

include rotated free in
theorem rotated_replayed (key : Bytes) : valueOf (split.done ++ replayedWrites disk) key = valueOf split.all key := by
  have active := rotated_active moved db split disk rotated
  cases isMoved : moved with
  | true =>
      obtain ⟨idle, gone⟩ := rotated.nameless isMoved
      rw [isMoved] at active
      rw [replayedWrites, replay_file_none disk walName gone, List.append_nil, Split.all, free idle, List.append_nil]
      exact congrArg (fun writes => valueOf (split.done ++ writes) key) active
  | false =>
      rw [isMoved] at active
      have wal : replayFile disk walName = split.active := active
      rw [replayedWrites, wal, Split.all]
      cases slot : db.hasFlushing with
      | true =>
          obtain ⟨synced, present⟩ := rotated.busy slot
          rw [replay_file_writes disk _ _ synced
            (fun write member => rotated.fits write (List.mem_append_left _ member)) present,
            List.append_assoc]
      | false =>
          rw [free slot, List.append_nil]
          rcases rotated.leftover isMoved slot with none | ⟨old, synced, present, fits, covered⟩
          · rw [replay_file_none disk _ none, List.nil_append]
          · rw [replay_file_writes disk _ _ synced fits present]
            exact covered_replayed old split.done split.active covered key

include rotated in
theorem rotated_loads :
    (disk flushingWalName = none → ∃ synced, disk walName = some ⟨writesBytes (replayedWrites disk), synced⟩) ∧
      (replayedWrites disk = [] → disk walName = none ∨ ∃ synced, disk walName = some ⟨writesBytes [], synced⟩) := by
  have active := rotated_active moved db split disk rotated
  obtain ⟨synced, present⟩ := rotated.active
  cases isMoved : moved with
  | true =>
      rw [isMoved] at present
      refine ⟨fun none => ?_, fun _ => .inl (rotated.nameless isMoved).2⟩
      rw [show disk (openName true) = disk flushingWalName from rfl, none] at present
      cases present
  | false =>
      rw [isMoved] at present active
      have wal : disk walName = some ⟨writesBytes split.active, synced⟩ := present
      have replayed : replayFile disk walName = split.active := active
      refine ⟨fun none => ⟨synced, ?_⟩, fun nothing => .inr ⟨synced, ?_⟩⟩
      · rw [replayedWrites, replay_file_none disk _ none, List.nil_append, replayed]
        exact wal
      · rw [replayedWrites, replayed] at nothing
        rw [wal, (List.append_eq_nil_iff.mp nothing).2]

end Logs

theorem rotated_written (moved : Bool) (db next : DB) (split : Split) (disk later : Disk Bytes) (active : List Write)
    (rotated : Rotated moved db split disk) (slot : next.hasFlushing = db.hasFlushing)
    (here : ∃ synced, later (openName moved) = some ⟨writesBytes active, synced⟩)
    (others : ∀ name ∈ walFiles, name ≠ openName moved → later name = disk name)
    (fits : ∀ write ∈ split.sealed ++ active, Logged (writeRecord write)) :
    Rotated moved next { split with active := active } later := by
  cases moved with
  | true =>
      obtain ⟨idle, gone⟩ := rotated.nameless rfl
      have free : next.hasFlushing = false := slot.trans idle
      refine ⟨here, fun _ => ⟨free, (others walName (by decide) (by decide)).trans gone⟩, fun busy => ?_, nofun, fits⟩
      rw [free] at busy
      cases busy
  | false =>
      have flushing := others flushingWalName (by decide) (by decide)
      refine ⟨here, nofun, ?_, ?_, fits⟩
      · rw [slot, flushing]
        exact rotated.busy
      · rw [slot, flushing]
        exact rotated.leftover

theorem redirect_apart (moved : Bool) (ops : List DiskOp) (apart : Apart walFiles ops) :
    ops.map (redirect moved) = ops := by
  refine (List.map_congr_left (fun op member => ?_)).trans (List.map_id ops)
  have untouched := apart op member
  cases op with
  | append name bytes =>
      have other : name ≠ walName := fun same => untouched name (by simp [FsOp.touches]) (by rw [same]; decide)
      simp [redirect, other]
  | fsync name =>
      have other : name ≠ walName := fun same => untouched name (by simp [FsOp.touches]) (by rw [same]; decide)
      simp [redirect, other]
  | _ => rfl

section Moved

variable (cfg : Config) (moved : Bool) (db next : DB) (split : Split) (disk : Disk Bytes) (kind : Kind)

theorem rotated_wrote (write : Write) (bytes : Bytes) (sync : Bool) (rotated : Rotated moved db split disk)
    (encoded : walAppend (writeRecord write) = .ok bytes) :
    Rotated moved { db with memtable := db.memtable.apply write } ((Kind.wrote write sync).shift split)
      (applyAll disk ((Kind.wrote write sync).walOps.map (redirect moved))) := by
  obtain ⟨synced, present⟩ := rotated.active
  have appended : (FsOp.append (openName moved) (walRecord (writeRecord write))).apply disk (openName moved) =
      some ⟨writesBytes (split.active ++ [write]), synced⟩ := by
    rw [FsOp.apply, set_same, present, writes_bytes_append]
    rfl
  refine rotated_written moved db _ split disk _ (split.active ++ [write]) rotated rfl ?_ (fun name _ other => ?_)
    (fun other member => ?_)
  · cases sync with
    | false => exact ⟨synced, appended⟩
    | true => exact ⟨_, fsync_file _ (openName moved) _ synced appended⟩
  · refine apply_all_frame disk _ name (fun op member touched => other ?_)
    cases sync <;> simp [Kind.walOps, redirect] at member
    · rw [member] at touched
      exact List.mem_singleton.mp touched
    · rcases member with rfl | rfl <;> exact List.mem_singleton.mp touched
  · rw [← List.append_assoc, List.mem_append, List.mem_singleton] at member
    rcases member with old | rfl
    · exact rotated.fits other old
    · exact append_logged _ bytes (write_record_inline other).1 (write_record_inline other).2 encoded

theorem rotated_fsync (rotated : Rotated moved db split disk) :
    Rotated moved db split ((FsOp.fsync (openName moved)).apply disk) := by
  obtain ⟨synced, present⟩ := rotated.active
  exact rotated_written moved db db split disk _ split.active rotated rfl ⟨_, fsync_file disk _ _ synced present⟩
    (fun name _ other => set_other disk _ name _ other) rotated.fits

theorem rotated_renamed (rotated : Rotated false db split disk) :
    ∃ synced, (FsOp.rename walName flushingWalName).apply ((FsOp.fsync walName).apply disk) flushingWalName =
        some ⟨writesBytes split.active, synced⟩ ∧
      (FsOp.rename walName flushingWalName).apply ((FsOp.fsync walName).apply disk) walName = none := by
  obtain ⟨synced, present⟩ := rotated.active
  have different : flushingWalName ≠ walName := by decide
  refine ⟨(writesBytes split.active).length, ?_, ?_⟩
  · simp only [FsOp.apply, Disk.set, different, if_true, if_false]
    rw [show disk walName = some ⟨writesBytes split.active, synced⟩ from present]
    rfl
  · simp [FsOp.apply, Disk.set]

theorem rotated_sealed (rotated : Rotated false db split disk) :
    Rotated false (sealedDb db) (Kind.sealed.shift split)
    (applyAll disk (Kind.sealed.walOps.map (redirect false))) := by
  obtain ⟨synced, there, _⟩ := rotated_renamed db split disk rotated
  refine ⟨⟨0, ?_⟩, nofun, fun _ => ⟨synced, ?_⟩, nofun, fun write member => rotated.fits write ?_⟩
  · exact set_same ((FsOp.rename walName flushingWalName).apply ((FsOp.fsync walName).apply disk)) walName _
  · exact (apply_frame _ (.truncate walName) flushingWalName (by decide)).trans there
  · simp only [Kind.shift, List.append_nil] at member
    exact List.mem_append_right _ member

theorem rotated_flushed (rotated : Rotated moved db split disk) (slot : next.hasFlushing = false)
    (free : db.hasFlushing = false)
    (agree : moved = false → Agree (replayFile disk flushingWalName) (replayFile disk walName)) :
    Rotated false next (Kind.flushed.shift split) (applyAll disk (Kind.flushed.walOps.map (redirect moved))) := by
  have emptied : applyAll disk (Kind.flushed.walOps.map (redirect moved)) walName = some ⟨[], 0⟩ :=
    set_same disk walName _
  have kept : applyAll disk (Kind.flushed.walOps.map (redirect moved)) flushingWalName = disk flushingWalName :=
    apply_frame disk (.truncate walName) flushingWalName (by decide)
  refine ⟨⟨0, emptied⟩, nofun, fun busy => ?_, fun _ _ => ?_, by simp [Kind.shift]⟩
  · rw [slot] at busy
    cases busy
  · rw [kept]
    have active := rotated_active moved db split disk rotated
    cases moved with
    | true =>
        -- The log that has just been flushed is the one left over.
        obtain ⟨synced, present⟩ := rotated.active
        exact .inr
          ⟨split.active, synced, present, fun write member => rotated.fits write (List.mem_append_right _ member),
          covered_appended split.done split.active⟩
    | false =>
        refine (rotated.leftover rfl free).imp id ?_
        rintro ⟨old, synced, present, fits, covered⟩
        have agrees := agree rfl
        rw [replay_file_writes disk _ old synced fits present, show replayFile disk walName =
          split.active from active] at agrees
        exact ⟨old, synced, present, fits, covered_agreed old split.done split.active covered agrees⟩

theorem rotated_published (rotated : Rotated false db split disk) (slot : next.hasFlushing = false) :
    Rotated false next (Kind.published.shift split) (applyAll disk (Kind.published.walOps.map (redirect false))) := by
  have gone : applyAll disk (Kind.published.walOps.map (redirect false)) flushingWalName = none :=
    set_same disk flushingWalName _
  refine ⟨?_, nofun, fun busy => ?_, fun _ _ => .inl gone, fun write member => rotated.fits write ?_⟩
  · obtain ⟨synced, present⟩ := rotated.active
    exact ⟨synced, (apply_frame disk (.unlink flushingWalName) walName (by decide)).trans present⟩
  · rw [slot] at busy
    cases busy
  · simp only [Kind.shift, List.nil_append] at member
    exact List.mem_append_right _ member

theorem rotated_kept (rotated : Rotated false db split disk) (busy : db.hasFlushing = true)
    (slot : next.hasFlushing = false) :
    Rotated false next (Kind.published.shift split) disk := by
  obtain ⟨synced, present⟩ := rotated.busy busy
  refine ⟨rotated.active, nofun, fun still => ?_, fun _ _ => .inr ⟨split.sealed, synced, present, fun write member =>
    rotated.fits write (List.mem_append_left _ member), covered_appended split.done split.sealed⟩, fun write member =>
      rotated.fits write ?_⟩
  · rw [slot] at still
    cases still
  · simp only [Kind.shift, List.nil_append] at member
    exact List.mem_append_right _ member

theorem rotated_fault (fault : Fault) (rotated : Rotated moved db split disk) (free : db.hasFlushing = false)
    (possible : moved = true → fault.moves = false) :
    Rotated (moved || fault.moves) db split (applyAll disk (fault.ops moved)) := by
  have renamed : moved = false → ∀ later, later = (FsOp.rename walName flushingWalName).apply
    ((FsOp.fsync walName).apply disk) →
      Rotated true db split later := by
    rintro rfl later rfl
    obtain ⟨synced, there, gone⟩ := rotated_renamed db split disk rotated
    refine ⟨⟨synced, there⟩, fun _ => ⟨free, gone⟩, fun busy => ?_, nofun, rotated.fits⟩
    rw [free] at busy
    cases busy
  have still : fault.moves = true → moved = false := by
    intro moves
    cases isMoved : moved with
    | false => rfl
    | true =>
        rw [possible isMoved] at moves
        cases moves
  cases fault with
  | sync =>
      rw [Fault.moves, Bool.or_false]
      exact rotated
  | rename =>
      rw [Fault.moves, Bool.or_false]
      exact rotated_fsync moved db split disk rotated
  | fsyncDir =>
      rw [Fault.moves, Bool.or_true]
      exact renamed (still rfl) _ rfl
  | reopen =>
      rw [Fault.moves, Bool.or_true]
      exact renamed (still rfl) _ rfl

theorem rotated_moved (work : List DiskOp) (garbage : List Bytes) (rotated : Rotated moved db split disk)
    (move : Move cfg found db kind next (work ++ kind.walOps) garbage) (apart : Apart walFiles work)
    (there : kind = .sealed → moved = false) (running : kind = .published → db.hasFlushing = true)
    (agree : kind = .flushed → moved = false → Agree (replayFile disk flushingWalName) (replayFile disk walName)) :
    Rotated (moved && !decide (kind = .flushed)) next (kind.shift split)
      (applyAll disk ((work ++ kind.walOps).map (redirect moved))) := by
  have files := apart_frame walFiles disk work apart
  have before := rotated_same moved db db split disk (applyAll disk work) rotated rfl files
  rw [List.map_append, apply_all_append, redirect_apart moved work apart]
  have same : ∀ later, later.hasFlushing = db.hasFlushing → kind.walOps = [] →
    kind.shift split = split → kind ≠ .flushed →
      Rotated (moved && !decide (kind = .flushed)) later (kind.shift split)
        (applyAll (applyAll disk work) (kind.walOps.map (redirect moved))) := by
    intro later slot none shift other
    rw [none, shift, decide_eq_false other, Bool.not_false, Bool.and_true]
    exact rotated_same moved db later split _ _ before slot (fun _ _ => rfl)
  generalize steps : work ++ kind.walOps = ops at move
  cases move with
  | wrote write bytes sync encoded =>
      rw [decide_eq_false nofun, Bool.not_false, Bool.and_true]
      exact rotated_wrote moved db split _ write bytes sync before encoded
  | synced =>
      rw [decide_eq_false nofun, Bool.not_false, Bool.and_true]
      exact rotated_fsync moved db split _ before
  | sealed filled free =>
      obtain rfl := there rfl
      exact rotated_sealed db split _ before
  | flushed k current grown recs vlogOps bytes sst filled free index object separated built =>
      rw [decide_eq_true rfl, Bool.not_true, Bool.and_false]
      refine rotated_flushed moved db _ split _ before free free (fun still => ?_)
      rw [replay_file_same disk _ _ (files flushingWalName (by decide)),
        replay_file_same disk _ _ (files walName (by decide))]
      exact agree rfl still
  | published job sst flushes complete =>
      have still : moved = false := by
        cases isMoved : moved with
        | false => rfl
        | true =>
            have idle := (rotated.nameless isMoved).1
            rw [running rfl] at idle
            cases idle
      subst still
      exact rotated_published db _ split _ before rfl
  | picked picked job noJob picks =>
      obtain ⟨⟨seq, rfl, _⟩, _⟩ := pick_job_fresh cfg db picked job picks
      exact same _ rfl rfl rfl nofun
  | installed worker job outputs running complete =>
      have slot := install_slot db job outputs
      cases worker <;> exact same _ slot rfl rfl nofun
  | merged worker job later running unmerged merges => cases worker <;> exact same _ rfl rfl rfl nofun
  | mergeIo worker job op rest outputs running building => cases worker <;> exact same _ rfl rfl rfl nofun
  | collected merged relocated opened grown vlogOps bytes sst free quiet filled merges opens relocates built =>
      exact same _ rfl rfl rfl nofun
  | _ => exact same _ rfl rfl rfl nofun

end Moved

end Tombstash
