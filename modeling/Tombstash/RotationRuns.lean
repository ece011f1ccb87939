import Tombstash.Rotation
import Tombstash.Settling

set_option autoImplicit false

namespace Tombstash

variable {found : Bytes}

-- Steps that do the same to every file but the logs.
def AlikeOff (first second : List DiskOp) : Prop :=
  ∀ left right : Disk Bytes, (∀ name, name ∉ walFiles → left name = right name) →
    ∀ name, name ∉ walFiles → applyAll left first name = applyAll right second name

theorem alike_work (work : List DiskOp) (apart : Apart walFiles work) : AlikeOff work work := by
  intro left right same
  exact apply_all_agree (fun name => name ∉ walFiles) left right work (fun op member => .inl (apart op member)) same

theorem alike_logs (first second : List DiskOp) (onLogs : ∀ op ∈ first, ∀ name ∈ op.touches, name ∈ walFiles)
    (onLogsToo : ∀ op ∈ second, ∀ name ∈ op.touches, name ∈ walFiles) : AlikeOff first second := by
  intro left right same name other
  rw [apply_all_frame left first name (fun op member touched => other (onLogs op member name touched)),
    apply_all_frame right second name (fun op member touched => other (onLogsToo op member name touched))]
  exact same name other

theorem alike_append (first second third fourth : List DiskOp) (one : AlikeOff first second)
    (two : AlikeOff third fourth) :
    AlikeOff (first ++ third) (second ++ fourth) := by
  intro left right same name other
  rw [apply_all_append, apply_all_append]
  exact two _ _ (one left right same) name other

theorem redirect_touches (moved : Bool) (op : DiskOp) (name : Bytes) (touched : name ∈ (redirect moved op).touches) :
    name ∈ op.touches ∨ name ∈ walFiles := by
  have opened : openName moved ∈ walFiles := by cases moved <;> decide
  cases op with
  | append target bytes =>
      rw [redirect, FsOp.touches, List.mem_singleton] at touched
      split at touched
      · exact .inr (touched ▸ opened)
      · exact .inl (by simp [FsOp.touches, touched])
  | fsync target =>
      rw [redirect, FsOp.touches, List.mem_singleton] at touched
      split at touched
      · exact .inr (touched ▸ opened)
      · exact .inl (by simp [FsOp.touches, touched])
  | _ => exact .inl touched

theorem redirect_logs (moved : Bool) (ops : List DiskOp) (onLogs : ∀ op ∈ ops, ∀ name ∈ op.touches, name ∈ walFiles) :
    ∀ op ∈ ops.map (redirect moved), ∀ name ∈ op.touches, name ∈ walFiles := by
  intro op member name touched
  obtain ⟨before, inside, rfl⟩ := List.mem_map.mp member
  exact (redirect_touches moved before name touched).elim (onLogs before inside name) id

theorem redirect_apart_from (moved : Bool) (names : List Bytes) (ops : List DiskOp) (apart : Apart names ops)
    (others : ∀ name ∈ names, name ∉ walFiles) : Apart names (ops.map (redirect moved)) := by
  intro op member name touched inside
  obtain ⟨before, there, rfl⟩ := List.mem_map.mp member
  exact (redirect_touches moved before name touched).elim (fun still => apart before there name still inside)
    (others name inside)

theorem redirect_alike (moved : Bool) (work : List DiskOp) (kind : Kind) (apart : Apart walFiles work) :
    AlikeOff ((work ++ kind.walOps).map (redirect moved)) (work ++ kind.walOps) := by
  rw [List.map_append, redirect_apart moved work apart]
  exact alike_append _ _ _ _ (alike_work work apart)
    (alike_logs _ _ (redirect_logs moved kind.walOps (wal_ops_files kind)) (wal_ops_files kind))

theorem logs_apart (names : List Bytes) (ops : List DiskOp) (onLogs : ∀ op ∈ ops, ∀ name ∈ op.touches, name ∈ walFiles)
    (others : ∀ name ∈ names, name ∉ walFiles) : Apart names ops := fun op member name touched inside =>
  others name inside (onLogs op member name touched)

theorem fault_logs (moved : Bool) (fault : Fault) : ∀ op ∈ fault.ops moved, ∀ name ∈ op.touches, name ∈ walFiles := by
  cases fault <;> cases moved <;> decide

theorem stale_not_log (db : DB) (name : Bytes) (stale : Stale db name) : name ∉ walFiles := by
  intro log
  obtain ⟨notTable, notVlog⟩ := other_first name (List.mem_append_left _ log)
  rcases stale with ⟨seq, _, _, rfl⟩ | ⟨gen, _, rfl⟩
  · exact notTable (table_file_first seq _ (by simp [tableFiles]))
  · exact notVlog (vlog_first gen)

theorem work_not_log (db : DB) (name : Bytes) (work : name ∈ workFiles db) : name ∉ walFiles := fun log =>
  work_file_kinds db name work (List.mem_append_left _ log)

theorem garbage_not_log (s : Sys) (split : Split) (kept : Kept anyStore True s split) :
    ∀ name ∈ s.garbage ++ s.doomed, name ∉ walFiles := fun name member =>
    stale_not_log s.db name (kept.inv.stale name member)

theorem drained_kept (good : Good) (empty : Prop) (s : Sys) (split : Split) (kept : Kept good empty s split) :
    Kept good empty s.drained split := by
  generalize steps : s.todo = todo
  induction todo generalizing s with
  | nil =>
      have same : s.drained = s := by rw [Sys.drained, steps, apply_all_nil, ← steps]
      rw [same]
      exact kept
  | cons op rest ih =>
      have journaled := kept.journaled
      rw [steps] at journaled
      have later := ih { s with disk := op.apply s.disk, todo := rest }
        ⟨io_inv good empty s op rest steps kept.inv, kept.limits, kept.held, journaled⟩ rfl
      have same : Sys.drained { s with disk := op.apply s.disk, todo := rest } = s.drained := by
        simp only [Sys.drained, steps, apply_all_cons]
      rwa [same] at later

-- The files but for the logs are as in a process in which nothing has failed.
structure RotationInv (r : Rotation) (split : Split) : Prop where
  shadow : ∃ disk, Kept anyStore True { r.sys with disk := disk, todo := [] } split ∧
    ∀ name, name ∉ walFiles → applyAll r.sys.disk r.sys.todo name = disk name
  apart : Apart (workFiles r.sys.db) r.sys.todo
  away : Apart r.sys.garbage r.sys.todo
  valid : r.sys.disk.Valid
  logs : Rotated r.moved r.sys.db split (applyAll r.sys.disk r.sys.todo)
  callers : r.sys.db.callers = []

theorem journaled_rotated (db : DB) (split : Split) (disk : Disk Bytes) (journaled : Journaled db split disk) :
    Rotated false db split disk := by
  refine ⟨journaled.wal, nofun, fun busy => ⟨(writesBytes split.sealed).length, ?_⟩,
    fun _ idle => .inl ?_, journaled.fits⟩
  · rw [journaled.flushing, if_pos busy]
    rfl
  · rw [journaled.flushing, idle]
    rfl

theorem kept_rotation (s : Sys) (split : Split) (kept : Kept anyStore True s split) (callers : s.db.callers = []) :
    RotationInv ⟨s, false⟩ split :=
  ⟨⟨applyAll s.disk s.todo, drained_kept _ _ s split kept, fun _ _ => rfl⟩, kept.inv.apart,
    kept.inv.away, kept.inv.valid, journaled_rotated s.db split _ kept.journaled, callers⟩

-- Where a flush would leave an older log beside its table, the logs end alike
-- on the keys that both write.
def FlushAgrees (r : Rotation) : RotationEvent → Prop
  | .plain (.lock .flush) | .plain (.lock (.gc _)) =>
      r.moved = false → Agree (replayFile r.sys.disk flushingWalName) (replayFile r.sys.disk walName)
  | _ => True

theorem published_busy (cfg : Config) (db next : DB) (i : Nat) (log : ValueLog) (ops : List DiskOp)
    (garbage : List Bytes) (sound : Sound True db i log) (move : Move cfg found db .published next ops garbage) :
    db.hasFlushing = true := by
  cases move with
  | published job sst running complete =>
      cases slot : db.hasFlushing with
      | true => rfl
      | false =>
          rw [sound.idle slot] at running
          cases running

theorem section_truncates (first second : Kind) (work rest : List DiskOp) (apart : Apart walFiles work)
    (apartRest : Apart walFiles rest) (plain : second.Plain) (locked : first ≠ .sealed) (other : second ≠ .sealed) :
    .truncate walName ∈ work ++ first.walOps ++ (rest ++ second.walOps) ↔ first = .flushed := by
  have away : ∀ ops, Apart walFiles ops → FsOp.truncate walName ∉ ops := fun ops apart member =>
    apart _ member walName (by simp [FsOp.touches]) (by decide)
  simp only [List.mem_append, away work apart, away rest apartRest, false_or]
  constructor
  · rintro (inFirst | inSecond)
    · cases first with
      | wrote write sync => cases sync <;> simp [Kind.walOps] at inFirst
      | flushed => rfl
      | sealed => exact absurd rfl locked
      | _ => simp [Kind.walOps] at inFirst
    · cases second with
      | sealed => exact absurd rfl other
      | collected => simp [Kind.walOps] at inSecond
      | idle => simp [Kind.walOps] at inSecond
      | _ => exact plain.elim
  · rintro rfl
    exact .inl (by simp [Kind.walOps])

theorem section_moved (moved : Bool) (first second : Kind) (work rest : List DiskOp) (apart : Apart walFiles work)
    (apartRest : Apart walFiles rest) (plain : second.Plain) (locked : first ≠ .sealed)
    (there : second = .sealed → moved = false) :
    ((moved && !decide (first = .flushed)) && !decide (second = .flushed)) =
        (moved && !(work ++ first.walOps ++ (rest ++ second.walOps)).contains (.truncate walName)) ∧
      (rest ++ second.walOps).map (redirect (moved && !decide (first = .flushed))) = (rest ++ second.walOps).map
        (redirect moved) := by
  have other : second ≠ .flushed := fun flushed => by
    rw [flushed] at plain
    exact plain
  cases moved with
  | false => simp
  | true =>
      have notSealed : second ≠ .sealed := fun sealed => Bool.noConfusion (there sealed)
      have nothing : second.walOps = [] := by
        cases second with
        | sealed => exact absurd rfl notSealed
        | collected => rfl
        | idle => rfl
        | _ => exact plain.elim
      refine ⟨?_, ?_⟩
      · have truncates := section_truncates first second work rest apart apartRest plain locked notSealed
        simp only [Bool.true_and, decide_eq_false other, Bool.not_false, Bool.and_true]
        rw [List.contains_eq_mem, decide_eq_decide.mpr truncates]
      · rw [nothing, List.append_nil, redirect_apart _ rest apartRest, redirect_apart _ rest apartRest]

theorem takes_flushes (label : Label) (first second : Kind) (takes : label.Takes first second)
    (flushed : first = .flushed) :
    label = .flush ∨ ∃ existing, label = .gc existing := by
  subst flushed
  rcases takes.1 with same | ⟨_, idle⟩
  · cases label <;> first | exact .inl rfl | exact .inr ⟨_, rfl⟩ | cases same
  · cases idle

theorem before_seal_move (cfg : Config) (db : DB) (label : Label) (next : DB) (ops : List DiskOp)
    (writer : label.after = .sealed) (before : beforeSeal db label = .ok (next, ops)) :
    Move cfg label.found db label.kind next label.kind.walOps [] ∧ ops = label.kind.walOps ∧
      ((∃ write sync, label.kind = .wrote write sync) ∨ label.kind = .idle) ∧ next.hasFlushing = db.hasFlushing ∧
      next.nextSeq = db.nextSeq ∧ next.sstables = db.sstables ∧ next.currentGen = db.currentGen ∧
      next.callers = db.callers := by
  have logged : ∀ write sync, logWrite db write sync = .ok (next, ops) →
      Move cfg [] db (.wrote write sync) next (Kind.wrote write sync).walOps [] ∧ ops = (Kind.wrote write sync).walOps ∧
      next = { db with memtable := db.memtable.apply write } := by
    intro write sync done
    obtain ⟨bytes, encoded, rest⟩ := bind_returns _ _ _ done
    cases rest
    obtain rfl := wal_append_bytes _ bytes encoded
    exact ⟨.wrote write _ sync encoded, rfl, rfl⟩
  cases label with
  | put key value sync =>
      obtain ⟨move, same, rfl⟩ := logged _ _ before
      exact ⟨move, same, .inl ⟨_, _, rfl⟩, rfl, rfl, rfl, rfl, rfl⟩
  | del key sync =>
      obtain ⟨move, same, rfl⟩ := logged _ _ before
      exact ⟨move, same, .inl ⟨_, _, rfl⟩, rfl, rfl, rfl, rfl, rfl⟩
  | wakeSeal =>
      cases before
      exact ⟨.waits _, rfl, .inr rfl, rfl, rfl, rfl, rfl, rfl⟩
  | _ => cases writer

theorem seals_free (cfg : Config) (db : DB) (label : Label) (effect : Effect) (writer : label.after = .sealed)
    (done : step cfg db label = some effect) (seals : .rename walName flushingWalName ∈ effect.ops) :
    db.hasFlushing = false := by
  obtain ⟨⟨middle, front, back, early, late, first, second, takes, one, two, ops, _⟩, _⟩ :=
    step_moves cfg db label effect done
  rw [ops] at seals
  generalize effect.db = next at two
  have kind : (∃ write sync, first = .wrote write sync) ∨ first = .idle := by
    rcases takes.1 with rfl | ⟨_, rfl⟩
    · cases label <;> first | exact .inl ⟨_, _, rfl⟩ | exact .inr rfl | cases writer
    · exact .inr rfl
  have start : middle.hasFlushing = db.hasFlushing ∧ FsOp.rename walName flushingWalName ∉ front := by
    rcases kind with ⟨write, sync, rfl⟩ | rfl
    · cases one
      cases sync <;> exact ⟨rfl, by simp⟩
    · cases one <;> exact ⟨rfl, List.not_mem_nil⟩
  rw [List.mem_append, or_iff_right start.2] at seals
  rw [← start.1]
  rcases takes.2 with same | rfl
  · rw [writer] at same
    subst same
    cases two with
    | sealed filled free => exact free
  · rw [idle_ops cfg middle next back late two] at seals
    cases seals

section Steps

variable (r : Rotation) (split : Split) (inv : RotationInv r split)

include inv in
theorem shadow_section (next : Sys) (after : Split) (ops : List DiskOp) (moved : Bool) (disk : Disk Bytes)
    (same : ∀ name, name ∉ walFiles → r.sys.disk name = disk name) (kept : Kept anyStore True next after)
    (starts : next.disk = disk) (alike : AlikeOff ops next.todo)
    (apart : Apart (workFiles next.db) ops) (away : Apart next.garbage ops)
    (logs : Rotated moved next.db after (applyAll r.sys.disk ops)) (callers : next.db.callers = []) :
    RotationInv ⟨{ next with disk := r.sys.disk, todo := ops }, moved⟩ after := by
  refine ⟨⟨applyAll next.disk next.todo, drained_kept _ _ next after kept, ?_⟩, apart, away, inv.valid, logs, callers⟩
  rw [starts]
  exact alike r.sys.disk disk same

include inv in
theorem shadow_lock (label : Label) (effect : Effect) (free : r.sys.todo = []) (locked : label.kind ≠ .worked)
    (finds : GcFinds r.sys label) (done : step r.sys.cfg r.sys.db label = some effect) (alone : label ≠ .compactAllPick)
    (ready : EventReady r.sys (.lock label)) :
    ∃ disk middle first second work rest early late, (∀ name, name ∉ walFiles → r.sys.disk name = disk name) ∧
      Kept anyStore True { r.sys with disk := disk, todo := [] } split ∧
      Section { r.sys with disk := disk, todo := [] } split label effect middle first second work rest early late ∧
      Kept anyStore True ⟨r.sys.cfg, effect.db, disk, effect.ops, effect.garbage, r.sys.garbage ++ r.sys.doomed⟩
        (second.shift (first.shift split)) := by
  obtain ⟨disk, kept, same⟩ := inv.shadow
  rw [free, apply_all_nil] at same
  have findsToo : GcFinds { r.sys with disk := disk, todo := [] } label := by
    intro existing gc
    obtain ⟨here, room⟩ := finds existing gc
    refine ⟨?_, room⟩
    rw [here, fileData, fileData, same _ (fun log => (other_first _ (List.mem_append_left _ log)).2 (vlog_first _))]
  have stepped : Sys.Step { r.sys with disk := disk, todo := [] } (.lock label)
      ⟨r.sys.cfg, effect.db, disk, effect.ops, effect.garbage, r.sys.garbage ++ r.sys.doomed⟩ :=
    .lock (s := { r.sys with disk := disk, todo := [] }) label effect rfl locked findsToo done
  have calm : EventCalm True { r.sys with disk := disk, todo := [] } (.lock label) :=
    background_event_calm _ _ _ inv.callers (fun picks => alone (Event.lock.inj picks)) stepped
  have running := sys_step_running carried_nothing _ _ _ (kept_running _ split kept) calm stepped
  obtain ⟨middle, first, second, work, rest, early, late, parts⟩ :=
    lock_section _ split label effect kept rfl locked findsToo done
    (calm trivial label rfl) (fun pick => by rw [pick] at ready; exact ready)
  exact ⟨disk, middle, first, second, work, rest, early, late, same, kept, parts, running.inv,
    running.limits, parts.held, parts.journaled⟩

include inv in
theorem lock_rotates (label : Label) (effect : Effect) (free : r.sys.todo = []) (locked : label.kind ≠ .worked)
    (finds : GcFinds r.sys label) (done : step r.sys.cfg r.sys.db label = some effect)
    (there : .rename walName flushingWalName ∈ effect.ops → r.moved = false) (alone : label ≠ .compactAllPick)
    (ready : EventReady r.sys (.lock label)) (agrees : FlushAgrees r (.plain (.lock label))) :
    ∃ after, RotationInv
        ⟨⟨r.sys.cfg, effect.db, r.sys.disk, effect.ops.map (redirect r.moved), effect.garbage,
          r.sys.garbage ++ r.sys.doomed⟩,
          r.moved && !effect.ops.contains (.truncate walName)⟩ after ∧
      after.all = split.all ++ label.write.toList ∧
      (r.sys.cfg.leveled = true → LevelOrder r.sys.db.sstables → LevelOrder effect.db.sstables) := by
  obtain ⟨disk, middle, first, second, work, rest, early, late, same, kept, parts, keptNext⟩ :=
    shadow_lock r split inv label effect free locked finds done alone ready
  have logs := inv.logs
  rw [free, apply_all_nil] at logs
  have plain := takes_plain label first second parts.takes
  have notSealed := takes_unsealed label first second parts.takes
  have seals : second = .sealed → r.moved = false := by
    rintro rfl
    exact there (by rw [parts.ops]; simp [Kind.walOps])
  obtain ⟨i, log, sound, _⟩ := kept.inv.state
  have half :=
    rotated_moved r.sys.cfg r.moved r.sys.db middle split r.sys.disk first work early logs parts.one parts.apart
    (fun sealed => absurd sealed notSealed)
    (fun published => by subst published; exact published_busy _ _ _ i log _ _ sound parts.one)
    (fun flushed still => by
      rcases takes_flushes label first second parts.takes flushed with rfl | ⟨existing, rfl⟩ <;> exact agrees still)
  have notPublished : second ≠ .published := fun published => by rw [published] at plain; exact plain
  have notFlushed : second ≠ .flushed := fun flushed => by rw [flushed] at plain; exact plain
  have whole := rotated_moved r.sys.cfg _ middle effect.db _ _ second rest late half parts.two parts.apartRest
    (fun sealed => by rw [seals sealed, Bool.false_and]) (fun published => absurd published notPublished)
    (fun flushed => absurd flushed notFlushed)
  obtain ⟨flag, steps⟩ := section_moved r.moved first second work rest parts.apart parts.apartRest plain notSealed seals
  rw [flag, steps, ← apply_all_append, ← List.map_append, ← parts.ops] at whole
  refine ⟨_, shadow_section r split inv _ _ _ _ disk same keptNext rfl ?_ ?_ ?_ whole ?_, parts.writes, parts.order⟩
  · change AlikeOff _ effect.ops
    rw [parts.ops, List.map_append]
    exact alike_append _ _ _ _ (redirect_alike r.moved work first parts.apart)
      (redirect_alike r.moved rest second parts.apartRest)
  · exact redirect_apart_from r.moved _ _ keptNext.inv.apart (work_not_log effect.db)
  · exact redirect_apart_from r.moved _ _ keptNext.inv.away
      (garbage_not_log { r.sys with disk := disk, todo := [] } split kept)
  · exact step_callers r.sys.cfg r.sys.db label effect done alone inv.callers

include inv in
theorem fails_rotates (label : Label) (fault : Fault) (effect : Effect) (db : DB) (ops : List DiskOp)
    (free : r.sys.todo = []) (writer : label.after = .sealed) (done : step r.sys.cfg r.sys.db label = some effect)
    (seals : .rename walName flushingWalName ∈ effect.ops) (before : beforeSeal r.sys.db label = .ok (db, ops))
    (possible : r.moved = true → fault.moves = false) :
    ∃ after, RotationInv
        ⟨⟨r.sys.cfg, db, r.sys.disk, ops.map (redirect r.moved) ++ fault.ops r.moved, [],
          r.sys.garbage ++ r.sys.doomed⟩,
          r.moved || fault.moves⟩ after ∧
      after.all = split.all ++ label.write.toList ∧ db.sstables = r.sys.db.sstables := by
  obtain ⟨disk, kept, same⟩ := inv.shadow
  have logs := inv.logs
  rw [free, apply_all_nil] at same logs
  obtain ⟨move, rfl, simple, slot, counter, tables, gen, callers⟩ :=
    before_seal_move r.sys.cfg r.sys.db label db ops writer before
  have limits : WithinLimits db := by
    rw [WithinLimits, counter, tables]
    exact kept.limits
  have others : label.kind ≠ .worked ∧ ¬ label.kind.Picks ∧ label.kind ≠ .picked ∧ label.kind ≠ .flushed ∧
    label.kind ≠ .sealed ∧
      label.kind ≠ .published := by
    rcases simple with ⟨write, sync, kind⟩ | kind <;> simp [kind, Kind.Picks]
  obtain ⟨notWorked, noPick, notPicked, notFlushed, notSealed, notPublished⟩ := others
  have meets : Meets True label.found disk r.sys.db db label.kind :=
    ⟨notWorked, fun _ picks => absurd picks noPick, within_limits_listable db limits,
      fun different => absurd gen different⟩
  have keptNext := move_kept _ split db label.kind label.kind.walOps [] kept rfl move meets limits
    (fun pick => absurd pick notPicked)
  have written := rotated_moved r.sys.cfg r.moved r.sys.db db split r.sys.disk label.kind [] [] logs move
    (List.forall_mem_nil _)
    (fun sealed => absurd sealed notSealed) (fun published => absurd published notPublished)
    (fun flushed => absurd flushed notFlushed)
  rw [decide_eq_false notFlushed, Bool.not_false, Bool.and_true, List.nil_append] at written
  have idle : db.hasFlushing = false := slot.trans (seals_free r.sys.cfg r.sys.db label effect writer done seals)
  have whole := rotated_fault r.moved db _ _ fault written idle possible
  rw [← apply_all_append] at whole
  have onLogs : ∀ op ∈ label.kind.walOps.map (redirect r.moved) ++ fault.ops r.moved, ∀ name ∈ op.touches,
    name ∈ walFiles := by
    intro op member
    rcases List.mem_append.mp member with write | failing
    · exact redirect_logs r.moved _ (wal_ops_files label.kind) op write
    · exact fault_logs r.moved fault op failing
  refine ⟨_, shadow_section r split inv _ _ _ _ disk same keptNext rfl ?_ ?_ ?_ whole (callers.trans inv.callers), ?_,
    tables⟩
  · exact alike_logs _ _ onLogs (wal_ops_files label.kind)
  · exact logs_apart _ _ onLogs (work_not_log db)
  · exact logs_apart _ _ onLogs (garbage_not_log { r.sys with disk := disk, todo := [] } split kept)
  · rw [← label_kind_writes]
    rcases simple with ⟨write, sync, kind⟩ | kind <;> rw [kind] <;> simp [Kind.shift, Split.all, Kind.writes]

include inv in
theorem keeps_rotates (effect : Effect) (free : r.sys.todo = [])
    (done : step r.sys.cfg r.sys.db .flusherPublish = some effect) :
    ∃ after, RotationInv
        ⟨⟨r.sys.cfg, effect.db, r.sys.disk, effect.ops.filter (fun op => decide (op ≠ .unlink flushingWalName)),
          effect.garbage,
          r.sys.garbage ++ r.sys.doomed⟩, r.moved⟩ after ∧
      after.all = split.all ∧
      (r.sys.cfg.leveled = true → LevelOrder r.sys.db.sstables → LevelOrder effect.db.sstables) := by
  obtain ⟨disk, middle, first, second, work, rest, early, late, same, kept, parts, keptNext⟩ :=
    shadow_lock r split inv .flusherPublish effect free (by simp [Label.kind]) (fun existing gc => by cases gc)
      done (by simp) trivial
  have logs := inv.logs
  rw [free, apply_all_nil] at logs
  obtain ⟨i, log, sound, _⟩ := kept.inv.state
  obtain ⟨rfl, rfl⟩ : first = .published ∧ second = .idle := by
    refine ⟨parts.takes.1.elim id (fun flushes => ?_), parts.takes.2.elim id id⟩
    cases flushes.1
  obtain rfl : rest = [] := (List.append_eq_nil_iff.mp (idle_ops _ _ _ _ _ parts.two)).1
  have busy := published_busy _ _ _ i log _ _ sound parts.one
  have still : r.moved = false := by
    cases isMoved : r.moved with
    | false => rfl
    | true =>
        have idle := (logs.nameless isMoved).1
        rw [busy] at idle
        cases idle
  have left : effect.ops.filter (fun op => decide (op ≠ .unlink flushingWalName)) = work := by
    have others : ∀ op ∈ work, decide (op ≠ .unlink flushingWalName) = true :=
      fun op member => decide_eq_true (fun unlinks =>
      parts.apart op member flushingWalName (by simp [unlinks, FsOp.touches]) (by decide))
    rw [parts.ops, List.filter_append, List.filter_append, List.filter_eq_self.mpr others]
    simp [Kind.walOps]
  have slots : effect.db.hasFlushing = middle.hasFlushing ∧ middle.hasFlushing = false := by
    obtain ⟨db, ops, garbage⟩ := effect
    have one := parts.one
    have two := parts.two
    refine ⟨?_, ?_⟩
    · clear one
      cases two <;> rfl
    · clear two
      generalize work ++ Kind.published.walOps = steps at one
      cases one
      rfl
  rw [still] at logs
  have before := rotated_same false r.sys.db r.sys.db split r.sys.disk (applyAll r.sys.disk work) logs rfl
    (apart_frame walFiles r.sys.disk work parts.apart)
  have whole := rotated_kept r.sys.db effect.db split _ before busy (slots.1.trans slots.2)
  have within : ∀ op ∈ work, op ∈ effect.ops := fun op member => by
    rw [parts.ops]
    simp [member]
  rw [left, still]
  refine ⟨_, shadow_section r split inv _ _ work false disk same keptNext rfl ?_
    (fun op member => keptNext.inv.apart op (within op member))
    (fun op member => keptNext.inv.away op (within op member)) whole ?_, ?_, parts.order⟩
  · change AlikeOff work effect.ops
    have removed := alike_append work work [] (Kind.published.walOps ++ ([] ++ Kind.idle.walOps))
      (alike_work work parts.apart) (alike_logs _ _ (List.forall_mem_nil _) (wal_ops_files .published))
    rw [List.append_nil] at removed
    rw [parts.ops, List.append_assoc]
    exact removed
  · exact step_callers r.sys.cfg r.sys.db .flusherPublish effect done (by simp) inv.callers
  · exact parts.writes.trans (List.append_nil _)


include inv in
theorem quiet_rotates (next : DB) (kind : Kind) (ops : List DiskOp) (garbage : List Bytes)
    (quiet : kind = .worked ∨ kind = .idle) (move : Move r.sys.cfg found r.sys.db kind next ops garbage) :
    RotationInv ⟨{ r.sys with db := next, disk := applyAll r.sys.disk ops }, r.moved⟩ split ∧
      (r.sys.cfg.leveled = true → LevelOrder r.sys.db.sstables → LevelOrder next.sstables) := by
  obtain ⟨disk, kept, same⟩ := inv.shadow
  have stays := quiet_stays { r.sys with disk := disk, todo := [] } split next kind ops garbage kept quiet move
  obtain ⟨apart, _⟩ := quiet_wal_files _ _ found _ next kind ops garbage quiet kept.inv move
  obtain ⟨touches, _⟩ := quiet_touches _ _ _ next kind ops garbage quiet kept.inv move
  obtain ⟨frames, _⟩ := quiet_frames r.sys.cfg r.sys.db next kind ops garbage quiet move
  have swap : applyAll (applyAll r.sys.disk ops) r.sys.todo = applyAll (applyAll r.sys.disk r.sys.todo) ops :=
    apply_all_swap r.sys.disk ops r.sys.todo (fun op member other inside name touched both =>
      inv.apart other inside name both (touches op member name touched))
  have simple : kind.walOps = [] ∧ kind.shift split = split ∧ kind ≠ .flushed ∧ kind ≠ .sealed ∧ kind ≠ .published ∧
      kind ≠ .pickedAll := by
    rcases quiet with rfl | rfl <;> simp [Kind.walOps, Kind.shift]
  obtain ⟨none, shift, notFlushed, notSealed, notPublished, notPicked⟩ := simple
  have callers := move_callers r.sys.cfg r.sys.db next kind ops garbage move notPicked inv.callers
  rw [← List.append_nil ops, ← none] at move
  have logs := rotated_moved r.sys.cfg r.moved r.sys.db next split _ kind ops garbage inv.logs move apart
    (fun sealed => absurd sealed notSealed) (fun published => absurd published notPublished)
    (fun flushed => absurd flushed notFlushed)
  rw [decide_eq_false notFlushed, Bool.not_false, Bool.and_true, none, List.append_nil,
    redirect_apart r.moved ops apart, shift, ← swap]
    at logs
  refine ⟨⟨⟨applyAll disk ops, stays.kept, fun name other => ?_⟩, ?_, inv.away, apply_all_valid _ _ inv.valid, logs,
    callers⟩, stays.order⟩
  · change applyAll (applyAll r.sys.disk ops) r.sys.todo name = _
    rw [swap]
    exact alike_work ops apart _ disk same name other
  · rw [frames.files]
    exact inv.apart

include inv in
theorem collect_rotates (name : Bytes) (marked : name ∈ r.sys.garbage ∨ r.sys.todo = [] ∧ name ∈ r.sys.doomed) :
    RotationInv
      ⟨{ r.sys with
          disk := (FsOp.unlink name).apply r.sys.disk
          doomed := r.sys.doomed.filter (fun other => decide (other ≠ name))
          garbage := r.sys.garbage.filter (fun other => decide (other ≠ name)) }, r.moved⟩ split := by
  obtain ⟨disk, kept, same⟩ := inv.shadow
  have stays :=
    collect_stays { r.sys with disk := disk, todo := [] } split name kept (marked.imp id (fun both => ⟨rfl, both.2⟩))
  have notLog : name ∉ walFiles := garbage_not_log { r.sys with disk := disk, todo := [] } split kept name
    (marked.elim (List.mem_append_left _) (fun both => List.mem_append_right _ both.2))
  have untouched : ∀ op ∈ r.sys.todo, name ∉ op.touches := by
    intro op member touched
    rcases marked with inGarbage | ⟨none, _⟩
    · exact inv.away op member name touched inGarbage
    · rw [none] at member
      cases member
  have swap : applyAll ((FsOp.unlink name).apply r.sys.disk) r.sys.todo = (FsOp.unlink name).apply
    (applyAll r.sys.disk r.sys.todo) :=
    apply_all_comm r.sys.disk (.unlink name) r.sys.todo (fun op member other touched => by
      rw [FsOp.touches, List.mem_singleton] at touched
      rw [touched]
      exact untouched op member)
  have apart : Apart walFiles [FsOp.unlink name] := by
    intro op member other touched
    rw [List.mem_singleton.mp member, FsOp.touches, List.mem_singleton] at touched
    rwa [touched]
  refine ⟨⟨(FsOp.unlink name).apply disk, stays.kept, fun other free => ?_⟩, inv.apart,
    fun op member other touched inside =>
    inv.away op member other touched (List.mem_of_mem_filter inside), apply_valid r.sys.disk
      (.unlink name) inv.valid, ?_, inv.callers⟩
  · change applyAll ((FsOp.unlink name).apply r.sys.disk) r.sys.todo other = _
    rw [swap]
    exact alike_work [.unlink name] apart _ disk same other free
  · change Rotated r.moved r.sys.db split (applyAll ((FsOp.unlink name).apply r.sys.disk) r.sys.todo)
    rw [swap]
    exact rotated_same _ _ _ split _ _ inv.logs rfl (apart_frame walFiles _ [.unlink name] apart)

include inv in
theorem unlocked_rotates (event : Event) (next : Sys) (within : event.Within) (unlocked : ∀ label, event ≠ .lock label)
    (stepped : r.sys.Step event next) :
    RotationInv ⟨next, r.moved⟩ split ∧ next.cfg = r.sys.cfg ∧
      (r.sys.cfg.leveled = true → LevelOrder r.sys.db.sstables → LevelOrder next.db.sstables) := by
  cases stepped with
  | lock label effect free locked finds done => exact absurd rfl (unlocked label)
  | work label effect off done =>
      obtain ⟨⟨middle, front, back, early, late, first, second, takes, one, two, ops, _⟩, _⟩ :=
        step_moves r.sys.cfg r.sys.db label effect done
      obtain ⟨rfl, rfl⟩ := takes_worked label first second takes off
      obtain ⟨half, order⟩ := quiet_rotates r split inv middle .worked front early (.inl rfl) one
      obtain ⟨whole, orderNext⟩ := quiet_rotates _ split half effect.db .idle back late (.inr rfl) two
      rw [ops, apply_all_append]
      exact ⟨whole, rfl, fun leveled before => orderNext leveled (order leveled before)⟩
  | io op rest todo =>
      obtain ⟨disk, kept, same⟩ := inv.shadow
      have logs := inv.logs
      rw [todo] at same logs
      have inside : ∀ other ∈ rest, other ∈ r.sys.todo := fun other member => by simp [todo, member]
      exact ⟨⟨⟨disk, kept, same⟩, fun other member => inv.apart other (inside other member),
        fun other member => inv.away other (inside other member), apply_valid _ _ inv.valid, logs, inv.callers⟩, rfl,
        fun _ order => order⟩
  | collect name marked => exact ⟨collect_rotates r split inv name marked, rfl, fun _ order => order⟩
  | reopen cfg next closed opens => exact within.elim
  | crash cfg image next cut opens => exact within.elim

include inv in
theorem rotation_free : r.sys.db.hasFlushing = false → split.sealed = [] := by
  obtain ⟨disk, kept, _⟩ := inv.shadow
  exact kept_free { r.sys with disk := disk, todo := [] } split kept

include inv in
theorem rotation_get (key : Bytes) : r.sys.db.get key = .ok (valueOf split.all key) := by
  obtain ⟨disk, kept, _⟩ := inv.shadow
  have held := inv_at_inv r.sys.cfg r.sys.db split kept.held
  exact inv_get r.sys.cfg r.sys.db _ r.sys.db.logs key held (logs_grow_refl _) (inv_small r.sys.cfg r.sys.db _ held)

include inv in
theorem rotation_committed (free : r.sys.todo = []) :
    ∃ i log seq text synced, Sound True r.sys.db i log ∧
      Committed True r.sys.disk (manifestAt seq r.sys.db) text (r.sys.db.sstables.map Table.sst) ∧
      r.sys.disk (vlogName r.sys.db.currentGen) = some ⟨log.file, synced⟩ ∧
      ∀ name, (r.sys.disk name).isSome = true → StoreName name := by
  obtain ⟨disk, kept, same⟩ := inv.shadow
  rw [free, apply_all_nil] at same
  obtain ⟨i, log, sound, backed⟩ := kept.inv.state
  obtain ⟨seq, text, _, _, committed⟩ := backed.committed
  obtain ⟨synced, present⟩ := backed.vlog
  have vlog : ∀ gen, r.sys.disk (vlogName gen) = disk (vlogName gen) := fun gen =>
    same _ (fun log => (other_first _ (List.mem_append_left _ log)).2 (vlog_first gen))
  refine ⟨i, log, seq, text, synced, sound, ?_, (vlog _).trans present, fun name there => ?_⟩
  · refine committed_kept disk r.sys.disk _ text _ committed (same manifestName (by decide)) (fun entry member => ?_)
      (log_kept_same disk r.sys.disk _ (vlog _))
    obtain ⟨number, _, named⟩ := committed.prepared.named entry member
    rw [named]
    exact same _
      (fun log => (other_first _ (List.mem_append_left _ log)).1 (table_file_first number _ (by simp [tableFiles])))
  · by_cases wal : name ∈ walFiles
    · exact .inl (List.mem_append_left _ wal)
    · rw [same name wal] at there
      exact kept.inv.names name there

include inv in
theorem reopen_rotates (cfg : Config) (next : Sys) (closed : Closed r.sys) (opens : Opens cfg r.sys.disk next) :
    ∃ after, RotationInv ⟨next, false⟩ after ∧ (∀ key, valueOf after.all key = valueOf split.all key) ∧
      (cfg.leveled = true → LevelOrder r.sys.db.sstables → LevelOrder next.db.sstables) := by
  obtain ⟨i, log, seq, text, synced, sound, committed, present, names⟩ := rotation_committed r split inv closed.todo
  obtain ⟨shadow, kept, _⟩ := inv.shadow
  have logs := inv.logs
  rw [closed.todo, apply_all_nil] at logs
  have running : Running True (fun _ => True) (fun _ _ => True) next :=
    open_running carried_nothing cfg r.sys.disk next inv.valid names (.inr ⟨_, text, _, committed, trivial⟩) opens
  obtain ⟨kind, orphans, work, loads⟩ :=
    opens_loads cfg r.sys.disk _ text _ ⟨log.file, synced⟩ next committed present inv.valid opens
  have loaded :=
    reloaded_held cfg r.sys split i log seq kept.held sound (replayedWrites r.sys.disk) loads.sound loads.numbered
  have noWrites : kind.writes = [] ∧ ¬ kind.Picks ∧ kind ≠ .picked := by
    rcases loads.plain with rfl | rfl <;> exact ⟨rfl, id, nofun⟩
  obtain ⟨heldNext, writes, _, order⟩ := move_inv_at cfg _ next.db _ kind _ [] loaded loads.move
    (fun pick => absurd pick noWrites.2.1) (fun pick => absurd pick noWrites.2.2) opens.limits.1
  obtain ⟨alone, blank⟩ := rotated_loads r.moved r.sys.db split r.sys.disk logs
  have journaled := loads_journaled cfg r.sys.disk _ _ _ next kind orphans work split.done loads alone blank
  have keptNext : Kept anyStore True next (kind.shift ⟨split.done, [], replayedWrites r.sys.disk⟩) := by
    refine ⟨running.inv, opens.limits, ?_, ?_⟩
    · rw [opens.cfg]
      exact heldNext
    · rw [opens.disk]
      exact journaled
  refine ⟨_, kept_rotation next _ keptNext ?_, fun key => ?_, fun leveled before =>
    order leveled (loaded_order r.sys.db seq _ _ before)⟩
  · obtain ⟨listing, _, opened⟩ := opens.opened
    exact (List.append_eq_nil_iff.mp (opened_unstarted cfg listing _ next.db next.todo opened).merges).2
  · rw [writes, noWrites.1, List.append_nil, Split.all, List.append_nil]
    exact rotated_replayed r.moved r.sys.db split r.sys.disk logs (rotation_free r split inv) key

end Steps

end Tombstash
