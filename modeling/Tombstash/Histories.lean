import Tombstash.Journal
import Tombstash.Sessions

set_option autoImplicit false

namespace Tombstash

variable {found : Bytes} {good : Good} {empty : Prop}

-- Runs of which nothing more is known.
abbrev anyStore : Good := storeGood (fun _ _ => True)

-- The state of a session with its writes where the split says, on disk as soon
-- as the section under way is done.
structure Kept (good : Good) (empty : Prop) (s : Sys) (split : Split) : Prop where
  inv : SysInv True good empty s
  limits : WithinLimits s.db
  held : InvAt s.cfg s.db split
  journaled : Journaled s.db split (applyAll s.disk s.todo)

theorem kept_free (s : Sys) (split : Split) (kept : Kept good empty s split) :
    s.db.hasFlushing = false → split.sealed = [] := by
  obtain ⟨_, _, _, _, hist⟩ := kept.held.refined
  exact hist.free

-- A leveled pick finds the tables in leveled order.
def EventReady (s : Sys) : Event → Prop
  | .lock .compactorPick => s.cfg.leveled = true → LevelOrder s.db.sstables
  | _ => True

-- The two moves of a section, with what is known between them and after them.
structure Section (s : Sys) (split : Split) (label : Label) (effect : Effect) (middle : DB) (first second : Kind)
    (work rest : List DiskOp) (early late : List Bytes) : Prop where
  takes : label.Takes first second
  ops : effect.ops = work ++ first.walOps ++ (rest ++ second.walOps)
  marked : effect.garbage = early ++ late
  one : Move s.cfg label.found s.db first middle (work ++ first.walOps) early
  two : Move s.cfg label.found middle second effect.db (rest ++ second.walOps) late
  apart : Apart walFiles work
  apartRest : Apart walFiles rest
  meetsOne : Meets True label.found s.disk s.db middle first
  meetsTwo : Meets True label.found (applyAll s.disk (work ++ first.walOps)) middle effect.db second
  heldHalf : InvAt s.cfg middle (first.shift split)
  held : InvAt s.cfg effect.db (second.shift (first.shift split))
  journaledHalf : Journaled middle (first.shift split) (applyAll s.disk (work ++ first.walOps))
  journaled : Journaled effect.db (second.shift (first.shift split)) (applyAll s.disk effect.ops)
  writesHalf : (first.shift split).all = split.all ++ label.write.toList
  writes : (second.shift (first.shift split)).all = split.all ++ label.write.toList
  order : s.cfg.leveled = true → LevelOrder s.db.sstables → LevelOrder effect.db.sstables

section Sections

variable (s : Sys) (split : Split)

theorem lock_section (label : Label) (effect : Effect) (kept : Kept good empty s split) (free : s.todo = [])
    (locked : label.kind ≠ .worked) (finds : GcFinds s label) (done : step s.cfg s.db label = some effect)
    (calm : label.Picks → inFlight s.db = [])
    (ready : label = .compactorPick → s.cfg.leveled = true → LevelOrder s.db.sstables) :
    ∃ middle first second work rest early late, Section s split label effect middle first second work
    rest early late := by
  obtain ⟨inv, limits, held, journaled⟩ := kept
  obtain ⟨middle, front, back, early, late, first, second, takes, one, two, ops, marked, meetsOne, meetsTwo⟩ :=
    lock_moves s good empty label effect inv limits locked finds done (fun _ => calm)
  obtain ⟨i, log, sound, backed⟩ := inv.state
  rw [free, apply_all_nil] at backed journaled
  obtain ⟨j, later, half⟩ :=
    locked_moved s.cfg s.db middle i log first s.disk front early sound backed inv.numbered inv.bounds
    inv.known inv.valid one meetsOne
  obtain ⟨k, last, whole⟩ :=
    locked_moved s.cfg middle effect.db j later second _ back late half.sound half.backed half.numbered
    half.bounds half.known (apply_all_valid _ _ inv.valid) two meetsTwo
  obtain ⟨_, picked, _⟩ := takes_picks label first second takes
  obtain ⟨noWrites, noPick, notPicked, _, _⟩ := plain_kind second (takes_plain label first second takes)
  obtain ⟨heldHalf, writesHalf, _, orderHalf⟩ :=
    move_inv_at s.cfg s.db middle split first front early held one (meetsOne.calm trivial)
    (fun pick => ready (picked pick)) meetsOne.listable.1
  obtain ⟨heldWhole, writesWhole, _, orderWhole⟩ := move_inv_at s.cfg middle effect.db _ second back late heldHalf two
    (fun pick => absurd pick noPick) (fun pick => absurd pick notPicked) meetsTwo.listable.1
  obtain ⟨work, rfl, apart, _⟩ := half.phased
  obtain ⟨rest, rfl, apartRest, _⟩ := whole.phased
  have journaledHalf := journaled_moved s.cfg s.db middle split s.disk first work early journaled one apart
  have journaledWhole := journaled_moved s.cfg middle effect.db _ _ second rest late journaledHalf two apartRest
  have written := takes_writes label first second takes
  rw [noWrites, List.append_nil] at writesWhole written
  rw [written] at writesHalf
  refine ⟨middle, first, second, work, rest, early, late, takes, ops, marked, one, two, apart, apartRest, meetsOne,
    meetsTwo, heldHalf,
    heldWhole, journaledHalf, ?_, writesHalf, writesWhole.trans writesHalf, fun leveled order =>
    orderWhole leveled (orderHalf leveled order)⟩
  rw [ops, apply_all_append]
  exact journaledWhole

theorem move_kept (next : DB) (kind : Kind) (ops : List DiskOp) (garbage : List Bytes)
    (kept : Kept anyStore True s split) (free : s.todo = []) (move : Move s.cfg found s.db kind next ops garbage)
    (meets : Meets True found s.disk s.db next kind) (limits : WithinLimits next)
    (ready : kind = .picked → s.cfg.leveled = true → LevelOrder s.db.sstables) :
    Kept anyStore True ⟨s.cfg, next, s.disk, ops, garbage, s.garbage ++ s.doomed⟩ (kind.shift split) := by
  obtain ⟨inv, _, held, journaled⟩ := kept
  have invNext := first_inv anyStore anyStore True True s next kind ops garbage free inv move meets
    (fun _ _ _ _ _ _ => trivial) (fun _ _ _ _ _ _ _ _ => trivial)
  obtain ⟨i, log, sound, backed⟩ := inv.state
  rw [free, apply_all_nil] at backed journaled
  obtain ⟨j, later, moved⟩ :=
    locked_moved s.cfg s.db next i log kind s.disk ops garbage sound backed inv.numbered inv.bounds
    inv.known inv.valid move meets
  obtain ⟨heldNext, _⟩ :=
    move_inv_at s.cfg s.db next split kind ops garbage held move (meets.calm trivial) ready limits.1
  obtain ⟨work, rfl, apart, _⟩ := moved.phased
  exact ⟨invNext, limits, heldNext, journaled_moved s.cfg s.db next split s.disk kind work garbage journaled move apart⟩

-- What a step outside the sections makes of a state: nothing that a reader or
-- a recovery could tell.
structure Stays (good : Good) (empty : Prop) (s next : Sys) (split : Split) : Prop where
  kept : Kept good empty next split
  cfg : next.cfg = s.cfg
  order : s.cfg.leveled = true → LevelOrder s.db.sstables → LevelOrder next.db.sstables
  files : ∀ name ∈ walFiles, applyAll next.disk next.todo name = applyAll s.disk s.todo name
  steps : ∃ done, s.todo = done ++ next.todo

theorem quiet_stays (next : DB) (kind : Kind) (ops : List DiskOp) (garbage : List Bytes)
    (kept : Kept good empty s split) (quiet : kind = .worked ∨ kind = .idle)
    (move : Move s.cfg found s.db kind next ops garbage) :
    Stays good empty s { s with db := next, disk := applyAll s.disk ops } split := by
  obtain ⟨inv, limits, held, journaled⟩ := kept
  obtain ⟨frames, rfl⟩ := quiet_frames s.cfg s.db next kind ops garbage quiet move
  have limitsNext : WithinLimits next := by
    rw [WithinLimits, frames.counter, frames.tables]
    exact limits
  obtain ⟨apart, swap⟩ := quiet_wal_files good empty found s next kind ops [] quiet inv move
  have stays : kind.shift split = split ∧ kind.walOps = [] ∧ kind ≠ .picked := by
    rcases quiet with rfl | rfl <;> exact ⟨rfl, rfl, nofun⟩
  obtain ⟨heldNext, _, _, order⟩ := move_inv_at s.cfg s.db next split kind ops [] held move
    (fun pick => absurd pick (quiet_calm kind quiet)) (fun pick => absurd pick stays.2.2) limitsNext.1
  have invNext := quiet_inv good empty s next kind ops [] quiet inv move
  rw [← List.append_nil ops, ← stays.2.1] at move
  have journaledNext := journaled_moved s.cfg s.db next split _ kind ops [] journaled move apart
  rw [stays.1] at heldNext journaledNext
  rw [stays.2.1, List.append_nil] at journaledNext
  refine ⟨⟨invNext, limitsNext, heldNext, ?_⟩, rfl, order, fun name member => ?_, [], rfl⟩
  · rw [swap]
    exact journaledNext
  · change applyAll (applyAll s.disk ops) s.todo name = _
    rw [swap]
    exact apart_frame walFiles _ ops apart name member

theorem collect_stays (name : Bytes) (kept : Kept good empty s split)
    (marked : name ∈ s.garbage ∨ s.todo = [] ∧ name ∈ s.doomed) :
    Stays good empty s { s with
      disk := (FsOp.unlink name).apply s.disk
      doomed := s.doomed.filter (fun other => decide (other ≠ name))
      garbage := s.garbage.filter (fun other => decide (other ≠ name)) } split := by
  have files := collect_wal_files good empty s name kept.inv marked
  exact ⟨⟨collect_inv good empty s name kept.inv marked, kept.limits, kept.held,
    journaled_same s.db s.db split _ _ kept.journaled rfl files⟩, rfl, fun _ order => order, files, [], rfl⟩

-- A step of a worker, a file-system step of the section, or the end of an
-- obsolete file.
theorem unlocked_stays (next : Sys) (event : Event) (kept : Kept good empty s split) (within : event.Within)
    (unlocked : ∀ label, event ≠ .lock label) (stepped : s.Step event next) : Stays good empty s next split := by
  cases stepped with
  | lock label effect free locked finds done => exact absurd rfl (unlocked label)
  | work label effect off done =>
      obtain ⟨⟨middle, front, back, early, late, first, second, takes, one, two, ops, _⟩, _⟩ :=
        step_moves s.cfg s.db label effect done
      obtain ⟨rfl, rfl⟩ := takes_worked label first second takes off
      have half := quiet_stays s split middle .worked front early kept (.inl rfl) one
      have whole := quiet_stays _ split effect.db .idle back late half.kept (.inr rfl) two
      rw [ops, apply_all_append]
      exact ⟨whole.kept, rfl, fun leveled order => whole.order leveled (half.order leveled order),
        fun name member => (whole.files name member).trans (half.files name member), [], rfl⟩
  | io op rest todo =>
      have journaled := kept.journaled
      rw [todo] at journaled
      refine ⟨⟨io_inv good empty s op rest todo kept.inv, kept.limits, kept.held, journaled⟩, rfl, fun _ order => order,
        fun name _ => ?_, [op], todo⟩
      rw [todo]
      rfl
  | collect name marked => exact collect_stays s split name kept marked
  | reopen cfg next closed opens => exact within.elim
  | crash cfg image next cut opens => exact within.elim

end Sections

theorem replayed_split (db : DB) (split : Split) (disk : Disk Bytes) (journaled : Journaled db split disk)
    (free : db.hasFlushing = false → split.sealed = []) : replayedWrites disk = split.sealed ++ split.active := by
  obtain ⟨⟨synced, wal⟩, flushing, fits⟩ := journaled
  have active := replay_file_writes disk walName split.active synced
    (fun write member => fits write (List.mem_append_right _ member))
    wal
  rw [replayedWrites, active]
  cases slot : db.hasFlushing with
  | true =>
      rw [slot, if_pos rfl] at flushing
      rw [replay_file_writes disk flushingWalName split.sealed _
        (fun write member => fits write (List.mem_append_left _ member))
        flushing]
  | false =>
      rw [slot, if_neg (by simp)] at flushing
      rw [replay_file_none disk flushingWalName flushing, free slot]

-- Loaded again, the store holds the same writes, those of the logs in its
-- memtable.
theorem reloaded_held (cfg : Config) (s : Sys) (split : Split) (i : Nat) (log : ValueLog) (seq : Nat)
    (held : InvAt s.cfg s.db split) (sound : Sound True s.db i log) (replayed : List Write)
    (loaded : Sound True (loadedDb (manifestAt seq s.db) (s.db.sstables.map Table.sst) log.file replayed) 0
      (ValueLog.opened (vlogName s.db.currentGen) s.db.currentGen log.file))
    (numbered : Numbered (loadedDb (manifestAt seq s.db) (s.db.sstables.map Table.sst) log.file replayed)) :
    InvAt cfg (loadedDb (manifestAt seq s.db) (s.db.sstables.map Table.sst) log.file replayed)
    ⟨split.done, [], replayed⟩ := by
  obtain ⟨k, other, stamp, otherSound, hist⟩ := held.refined
  obtain ⟨rfl, rfl⟩ := sound_unique s.db k i other log otherSound sound
  have grows : Grows other (ValueLog.opened (vlogName s.db.currentGen) s.db.currentGen other.file) :=
    ⟨sound.name.symm, sound.gen.symm, List.prefix_rfl⟩
  obtain ⟨again, histAgain⟩ :=
    loaded_hist (manifestAt seq s.db) (s.db.sstables.map Table.sst) other.file replayed split.done
    (by simp [manifestAt, manifestOf]) (tables_hold_grows _ _ _ _ grows (hist_tables s.db other _ _ _ stamp hist))
  exact ⟨⟨0, _, again, loaded, histAgain⟩, numbered,
    loaded_arranged cfg _ _ _ _ (loaded_fits s.db seq _ _ held.arranged.fits)⟩

theorem loads_journaled (cfg : Config) (disk : Disk Bytes) (m : ManifestData) (ssts : List SSTable) (file : File)
    (next : Sys) (kind : Kind) (orphans work : List DiskOp) (done : List Write)
    (loads : Loads True cfg disk m ssts file next kind orphans work)
    (alone : disk flushingWalName = none → ∃ synced, disk walName = some ⟨writesBytes (replayedWrites disk), synced⟩)
    (blank : replayedWrites disk = [] → disk walName = none ∨ ∃ synced, disk walName = some ⟨writesBytes [], synced⟩) :
    Journaled next.db (kind.shift ⟨done, [], replayedWrites disk⟩) (applyAll disk next.todo) := by
  have fits : ∀ write ∈ replayedWrites disk, Logged (writeRecord write) := replayed_logged disk
  obtain ⟨slot, idle⟩ := flush_keeps_slot cfg _ next.db kind _ [] loads.plain loads.move
  have free : next.db.hasFlushing = false := slot
  rw [loads.todo, apply_all_append, apply_all_append]
  cases leftover : disk flushingWalName with
  | none =>
      obtain ⟨rfl, _⟩ := loads.clean (by rw [leftover]; rfl)
      obtain ⟨synced, wal⟩ := alone leftover
      have created : ∀ name ∈ walFiles, applyAll disk (startOps m orphans) name = disk name := by
        intro name member
        rw [loads.start name member, create_present disk walName _ wal]
      refine ⟨⟨synced, ?_⟩, ?_, fun write member => fits write member⟩
      · rw [(idle rfl).2]
        exact (created walName (by decide)).trans wal
      · rw [(idle rfl).2, free]
        exact (created flushingWalName (by decide)).trans leftover
  | some old =>
      have gone : ∀ d : Disk Bytes, applyAll d (dropFlushing true) flushingWalName = none := fun d => by
        simp [dropFlushing, FsOp.apply, set_same]
      have stays : ∀ d : Disk Bytes, applyAll d (dropFlushing true) walName = d walName := fun d =>
        apply_all_frame d _ walName (by decide)
      rw [Option.isSome_some]
      rcases loads.plain with rfl | rfl
      · refine ⟨⟨0, ?_⟩, by rw [gone, free]; rfl, List.forall_mem_nil _⟩
        rw [stays, apply_all_append]
        exact set_same (applyAll (applyAll disk (startOps m orphans)) work) walName _
      · -- Nothing was replayed.
        have nothing : replayedWrites disk = [] := by
          have none := loads.leftover (by rw [leftover]; rfl)
          rw [(idle rfl).1] at none
          exact (mem_of_is_empty _).mp none
        rw [nothing]
        obtain ⟨synced, emptied⟩ : ∃ synced,
          (FsOp.create walName).apply disk walName = some ⟨writesBytes [], synced⟩ := by
          rcases blank nothing with none | ⟨synced, present⟩
          · exact ⟨0, by simp [FsOp.apply, set_same, none, writesBytes, walBytes]⟩
          · exact ⟨synced, by rw [create_present disk walName _ present, present]⟩
        refine ⟨⟨synced, ?_⟩, by rw [gone, free]; rfl, List.forall_mem_nil _⟩
        rw [stays, (idle rfl).2]
        exact (loads.start walName (by decide)).trans emptied

theorem journaled_loads (db : DB) (split : Split) (disk : Disk Bytes) (journaled : Journaled db split disk)
    (free : db.hasFlushing = false → split.sealed = []) :
    (disk flushingWalName = none → ∃ synced, disk walName = some ⟨writesBytes (replayedWrites disk), synced⟩) ∧
      (replayedWrites disk = [] → disk walName = none ∨ ∃ synced, disk walName = some ⟨writesBytes [], synced⟩) := by
  obtain ⟨synced, wal⟩ := journaled.wal
  have replayed := replayed_split db split disk journaled free
  refine ⟨fun none => ⟨synced, ?_⟩, fun nothing => .inr ⟨synced, ?_⟩⟩
  · have noSealed : split.sealed = [] := by
      refine free (Bool.eq_false_iff.mpr (fun sealed => ?_))
      rw [journaled.flushing, if_pos sealed] at none
      cases none
    rw [replayed, noSealed, List.nil_append]
    exact wal
  · rw [nothing] at replayed
    rw [wal, (List.append_eq_nil_iff.mp replayed.symm).2]

-- What a step makes of a state: the writes it adds, and the leveled order.
structure Follows (good : Good) (empty : Prop) (s next : Sys) (split after : Split) (writes : List Write) : Prop where
  kept : Kept good empty next after
  writes : after.all = split.all ++ writes
  order : next.cfg.leveled = true → LevelOrder s.db.sstables → LevelOrder next.db.sstables

theorem reopen_follows (cfg : Config) (s next : Sys) (split : Split) (kept : Kept good empty s split)
    (closed : Closed s) (opens : Opens cfg s.disk next) (inv : SysInv True good empty next) :
    ∃ after, Follows good empty s next split after [] := by
  have free := kept_free s split kept
  obtain ⟨before, _, held, journaled⟩ := kept
  rw [closed.todo, apply_all_nil] at journaled
  obtain ⟨i, log, seq, synced, kind, orphans, work, reopened⟩ := reopen_loads good empty cfg s next before closed opens
  have loads := reopened.loads
  have loaded :=
    reloaded_held cfg s split i log seq held reopened.sound (replayedWrites s.disk) loads.sound loads.numbered
  have noWrites : kind.writes = [] ∧ ¬ kind.Picks ∧ kind ≠ .picked := by
    rcases loads.plain with rfl | rfl <;> exact ⟨rfl, id, nofun⟩
  obtain ⟨heldNext, writes, _, order⟩ := move_inv_at cfg _ next.db _ kind _ [] loaded loads.move
    (fun pick => absurd pick noWrites.2.1) (fun pick => absurd pick noWrites.2.2) opens.limits.1
  have whole : (⟨split.done, [], replayedWrites s.disk⟩ : Split).all = split.all := by
    rw [replayed_split s.db split s.disk journaled free]
    simp [Split.all]
  rw [whole, noWrites.1] at writes
  refine ⟨kind.shift ⟨split.done, [], replayedWrites s.disk⟩, ⟨inv, opens.limits, ?_, ?_⟩, writes, ?_⟩
  · rw [opens.cfg]
    exact heldNext
  · rw [opens.disk]
    obtain ⟨alone, blank⟩ := journaled_loads s.db split s.disk journaled free
    exact loads_journaled cfg s.disk _ _ _ next kind orphans work split.done loads alone blank
  · rw [opens.cfg]
    exact fun leveled before => order leveled (loaded_order s.db seq _ _ before)

theorem kept_running (s : Sys) (split : Split) (kept : Kept anyStore True s split) :
    Running True (fun _ => True) (fun _ _ => True) s := ⟨kept.inv, kept.limits, trivial⟩

theorem step_follows (s next : Sys) (event : Event) (split : Split) (kept : Kept anyStore True s split)
    (calm : EventCalm True s event) (ready : EventReady s event) (clean : ∀ cfg, event ≠ .crash cfg)
    (stepped : s.Step event next) :
    ∃ after, Follows anyStore True s next split after event.write.toList := by
  have running := sys_step_running carried_nothing s next event (kept_running s split kept) calm stepped
  have unlocked : event.Within → (∀ label, event ≠ .lock label) →
    ∃ after, Follows anyStore True s next split after [] := by
    intro within other
    have stays := unlocked_stays s split next event kept within other stepped
    exact ⟨split, stays.kept, (List.append_nil _).symm, fun leveled => stays.order (by rwa [← stays.cfg])⟩
  cases event with
  | lock label =>
      cases stepped with
      | lock _ effect free locked finds done =>
          obtain ⟨middle, first, second, work, rest, early, late, parts⟩ :=
            lock_section s split label effect kept free locked finds done
            (calm trivial label rfl) (fun pick => by rw [pick] at ready; exact ready)
          exact ⟨_, ⟨running.inv, running.limits, parts.held, parts.journaled⟩, parts.writes, parts.order⟩
  | reopen cfg =>
      cases stepped with
      | reopen _ _ closed opens => exact reopen_follows cfg s next split kept closed opens running.inv
  | crash cfg => exact absurd rfl (clean cfg)
  | work label => exact unlocked trivial nofun
  | io => exact unlocked trivial nofun
  | collect name => exact unlocked trivial nofun

theorem start_shape (cfg : Config) (s : Sys) (starts : s.Starts cfg) :
    s.db = DB.fresh ∧ s.todo = blankOps [] ++ writeManifestLocked DB.fresh := by
  obtain ⟨⟨listing, lists, opened⟩, _⟩ := starts
  have nothing : listing = [] :=
    List.eq_nil_iff_forall_not_mem.mpr (fun name member => by cases (lists.2 name).mp member)
  rw [nothing, open_blank cfg [] _ blank_nothing lists_nothing, Except.ok.injEq, Prod.mk.injEq] at opened
  exact ⟨opened.1.symm, opened.2.symm⟩

theorem start_held (cfg : Config) (s : Sys) (starts : s.Starts cfg) :
    InvAt s.cfg s.db ⟨[], [], []⟩ ∧ applyAll s.disk s.todo walName = some ⟨[], 0⟩ ∧
      applyAll s.disk s.todo flushingWalName = none ∧ s.db = DB.fresh := by
  obtain ⟨db, todo⟩ := start_shape cfg s starts
  rw [db, todo, starts.disk]
  refine ⟨?_, rfl, rfl, rfl⟩
  obtain ⟨⟨done, sealed, active⟩, held, none⟩ := inv_split s.cfg DB.fresh [] (fresh_inv s.cfg)
  simp only [Split.all, List.append_eq_nil_iff] at none
  obtain ⟨⟨rfl, rfl⟩, rfl⟩ := none
  exact held

theorem start_kept (cfg : Config) (s : Sys) (starts : s.Starts cfg) (inv : SysInv True good empty s) :
    Kept good empty s ⟨[], [], []⟩ := by
  obtain ⟨held, wal, flushing, fresh⟩ := start_held cfg s starts
  refine ⟨inv, starts.limits, held, ⟨0, wal⟩, ?_, nofun⟩
  rw [flushing, fresh]
  rfl

end Tombstash
