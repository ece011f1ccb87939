import Tombstash.Salvage

set_option autoImplicit false

namespace Tombstash

-- The ledger of a store over its sessions. While it is fragile the constructor
-- has steps to do that must not be interrupted.
structure Life extends Ledger where
  fragile : Prop := False

-- After a clean close the store promises what it did, after a crash all that is
-- left.
def Life.reopened (life : Life) (disk : Disk Bytes) : Life := ⟨⟨life.written, life.due, life.due⟩, ¬ Restarts disk⟩

def Life.crashed (life : Life) (n : Nat) (disk : Disk Bytes) : Life := ⟨⟨life.written.take n, n, n⟩, ¬ Restarts disk⟩

-- What a step makes of the ledger. A crash cuts the history at some write, and
-- what is left of it is what the opened store shows.
inductive Life.Next (life : Life) (s : Sys) : Event → Sys → Life → Prop
  | lock (label : Label) (next : Sys) (alone : label ≠ .compactAllPick) (synced : EventSynced s (.lock label))
      (ready : EventReady s (.lock label)) :
      Next life s (.lock label) next ⟨life.toLedger.next s next (.lock label), False⟩
  | unlocked (event : Event) (next : Sys) (within : event.Within) (other : ∀ label, event ≠ .lock label) :
      Next life s event next life
  | reopen (cfg : Config) (next : Sys) : Next life s (.reopen cfg) next (life.reopened next.disk)
  | crash (cfg : Config) (next : Sys) (n : Nat) (unbroken : s.todo = [] ∨ ¬ life.fragile) (aligned : Aligned next.disk)
      (bound : n ≤ life.written.length) (shows : ∀ key, next.db.get key = .ok (valueOf (life.written.take n) key)) :
      Next life s (.crash cfg) next (life.crashed n next.disk)

-- Runs over any number of sessions and crashes, with their ledgers.
def Sys.Lives : Sys → Life → List Event → Sys → Life → Prop
  | s, life, [], last, final => last = s ∧ final = life
  | s, life, event :: rest, last, final =>
      ∃ next after, s.Step event next ∧ life.Next s event next after ∧ next.Lives after rest last final

-- What the commits of the section under way must be good for.
def Life.good (life : Life) : Good := fun wal flushing m text ssts =>
  life.fragile ∨ Salvages life.written life.sure wal flushing m text ssts

def Life.blank (life : Life) : Prop := life.fragile ∨ ∀ key, valueOf life.written key = none

-- The state of a store with a ledger: its own history ends as the ledger's does,
-- after a beginning that is promised as a whole.
structure Survives (s : Sys) (life : Life) : Prop where
  kept : ∃ split a b, Kept life.good life.blank s split ∧ Parallel split.all life.written a b ∧ b ≤ life.sure ∧
    (∀ write ∈ split.all, Logged (writeRecord write)) ∧ Promised (a + (life.due - b)) split (applyAll s.disk s.todo)
  sure : life.sure ≤ life.due
  callers : s.db.callers = []
  layered : Running True Layered DeepStore s

theorem survives_due (s : Sys) (life : Life) (survives : Survives s life) : life.due ≤ life.written.length := by
  obtain ⟨⟨split, a, b, _, parallel, low, _, promised⟩, sure, _⟩ := survives
  have bound := promised_bound _ _ _ promised
  have lengths := parallel_length _ _ a b parallel
  have outside := parallel.outside
  omega

theorem survives_get (s : Sys) (life : Life) (survives : Survives s life) (key : Bytes) :
    s.db.get key = .ok (valueOf life.written key) := by
  obtain ⟨⟨split, a, b, kept, parallel, _⟩, _⟩ := survives
  obtain ⟨i, log, stamp, sound, hist⟩ := kept.held.refined
  rw [DB.get, get_correct s.db i log _ _ _ stamp s.db.logs key sound hist (logs_grow_refl _) sound.small,
    ← parallel_value _ _ a b parallel key, Split.all]

theorem survives_unlocked (s next : Sys) (life : Life) (event : Event) (survives : Survives s life)
    (within : event.Within) (other : ∀ label, event ≠ .lock label) (stepped : s.Step event next) :
    Survives next life := by
  obtain ⟨⟨split, a, b, kept, parallel, low, fits, promised⟩, sure, callers, layered⟩ := survives
  have stays := unlocked_stays s split next event kept within other stepped
  have alone := other .compactAllPick
  exact ⟨⟨split, a, b, stays.kept, parallel, low, fits,
    promised_same _ _ _ _ (stays.files walName (by decide)) promised⟩, sure,
    background_step s next event callers alone stepped,
    sys_step_running layered_carried s next event layered
    (background_event_calm s next event callers alone stepped) stepped⟩

theorem survives_lock (s : Sys) (life : Life) (label : Label) (effect : Effect) (survives : Survives s life)
    (free : s.todo = []) (locked : label.kind ≠ .worked) (finds : GcFinds s label)
    (done : step s.cfg s.db label = some effect) (alone : label ≠ .compactAllPick)
    (synced : EventSynced s (.lock label)) (ready : EventReady s (.lock label)) :
    Survives ⟨s.cfg, effect.db, s.disk, effect.ops, effect.garbage, s.garbage ++ s.doomed⟩
      ⟨life.toLedger.next s ⟨s.cfg, effect.db, s.disk, effect.ops, effect.garbage, s.garbage ++ s.doomed⟩ (.lock label),
        False⟩ := by
  have stepped : s.Step (.lock label) ⟨s.cfg, effect.db, s.disk, effect.ops, effect.garbage, s.garbage ++ s.doomed⟩ :=
    .lock label effect free locked finds done
  have due := survives_due s life survives
  obtain ⟨⟨split, a, b, kept, parallel, low, fits, promised⟩, sure, callers, layered⟩ := survives
  have apart : Event.lock label ≠ .lock .compactAllPick := fun same => alone (Event.lock.inj same)
  have calm : EventCalm True s (.lock label) := background_event_calm s _ _ callers apart stepped
  obtain ⟨middle, first, second, work, rest, early, late, parts⟩ :=
    lock_section s split label effect kept free locked finds done
    (calm trivial label rfl) (fun pick => by rw [pick] at ready; exact ready)
  rw [free, apply_all_nil] at promised
  have fitsNext : ∀ write ∈ split.all ++ label.write.toList, Logged (writeRecord write) := by
    intro write member
    rcases List.mem_append.mp member with old | new
    · exact fits write old
    · exact section_fits s split label effect middle first second work rest early late parts write new
  have flushes : label.kind = .flushed → ∀ file, s.disk walName = some file → file.synced = file.data.length := by
    intro kind
    cases label <;> first | exact synced | cases kind
  have longer := parallel_append _ _ a b parallel label.write.toList
  have inv :=
    section_recoverable _ _ s split label effect middle first second work rest early late parts kept free _ promised
    fitsNext flushes
  have invNext := inv_imp _ (Salvages (life.written ++ label.write.toList) life.due) _
    (∀ key, valueOf (life.written ++ label.write.toList) key = none) _ inv
    (recoverable_salvages _ _ a b life.due longer (Nat.le_trans low sure))
    (fun nothing key => by rw [← parallel_value _ _ a b longer key, nothing]; rfl)
  refine ⟨⟨_, a, b,
    ⟨inv_imp _ _ _ _ _ invNext (fun _ _ _ _ _ => .inr) .inr, (step_moves s.cfg s.db label effect done).2, parts.held,
    parts.journaled⟩,
    by rw [parts.writes]; exact longer, Nat.le_trans low sure, by rw [parts.writes]; exact fitsNext, ?_⟩, ?_,
    background_step s _ _ callers apart stepped, sys_step_running layered_carried s _ _ layered calm stepped⟩
  · cases promises : label.promises s.db effect.db with
    | true =>
        have all := section_promises _ _ s split label effect middle first second work rest early late parts kept
          free done promises
        rw [parallel_length _ _ a b longer] at all
        simpa [Ledger.next, promises] using all
    | false =>
        have still :=
          (section_promised _ _ s split label effect middle first second work rest early late parts kept
          free _ promised).2
        simpa [Ledger.next, promises] using still
  · simp only [Ledger.next]
    split
    · rw [List.length_append]
      omega
    · exact Nat.le_refl _

section Crash

variable (s : Sys) (life : Life) (survives : Survives s life) (image : Disk Bytes) (cut : CrashImage s.disk image)

include survives in
theorem survives_openable (unbroken : s.todo = [] ∨ ¬ life.fragile) :
    (Blank s.disk ∧ ∀ key, valueOf life.written key = none) ∨
      ∃ m text ssts, Committed True s.disk m text ssts ∧
        Salvages life.written (life.promised s) (s.disk walName) (s.disk flushingWalName) m text ssts := by
  obtain ⟨⟨split, a, b, kept, parallel, low, fits, promised⟩, sure, _⟩ := survives
  rw [Ledger.promised]
  by_cases free : s.todo = []
  · obtain ⟨i, log, sound, backed⟩ := kept.inv.state
    have journaled := free_journaled _ _ s split kept free
    rw [free, apply_all_nil] at backed promised
    rw [if_pos free]
    obtain ⟨seq, text, _, known, committed⟩ := backed.committed
    refine .inr
      ⟨_, text, _, committed, recoverable_salvages split.all _ a b _ parallel (Nat.le_trans low sure) _ _ _ _ _ ?_⟩
    rw [← List.append_nil split.all] at fits ⊢
    exact recoverable_at s.cfg s.db split i log kept.held sound seq _ text known _ _ [] fits
      (replays_before s.db split s.disk journaled (kept_free s split kept) _ promised [])
  · have sturdy := unbroken.resolve_left free
    rw [if_neg free]
    rcases kept.inv.guarded [] List.nil_prefix with ⟨blank, _, nothing⟩ | ⟨m, text, ssts, committed, _, holds⟩
    · exact .inl ⟨blank, nothing.resolve_left sturdy⟩
    · exact .inr ⟨m, text, ssts, committed, holds.resolve_left sturdy⟩

include survives cut in
theorem survives_image (unbroken : s.todo = [] ∨ ¬ life.fragile) :
    (Blank image ∧ ∀ key, valueOf life.written key = none) ∨
      ∃ m text ssts file base, Leftover image m text ssts file base ∧
        ∃ n, life.promised s ≤ n ∧ n ≤ life.written.length ∧
          ∀ key, valueOf (base ++ replayedWrites image) key = valueOf (life.written.take n) key := by
  rcases survives_openable s life survives unbroken with ⟨blank, nothing⟩ | ⟨m, text, ssts, committed, salvages⟩
  · exact .inl ⟨blank_crash s.disk image cut blank, nothing⟩
  · have after := committed_crash s.disk image m text ssts cut committed
    obtain ⟨file, present, begins, inside, _, ranges⟩ := after.prepared.vlog
    obtain ⟨base, log, gen, known, holds, fits, shows⟩ := salvages
    obtain ⟨own, kept⟩ := shows s.disk image rfl rfl cut
    have deep : DeepStore m ssts := by
      rcases (crash_openable _ _ s image survives.layered.inv cut).2.2 with blank | ⟨other, text', ssts', there, deep⟩
      · exact (blank_uncommitted image m text ssts blank after).elim
      · cases committed_unique image m other text text' ssts ssts' after there
        rw [committed_tables image m.tables ssts ssts' after.prepared.tables there.prepared.tables]
        exact deep
    refine .inr ⟨m, text, ssts, file, base, ⟨after, deep, present, ?_, fits, own⟩, kept⟩
    refine tables_hold_within log _ text _ ssts gen.symm known (begins.trans (List.take_prefix _ _)) ?_ holds
    rw [gen]
    exact ranges trivial

include survives cut in
-- The constructor after a crash finds a beginning of the history that has every
-- promised write.
theorem survives_shows (unbroken : s.todo = [] ∨ ¬ life.fragile) (again : Config) (listing : List Bytes)
    (lists : Lists image listing) :
    Reopens again listing image ∧
      ∀ db ops, openDB again listing image = .ok (db, ops) →
        ∃ n, life.promised s ≤ n ∧ n ≤ life.written.length ∧
        ∀ key, db.get key = .ok (valueOf (life.written.take n) key) := by
  have due := survives_due s life survives
  have low : life.promised s ≤ life.due := by
    rw [Ledger.promised]
    split
    · exact Nat.le_refl _
    · exact survives.sure
  obtain ⟨_, names, openable⟩ := crash_openable _ _ s image survives.layered.inv cut
  refine ⟨openable_reopens again listing image names lists (openable_committed image openable), fun db ops opened => ?_⟩
  rcases survives_image s life survives image cut unbroken with
    ⟨blank, nothing⟩ | ⟨m, text, ssts, file, base, left, n, kept, bound, same⟩
  · rw [open_blank again listing image blank lists] at opened
    cases opened
    refine ⟨life.written.length, Nat.le_trans low due, Nat.le_refl _, fun key => ?_⟩
    rw [List.take_length, nothing key]
    rfl
  · refine ⟨n, kept, bound, fun key => ?_⟩
    rw [opened_get again listing image m text ssts left.committed file left.present db ops opened base left.holds key,
      same key]

end Crash

section Reopened

variable (next : Sys) (life : Life) (cfg : Config) (n : Nat) (valid : next.disk.Valid)
    (opens : Opens cfg next.disk next)
variable (callers : next.db.callers = []) (layered : Running True Layered DeepStore next)
    (bound : n ≤ life.written.length)
variable (shows : ∀ key, next.db.get key = .ok (valueOf (life.written.take n) key))

include valid opens callers layered bound shows in
theorem crashed_blank (blank : Blank next.disk) : Survives next (life.crashed n next.disk) := by
  have taken : (life.written.take n).length = n := by rw [List.length_take, Nat.min_eq_left bound]
  have nothing : ∀ key, valueOf (life.written.take n) key = none := by
    intro key
    obtain ⟨listing, lists, opened⟩ := opens.opened
    rw [open_blank cfg listing next.disk blank lists, Except.ok.injEq, Prod.mk.injEq] at opened
    have here := shows key
    rw [← opened.1] at here
    exact (Except.ok.inj here).symm
  have first : ∀ log : File, log.data = [] →
    (life.crashed n next.disk).good (some log) none (manifestOf DB.fresh) [] [] := by
    intro log empty
    have salvages := fresh_salvages _ nothing log empty
    rw [taken] at salvages
    exact .inr salvages
  obtain ⟨inv, _⟩ := @open_blank_inv True _ (life.crashed n next.disk).blank cfg next.disk next blank
    (.inr nothing) valid opens first
  have kept := blank_kept _ _ cfg next.disk next blank opens inv
  have parallel := parallel_whole [] (life.written.take n) (fun key => (nothing key).symm)
  rw [taken] at parallel
  refine ⟨⟨_, 0, n, kept, parallel, Nat.le_refl _, List.forall_mem_nil _, ?_⟩, Nat.le_refl _, callers, layered⟩
  obtain ⟨synced, wal⟩ := kept.journaled.wal
  exact ⟨synced, 0, wal, Nat.le_refl _, Nat.zero_le _, by simp [Life.crashed]⟩

include valid opens callers layered bound shows in
theorem crashed_leftover (m : ManifestData) (text : Bytes) (ssts : List SSTable) (file : File) (base : List Write)
    (left : Leftover next.disk m text ssts file base) (logs : WholeLogs next.disk) (aligned : Aligned next.disk) :
    Survives next (life.crashed n next.disk) := by
  have taken : (life.written.take n).length = n := by rw [List.length_take, Nat.min_eq_left bound]
  have known : ∀ key, valueOf (base ++ replayedWrites next.disk) key = valueOf (life.written.take n) key := by
    intro key
    obtain ⟨listing, _, opened⟩ := opens.opened
    have here := opened_get cfg listing next.disk m text ssts left.committed file left.present next.db next.todo opened
      base left.holds key
    exact Except.ok.inj (here.symm.trans (shows key))
  have inv : SysInv True (life.crashed n next.disk).good (life.crashed n next.disk).blank next := by
    by_cases restarts : Restarts next.disk
    · have during := opened_salvages cfg next.disk next m text ssts file base left valid opens
        (life.written.take n) n logs (restarts_agree next.disk restarts) known (Nat.le_of_eq taken.symm)
      refine inv_known _ _ next (layered_any next layered) (throughout_imp _ _ _ _ during ?_)
      rintro d ⟨m, text, ssts, committed, salvages⟩
      exact ⟨m, text, ssts, committed, .inr salvages⟩
    · exact inv_imp _ _ _ _ next (layered_any next layered) (fun _ _ _ _ _ _ => .inl restarts) (fun _ => .inl restarts)
  obtain ⟨split, kept, whole⟩ :=
    opened_kept cfg next.disk next m text ssts left.committed file left.present valid opens _ _ base
    left.holds left.deep left.own aligned inv
  have parallel : Parallel split.all (life.written.take n) split.all.length (life.written.take n).length :=
    parallel_whole _ _ (by rw [whole]; exact known)
  rw [taken] at parallel
  refine ⟨⟨split, split.all.length, n, kept, parallel, Nat.le_refl _, ?_, ?_⟩, Nat.le_refl _, callers, layered⟩
  · rw [whole]
    intro write member
    rcases List.mem_append.mp member with old | new
    · exact left.fits write old
    · exact replayed_logged next.disk write new
  · have all := kept_promised _ _ next split kept (by
      rw [opens.disk]
      exact opened_whole_logs cfg next.disk next m text ssts file base left valid opens logs)
    simpa [Life.crashed] using all

end Reopened

theorem survives_crash (s next : Sys) (life : Life) (cfg : Config) (image : Disk Bytes) (n : Nat)
    (survives : Survives s life) (unbroken : s.todo = [] ∨ ¬ life.fragile) (cut : CrashImage s.disk image)
    (opens : Opens cfg image next) (aligned : Aligned next.disk) (bound : n ≤ life.written.length)
    (shows : ∀ key, next.db.get key = .ok (valueOf (life.written.take n) key)) :
    Survives next (life.crashed n next.disk) := by
  have stepped : s.Step (.crash cfg) next := .crash cfg image next cut opens
  have layered := sys_step_running layered_carried s next _ survives.layered (fun _ _ same => by cases same) stepped
  have callers := background_step s next _ survives.callers (by simp) stepped
  cases opens.disk
  have valid := (crash_openable _ _ s next.disk survives.layered.inv cut).1
  rcases survives_image s life survives next.disk cut unbroken with ⟨blank, _⟩ | ⟨m, text, ssts, file, base, left, _⟩
  · exact crashed_blank next life cfg n valid opens callers layered bound shows blank
  · exact crashed_leftover next life cfg n valid opens callers layered bound shows m text ssts file base left
      (crash_logs s.disk next.disk cut) aligned

theorem survives_reopen (s next : Sys) (life : Life) (cfg : Config) (survives : Survives s life) (closed : Closed s)
    (opens : Opens cfg s.disk next) : Survives next (life.reopened next.disk) := by
  have stepped : s.Step (.reopen cfg) next := .reopen cfg next closed opens
  have due := survives_due s life survives
  obtain ⟨⟨split, a, b, kept, parallel, low, fits, promised⟩, sure, callers, layered⟩ := survives
  have layeredNext := sys_step_running layered_carried s next _ layered (fun _ _ same => by cases same) stepped
  have keptAny : Kept anyStore True s split := ⟨layered_any s layered, kept.limits, kept.held, kept.journaled⟩
  obtain ⟨after, follows⟩ := reopen_follows cfg s next split keptAny closed opens (layered_any next layeredNext)
  have whole := follows.writes
  rw [List.append_nil] at whole
  rw [closed.todo, apply_all_nil] at promised
  obtain ⟨m, text, ssts, file, left⟩ := closed_leftover _ _ s split kept closed layered fits
  have inv : SysInv True (life.reopened next.disk).good (life.reopened next.disk).blank next := by
    by_cases restarts : Restarts next.disk
    · refine inv_known _ _ next (layered_any next layeredNext) ?_
      rw [opens.disk] at restarts ⊢
      rcases restarts with none | ⟨logs, agree⟩
      · have during := reopened_recoverable _ _ s next cfg split kept closed opens _ promised fits none
        refine throughout_imp _ _ _ _ during ?_
        rintro d ⟨m, text, ssts, committed, recoverable⟩
        exact ⟨m, text, ssts, committed,
          .inr (recoverable_salvages _ _ a b life.due parallel (Nat.le_trans low sure) _ _ _ _ _ recoverable)⟩
      · have known : ∀ key, valueOf (split.done ++ replayedWrites s.disk) key = valueOf life.written key := by
          intro key
          rw [replayed_split s.db split s.disk (free_journaled _ _ s split kept closed.todo) (kept_free s split kept),
            ← parallel_value _ _ a b parallel key, Split.all, List.append_assoc]
        have during := opened_salvages cfg s.disk next m text ssts file split.done left kept.inv.valid opens
          life.written life.due logs
          agree known due
        refine throughout_imp _ _ _ _ during ?_
        rintro d ⟨m, text, ssts, committed, salvages⟩
        exact ⟨m, text, ssts, committed, .inr salvages⟩
    · exact inv_imp _ _ _ _ next (layered_any next layeredNext) (fun _ _ _ _ _ _ => .inl restarts)
        (fun _ => .inl restarts)
  have keptNext := follows.kept
  refine ⟨⟨after, a, b, ⟨inv, keptNext.limits, keptNext.held, keptNext.journaled⟩, by rw [whole]; exact parallel,
    Nat.le_trans low sure,
    by rw [whole]; exact fits, ?_⟩, Nat.le_refl _, background_step s next _ callers (by simp) stepped, layeredNext⟩
  obtain ⟨i, log, seq, synced, kind, orphans, work, reopened⟩ := reopen_loads _ _ cfg s next kept.inv closed opens
  obtain ⟨written, wal⟩ := keptNext.journaled.wal
  have free : after.sealed = [] := by
    refine kept_free next after keptNext ?_
    exact (flush_keeps_slot cfg _ next.db kind _ [] reopened.loads.plain reopened.loads.move).1
  refine promised_again _ split after s.disk _ written promised wal
    (fun write member => fits write (by simp [Split.all, member]))
    (fun write member => keptNext.journaled.fits write (by simp [member])) whole free ?_
  rw [opens.disk]
  rcases loads_log cfg s.disk _ _ _ next kind orphans work reopened.loads with same | emptied
  · obtain ⟨_, there⟩ := (free_journaled _ _ s split kept closed.todo).wal
    exact .inl (by rw [same, create_present s.disk walName _ there])
  · exact .inr emptied

theorem survives_next (s next : Sys) (life after : Life) (event : Event) (survives : Survives s life)
    (stepped : s.Step event next) (follows : life.Next s event next after) : Survives next after := by
  cases follows with
  | lock label next alone synced ready =>
      cases stepped with
      | lock _ effect free locked finds done =>
          exact survives_lock s life label effect survives free locked finds done alone synced ready
  | unlocked event next within other => exact survives_unlocked s next life event survives within other stepped
  | reopen cfg next =>
      cases stepped with
      | reopen _ _ closed opens => exact survives_reopen s next life cfg survives closed opens
  | crash cfg next n unbroken aligned bound shows =>
      cases stepped with
      | crash _ image _ cut opens =>
          exact survives_crash s next life cfg image n survives unbroken cut opens aligned bound shows

theorem lives_survives (s last : Sys) (life final : Life) (events : List Event) (survives : Survives s life)
    (lives : s.Lives life events last final) : Survives last final := by
  induction events generalizing s life with
  | nil =>
      obtain ⟨rfl, rfl⟩ := lives
      exact survives
  | cons event rest ih =>
      obtain ⟨next, after, stepped, follows, remaining⟩ := lives
      exact ih next after (survives_next s next life after event survives stepped follows) remaining

theorem start_survives (cfg : Config) (s : Sys) (starts : s.Starts cfg) : Survives s {} := by
  obtain ⟨⟨split, kept, whole, promised⟩, _, _, callers, _⟩ := start_safe cfg s starts
  have parallel : Parallel split.all ([] : List Write) 0 0 := by
    rw [whole]
    exact parallel_whole [] [] (fun _ => rfl)
  have inv := inv_imp _ (Life.good {}) _ (Life.blank {}) s kept.inv
    (fun _ _ _ _ _ recoverable =>
      .inr (recoverable_salvages [] [] 0 0 0 (parallel_whole [] [] (fun _ => rfl)) (Nat.le_refl _) _ _
      _ _ _ recoverable))
    (fun _ => .inr (fun _ => rfl))
  exact ⟨⟨split, 0, 0, ⟨inv, kept.limits, kept.held, kept.journaled⟩, parallel, Nat.le_refl _,
    by rw [whole]; exact List.forall_mem_nil _,
    promised⟩, Nat.le_refl _, callers, start_running layered_carried cfg s starts⟩

-- Over any number of sessions and crashes the store shows the history that its
-- ledger has, and after the next crash the constructor again returns (unless a
-- flush of its own fails) and shows a beginning of it with every promised write.
theorem crashes_keep_promises (cfg : Config) (start last : Sys) (events : List Event) (life : Life)
    (starts : start.Starts cfg) (lives : start.Lives {} events last life) :
    (∀ key, last.db.get key = .ok (valueOf life.written key)) ∧
      ∀ again image listing, (last.todo = [] ∨ ¬ life.fragile) → CrashImage last.disk image → Lists image listing →
        Reopens again listing image ∧
          ∀ db ops, openDB again listing image = .ok (db, ops) →
            ∃ n, life.promised last ≤ n ∧ n ≤ life.written.length ∧
            ∀ key, db.get key = .ok (valueOf (life.written.take n) key) := by
  have survives := lives_survives start last {} life events (start_survives cfg start starts) lives
  exact ⟨survives_get last life survives, fun again image listing unbroken cut lists =>
    survives_shows last life survives image cut unbroken again listing lists⟩

theorem lives_append (s mid last : Sys) (life between final : Life) (before after : List Event)
    (first : s.Lives life before mid between) (second : mid.Lives between after last final) :
    s.Lives life (before ++ after) last final := by
  induction before generalizing s life with
  | nil =>
      obtain ⟨rfl, rfl⟩ := first
      exact second
  | cons event rest ih =>
      obtain ⟨next, account, stepped, follows, remaining⟩ := first
      exact ⟨next, account, stepped, follows, ih next account remaining⟩

def sessionEvent (s : Sys) : Event → Bool
  | .lock .compactAllPick | .reopen _ | .crash _ => false
  | event => syncedEvent s event && readyEvent s event

theorem session_next (s next : Sys) (life : Life) (event : Event) (allowed : sessionEvent s event = true) :
    ∃ after, life.Next s event next after ∧ (after.fragile → life.fragile) := by
  cases event with
  | lock label =>
      have alone : label ≠ .compactAllPick := by
        rintro rfl
        cases allowed
      have checks : syncedEvent s (.lock label) = true ∧ readyEvent s (.lock label) = true := by
        rw [← Bool.and_eq_true]
        cases label with
        | compactAllPick => exact absurd rfl alone
        | _ => exact allowed
      exact ⟨_, .lock label next alone (synced_event s _ checks.1) (ready_event s _ checks.2), False.elim⟩
  | work label => exact ⟨life, .unlocked _ next trivial (by simp), id⟩
  | io => exact ⟨life, .unlocked _ next trivial (by simp), id⟩
  | collect name => exact ⟨life, .unlocked _ next trivial (by simp), id⟩
  | reopen cfg => cases allowed
  | crash cfg => cases allowed

theorem session_lives (s last : Sys) (life : Life) (events : List Event)
    (done : s.RunWith (fun s event => sessionEvent s event = true) events last) :
    ∃ final, s.Lives life events last final ∧ (final.fragile → life.fragile) := by
  induction events generalizing s life with
  | nil => exact ⟨life, ⟨done, rfl⟩, id⟩
  | cons event rest ih =>
      obtain ⟨allowed, next, stepped, remaining⟩ := done
      obtain ⟨after, follows, sturdy⟩ := session_next s next life event allowed
      obtain ⟨final, lives, weaker⟩ := ih next after remaining
      exact ⟨final, ⟨next, after, stepped, follows, lives⟩, fun fragile => sturdy (weaker fragile)⟩

-- A crash that cuts the active log after a record, and the constructor.
def Sys.crashTo (names : List Bytes) (cfg : Config) (kept : Nat) (s : Sys) : Option Sys :=
  if (s.disk walName).all (fun file => file.synced ≤ kept ∧ kept ≤ file.data.length ∧
    tornTail (file.data.take kept) = []) then
    Sys.opened names cfg (cutLog kept s.disk)
  else none

theorem crash_to_lives (names : List Bytes) (cfg : Config) (kept : Nat) (s next : Sys) (life : Life)
    (survives : Survives s life) (distinct : names.Nodup) (confined : Confined names s)
    (unbroken : s.todo = [] ∨ ¬ life.fragile) (done : s.crashTo names cfg kept = some next) :
    ∃ after, s.Lives life [.crash cfg] next after ∧ (replayFile next.disk walName = [] → ¬ after.fragile) ∧
    Confined names next := by
  rw [Sys.crashTo] at done
  split at done
  · next bounds =>
      have cut : CrashImage s.disk (cutLog kept s.disk) := by
        refine cut_log_crash kept s.disk survives.layered.inv.valid ?_
        cases there : s.disk walName with
        | none => rfl
        | some file =>
            rw [there] at bounds
            simp only [Option.all_some, decide_eq_true_eq] at bounds ⊢
            exact ⟨bounds.1, bounds.2.1⟩
      obtain ⟨opens, inside⟩ := opened_opens names cfg (cutLog kept s.disk) next distinct
        (fun name there => confined.present name (crash_present _ _ cut name there)) done
      obtain ⟨listing, lists, opened⟩ := opens.opened
      obtain ⟨n, _, bound, shows⟩ :=
        (survives_shows s life survives _ cut unbroken cfg listing lists).2 next.db next.todo opened
      have aligned : Aligned next.disk := by
        refine .inl (fun file there => ?_)
        rw [opens.disk] at there
        obtain ⟨old, before, rfl⟩ := Option.map_eq_some_iff.mp there
        rw [before] at bounds
        simp only [Option.all_some, decide_eq_true_eq] at bounds
        simpa using bounds.2.2
      refine ⟨life.crashed n next.disk,
        ⟨next, _, .crash cfg _ next cut opens, .crash cfg next n unbroken aligned bound shows,
        rfl, rfl⟩, fun empty fragile => fragile (.inr ⟨?_, fun key first second _ newer => ?_⟩), inside⟩
      · rw [opens.disk]
        exact crash_logs s.disk _ cut
      · rw [empty] at newer
        cases newer
  · cases done

-- Key 1 is sealed, key 2 is written without a sync and lost in a crash. The
-- constructor after it crashes, and the one after that goes on.
def sealedWrites : List Event := List.replicate 7 .io ++ whole (.put [1] [1, 1] true) 6 ++ whole (.put [2] [2] false) 1

def interrupted : List Event := List.replicate 9 .io

def resumed : List Event := List.replicate 17 .io ++ whole (.put [3] [3] true) 2

theorem twice_crashed_keeps_promises :
    ∃ last life, (Sys.fresh (smallStore 3 1000)).Lives {}
        (sealedWrites ++ ([.crash (smallStore 3 1000)] ++ (interrupted ++ ([.crash (smallStore 3 1000)] ++ resumed))))
        last life ∧
      (∀ key, last.db.get key = .ok (valueOf life.written key)) ∧
      last.db.get [1] = .ok (some [1, 1]) ∧ last.db.get [2] = .ok none := by
  have value : ((Sys.fresh (smallStore 3 1000)).execAllIn (storeNames 2) sessionEvent sealedWrites).bind (fun one =>
      (one.crashTo (storeNames 2) (smallStore 3 1000) 0).bind (fun two =>
        (two.execAllIn (storeNames 2) sessionEvent interrupted).bind (fun three =>
          (three.crashTo (storeNames 2) (smallStore 3 1000) 0).bind (fun four =>
            (four.execAllIn (storeNames 2) sessionEvent resumed).map (fun last =>
              (last.db.get [1], last.db.get [2], one.todo.isEmpty && (replayFile two.disk walName).isEmpty)))))) =
      some (.ok (some [1, 1]), .ok none, true) := by
    decide +kernel
  obtain ⟨one, first, value⟩ := Option.bind_eq_some_iff.mp value
  obtain ⟨two, crashed, value⟩ := Option.bind_eq_some_iff.mp value
  obtain ⟨three, opening, value⟩ := Option.bind_eq_some_iff.mp value
  obtain ⟨four, again, value⟩ := Option.bind_eq_some_iff.mp value
  obtain ⟨last, finished, value⟩ := Option.map_eq_some_iff.mp value
  simp only [Prod.mk.injEq, Bool.and_eq_true, List.isEmpty_iff] at value
  obtain ⟨kept, lost, free, emptied⟩ := value
  have distinct : (storeNames 2).Nodup := by decide +kernel
  obtain ⟨run, confined⟩ := exec_all_in_run _ _ _ one _ distinct (fresh_confined _ _ (by decide +kernel)) first
  obtain ⟨lifeOne, livesOne, _⟩ := session_lives _ one {} _ run
  have survivesOne := lives_survives _ one _ lifeOne _ (start_survives _ _ (fresh_starts (smallStore 3 1000))) livesOne
  obtain ⟨lifeTwo, livesTwo, sturdy, confined⟩ :=
    crash_to_lives _ _ 0 one two lifeOne survivesOne distinct confined (.inl free) crashed
  obtain ⟨run, confined⟩ := exec_all_in_run _ _ _ three _ distinct confined opening
  obtain ⟨lifeThree, livesThree, weaker⟩ := session_lives _ three lifeTwo _ run
  have survivesThree :=
    lives_survives _ three _ lifeThree _ (lives_survives _ two _ lifeTwo _ survivesOne livesTwo) livesThree
  obtain ⟨lifeFour, livesFour, _, confined⟩ := crash_to_lives _ _ 0 three four lifeThree survivesThree distinct confined
    (.inr (fun fragile => sturdy emptied (weaker fragile))) again
  obtain ⟨run, _⟩ := exec_all_in_run _ _ _ last _ distinct confined finished
  obtain ⟨life, livesLast, _⟩ := session_lives _ last lifeFour _ run
  have lives :=
    lives_append _ one last {} lifeOne life _ _ livesOne (lives_append _ two last lifeOne lifeTwo life _ _ livesTwo
    (lives_append _ three last lifeTwo lifeThree life _ _ livesThree
      (lives_append _ four last lifeThree lifeFour life _ _ livesFour livesLast)))
  exact ⟨last, life, lives, (crashes_keep_promises _ _ last _ life (fresh_starts _) lives).1, kept, lost⟩

end Tombstash
