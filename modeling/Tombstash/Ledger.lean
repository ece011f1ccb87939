import Tombstash.Durability

set_option autoImplicit false

namespace Tombstash

variable {found : Bytes}

-- The calls that promise every write so far when they return.
def Label.syncs : Label → Bool
  | .put _ _ forced | .del _ forced => forced
  | .sync | .flush => true
  | _ => false

-- A section promises the writes so far if its call does or if it seals them.
def Label.promises (label : Label) (before after : DB) :
    Bool := label.syncs || (!before.hasFlushing && after.hasFlushing)

-- The writes of a run, how many of them were promised before the section under
-- way, and how many will be when its steps are done.
structure Ledger where
  written : List Write := []
  sure : Nat := 0
  due : Nat := 0

def Ledger.next (ledger : Ledger) (s next : Sys) : Event → Ledger
  | .lock label =>
      let written := ledger.written ++ label.write.toList
      ⟨written, ledger.due, if label.promises s.db next.db then written.length else ledger.due⟩
  | _ => ledger

-- How many writes a crash must not lose.
def Ledger.promised (ledger : Ledger) (s : Sys) : Nat := if s.todo = [] then ledger.due else ledger.sure

-- Runs whose steps are all allowed, with their ledgers.
def Sys.Records (allowed : Sys → Event → Prop) : Sys → Ledger → List Event → Sys → Ledger → Prop
  | s, ledger, [], last, final => last = s ∧ final = ledger
  | s, ledger, event :: rest, last, final =>
      allowed s event ∧ ∃ next, s.Step event next ∧ next.Records allowed (ledger.next s next event) rest last final

-- flush() and gc_value_log find the write-ahead log durable.
def EventSynced (s : Sys) : Event → Prop
  | .lock .flush | .lock (.gc _) => ∀ file, s.disk walName = some file → file.synced = file.data.length
  | _ => True

theorem move_takes_slot (cfg : Config) (db next : DB) (kind : Kind) (ops : List DiskOp) (garbage : List Bytes)
    (move : Move cfg found db kind next ops garbage) (before : db.hasFlushing = false)
      (after : next.hasFlushing = true) :
    kind = .sealed := by
  have kept : next.hasFlushing = db.hasFlushing → kind = .sealed := by
    intro same
    rw [same, before] at after
    cases after
  cases move with
  | sealed filled free => rfl
  | published job sst running complete => cases after
  | picked picked job noJob picks =>
      obtain ⟨⟨seq, rfl, _⟩, _⟩ := pick_job_fresh cfg db picked job picks
      exact kept rfl
  | merged worker job later running unmerged merges => cases worker <;> exact kept rfl
  | mergeIo worker job op rest outputs running building => cases worker <;> exact kept rfl
  | installed worker job outputs running complete => cases worker <;> exact kept (install_slot db job outputs)
  | _ => exact kept rfl

theorem plain_unflushed (kind : Kind) (plain : kind.Plain) : kind ≠ .flushed := by
  rintro rfl
  exact plain

theorem flush_step_empties (cfg : Config) (db : DB) (effect : Effect) (done : step cfg db .flush = some effect) :
    effect.db.memtable.isEmpty = true := by
  obtain ⟨performed, _⟩ := Option.filter_eq_some_iff.mp done
  rw [perform] at performed
  split at performed
  · cases performed
  · next slot =>
      obtain ⟨next, ops, flush, rfl⟩ := of_except_some _ _ performed
      exact (@flush_locked_move [] cfg db next ops (Bool.eq_false_iff.mpr slot) flush).2.1

theorem empty_promised (cfg : Config) (db : DB) (split : Split) (disk : Disk Bytes) (held : InvAt cfg db split)
    (journaled : Journaled db split disk) (empty : db.memtable.isEmpty = true) :
    Promised split.all.length split disk := by
  obtain ⟨_, _, _, _, hist⟩ := held.refined
  obtain ⟨synced, wal⟩ := journaled.wal
  rw [hist.memtable, mem_of_is_empty] at empty
  refine ⟨synced, 0, wal, Nat.zero_le _, Nat.zero_le _, ?_⟩
  rw [length_all, empty]
  exact Nat.le_refl _

theorem recoverable_at (cfg : Config) (db : DB) (split : Split) (i : Nat) (log : ValueLog) (held : InvAt cfg db split)
    (sound : Sound True db i log) (seq p : Nat) (text : Bytes) (known : text <+: log.file) (wal flushing : Option File)
    (more : List Write) (fits : ∀ write ∈ split.all ++ more, Logged (writeRecord write))
    (replays : Replays (split.all ++ more) p split.done.length wal flushing) :
    Recoverable (split.all ++ more) p wal flushing (manifestAt seq db) text (db.sstables.map Table.sst) := by
  obtain ⟨j, other, stamp, soundThere, hist⟩ := held.refined
  obtain ⟨rfl, rfl⟩ := sound_unique db i j log other sound soundThere
  refine ⟨split.done.length, log, sound.gen, known, ?_, fits, replays⟩
  have taken : (split.all ++ more).take split.done.length = split.done := by simp [Split.all]
  rw [taken]
  exact hist_tables db log _ _ _ stamp hist

section Sections

variable (good : Good) (empty : Prop) (s : Sys) (split : Split) (label : Label) (effect : Effect) (middle : DB)
variable (first second : Kind) (work rest : List DiskOp) (early late : List Bytes)
variable (parts : Section s split label effect middle first second work rest early late)
variable (kept : Kept good empty s split) (free : s.todo = [])

include kept free in
theorem free_journaled : Journaled s.db split s.disk := by
  have journaled := kept.journaled
  rwa [free, apply_all_nil] at journaled

include parts in
theorem section_disk :
    applyAll (applyAll s.disk (work ++ first.walOps)) (rest ++ second.walOps) = applyAll s.disk effect.ops := by
  rw [parts.ops, apply_all_append _ (work ++ first.walOps)]

include parts kept free in
theorem section_promised (p : Nat) (promised : Promised p split s.disk) :
    Promised p (first.shift split) (applyAll s.disk (work ++ first.walOps)) ∧
      Promised p (second.shift (first.shift split)) (applyAll s.disk effect.ops) := by
  obtain ⟨_, _, _, _, hist⟩ := parts.heldHalf.refined
  have half := promised_moved s.cfg s.db middle split s.disk first work early
    (free_journaled good empty s split kept free) parts.one
    parts.apart p (kept_free s split kept) promised
  have whole := promised_moved s.cfg middle effect.db _ _ second rest late parts.journaledHalf parts.two
    parts.apartRest p hist.free half
  rw [section_disk s split label effect middle first second work rest early late parts] at whole
  exact ⟨half, whole⟩

include parts kept free in
theorem section_promises (done : step s.cfg s.db label = some effect)
    (promises : label.promises s.db effect.db = true) :
    Promised (split.all ++ label.write.toList).length (second.shift (first.shift split))
    (applyAll s.disk effect.ops) := by
  have same := section_disk s split label effect middle first second work rest early late parts
  obtain ⟨_, _, _, _, hist⟩ := parts.heldHalf.refined
  have early : first.Saves →
      Promised (split.all ++ label.write.toList).length (second.shift (first.shift split))
      (applyAll s.disk effect.ops) := by
    intro saves
    have half := promised_saved s.cfg s.db middle split s.disk first work early
      (free_journaled good empty s split kept free) parts.one
      parts.apart saves
    rw [parts.writesHalf] at half
    rw [← same]
    exact promised_moved s.cfg middle effect.db _ _ second rest late parts.journaledHalf parts.two
      parts.apartRest _ hist.free half
  rw [Label.promises, Bool.or_eq_true, Bool.and_eq_true, Bool.not_eq_true'] at promises
  rcases promises with syncs | ⟨before, after⟩
  · cases label with
    | put key value sync =>
        rcases parts.takes.1 with rfl | ⟨flushes, _⟩
        · exact early syncs
        · cases flushes
    | del key sync =>
        rcases parts.takes.1 with rfl | ⟨flushes, _⟩
        · exact early syncs
        · cases flushes
    | sync =>
        rcases parts.takes.1 with rfl | ⟨flushes, _⟩
        · exact early trivial
        · cases flushes
    | flush =>
        -- An empty memtable is not flushed, but then there is nothing to save.
        rw [← parts.writes]
        exact empty_promised s.cfg effect.db _ _ parts.held parts.journaled (flush_step_empties s.cfg s.db effect done)
    | _ => cases syncs
  · have seals : second = .sealed := by
      cases slot : middle.hasFlushing with
      | false => exact move_takes_slot s.cfg middle effect.db second _ _ parts.two slot after
      | true =>
          exact absurd (move_takes_slot s.cfg s.db middle first _ _ parts.one before slot)
            (takes_unsealed label first second parts.takes)
    have saved :=
      promised_saved s.cfg middle effect.db _ _ second rest late parts.journaledHalf parts.two parts.apartRest
      (by rw [seals]; trivial)
    rwa [same, parts.writes] at saved

include parts kept free in
theorem section_recoverable (p : Nat) (promised : Promised p split s.disk)
    (fits : ∀ write ∈ split.all ++ label.write.toList, Logged (writeRecord write))
    (synced : label.kind = .flushed → ∀ file, s.disk walName = some file → file.synced = file.data.length) :
    SysInv True (Recoverable (split.all ++ label.write.toList) p) (split.all ++ label.write.toList = [])
      ⟨s.cfg, effect.db, s.disk, effect.ops, effect.garbage, s.garbage ++ s.doomed⟩ := by
  have journaled := free_journaled good empty s split kept free
  obtain ⟨_, _, _, _, hist⟩ := parts.heldHalf.refined
  obtain ⟨half, _⟩ :=
    section_promised good empty s split label effect middle first second work rest early late parts kept free p promised
  have busy : ∀ db i log, Sound True db i log → db.flusher ≠ none → db.hasFlushing = true := by
    intro db i log sound running
    by_contra slot
    exact running (sound.idle (Bool.eq_false_iff.mpr slot))
  have flushes : first = .flushed → label.kind = .flushed := by
    rintro rfl
    rcases parts.takes.1 with same | ⟨flushes, _⟩
    · exact same.symm
    · exact flushes
  have plain := takes_plain label first second parts.takes
  obtain ⟨i, log, sound, _⟩ := kept.inv.state
  have opened : SysInv True (Recoverable (split.all ++ label.write.toList) p) (split.all ++ label.write.toList = [])
      ⟨s.cfg, middle, s.disk, work ++ first.walOps, early, s.garbage ++ s.doomed⟩ := by
    refine first_inv good _ empty _ s middle first _ early free kept.inv parts.one parts.meetsOne ?_ ?_
    · intro j log sound seq text known
      exact recoverable_at s.cfg s.db split j log kept.held sound seq p text known _ _ _ fits
        (replays_before s.db split s.disk journaled (kept_free s split kept) p promised _)
    · intro j later soundNext seq text known
      have during :=
        replays_during s.cfg s.db middle split s.disk first _ early journaled (kept_free s split kept) p promised []
        (busy s.db i log sound) parts.one (fun flush => synced (flushes flush))
      refine throughout_imp _ _ _ _ during (fun d replays => ?_)
      rw [← parts.writesHalf, ← List.append_nil (first.shift split).all] at fits ⊢
      exact recoverable_at s.cfg middle _ j later parts.heldHalf soundNext seq p text known _ _ [] fits replays
  rw [parts.ops, parts.marked]
  obtain ⟨k, grown, soundHalf, _⟩ := opened.state
  refine second_inv _ _ _ effect.db second _ late plain opened parts.two parts.meetsTwo ?_ ?_
  · intro j log sound seq text known
    have before := replays_before middle _ _ parts.journaledHalf hist.free p half []
    rw [← parts.writesHalf, ← List.append_nil (first.shift split).all] at fits ⊢
    exact recoverable_at s.cfg middle _ j log parts.heldHalf sound seq p text known _ _ [] fits before
  · intro j later soundNext seq text known
    have during := replays_during s.cfg middle effect.db _ _ second _ late parts.journaledHalf hist.free p half []
      (busy middle k grown soundHalf) parts.two (fun flush => absurd flush (plain_unflushed second plain))
    refine throughout_imp _ _ _ _ during (fun d replays => ?_)
    rw [← parts.writes, ← List.append_nil (second.shift (first.shift split)).all] at fits ⊢
    exact recoverable_at s.cfg effect.db _ j later parts.held soundNext seq p text known _ _ [] fits replays

end Sections

-- What holds of a run whose flushes have found their logs durable.
structure Safe (s : Sys) (ledger : Ledger) : Prop where
  kept : ∃ split, Kept (Recoverable ledger.written ledger.sure) (ledger.written = []) s split ∧
    split.all = ledger.written ∧
    Promised ledger.due split (applyAll s.disk s.todo)
  sure : ledger.sure ≤ ledger.due
  fits : ∀ write ∈ ledger.written, Logged (writeRecord write)
  callers : s.db.callers = []
  order : s.cfg.leveled = true → LevelOrder s.db.sstables

theorem section_fits (s : Sys) (split : Split) (label : Label) (effect : Effect) (middle : DB) (first second : Kind)
    (work rest : List DiskOp) (early late : List Bytes)
    (parts : Section s split label effect middle first second work rest early late) :
    ∀ write ∈ label.write.toList, Logged (writeRecord write) := by
  rw [← takes_writes label first second parts.takes, (plain_kind second (takes_plain label first second parts.takes)).1,
    List.append_nil]
  intro write member
  have fits := parts.journaledHalf.fits
  cases first with
  | wrote mine sync =>
      rw [List.mem_singleton.mp member]
      exact fits mine (by simp [Kind.shift])
  | _ => cases member

theorem safe_lock (s : Sys) (ledger : Ledger) (label : Label) (effect : Effect) (safe : Safe s ledger)
    (free : s.todo = []) (locked : label.kind ≠ .worked) (finds : GcFinds s label)
    (done : step s.cfg s.db label = some effect) (alone : label ≠ .compactAllPick)
    (synced : EventSynced s (.lock label)) :
    Safe ⟨s.cfg, effect.db, s.disk, effect.ops, effect.garbage, s.garbage ++ s.doomed⟩
      (ledger.next s ⟨s.cfg, effect.db, s.disk, effect.ops, effect.garbage, s.garbage ++ s.doomed⟩ (.lock label)) := by
  have stepped : s.Step (.lock label) ⟨s.cfg, effect.db, s.disk, effect.ops, effect.garbage, s.garbage ++ s.doomed⟩ :=
    .lock label effect free locked finds done
  obtain ⟨⟨split, kept, whole, promised⟩, _, fits, callers, order⟩ := safe
  have apart : Event.lock label ≠ .lock .compactAllPick := fun same => alone (Event.lock.inj same)
  have calm : EventCalm True s (.lock label) := background_event_calm s _ _ callers apart stepped
  obtain ⟨middle, first, second, work, rest, early, late, parts⟩ :=
    lock_section s split label effect kept free locked finds done (calm trivial label rfl) (fun _ => order)
  rw [free, apply_all_nil] at promised
  have fitsNext : ∀ write ∈ split.all ++ label.write.toList, Logged (writeRecord write) := by
    intro write member
    rcases List.mem_append.mp member with old | new
    · exact fits write (whole ▸ old)
    · exact section_fits s split label effect middle first second work rest early late parts write new
  have flushes : label.kind = .flushed → ∀ file, s.disk walName = some file → file.synced = file.data.length := by
    intro kind
    cases label <;> first | exact synced | cases kind
  have inv := section_recoverable _ _ s split label effect middle first second work rest early late parts kept free
    ledger.due promised
    fitsNext flushes
  have bound := promised_bound _ _ _ promised
  rw [Ledger.next, ← whole]
  refine ⟨⟨_, ⟨inv, (step_moves s.cfg s.db label effect done).2, parts.held, parts.journaled⟩, parts.writes, ?_⟩, ?_,
    fitsNext, background_step s _ _ callers apart stepped, fun leveled => parts.order leveled (order leveled)⟩
  · cases promises : label.promises s.db effect.db with
    | true =>
        exact section_promises _ _ s split label effect middle first second work rest early late parts kept
          free done promises
    | false =>
        exact (section_promised _ _ s split label effect middle first second work rest early late parts kept
          free _ promised).2
  · dsimp only
    split
    · rw [List.length_append]
      omega
    · exact Nat.le_refl _

theorem safe_step (s next : Sys) (ledger : Ledger) (event : Event) (safe : Safe s ledger) (within : event.Within)
    (alone : event ≠ .lock .compactAllPick) (synced : EventSynced s event) (stepped : s.Step event next) :
    Safe next (ledger.next s next event) := by
  have unlocked : (∀ label, event ≠ .lock label) → Safe next ledger := by
    intro other
    obtain ⟨⟨split, kept, whole, promised⟩, sure, fits, callers, order⟩ := safe
    have stays := unlocked_stays s split next event kept within other stepped
    refine ⟨⟨split, stays.kept, whole, promised_same _ _ _ _ (stays.files walName (by decide)) promised⟩, sure, fits,
      background_step s next event callers alone stepped, fun leveled => ?_⟩
    rw [stays.cfg] at leveled
    exact stays.order leveled (order leveled)
  cases event with
  | lock label =>
      cases stepped with
      | lock _ effect free locked finds done =>
          exact safe_lock s ledger label effect safe free locked finds done (fun same => alone (by rw [same])) synced
  | reopen cfg => exact within.elim
  | crash cfg => exact within.elim
  | work label => exact unlocked nofun
  | io => exact unlocked nofun
  | collect name => exact unlocked nofun

theorem start_safe (cfg : Config) (s : Sys) (starts : s.Starts cfg) : Safe s {} := by
  obtain ⟨held, wal, _, fresh⟩ := start_held cfg s starts
  have first : ∀ file : File, file.data = [] → Recoverable [] 0 (some file) none (manifestOf DB.fresh) [] [] := by
    rintro ⟨_, synced⟩ rfl
    have replays : Replays [] 0 0 (some ⟨[], synced⟩) none :=
      ⟨[], [], [], [], 0, rfl, Nat.le_refl _, Nat.le_refl _, Nat.le_refl _, Nat.le_refl _, .inl ⟨rfl, rfl⟩,
        .inr ⟨synced, rfl, Nat.zero_le _⟩⟩
    rw [fresh] at held
    exact recoverable_at s.cfg DB.fresh _ 0 _ held fresh_sound 0 0 [] List.nil_prefix _ _ [] nofun replays
  obtain ⟨inv, _⟩ := @open_blank_inv True (Recoverable [] 0) True cfg _ s blank_nothing trivial
    (fun _ _ present => by cases present)
    starts first
  have inv : SysInv True (Recoverable [] 0) (([] : List Write) = []) s := by rwa [eq_self]
  refine ⟨⟨_, start_kept cfg s starts inv, rfl, ⟨0, 0, wal, Nat.le_refl _, Nat.le_refl _, Nat.le_refl _⟩⟩,
    Nat.le_refl _, nofun, ?_, ?_⟩
  · rw [fresh]
    rfl
  · rw [fresh]
    exact fun _ => .inl nofun

theorem records_safe (s last : Sys) (ledger final : Ledger) (events : List Event) (safe : Safe s ledger)
    (within : ∀ event ∈ events, event.Within) (alone : .lock .compactAllPick ∉ events)
    (records : s.Records EventSynced ledger events last final) : Safe last final := by
  induction events generalizing s ledger with
  | nil =>
      obtain ⟨rfl, rfl⟩ := records
      exact safe
  | cons event rest ih =>
      obtain ⟨synced, next, stepped, remaining⟩ := records
      exact ih next _
        (safe_step s next ledger event safe (within event (by simp))
        (fun same => alone (by simp [same])) synced stepped)
        (fun other member => within other (by simp [member])) (fun member => alone (by simp [member])) remaining

theorem safe_openable (s : Sys) (ledger : Ledger) (safe : Safe s ledger) :
    (Blank s.disk ∧ ledger.written = [] ∧ ledger.promised s = 0) ∨
      ∃ m text ssts, Committed True s.disk m text ssts ∧
        Recoverable ledger.written (ledger.promised s) (s.disk walName) (s.disk flushingWalName) m text ssts := by
  obtain ⟨⟨split, kept, whole, promised⟩, sure, fits, _, _⟩ := safe
  have bound := promised_bound _ _ _ promised
  rw [Ledger.promised]
  by_cases free : s.todo = []
  · obtain ⟨i, log, sound, backed⟩ := kept.inv.state
    have journaled := free_journaled _ _ s split kept free
    rw [free, apply_all_nil] at backed promised
    rw [if_pos free]
    obtain ⟨seq, text, _, known, committed⟩ := backed.committed
    refine .inr ⟨_, text, _, committed, ?_⟩
    rw [← whole, ← List.append_nil split.all] at fits ⊢
    exact recoverable_at s.cfg s.db split i log kept.held sound seq _ text known _ _ [] fits
      (replays_before s.db split s.disk journaled (kept_free s split kept) _ promised [])
  · rw [if_neg free]
    rcases kept.inv.guarded [] List.nil_prefix with ⟨blank, _, nothing⟩ | ⟨m, text, ssts, committed, _, recoverable⟩
    · rw [whole, nothing] at bound
      exact .inl ⟨blank, nothing, Nat.le_zero.mp (Nat.le_trans sure bound)⟩
    · exact .inr ⟨m, text, ssts, committed, recoverable⟩

-- After a crash at any file-system step the constructor returns, as long as a
-- flush of its own goes through, and the store shows a beginning of the history
-- that has every promised write.
theorem crash_keeps_promises (cfg : Config) (start last : Sys) (events : List Event) (ledger : Ledger)
    (starts : start.Starts cfg) (within : ∀ event ∈ events, event.Within) (background : .lock .compactAllPick ∉ events)
    (records : start.Records EventSynced {} events last ledger) (again : Config) (image : Disk Bytes)
    (listing : List Bytes) (cut : CrashImage last.disk image) (lists : Lists image listing) :
    Reopens again listing image ∧
      ∀ db ops, openDB again listing image = .ok (db, ops) →
        ∃ n, ledger.promised last ≤ n ∧ n ≤ ledger.written.length ∧
        ∀ key, db.get key = .ok (valueOf (ledger.written.take n) key) := by
  have safe := records_safe start last {} ledger events (start_safe cfg start starts) within background records
  obtain ⟨split, kept, _⟩ := safe.kept
  obtain ⟨_, names, openable⟩ := crash_openable _ _ last image kept.inv cut
  refine ⟨openable_reopens again listing image names lists (openable_committed image openable), fun db ops opened => ?_⟩
  rcases safe_openable last ledger safe with ⟨blank, nothing, none⟩ | ⟨m, text, ssts, committed, recoverable⟩
  · rw [open_blank again listing image (blank_crash last.disk image cut blank) lists] at opened
    cases opened
    rw [nothing, none]
    exact ⟨0, Nat.le_refl _, Nat.le_refl _, fun key => rfl⟩
  · exact recoverable_opens again listing ledger.written _ last.disk image m text ssts cut committed
      recoverable db ops opened

theorem records_run (allowed : Sys → Event → Prop) (s last : Sys) (ledger : Ledger) (events : List Event)
    (done : s.RunWith allowed events last) :
    ∃ final, s.Records allowed ledger events last final ∧ final.written = ledger.written ++ written events := by
  induction events generalizing s ledger with
  | nil => exact ⟨ledger, ⟨done, rfl⟩, (List.append_nil _).symm⟩
  | cons event rest ih =>
      obtain ⟨here, next, stepped, remaining⟩ := done
      obtain ⟨final, records, all⟩ := ih next (ledger.next s next event) remaining
      refine ⟨final, ⟨here, next, stepped, records⟩, ?_⟩
      rw [all, written_cons, ← List.append_assoc]
      congr 1
      cases event <;> simp [Ledger.next, Event.write]

-- A crash that loses nothing but the end of the write-ahead log.
def cutLog (kept : Nat) (disk : Disk Bytes) : Disk Bytes := fun name =>
  (disk name).map (fun file =>
    let left := if name = walName then kept else file.data.length
    ⟨file.data.take left, left⟩)

theorem cut_log_crash (kept : Nat) (disk : Disk Bytes) (valid : disk.Valid)
    (bounds : ((disk walName).all (fun file => file.synced ≤ kept ∧ kept ≤ file.data.length)) = true) :
    CrashImage disk (cutLog kept disk) := by
  intro name
  cases present : disk name with
  | none => simp [cutLog, present]
  | some file =>
      refine ⟨if name = walName then kept else file.data.length, ?_, ?_, by simp [cutLog, present]⟩ <;> split
      · next same =>
          rw [← same, present] at bounds
          simpa using (decide_eq_true_eq.mp bounds).1
      · exact valid name file present
      · next same =>
          rw [← same, present] at bounds
          simpa using (decide_eq_true_eq.mp bounds).2
      · exact Nat.le_refl _

-- Three writes and flush() up to the commit of its MANIFEST.
def unsyncedFlush : List Event :=
  List.replicate 7 .io ++ whole (.put [1] [1] false) 1 ++ whole (.put [1] [2] false) 1 ++
    whole (.put [3] [5] false) 1 ++ whole .flush 10

theorem exec_all_in_valid (names : List Bytes) (allowed : Sys → Event → Bool) (cfg : Config) (last : Sys)
    (events : List Event) (distinct : names.Nodup) (only : touchOnly names (Sys.fresh cfg).todo = true)
    (background : .lock .compactAllPick ∉ events) (done : (Sys.fresh cfg).execAllIn names allowed events = some last) :
    (Sys.fresh cfg).RunWith (fun s event => allowed s event = true) events last ∧ last.disk.Valid ∧
      ∀ name, (last.disk name).isSome = true → name ∈ names := by
  obtain ⟨run, confined⟩ := exec_all_in_run names allowed _ last events distinct (fresh_confined names cfg only) done
  exact ⟨run,
    (background_run carried_nothing cfg _ last events (fresh_starts cfg) background
    (run_with_run _ _ last events run)).1.inv.valid,
    confined.present⟩

-- The table has all three writes but only the first is left in the log, which
-- is replayed on top of it.
theorem unsynced_flush_mixes :
    ∃ last image listing db ops, (Sys.fresh (smallStore 1000 1000)).Run unsyncedFlush last ∧
    CrashImage last.disk image ∧
      Lists image listing ∧ openDB (smallStore 1000 1000) listing image = .ok (db, ops) ∧
      ∀ n, ∃ key, db.get key ≠ .ok (valueOf ((written unsyncedFlush).take n) key) := by
  have reads :
    (((Sys.fresh (smallStore 1000 1000)).execAllIn (storeNames 1) (fun _ _ => true) unsyncedFlush).bind (fun last =>
      (Sys.opened (storeNames 1) (smallStore 1000 1000) (cutLog 11 last.disk)).map (fun s =>
        (s.db.get [1], s.db.get [3],
          (last.disk walName).all (fun file => file.synced ≤ 11 ∧ 11 ≤ file.data.length))))) =
      some (.ok (some [1]), .ok (some [5]), true) := by
    decide +kernel
  obtain ⟨last, done, reopens⟩ := Option.bind_eq_some_iff.mp reads
  obtain ⟨next, opened, found⟩ := Option.map_eq_some_iff.mp reopens
  simp only [Prod.mk.injEq] at found
  obtain ⟨one, three, bounds⟩ := found
  obtain ⟨run, valid, inside⟩ := exec_all_in_valid (storeNames 1) _ _ last unsyncedFlush (by decide +kernel)
    (by decide +kernel) (by simp [unsyncedFlush, whole]) done
  have cut := cut_log_crash 11 last.disk valid bounds
  obtain ⟨⟨⟨listing, lists, opens⟩, _⟩, _⟩ :=
    opened_opens (storeNames 1) _ (cutLog 11 last.disk) next (by decide +kernel)
    (fun name there => inside name (crash_present _ _ cut name there)) opened
  refine ⟨last, _, listing, next.db, next.todo, run_with_run _ _ last _ run, cut, lists, opens, fun n => ?_⟩
  have history : written unsyncedFlush = [([1], some [1]), ([1], some [2]), ([3], some [5])] := by decide +kernel
  rw [history]
  by_cases all : 3 ≤ n
  · refine ⟨[1], ?_⟩
    rw [one, List.take_of_length_le all]
    decide
  · refine ⟨[3], ?_⟩
    rw [three]
    have few : n = 0 ∨ n = 1 ∨ n = 2 := by omega
    rcases few with rfl | rfl | rfl <;> decide

def syncedEvent (s : Sys) : Event → Bool
  | .lock .flush | .lock (.gc _) => (s.disk walName).all (fun file => file.synced == file.data.length)
  | _ => true

theorem synced_event (s : Sys) (event : Event) (synced : syncedEvent s event = true) : EventSynced s event := by
  unfold syncedEvent at synced
  unfold EventSynced
  split
  · intro file present
    simpa [present] using synced
  · intro file present
    simpa [present] using synced
  · trivial

-- The same writes with a sync() before the flush.
def syncedFlush : List Event :=
  List.replicate 7 .io ++ whole (.put [1] [1] true) 2 ++ whole (.put [1] [2] false) 1 ++ whole (.put [3] [5] false) 1 ++
    whole .sync 1 ++ whole .flush 10

theorem synced_flush_recovers :
    ∃ last ledger image listing db ops,
    (Sys.fresh (smallStore 1000 1000)).Records EventSynced {} syncedFlush last ledger ∧
      CrashImage last.disk image ∧ openDB (smallStore 1000 1000) listing image = .ok (db, ops) ∧
      ∃ n, ledger.promised last ≤ n ∧ n ≤ 3 ∧ ∀ key, db.get key = .ok (valueOf ((written syncedFlush).take n) key) := by
  have reads : (((Sys.fresh (smallStore 1000 1000)).execAllIn (storeNames 1) syncedEvent syncedFlush).bind (fun last =>
      (Sys.opened (storeNames 1) (smallStore 1000 1000) (cutLog 33 last.disk)).map (fun _ =>
        (last.disk walName).all (fun file => file.synced ≤ 33 ∧ 33 ≤ file.data.length)))) = some true := by
    decide +kernel
  obtain ⟨last, done, reopens⟩ := Option.bind_eq_some_iff.mp reads
  obtain ⟨next, opened, bounds⟩ := Option.map_eq_some_iff.mp reopens
  have background : .lock .compactAllPick ∉ syncedFlush := by simp [syncedFlush, whole]
  obtain ⟨run, valid, inside⟩ := exec_all_in_valid (storeNames 1) _ _ last syncedFlush (by decide +kernel)
    (by decide +kernel)
    background done
  have cut := cut_log_crash 33 last.disk valid bounds
  obtain ⟨⟨⟨listing, lists, opens⟩, _⟩, _⟩ :=
    opened_opens (storeNames 1) _ (cutLog 33 last.disk) next (by decide +kernel)
    (fun name there => inside name (crash_present _ _ cut name there)) opened
  obtain ⟨ledger, records, all⟩ := records_run EventSynced _ last {} syncedFlush
    (run_with_imp _ EventSynced synced_event _ last syncedFlush run)
  obtain ⟨_, keeps⟩ := crash_keeps_promises (smallStore 1000 1000) _ last syncedFlush ledger (fresh_starts _)
    (by simp [syncedFlush, whole, Event.Within]) background records (smallStore 1000 1000) _ listing cut lists
  obtain ⟨n, promised, bound, get⟩ := keeps next.db next.todo opens
  rw [all] at bound get
  exact ⟨last, ledger, _, listing, next.db, next.todo, records, cut, opens, n, promised, bound, get⟩

end Tombstash
