import Tombstash.SessionInvariant

set_option autoImplicit false

namespace Tombstash

instance (s : Sys) : Decidable (Closed s) :=
  decidable_of_iff (s.todo = [] ∧ s.db.flusher.isNone = true ∧ (inFlight s.db).isEmpty = true ∧
    s.doomed = [] ∧ s.garbage = [])
    ⟨fun ⟨todo, flusher, merges, doomed, garbage⟩ =>
      ⟨todo, Option.isNone_iff_eq_none.mp flusher, List.isEmpty_iff.mp merges, doomed, garbage⟩,
    fun closed =>
      ⟨closed.todo, Option.isNone_iff_eq_none.mpr closed.flusher, List.isEmpty_iff.mpr closed.merges, closed.doomed,
      closed.garbage⟩⟩

def touchOnly (names : List Bytes) (ops : List DiskOp) :
    Bool := ops.all (fun op => op.touches.all (fun name => names.contains name))

-- The constructor on a directory that has no files but the named ones.
def Sys.opened (names : List Bytes) (cfg : Config) (disk : Disk Bytes) : Option Sys :=
  match openDB cfg (names.filter (fun name => (disk name).isSome)) disk with
  | .ok (db, ops) => if WithinLimits db ∧ touchOnly names ops = true then some ⟨cfg, db, disk, ops, [], []⟩ else none
  | .error _ => none

-- The steps of a store that uses no files but the named ones, clean reopenings
-- included.
def Sys.execIn (names : List Bytes) (s : Sys) : Event → Option Sys
  | .reopen cfg => if Closed s then Sys.opened names cfg s.disk else none
  | .work label =>
      if (step s.cfg s.db label).all (fun effect => touchOnly names effect.ops) then s.exec (.work label) else none
  | event => (s.exec event).filter (fun next => touchOnly names next.todo)

def Event.write : Event → Option Write
  | .lock label => label.write
  | _ => none

-- The writes of a run.
def written (events : List Event) : List Write := events.filterMap Event.write

theorem written_cons (event : Event) (rest : List Event) :
    written (event :: rest) = event.write.toList ++ written rest := by
  rw [written, List.filterMap_cons]
  cases event.write <;> rfl

-- A step within a session.
def Event.Within : Event → Prop
  | .reopen _ | .crash _ => False
  | _ => True

-- Runs whose steps are all allowed in the state they start from.
def Sys.RunWith (allowed : Sys → Event → Prop) : Sys → List Event → Sys → Prop
  | s, [], last => last = s
  | s, event :: rest, last => allowed s event ∧ ∃ next, s.Step event next ∧ next.RunWith allowed rest last

def Sys.execAllIn (names : List Bytes) (allowed : Sys → Event → Bool) : Sys → List Event → Option Sys
  | s, [] => some s
  | s, event :: rest =>
      if allowed s event then (s.execIn names event).bind (fun next => next.execAllIn names allowed rest) else none

theorem run_with_events (allowed : Event → Prop) (s last : Sys) (events : List Event)
    (all : ∀ event ∈ events, allowed event) (done : s.Run events last) :
    s.RunWith (fun _ event => allowed event) events last := by
  induction events generalizing s with
  | nil => exact done
  | cons event rest ih =>
      obtain ⟨next, stepped, remaining⟩ := done
      exact ⟨all event (by simp), next, stepped, ih next (fun other member => all other (by simp [member])) remaining⟩

theorem run_with_run (allowed : Sys → Event → Prop) (s last : Sys) (events : List Event)
    (done : s.RunWith allowed events last) :
    s.Run events last := by
  induction events generalizing s with
  | nil => exact done
  | cons event rest ih =>
      obtain ⟨_, next, stepped, remaining⟩ := done
      exact ⟨next, stepped, ih next remaining⟩

theorem run_with_imp (allowed weaker : Sys → Event → Prop) (imp : ∀ s event, allowed s event → weaker s event)
    (s last : Sys) (events : List Event) (done : s.RunWith allowed events last) : s.RunWith weaker events last := by
  induction events generalizing s with
  | nil => exact done
  | cons event rest ih =>
      obtain ⟨here, next, stepped, remaining⟩ := done
      exact ⟨imp s event here, next, stepped, ih next remaining⟩

theorem run_with_and (allowed : Sys → Event → Prop) (only : Event → Prop) (s last : Sys) (events : List Event)
    (all : ∀ event ∈ events, only event) (done : s.RunWith allowed events last) :
    s.RunWith (fun s event => allowed s event ∧ only event) events last := by
  induction events generalizing s with
  | nil => exact done
  | cons event rest ih =>
      obtain ⟨here, next, stepped, remaining⟩ := done
      exact ⟨⟨here, all event (by simp)⟩, next, stepped,
        ih next (fun other member => all other (by simp [member])) remaining⟩

theorem run_with_induction (P : Sys → List Write → Prop) (allowed : Sys → Event → Prop)
    (kept : ∀ s event next history, P s history → allowed s event → s.Step event next →
      P next (history ++ event.write.toList))
    (s last : Sys) (history : List Write) (events : List Event) (holds : P s history)
    (done : s.RunWith allowed events last) :
    P last (history ++ written events) := by
  induction events generalizing s history with
  | nil =>
      cases done
      simpa [written] using holds
  | cons event rest ih =>
      obtain ⟨here, next, stepped, remaining⟩ := done
      rw [written_cons, ← List.append_assoc]
      exact ih next _ (kept s event next history holds here stepped) remaining

-- Neither on disk nor among the steps to come is there any other file.
structure Confined (names : List Bytes) (s : Sys) : Prop where
  present : ∀ name, (s.disk name).isSome = true → name ∈ names
  todo : touchOnly names s.todo = true

theorem touch_only_mem (names : List Bytes) (ops : List DiskOp) (only : touchOnly names ops = true) :
    ∀ op ∈ ops, ∀ name ∈ op.touches, name ∈ names := by
  intro op member name touched
  simp only [touchOnly, List.all_eq_true, List.contains_iff_mem] at only
  exact only op member name touched

theorem apply_confined (names : List Bytes) (disk : Disk Bytes) (ops : List DiskOp)
    (present : ∀ name, (disk name).isSome = true → name ∈ names) (only : touchOnly names ops = true) :
    ∀ name, (applyAll disk ops name).isSome = true → name ∈ names := by
  intro name there
  by_contra outside
  have untouched : ∀ op ∈ ops, name ∉ op.touches := fun op member touched =>
    outside (touch_only_mem names ops only op member name touched)
  rw [apply_all_frame disk ops name untouched] at there
  exact outside (present name there)

theorem opened_opens (names : List Bytes) (cfg : Config) (disk : Disk Bytes) (next : Sys) (distinct : names.Nodup)
    (present : ∀ name, (disk name).isSome = true → name ∈ names) (done : Sys.opened names cfg disk = some next) :
    Opens cfg disk next ∧ Confined names next := by
  have lists : Lists disk (names.filter (fun name => (disk name).isSome)) := by
    refine ⟨distinct.filter _, fun name => ?_⟩
    rw [List.mem_filter]
    exact ⟨fun both => both.2, fun there => ⟨present name there, there⟩⟩
  rw [Sys.opened] at done
  split at done
  · next db ops opened =>
      split at done
      · next fits =>
          cases done
          exact ⟨⟨⟨_, lists, opened⟩, fits.1, rfl, rfl, rfl, rfl⟩, present, fits.2⟩
      · cases done
  · cases done

theorem exec_in_step (names : List Bytes) (s next : Sys) (event : Event) (distinct : names.Nodup)
    (confined : Confined names s) (done : s.execIn names event = some next) :
    s.Step event next ∧ Confined names next := by
  -- Steps within a session that leave the disk to what they have announced.
  have inside : ∀ event, (s.exec event).filter (fun next => touchOnly names next.todo) = some next →
      (s.Step event next → ∀ name, (next.disk name).isSome = true → name ∈ names) → s.Step event next ∧
      Confined names next := by
    intro event filtered kept
    obtain ⟨ran, only⟩ := Option.filter_eq_some_iff.mp filtered
    have stepped := exec_step s next event ran
    exact ⟨stepped, kept stepped, only⟩
  cases event with
  | lock label =>
      refine inside _ done (fun stepped => ?_)
      cases stepped
      exact confined.present
  | work label =>
      rw [Sys.execIn] at done
      split at done
      · next only =>
          have stepped := exec_step s next _ done
          refine ⟨stepped, ?_⟩
          cases stepped with
          | work _ effect off ran =>
              rw [ran] at only
              exact ⟨apply_confined names s.disk effect.ops confined.present only, confined.todo⟩
      · cases done
  | io =>
      refine inside _ done (fun stepped => ?_)
      cases stepped with
      | io op rest todo =>
          have only := confined.todo
          rw [todo, touchOnly, List.all_cons, Bool.and_eq_true] at only
          exact apply_confined names s.disk [op] confined.present (by rw [touchOnly, List.all_cons, only.1]; rfl)
  | collect name =>
      refine inside _ done (fun stepped => ?_)
      cases stepped with
      | collect _ marked =>
          intro other there
          obtain ⟨file, present⟩ := Option.isSome_iff_exists.mp there
          exact confined.present other (by rw [unlink_present s.disk name other file present]; rfl)
  | reopen cfg =>
      rw [Sys.execIn] at done
      split at done
      · next closed =>
          obtain ⟨opens, after⟩ := opened_opens names cfg s.disk next distinct confined.present done
          exact ⟨.reopen cfg next closed opens, after⟩
      · cases done
  | crash cfg => cases done

theorem exec_all_in_run (names : List Bytes) (allowed : Sys → Event → Bool) (s last : Sys) (events : List Event)
    (distinct : names.Nodup) (confined : Confined names s) (done : s.execAllIn names allowed events = some last) :
    s.RunWith (fun s event => allowed s event = true) events last ∧ Confined names last := by
  induction events generalizing s with
  | nil =>
      cases done
      exact ⟨rfl, confined⟩
  | cons event rest ih =>
      rw [Sys.execAllIn] at done
      split at done
      · next here =>
          obtain ⟨next, ran, remaining⟩ := Option.bind_eq_some_iff.mp done
          obtain ⟨stepped, after⟩ := exec_in_step names s next event distinct confined ran
          obtain ⟨run, final⟩ := ih next after remaining
          exact ⟨⟨here, next, stepped, run⟩, final⟩
      · cases done

theorem fresh_confined (names : List Bytes) (cfg : Config) (only : touchOnly names (Sys.fresh cfg).todo = true) :
    Confined names (Sys.fresh cfg) := by
  refine ⟨fun name there => ?_, only⟩
  cases there

-- The files of a store with one value log and some tables.
def storeNames (count : Nat) : List Bytes := otherFiles ++ vlogName 0 :: (List.range count).flatMap tableFiles

end Tombstash
