import Mathlib.Data.List.Basic

set_option autoImplicit false

namespace Tombstash

-- A system that frees what it has done with, and holders that may still use it.
-- Some events end every holder.
structure Pinning (S E H N : Type) where
  step : S → E → S → Prop
  frees : E → N → Prop
  ends : E → Prop
  takes : S → H → Prop
  uses : H → N → Prop

-- Steps with holders: the system's own, a holder that comes and one that goes.
inductive PinEvent (E H : Type) where
  | own (event : E)
  | take (holder : H)
  | drop (index : Nat)

section Pinning

variable {S E H N : Type} (p : Pinning S E H N)

-- Nothing that a holder uses is freed.
inductive Pinning.Step : S × List H → PinEvent E H → S × List H → Prop
  | own (s next : S) (holders : List H) (event : E) (stepped : p.step s event next) (goesOn : ¬ p.ends event)
      (spared : ∀ holder ∈ holders, ∀ name, p.frees event name → ¬ p.uses holder name) :
      Step (s, holders) (.own event) (next, holders)
  | ends (s next : S) (holders : List H) (event : E) (stepped : p.step s event next) (stops : p.ends event) :
      Step (s, holders) (.own event) (next, [])
  | take (s : S) (holders : List H) (holder : H) (takes : p.takes s holder) :
      Step (s, holders) (.take holder) (s, holder :: holders)
  | drop (s : S) (holders : List H) (index : Nat) : Step (s, holders) (.drop index) (s, holders.eraseIdx index)

def Pinning.Run : S × List H → List (PinEvent E H) → S × List H → Prop
  | s, [], last => last = s
  | s, event :: rest, last => ∃ next, p.Step s event next ∧ Run next rest last

variable (inv : S → Prop) (good : S → H → Prop)

-- What a holder may rely on: it holds when the holder comes, and every step
-- that spares the holder keeps it.
structure Pinning.Relies : Prop where
  kept : ∀ s event next, inv s → p.step s event next → inv next
  taken : ∀ s holder, inv s → p.takes s holder → good s holder
  spared : ∀ s event next holder, inv s → p.step s event next → ¬ p.ends event →
    (∀ name, p.frees event name → ¬ p.uses holder name) → good s holder → good next holder

variable {p inv good}

theorem pinned_step (relies : p.Relies inv good) (s next : S × List H) (event : PinEvent E H)
    (stepped : p.Step s event next) (holds : inv s.1 ∧ ∀ holder ∈ s.2, good s.1 holder) :
    inv next.1 ∧ ∀ holder ∈ next.2, good next.1 holder := by
  obtain ⟨invariant, all⟩ := holds
  cases stepped with
  | own s next holders event stepped goesOn spared =>
      exact ⟨relies.kept s event next invariant stepped, fun holder member =>
        relies.spared s event next holder invariant stepped goesOn (spared holder member) (all holder member)⟩
  | ends s next holders event stepped stops => exact ⟨relies.kept s event next invariant stepped, List.forall_mem_nil _⟩
  | take s holders holder takes =>
      exact ⟨invariant, List.forall_mem_cons.mpr ⟨relies.taken s holder invariant takes, all⟩⟩
  | drop s holders index => exact ⟨invariant, fun holder member => all holder (List.mem_of_mem_eraseIdx member)⟩

theorem pinned_run (relies : p.Relies inv good) (s last : S × List H) (events : List (PinEvent E H))
    (done : p.Run s events last) (holds : inv s.1 ∧ ∀ holder ∈ s.2, good s.1 holder) :
    inv last.1 ∧ ∀ holder ∈ last.2, good last.1 holder := by
  induction events generalizing s with
  | nil =>
      rw [show last = s from done]
      exact holds
  | cons event rest ih =>
      obtain ⟨next, stepped, later⟩ := done
      exact ih next later (pinned_step relies s next event stepped holds)

end Pinning

end Tombstash
