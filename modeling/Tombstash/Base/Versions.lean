import Mathlib.Data.List.Basic
import Mathlib.Data.List.Induction
import Mathlib.Data.List.Pairwise

set_option autoImplicit false

namespace Tombstash

variable {K V : Type}

-- A history of writes, oldest first; a write without a value is a deletion.
abbrev History (K V : Type) := List (K × Option V)

def IsNewest (history : History K V) (key : K) (n : Nat) : Prop :=
  (∃ value, history[n]? = some (key, value)) ∧ ∀ (m : Nat) value, history[m]? = some (key, value) → m ≤ n

theorem is_newest_unique (history : History K V) (key : K) (m n : Nat) (first : IsNewest history key m)
    (second : IsNewest history key n) : m = n := by
  obtain ⟨⟨v, atM⟩, maxM⟩ := first
  obtain ⟨⟨w, atN⟩, maxN⟩ := second
  exact Nat.le_antisymm (maxN m v atM) (maxM n w atN)

-- Layered stores. A layer says, for the keys it holds, which write of the
-- history its version is; layers are listed newest first.
abbrev Layer (K : Type) := K → Option Nat

def firstLayer (layers : List (Layer K)) (key : K) : Option Nat := layers.findSome? (fun layer => layer key)

def Newer (newer older : Layer K) : Prop := ∀ key m n, newer key = some m → older key = some n → n < m

def Holds (layers : List (Layer K)) (key : K) (n : Nat) : Prop := ∃ layer ∈ layers, layer key = some n

structure Faithful (history : History K V) (layers : List (Layer K)) : Prop where
  sound : ∀ key n, Holds layers key n → ∃ value, history[n]? = some (key, value)
  ordered : layers.Pairwise Newer
  complete : ∀ key n, IsNewest history key n →
    Holds layers key n ∨ (history[n]? = some (key, none) ∧ ∀ m, ¬ Holds layers key m)

theorem holds_append (front back : List (Layer K)) (key : K) (n : Nat) :
    Holds (front ++ back) key n ↔ Holds front key n ∨ Holds back key n := by
  simp only [Holds, List.mem_append, or_and_right, exists_or]

theorem holds_cons (layer : Layer K) (rest : List (Layer K)) (key : K) (n : Nat) :
    Holds (layer :: rest) key n ↔ layer key = some n ∨ Holds rest key n := by
  simp only [Holds, List.mem_cons, or_and_right, exists_or, exists_eq_left]

theorem first_layer_some (layers : List (Layer K)) (key : K) (n : Nat) (found : firstLayer layers key = some n) :
    Holds layers key n :=
  List.exists_of_findSome?_eq_some found

theorem first_layer_none (layers : List (Layer K)) (key : K) :
    firstLayer layers key = none ↔ ∀ layer ∈ layers, layer key = none := by
  simp [firstLayer]

theorem first_layer_max (layers : List (Layer K)) (ordered : layers.Pairwise Newer) (key : K) (m : Nat)
    (found : firstLayer layers key = some m) (layer : Layer K) (member : layer ∈ layers) (n : Nat)
    (present : layer key = some n) : n ≤ m := by
  induction layers with
  | nil => simp at member
  | cons first rest ih =>
      obtain ⟨newer, restOrdered⟩ := List.pairwise_cons.mp ordered
      cases atFirst : first key with
      | some top =>
          have same : top = m := by simpa [firstLayer, atFirst] using found
          subst same
          rcases List.mem_cons.mp member with eq | later
          · rw [eq, atFirst] at present
            exact Nat.le_of_eq (Option.some.inj present).symm
          · exact Nat.le_of_lt (newer layer later key top n atFirst present)
      | none =>
          have restFound : firstLayer rest key = some m := by simpa [firstLayer, atFirst] using found
          rcases List.mem_cons.mp member with eq | later
          · rw [eq, atFirst] at present
            cases present
          · exact ih restOrdered restFound later

theorem faithful_nil : Faithful ([] : History K V) ([] : List (Layer K)) :=
  ⟨by simp [Holds], List.Pairwise.nil, fun _ _ newest => by obtain ⟨⟨_, present⟩, _⟩ := newest; simp at present⟩

theorem newest_append_right (front back : History K V) (key : K) (n : Nat) (newest : IsNewest (front ++ back) key n)
    (outside : front.length ≤ n) : IsNewest back key (n - front.length) := by
  obtain ⟨⟨value, present⟩, most⟩ := newest
  refine ⟨⟨value, by rwa [List.getElem?_append_right outside] at present⟩, ?_⟩
  intro m other there
  have bounded := most (front.length + m) other (by
    rw [List.getElem?_append_right (by omega), Nat.add_sub_cancel_left]
    exact there)
  omega

-- A merge of some layers: for each key the version of the first of them, or
-- nothing where that version is a deletion and deletions are dropped.
def MergesTo (history : History K V) (drop : Bool) (layers : List (Layer K)) (merged : Layer K) : Prop :=
  ∀ key n, merged key = some n ↔
    firstLayer layers key = some n ∧ ¬ (drop = true ∧ history[n]? = some (key, none))

theorem first_layer_is_newest (history : History K V) (layers : List (Layer K)) (ordered : layers.Pairwise Newer)
    (key : K) (n : Nat) (newest : IsNewest history key n)
    (sound : ∀ m, Holds layers key m → ∃ value, history[m]? = some (key, value)) (holds : Holds layers key n) :
    firstLayer layers key = some n := by
  obtain ⟨holder, member, present⟩ := holds
  cases found : firstLayer layers key with
  | none =>
      rw [(first_layer_none layers key).mp found holder member] at present
      cases present
  | some m =>
      have below := first_layer_max layers ordered key m found holder member n present
      obtain ⟨value, there⟩ := sound m (first_layer_some layers key m found)
      have above := newest.2 m value there
      rw [Nat.le_antisymm above below]

-- Some layers of a store are merged into one version of each of their keys.
-- The rest is kept. Deletions may go only where the kept versions of their
-- keys are newer.
theorem faithful_replace (history : History K V) (old kept inputs new : List (Layer K)) (merged : Layer K) (drop : Bool)
    (faithful : Faithful history old) (split : ∀ key n, Holds old key n ↔ Holds kept key n ∨ Holds inputs key n)
    (inputsOrdered : inputs.Pairwise Newer) (merges : MergesTo history drop inputs merged)
    (covers : ∀ key n, Holds new key n ↔ Holds kept key n ∨ merged key = some n) (ordered : new.Pairwise Newer)
    (safe : drop = true → ∀ key m n, Holds inputs key n → Holds kept key m → n < m) : Faithful history new := by
  have fromInputs : ∀ key n, merged key = some n → Holds inputs key n := fun key n found =>
    first_layer_some inputs key n ((merges key n).mp found).1
  have wasOld : ∀ key n, Holds new key n → Holds old key n := by
    intro key n holds
    rcases (covers key n).mp holds with inKept | inMerged
    · exact (split key n).mpr (.inl inKept)
    · exact (split key n).mpr (.inr (fromInputs key n inMerged))
  refine ⟨fun key n holds => faithful.sound key n (wasOld key n holds), ordered, ?_⟩
  intro key n newest
  rcases faithful.complete key n newest with holds | ⟨deleted, nowhere⟩
  · rcases (split key n).mp holds with inKept | inInputs
    · exact .inl ((covers key n).mpr (.inl inKept))
    · have first := first_layer_is_newest history inputs inputsOrdered key n newest
        (fun m inside => faithful.sound key m ((split key m).mpr (.inr inside))) inInputs
      by_cases dropped : drop = true ∧ history[n]? = some (key, none)
      · refine .inr ⟨dropped.2, fun m remains => ?_⟩
        rcases (covers key m).mp remains with inKept | inMerged
        · have newer := safe dropped.1 key m n inInputs inKept
          obtain ⟨value, present⟩ := faithful.sound key m ((split key m).mpr (.inl inKept))
          have older := newest.2 m value present
          omega
        · obtain ⟨atFirst, notDropped⟩ := (merges key m).mp inMerged
          rw [first] at atFirst
          cases atFirst
          exact notDropped dropped
      · exact .inl ((covers key n).mpr (.inr ((merges key n).mpr ⟨first, dropped⟩)))
  · exact .inr ⟨deleted, fun m remains => nowhere m (wasOld key m remains)⟩

-- Merging neighbours in place, down to the oldest layer if deletions go.
theorem faithful_segment (history : History K V) (front middle back : List (Layer K)) (merged : Layer K) (drop : Bool)
    (faithful : Faithful history (front ++ middle ++ back)) (merges : MergesTo history drop middle merged)
    (reaches : drop = true → back = []) : Faithful history (front ++ [merged] ++ back) := by
  obtain ⟨frontMiddle, backOrdered, acrossBack⟩ := List.pairwise_append.mp faithful.ordered
  obtain ⟨frontOrdered, middleOrdered, acrossMiddle⟩ := List.pairwise_append.mp frontMiddle
  have fromMiddle : ∀ key n, merged key = some n → Holds middle key n := fun key n found =>
    first_layer_some middle key n ((merges key n).mp found).1
  refine faithful_replace history (front ++ middle ++ back) (front ++ back) middle _ merged drop
    faithful ?_ middleOrdered
    merges ?_ ?_ ?_
  · intro key n
    simp only [holds_append]
    tauto
  · intro key n
    have none : ¬ Holds ([] : List (Layer K)) key n := by simp [Holds]
    simp only [holds_append, holds_cons, none, or_false]
    tauto
  · refine List.pairwise_append.mpr ⟨List.pairwise_append.mpr ⟨frontOrdered, List.pairwise_singleton _ _, ?_⟩,
      backOrdered, ?_⟩
    · intro newer inFront older isMerged key m n atNewer atOlder
      rw [List.mem_singleton.mp isMerged] at atOlder
      obtain ⟨source, inMiddle, there⟩ := fromMiddle key n atOlder
      exact acrossMiddle newer inFront source inMiddle key m n atNewer there
    · intro newer inNew older inBack key m n atNewer atOlder
      rcases List.mem_append.mp inNew with inFront | isMerged
      · exact acrossBack newer (by simp [inFront]) older inBack key m n atNewer atOlder
      · rw [List.mem_singleton.mp isMerged] at atNewer
        obtain ⟨source, inMiddle, there⟩ := fromMiddle key m atNewer
        exact acrossBack source (by simp [inMiddle]) older inBack key m n there atOlder
  · intro dropping key m n ⟨older, inMiddle, atOlder⟩ ⟨newer, inKept, atNewer⟩
    rw [reaches dropping, List.append_nil] at inKept
    exact acrossMiddle newer inKept older inMiddle key m n atNewer atOlder

section Decidable

variable [DecidableEq K]

def latest (history : History K V) (key : K) : Option (Option V) :=
  (history.reverse.find? (fun write => decide (write.1 = key))).map Prod.snd

def valueOf (history : History K V) (key : K) : Option V := (latest history key).join

theorem latest_append (front back : History K V) (key : K) :
    latest (front ++ back) key = (latest back key).or (latest front key) := by
  simp only [latest, List.reverse_append, List.find?_append]
  cases back.reverse.find? (fun write => decide (write.1 = key)) <;> simp

@[simp] theorem latest_nil (key : K) : latest ([] : History K V) key = none := rfl

theorem latest_singleton (write : K × Option V) (key : K) :
    latest [write] key = if write.1 = key then some write.2 else none := by
  by_cases same : write.1 = key <;> simp [latest, same]

theorem latest_none (history : History K V) (key : K) :
    latest history key = none ↔ ∀ write ∈ history, write.1 ≠ key := by
  simp [latest]

theorem latest_member (history : History K V) (key : K) (value : Option V) (last : latest history key = some value) :
    (key, value) ∈ history := by
  obtain ⟨write, found, rfl⟩ := Option.map_eq_some_iff.mp last
  have same : write.1 = key := by simpa using List.find?_some found
  rw [← same]
  exact List.mem_reverse.mp (List.mem_of_find?_eq_some found)

theorem latest_spec (history : History K V) (key : K) :
    (latest history key = none ∧ ∀ (n : Nat) value, history[n]? ≠ some (key, value)) ∨
      ∃ (n : Nat) (value : Option V), IsNewest history key n ∧ history[n]? = some (key, value) ∧
      latest history key = some value := by
  cases found : latest history key with
  | none =>
      refine .inl ⟨rfl, fun n value present => ?_⟩
      exact (latest_none history key).mp found (key, value) (List.mem_of_getElem? present) rfl
  | some value =>
      right
      induction history using List.reverseRecOn with
      | nil => simp at found
      | append_singleton front write ih =>
          rw [latest_append, latest_singleton] at found
          by_cases same : write.1 = key
          · rw [if_pos same] at found
            cases found
            refine ⟨front.length, write.2, ⟨⟨write.2, by simp [← same]⟩, ?_⟩, by simp [← same], rfl⟩
            intro m other present
            have bound := (List.getElem?_eq_some_iff.mp present).1
            simp only [List.length_append, List.length_singleton] at bound
            omega
          · rw [if_neg same, Option.none_or] at found
            obtain ⟨n, value', ⟨_, most⟩, present, eq⟩ := ih found
            cases eq
            have bound := (List.getElem?_eq_some_iff.mp present).1
            refine ⟨n, value, ⟨⟨value, ?_⟩, ?_⟩, ?_, rfl⟩
            · rwa [List.getElem?_append_left bound]
            · intro m other there
              rcases Nat.lt_or_ge m front.length with inside | outside
              · exact most m other (by rwa [List.getElem?_append_left inside] at there)
              · rw [List.getElem?_append_right outside] at there
                obtain ⟨_, eq⟩ := List.getElem?_eq_some_iff.mp there
                simp only [List.getElem_singleton] at eq
                exact absurd (congrArg Prod.fst eq) same
            · rwa [List.getElem?_append_left bound]

theorem newest_value (history : History K V) (key : K) (n : Nat) (value : Option V) (newest : IsNewest history key n)
    (present : history[n]? = some (key, value)) : valueOf history key = value := by
  rcases latest_spec history key with ⟨_, absent⟩ | ⟨m, other, isNewest, atM, eq⟩
  · exact absurd present (absent n value)
  · have same := is_newest_unique history key m n isNewest newest
    rw [same, present] at atM
    cases atM
    simp [valueOf, eq]

-- Writes that were already applied can be applied again on top, as long as
-- the replay starts no later than the state it is laid over and ends no earlier.
theorem replay_overlap (history : History K V) (start base stop : Nat) (key : K) (early : start ≤ base)
    (late : base ≤ stop) :
    ((latest ((history.take stop).drop start) key).or (latest (history.take base) key)) =
      latest (history.take stop) key := by
  have whole : history.take stop = history.take start ++ (history.take stop).drop start := by
    have split := List.take_append_drop start (history.take stop)
    rw [List.take_take, Nat.min_eq_left (Nat.le_trans early late)] at split
    exact split.symm
  have based : history.take base = history.take start ++ (history.take base).drop start := by
    have split := List.take_append_drop start (history.take base)
    rw [List.take_take, Nat.min_eq_left early] at split
    exact split.symm
  have inner : (history.take stop).drop start = (history.take base).drop start ++ (history.take stop).drop base := by
    have split := List.take_append_drop base (history.take stop)
    rw [List.take_take, Nat.min_eq_left late] at split
    conv_lhs => rw [← split]
    rw [List.drop_append]
    rcases Nat.lt_or_ge (history.take base).length start with short | long
    · have beyond : history.length < base := by
        rw [List.length_take] at short
        omega
      have empty : (history.take stop).drop base = [] := by
        apply List.drop_eq_nil_of_le
        rw [List.length_take]
        omega
      simp [empty]
    · rw [Nat.sub_eq_zero_of_le long, List.drop_zero]
  have stopped : latest (history.take stop) key =
      (latest ((history.take stop).drop start) key).or (latest (history.take start) key) := by
    conv_lhs => rw [whole]
    exact latest_append _ _ key
  rw [stopped]
  cases found : latest ((history.take stop).drop start) key with
  | some value => rfl
  | none =>
      rw [inner, latest_append] at found
      have quiet := (Option.or_eq_none_iff.mp found).2
      conv_lhs => rw [based]
      rw [latest_append, quiet]
      rfl

theorem faithful_first (history : History K V) (layers : List (Layer K)) (faithful : Faithful history layers)
    (key : K) (n : Nat) (found : firstLayer layers key = some n) : IsNewest history key n := by
  have present := first_layer_some layers key n found
  obtain ⟨value, atN⟩ := faithful.sound key n present
  rcases latest_spec history key with ⟨_, absent⟩ | ⟨top, newest, isNewest, _, _⟩
  · exact absurd atN (absent n value)
  · rcases faithful.complete key top isNewest with ⟨holder, inside, atTop⟩ | ⟨_, empty⟩
    · have below := first_layer_max layers faithful.ordered key n found holder inside top atTop
      have above := isNewest.2 n value atN
      rwa [Nat.le_antisymm above below]
    · exact absurd present (empty n)

theorem faithful_absent (history : History K V) (layers : List (Layer K)) (faithful : Faithful history layers)
    (key : K) (absent : firstLayer layers key = none) : valueOf history key = none := by
  rcases latest_spec history key with ⟨none, _⟩ | ⟨n, value, isNewest, atN, _⟩
  · simp [valueOf, none]
  · have nowhere := (first_layer_none layers key).mp absent
    rcases faithful.complete key n isNewest with ⟨holder, inside, there⟩ | ⟨deleted, _⟩
    · rw [nowhere holder inside] at there
      cases there
    · exact newest_value history key n none isNewest deleted

-- A batch of later writes becomes one new layer in front.
def batchLayer (offset : Nat) : History K V → Layer K
  | [], _ => none
  | write :: rest, key => (batchLayer (offset + 1) rest key).or (if write.1 = key then some offset else none)

theorem batch_layer_spec (offset : Nat) (batch : History K V) (key : K) (n : Nat) :
    batchLayer offset batch key = some n ↔ offset ≤ n ∧ IsNewest batch key (n - offset) := by
  induction batch generalizing offset n with
  | nil => simp [batchLayer, IsNewest]
  | cons write rest ih =>
      rw [batchLayer]
      cases later : batchLayer (offset + 1) rest key with
      | some m =>
          obtain ⟨bound, ⟨value, present⟩, most⟩ := (ih (offset + 1) m).mp later
          have here : IsNewest (write :: rest) key (m - offset) := by
            have shift : m - offset = (m - (offset + 1)) + 1 := by omega
            refine ⟨⟨value, by rw [shift, List.getElem?_cons_succ]; exact present⟩, ?_⟩
            intro i other there
            cases i with
            | zero => omega
            | succ i =>
                have bounded := most i other (by rwa [List.getElem?_cons_succ] at there)
                omega
          simp only [Option.some_or, Option.some.injEq]
          constructor
          · rintro rfl
            exact ⟨by omega, here⟩
          · rintro ⟨low, isNewest⟩
            have same := is_newest_unique _ key _ _ here isNewest
            omega
      | none =>
          have absent : ∀ (i : Nat) value, rest[i]? ≠ some (key, value) := by
            intro i value present
            rcases latest_spec rest key with ⟨_, nowhere⟩ | ⟨top, _, isNewest, _, _⟩
            · exact nowhere i value present
            · have hit := (ih (offset + 1) (top + (offset + 1))).mpr ⟨by omega, by simpa using isNewest⟩
              rw [later] at hit
              cases hit
          rw [Option.none_or]
          by_cases same : write.1 = key
          · rw [if_pos same, Option.some.injEq]
            constructor
            · rintro rfl
              refine ⟨Nat.le_refl _, ⟨write.2, by simp [← same]⟩, ?_⟩
              intro i value there
              cases i with
              | zero => omega
              | succ i => exact absurd (by rwa [List.getElem?_cons_succ] at there) (absent i value)
            · rintro ⟨low, ⟨value, present⟩, _⟩
              cases shift : n - offset with
              | zero => omega
              | succ i =>
                  rw [shift, List.getElem?_cons_succ] at present
                  exact absurd present (absent i value)
          · rw [if_neg same]
            refine ⟨by simp, ?_⟩
            rintro ⟨_, ⟨value, present⟩, _⟩
            cases shift : n - offset with
            | zero =>
                rw [shift, List.getElem?_cons_zero, Option.some.injEq] at present
                exact absurd (congrArg Prod.fst present) same
            | succ i =>
                rw [shift, List.getElem?_cons_succ] at present
                exact absurd present (absent i value)

theorem newest_append_left (front back : History K V) (key : K) (n : Nat) (newest : IsNewest (front ++ back) key n)
    (inside : n < front.length) : IsNewest front key n ∧ latest back key = none := by
  obtain ⟨⟨value, present⟩, most⟩ := newest
  refine ⟨⟨⟨value, by rwa [List.getElem?_append_left inside] at present⟩, ?_⟩, ?_⟩
  · intro m other there
    have bound := (List.getElem?_eq_some_iff.mp there).1
    exact most m other (by rwa [List.getElem?_append_left bound])
  · rcases latest_spec back key with ⟨absent, _⟩ | ⟨m, other, _, there, _⟩
    · exact absent
    · have bounded := most (front.length + m) other (by
        rw [List.getElem?_append_right (by omega), Nat.add_sub_cancel_left]
        exact there)
      omega

theorem faithful_batch (history batch : History K V) (layers : List (Layer K)) (faithful : Faithful history layers) :
    Faithful (history ++ batch) (batchLayer history.length batch :: layers) := by
  have inBatch : ∀ key n, batchLayer history.length batch key = some n →
      history.length ≤ n ∧ ∃ value, (history ++ batch)[n]? = some (key, value) := by
    intro key n found
    obtain ⟨bound, ⟨value, present⟩, _⟩ := (batch_layer_spec history.length batch key n).mp found
    exact ⟨bound, value, by rwa [List.getElem?_append_right bound]⟩
  have inHistory : ∀ key n, Holds layers key n →
      n < history.length ∧ ∃ value, (history ++ batch)[n]? = some (key, value) := by
    intro key n holds
    obtain ⟨value, present⟩ := faithful.sound key n holds
    have bound := (List.getElem?_eq_some_iff.mp present).1
    exact ⟨bound, value, by rwa [List.getElem?_append_left bound]⟩
  refine ⟨?_, List.pairwise_cons.mpr ⟨?_, faithful.ordered⟩, ?_⟩
  · intro key n holds
    rcases (holds_cons _ _ _ _).mp holds with found | later
    · exact (inBatch key n found).2
    · exact (inHistory key n later).2
  · intro layer member key m n atBatch atLayer
    have high := (inBatch key m atBatch).1
    have low := (inHistory key n ⟨layer, member, atLayer⟩).1
    omega
  · intro key n newest
    rcases Nat.lt_or_ge n history.length with inside | outside
    · obtain ⟨older, quiet⟩ := newest_append_left history batch key n newest inside
      have skipped : batchLayer history.length batch key = none := by
        cases found : batchLayer history.length batch key with
        | none => rfl
        | some m =>
            obtain ⟨_, ⟨value, present⟩, _⟩ := (batch_layer_spec history.length batch key m).mp found
            exact absurd rfl ((latest_none batch key).mp quiet (key, value) (List.mem_of_getElem? present))
      rcases faithful.complete key n older with holds | ⟨deleted, nowhere⟩
      · exact .inl ((holds_cons _ _ _ _).mpr (.inr holds))
      · refine .inr ⟨by rwa [List.getElem?_append_left inside], fun m holds => ?_⟩
        rcases (holds_cons _ _ _ _).mp holds with found | later
        · rw [skipped] at found
          cases found
        · exact nowhere m later
    · have newer := newest_append_right history batch key n newest outside
      exact .inl ((holds_cons _ _ _ _).mpr (.inl ((batch_layer_spec history.length batch key n).mpr ⟨outside, newer⟩)))

-- Two histories that go on alike after beginnings that leave the same map.
structure Parallel (inner outer : History K V) (a b : Nat) : Prop where
  inside : a ≤ inner.length
  outside : b ≤ outer.length
  rest : inner.drop a = outer.drop b
  same : ∀ key, valueOf (inner.take a) key = valueOf (outer.take b) key

section Parallel

variable (inner outer : History K V) (a b : Nat)

theorem parallel_whole (same : ∀ key, valueOf inner key = valueOf outer key) :
    Parallel inner outer inner.length outer.length := by
  refine ⟨Nat.le_refl _, Nat.le_refl _, ?_, fun key => ?_⟩
  · rw [List.drop_length, List.drop_length]
  · rw [List.take_length, List.take_length]
    exact same key

variable (parallel : Parallel inner outer a b)

include parallel

theorem parallel_length : inner.length = a + (outer.length - b) := by
  have lengths := congrArg List.length parallel.rest
  rw [List.length_drop, List.length_drop] at lengths
  have inside := parallel.inside
  omega

theorem parallel_take (n : Nat) (key : K) : valueOf (inner.take (a + n)) key = valueOf (outer.take (b + n)) key := by
  have same := parallel.same key
  rw [List.take_add, List.take_add, parallel.rest]
  simp only [valueOf, latest_append] at same ⊢
  cases latest ((outer.drop b).take n) key with
  | none => exact same
  | some value => rfl

theorem parallel_value (key : K) : valueOf inner key = valueOf outer key := by
  have all := parallel_take inner outer a b parallel (outer.length - b) key
  rwa [← parallel_length inner outer a b parallel, Nat.add_sub_cancel' parallel.outside, List.take_length,
    List.take_length] at all

theorem parallel_append (more : History K V) : Parallel (inner ++ more) (outer ++ more) a b := by
  obtain ⟨inside, outside, rest, same⟩ := parallel
  refine ⟨?_, ?_, ?_, fun key => ?_⟩
  · rw [List.length_append]
    omega
  · rw [List.length_append]
    omega
  · rw [List.drop_append_of_le_length inside, List.drop_append_of_le_length outside, rest]
  · rw [List.take_append_of_le_length inside, List.take_append_of_le_length outside]
    exact same key

end Parallel

end Decidable

end Tombstash
