import Mathlib.Algebra.GroupWithZero.Nat
import Mathlib.Order.Lattice
import Mathlib.Data.List.Basic
import Mathlib.Data.List.Forall2

set_option autoImplicit false

namespace Tombstash

section Rows

variable {K R : Type} [LinearOrder K] (key : R → K)

def Ascending (rows : List R) : Prop := rows.Pairwise (fun a b => key a < key b)

def findKey (query : K) (rows : List R) : Option R := rows.find? (fun row => decide (key row = query))

-- The first run that holds the key answers, as in a newest-first list of runs.
def firstMatch (query : K) (runs : List (List R)) : Option R := runs.findSome? (findKey key query)

theorem find_key_some (query : K) (rows : List R) (row : R) (found : findKey key query rows = some row) :
    row ∈ rows ∧ key row = query :=
  ⟨List.mem_of_find?_eq_some found, by simpa using List.find?_some found⟩

theorem find_key_none (query : K) (rows : List R) :
    findKey key query rows = none ↔ ∀ row ∈ rows, key row ≠ query := by
  simp [findKey]

theorem find_key_cons (query : K) (row : R) (tail : List R) :
    findKey key query (row :: tail) = if key row = query then some row else findKey key query tail := by
  by_cases same : key row = query <;> simp [findKey, same]

theorem find_key_append (query : K) (front back : List R) :
    findKey key query (front ++ back) = (findKey key query front).or (findKey key query back) := by
  simp [findKey, List.find?_append]

theorem ascending_find (rows : List R) (ascending : Ascending key rows) (row : R) (member : row ∈ rows) :
    findKey key (key row) rows = some row := by
  induction rows with
  | nil => simp at member
  | cons head tail ih =>
      obtain ⟨below, rest⟩ := List.pairwise_cons.mp ascending
      rw [find_key_cons]
      rcases List.mem_cons.mp member with same | later
      · simp [same]
      · rw [if_neg (ne_of_lt (below row later))]
        exact ih rest later

theorem ascending_find_iff (rows : List R) (ascending : Ascending key rows) (query : K) (row : R) :
    findKey key query rows = some row ↔ row ∈ rows ∧ key row = query := by
  constructor
  · exact find_key_some key query rows row
  · rintro ⟨member, rfl⟩
    exact ascending_find key rows ascending row member

theorem ascending_tail (row : R) (tail : List R) (ascending : Ascending key (row :: tail)) : Ascending key tail :=
  (List.pairwise_cons.mp ascending).2

-- Rows rewritten one by one under their keys.
theorem ascending_related (rel : R → R → Prop) (left right : List R) (related : List.Forall₂ rel left right)
    (keys : ∀ a b, rel a b → key b = key a) (ascending : Ascending key left) : Ascending key right := by
  have same : right.map key = left.map key := by
    induction related with
    | nil => rfl
    | cons here _ ih => rw [List.map_cons, List.map_cons, keys _ _ here, ih (ascending_tail key _ _ ascending)]
  rw [Ascending, ← List.pairwise_map] at ascending ⊢
  rw [same]
  exact ascending

theorem find_key_related (rel : R → R → Prop) (left right : List R) (related : List.Forall₂ rel left right)
    (keys : ∀ a b, rel a b → key b = key a) (query : K) :
    (findKey key query left = none ∧ findKey key query right = none) ∨
      ∃ a b, findKey key query left = some a ∧ findKey key query right = some b ∧ rel a b := by
  induction related with
  | nil => exact .inl ⟨rfl, rfl⟩
  | @cons a b _ _ here _ ih =>
      rw [find_key_cons, find_key_cons, keys _ _ here]
      by_cases same : key a = query
      · rw [if_pos same, if_pos same]
        exact .inr ⟨a, b, rfl, rfl, here⟩
      · rw [if_neg same, if_neg same]
        exact ih

theorem first_match_some (query : K) (runs : List (List R)) (row : R) (found : firstMatch key query runs = some row) :
    ∃ run ∈ runs, row ∈ run ∧ key row = query := by
  obtain ⟨run, member, hit⟩ := List.exists_of_findSome?_eq_some found
  exact ⟨run, member, find_key_some key query run row hit⟩

theorem first_match_none (query : K) (runs : List (List R)) :
    firstMatch key query runs = none ↔ ∀ run ∈ runs, ∀ row ∈ run, key row ≠ query := by
  simp only [firstMatch, List.findSome?_eq_none_iff, find_key_none]

theorem first_match_cons (query : K) (run : List R) (rest : List (List R)) :
    firstMatch key query (run :: rest) = (findKey key query run).or (firstMatch key query rest) := by
  cases hit : findKey key query run <;> simp [firstMatch, hit]

theorem first_match_append (query : K) (front back : List (List R)) :
    firstMatch key query (front ++ back) = (firstMatch key query front).or (firstMatch key query back) := by
  simp [firstMatch, List.findSome?_append]

-- Walking from lower_bound(start) while the key stays below stop visits
-- exactly the rows of the window.
theorem ascending_window (rows : List R) (ascending : Ascending key rows) (start stop : K) :
    (rows.dropWhile (fun row => decide (key row < start))).takeWhile (fun row => decide (key row < stop)) =
      rows.filter (fun row => decide (start ≤ key row) && decide (key row < stop)) := by
  induction rows with
  | nil => rfl
  | cons row tail ih =>
      obtain ⟨below, rest⟩ := List.pairwise_cons.mp ascending
      by_cases before : key row < start
      · simp [before, not_le.mpr before, ih rest]
      · have reached : start ≤ key row := not_lt.mp before
        have tailReached : ∀ other ∈ tail, start ≤ key other := fun other member =>
          le_of_lt (lt_of_le_of_lt reached (below other member))
        rw [List.dropWhile_cons_of_neg (by simpa using reached)]
        by_cases inside : key row < stop
        · have tailEq := ih rest
          have unmoved : tail.dropWhile (fun other => decide (key other < start)) = tail := by
            cases tail with
            | nil => rfl
            | cons other more =>
                exact List.dropWhile_cons_of_neg (by simpa using tailReached other (by simp))
          rw [unmoved] at tailEq
          simp [inside, reached, tailEq]
        · have outside : ∀ other ∈ tail, ¬ key other < stop := fun other member =>
            not_lt.mpr (le_trans (not_lt.mp inside) (le_of_lt (below other member)))
          have empty : tail.filter (fun other => decide (start ≤ key other) && decide (key other < stop)) = [] := by
            rw [List.filter_eq_nil_iff]
            intro other member
            simp [outside other member]
          simp [inside, empty]

theorem ascending_filter (rows : List R) (keep : R → Bool) (ascending : Ascending key rows) :
    Ascending key (rows.filter keep) :=
  List.Pairwise.filter _ ascending

end Rows

section Merge

variable {K R C E O : Type} [LinearOrder K] (key : R → K)

-- The smallest key under any cursor that is still valid; the accumulator is
-- the loop's any/min_key pair.
def minKeyFrom (head : C → Option R) (best : Option K) (cursors : List C) : Option K :=
  cursors.foldl (fun best cursor =>
    match head cursor, best with
    | none, _ => best
    | some row, none => some (key row)
    | some row, some least => if key row < least then some (key row) else some least) best

def minKey (head : C → Option R) (cursors : List C) : Option K := minKeyFrom key head none cursors

-- The row under the first cursor that stands on the key.
def newestAt (head : C → Option R) (query : K) (cursors : List C) : Option R :=
  cursors.findSome? (fun cursor => (head cursor).filter (fun row => decide (key row = query)))

def advance (head : C → Option R) (next : C → Except E C) (query : K) (cursor : C) : Except E C :=
  match head cursor with
  | none => .ok cursor
  | some row => if key row = query then next cursor else .ok cursor

-- One round emits the newest row of the smallest key and moves every cursor
-- that stands on that key; each round consumes a row, so fuel bounds rounds.
def kwayMerge (head : C → Option R) (next : C → Except E C) (emit : R → Except E (Option O)) :
    Nat → List C → Except E (List O)
  | 0, _ => .ok []
  | fuel + 1, cursors =>
      match minKey key head cursors with
      | none => .ok []
      | some least =>
          match newestAt key head least cursors with
          | none => .ok []
          | some row => do
              let out ← emit row
              let moved ← cursors.mapM (advance key head next least)
              let rest ← kwayMerge head next emit fuel moved
              return out.toList ++ rest

def dropKey (query : K) : List R → List R
  | [] => []
  | row :: tail => if key row = query then tail else row :: tail

-- The same loop over plain lists, without emission: the newest-wins union.
def union : Nat → List (List R) → List R
  | 0, _ => []
  | fuel + 1, runs =>
      match minKey key List.head? runs with
      | none => []
      | some least =>
          match newestAt key List.head? least runs with
          | none => []
          | some row => row :: union fuel (runs.map (dropKey key least))

def rowCount (runs : List (List R)) : Nat := runs.flatten.length

theorem min_key_from_spec (head : C → Option R) (cursors : List C) (best : Option K) :
    (minKeyFrom key head best cursors = none ↔ best = none ∧ ∀ c ∈ cursors, head c = none) ∧
      ∀ least, minKeyFrom key head best cursors = some least →
        (best = some least ∨ ∃ c ∈ cursors, ∃ row, head c = some row ∧ key row = least) ∧
        (∀ b, best = some b → least ≤ b) ∧ ∀ c ∈ cursors, ∀ row, head c = some row → least ≤ key row := by
  induction cursors generalizing best with
  | nil =>
      refine ⟨by simp [minKeyFrom], ?_⟩
      intro least found
      have same : best = some least := found
      exact ⟨.inl same, fun b eq => by rw [same] at eq; exact le_of_eq (Option.some.inj eq), by simp⟩
  | cons c rest ih =>
      have unfolded : minKeyFrom key head best (c :: rest) = minKeyFrom key head
          (match head c, best with
            | none, _ => best
            | some row, none => some (key row)
            | some row, some least => if key row < least then some (key row) else some least) rest := rfl
      rw [unfolded]
      cases at_c : head c with
      | none =>
          obtain ⟨empty, found⟩ := ih best
          refine ⟨by simp [empty, at_c], ?_⟩
          intro least eq
          obtain ⟨origin, below, lower⟩ := found least eq
          refine ⟨?_, below, ?_⟩
          · rcases origin with same | ⟨d, member, row, at_d, keyEq⟩
            · exact .inl same
            · exact .inr ⟨d, by simp [member], row, at_d, keyEq⟩
          · intro d member row at_d
            rcases List.mem_cons.mp member with same | later
            · rw [same, at_c] at at_d
              cases at_d
            · exact lower d later row at_d
      | some first =>
          have step : ∃ now, (match (some first : Option R), best with
              | none, _ => best
              | some row, none => some (key row)
              | some row, some least => if key row < least then some (key row) else some least) = some now ∧
              now ≤ key first ∧ (∀ b, best = some b → now ≤ b) ∧ (best = some now ∨ now = key first) := by
            cases best with
            | none => exact ⟨key first, rfl, le_refl _, by simp, .inr rfl⟩
            | some b =>
                by_cases less : key first < b
                · exact ⟨key first, by simp [less], le_refl _, by simp [le_of_lt less], .inr rfl⟩
                · exact ⟨b, by simp [less], not_lt.mp less, by simp, .inl rfl⟩
          obtain ⟨now, nowEq, nowFirst, nowBest, nowOrigin⟩ := step
          rw [nowEq]
          obtain ⟨empty, found⟩ := ih (some now)
          refine ⟨by simp [empty, at_c], ?_⟩
          intro least eq
          obtain ⟨origin, below, lower⟩ := found least eq
          have leNow := below now rfl
          refine ⟨?_, fun b bEq => le_trans leNow (nowBest b bEq), ?_⟩
          · rcases origin with same | ⟨d, member, row, at_d, keyEq⟩
            · cases same
              rcases nowOrigin with fromBest | fromFirst
              · exact .inl fromBest
              · exact .inr ⟨c, by simp, first, at_c, fromFirst.symm⟩
            · exact .inr ⟨d, by simp [member], row, at_d, keyEq⟩
          · intro d member row at_d
            rcases List.mem_cons.mp member with same | later
            · rw [same, at_c] at at_d
              cases at_d
              exact le_trans leNow nowFirst
            · exact lower d later row at_d

theorem min_key_none (head : C → Option R) (cursors : List C) :
    minKey key head cursors = none ↔ ∀ c ∈ cursors, head c = none := by
  simpa [minKey] using (min_key_from_spec key head cursors none).1

theorem min_key_some (head : C → Option R) (cursors : List C) (least : K)
    (found : minKey key head cursors = some least) :
    (∃ c ∈ cursors, ∃ row, head c = some row ∧ key row = least) ∧
      ∀ c ∈ cursors, ∀ row, head c = some row → least ≤ key row := by
  obtain ⟨origin, _, lower⟩ := (min_key_from_spec key head cursors none).2 least found
  rcases origin with impossible | present
  · cases impossible
  · exact ⟨present, lower⟩

theorem newest_at_some (head : C → Option R) (query : K) (cursors : List C) (row : R)
    (found : newestAt key head query cursors = some row) : (∃ c ∈ cursors, head c = some row) ∧ key row = query := by
  obtain ⟨c, member, hit⟩ := List.exists_of_findSome?_eq_some found
  obtain ⟨at_c, keyEq⟩ := Option.filter_eq_some_iff.mp hit
  exact ⟨⟨c, member, at_c⟩, by simpa using keyEq⟩

theorem newest_at_present (head : C → Option R) (query : K) (cursors : List C)
    (present : ∃ c ∈ cursors, ∃ row, head c = some row ∧ key row = query) :
    ∃ row, newestAt key head query cursors = some row := by
  obtain ⟨c, member, row, at_c, keyEq⟩ := present
  cases found : newestAt key head query cursors with
  | some row => exact ⟨row, rfl⟩
  | none =>
      have absent := List.findSome?_eq_none_iff.mp found c member
      simp [at_c, keyEq] at absent

theorem ascending_drop_key (query : K) (run : List R) (ascending : Ascending key run) :
    Ascending key (dropKey key query run) := by
  cases run with
  | nil => exact ascending
  | cons row tail =>
      by_cases same : key row = query
      · simpa only [dropKey, if_pos same] using ascending_tail key row tail ascending
      · simpa only [dropKey, if_neg same] using ascending

theorem drop_key_keeps (query other : K) (run : List R) (different : other ≠ query) :
    findKey key other (dropKey key query run) = findKey key other run := by
  cases run with
  | nil => rfl
  | cons row tail =>
      by_cases same : key row = query
      · rw [dropKey, if_pos same, find_key_cons, if_neg (fun eq => different (eq.symm.trans same))]
      · rw [dropKey, if_neg same]

-- Where no head lies below the key, only a head can carry it.
theorem find_at_head (query : K) (run : List R) (ascending : Ascending key run)
    (lower : ∀ row, run.head? = some row → query ≤ key row) :
    findKey key query run = run.head?.filter (fun row => decide (key row = query)) := by
  cases run with
  | nil => rfl
  | cons row tail =>
      rw [find_key_cons]
      by_cases same : key row = query
      · simp [same, Option.filter_some]
      · have above : query < key row := lt_of_le_of_ne (lower row rfl) (Ne.symm same)
        have absent : findKey key query tail = none := by
          rw [find_key_none]
          intro other member
          exact ne_of_gt (lt_trans above ((List.pairwise_cons.mp ascending).1 other member))
        simp [same, absent, Option.filter_some]

theorem drop_key_above (query : K) (run : List R) (ascending : Ascending key run)
    (lower : ∀ row, run.head? = some row → query ≤ key row) : ∀ row ∈ dropKey key query run, query < key row := by
  cases run with
  | nil => simp [dropKey]
  | cons head tail =>
      have below := (List.pairwise_cons.mp ascending).1
      by_cases same : key head = query
      · rw [dropKey, if_pos same, ← same]
        exact below
      · rw [dropKey, if_neg same]
        have above : query < key head := lt_of_le_of_ne (lower head rfl) (Ne.symm same)
        intro row member
        rcases List.mem_cons.mp member with eq | later
        · rw [eq]
          exact above
        · exact lt_trans above (below row later)

theorem drop_key_length (query : K) (run : List R) : (dropKey key query run).length ≤ run.length := by
  cases run with
  | nil => exact le_refl _
  | cons row tail =>
      by_cases same : key row = query
      · simp [dropKey, same]
      · simp [dropKey, same]

theorem drop_key_count (query : K) (runs : List (List R)) :
    rowCount (runs.map (dropKey key query)) ≤ rowCount runs := by
  induction runs with
  | nil => exact le_refl _
  | cons run rest ih =>
      have here := drop_key_length key query run
      simp only [rowCount, List.map_cons, List.flatten_cons, List.length_append] at ih ⊢
      omega

theorem round_consumes (query : K) (runs : List (List R))
    (present : ∃ run ∈ runs, ∃ row, run.head? = some row ∧ key row = query) :
    rowCount (runs.map (dropKey key query)) < rowCount runs := by
  induction runs with
  | nil => simp at present
  | cons run rest ih =>
      have restLe := drop_key_count key query rest
      have headLe := drop_key_length key query run
      obtain ⟨found, member, row, at_head, keyEq⟩ := present
      simp only [rowCount, List.map_cons, List.flatten_cons, List.length_append] at restLe ⊢
      rcases List.mem_cons.mp member with same | later
      · subst same
        cases found with
        | nil => simp at at_head
        | cons first tail =>
            cases at_head
            rw [dropKey, if_pos keyEq, List.length_cons]
            omega
      · have smaller := ih ⟨found, later, row, at_head, keyEq⟩
        simp only [rowCount] at smaller
        omega

theorem first_match_congr (query : K) (left right : List (List R))
    (same : List.Forall₂ (fun a b => findKey key query a = findKey key query b) left right) :
    firstMatch key query left = firstMatch key query right := by
  induction same with
  | nil => rfl
  | cons agree _ ih => rw [first_match_cons, first_match_cons, agree, ih]

theorem first_match_drop (query other : K) (runs : List (List R)) (different : other ≠ query) :
    firstMatch key other (runs.map (dropKey key query)) = firstMatch key other runs := by
  apply first_match_congr
  rw [List.forall₂_map_left_iff, List.forall₂_same]
  exact fun run _ => drop_key_keeps key query other run different

theorem newest_is_first_match (query : K) (runs : List (List R)) (ascending : ∀ run ∈ runs, Ascending key run)
    (lower : ∀ run ∈ runs, ∀ row, run.head? = some row → query ≤ key row) :
    newestAt key List.head? query runs = firstMatch key query runs := by
  induction runs with
  | nil => rfl
  | cons run rest ih =>
      have tail := ih (fun other member => ascending other (by simp [member]))
        (fun other member => lower other (by simp [member]))
      have here := find_at_head key query run (ascending run (by simp)) (lower run (by simp))
      rw [first_match_cons, here, ← tail]
      cases hit : run.head?.filter (fun row => decide (key row = query)) <;> simp [newestAt, hit]

theorem union_spec (fuel : Nat) (runs : List (List R)) (ascending : ∀ run ∈ runs, Ascending key run)
    (enough : rowCount runs ≤ fuel) :
    Ascending key (union key fuel runs) ∧
    ∀ query, findKey key query (union key fuel runs) = firstMatch key query runs := by
  induction fuel generalizing runs with
  | zero =>
      refine ⟨List.Pairwise.nil, fun query => ?_⟩
      symm
      rw [union, find_key_none _ _ _ |>.mpr (by simp), first_match_none]
      intro run member row inside
      have none := List.eq_nil_of_length_eq_zero (Nat.le_zero.mp enough)
      have present : row ∈ runs.flatten := List.mem_flatten.mpr ⟨run, member, inside⟩
      simp [none] at present
  | succ fuel ih =>
      rw [union]
      cases least : minKey key List.head? runs with
      | none =>
          have noHead := (min_key_none key List.head? runs).mp least
          refine ⟨List.Pairwise.nil, fun query => ?_⟩
          symm
          rw [find_key_none _ _ _ |>.mpr (by simp), first_match_none]
          intro run member row inside
          have empty := List.head?_eq_none_iff.mp (noHead run member)
          simp [empty] at inside
      | some low =>
          obtain ⟨present, lower⟩ := min_key_some key List.head? runs low least
          obtain ⟨row, found⟩ := newest_at_present key List.head? low runs present
          have rowKey := (newest_at_some key List.head? low runs row found).2
          have smaller := round_consumes key low runs present
          obtain ⟨restAscending, restFind⟩ := ih (runs.map (dropKey key low))
            (by simpa using fun run member => ascending_drop_key key low run (ascending run member)) (by omega)
          simp only [found]
          have above : ∀ other ∈ union key fuel (runs.map (dropKey key low)), low < key other := by
            intro other member
            have hit := restFind (key other)
            rw [ascending_find key _ restAscending other member] at hit
            obtain ⟨run, inRuns, inRun, _⟩ := first_match_some key _ _ _ hit.symm
            obtain ⟨original, inOriginal, rfl⟩ := List.mem_map.mp inRuns
            exact drop_key_above key low original (ascending original inOriginal)
              (lower original inOriginal) other inRun
          refine ⟨List.pairwise_cons.mpr ⟨fun other member => by rw [rowKey]; exact above other member, restAscending⟩,
            ?_⟩
          intro query
          rw [find_key_cons]
          by_cases same : key row = query
          · rw [if_pos same, ← same, rowKey, ← newest_is_first_match key low runs ascending lower, found]
          · rw [if_neg same, restFind, first_match_drop key low query runs (fun eq => same (rowKey.trans eq.symm))]

-- A cursor stands for the rows it has not yet delivered.
structure CursorModel (head : C → Option R) (next : C → Except E C) (rep : C → List R → Prop) : Prop where
  atHead : ∀ cursor run, rep cursor run → head cursor = run.head?
  onNext : ∀ cursor row run, rep cursor (row :: run) → ∃ moved, next cursor = .ok moved ∧ rep moved run

theorem min_key_congr {C' : Type} (head : C → Option R) (head' : C' → Option R) (left : List C) (right : List C')
    (same : List.Forall₂ (fun a b => head a = head' b) left right) : minKey key head left = minKey key head' right := by
  have general : ∀ best, minKeyFrom key head best left = minKeyFrom key head' best right := by
    induction same with
    | nil => intro best; rfl
    | cons agree _ ih =>
        intro best
        simp only [minKeyFrom, List.foldl_cons, agree] at ih ⊢
        exact ih _
  exact general none

theorem newest_at_congr {C' : Type} (head : C → Option R) (head' : C' → Option R) (query : K) (left : List C)
    (right : List C') (same : List.Forall₂ (fun a b => head a = head' b) left right) :
    newestAt key head query left = newestAt key head' query right := by
  induction same with
  | nil => rfl
  | cons agree _ ih =>
      simp only [newestAt, List.findSome?_cons, agree] at ih ⊢
      rw [ih]

theorem advance_all (head : C → Option R) (next : C → Except E C) (rep : C → List R → Prop)
    (model : CursorModel head next rep) (query : K) (cursors : List C) (runs : List (List R))
    (represent : List.Forall₂ rep cursors runs) :
    ∃ moved, cursors.mapM (advance key head next query) = .ok moved ∧
      List.Forall₂ rep moved (runs.map (dropKey key query)) := by
  induction represent with
  | nil => exact ⟨[], rfl, .nil⟩
  | @cons cursor run cursors runs here _ ih =>
      obtain ⟨rest, restEq, restRep⟩ := ih
      have step : ∃ moved, advance key head next query cursor = .ok moved ∧ rep moved (dropKey key query run) := by
        have atHead := model.atHead cursor run here
        cases run with
        | nil => exact ⟨cursor, by simp [advance, atHead], here⟩
        | cons row tail =>
            by_cases same : key row = query
            · obtain ⟨moved, nextEq, movedRep⟩ := model.onNext cursor row tail here
              exact ⟨moved, by simp [advance, atHead, same, nextEq], by simpa [dropKey, same] using movedRep⟩
            · exact ⟨cursor, by simp [advance, atHead, same], by simpa [dropKey, same] using here⟩
      obtain ⟨moved, movedEq, movedRep⟩ := step
      refine ⟨moved :: rest, ?_, .cons movedRep restRep⟩
      rw [List.mapM_cons, movedEq, restEq]
      rfl

-- Whatever the cursors are, the loop emits the newest-wins union of the runs
-- they stand for, row by row.
theorem kway_merge_union (head : C → Option R) (next : C → Except E C) (rep : C → List R → Prop)
    (model : CursorModel head next rep) (emit : R → Except E (Option O)) (out : R → Option O) (fuel : Nat)
    (cursors : List C) (runs : List (List R)) (represent : List.Forall₂ rep cursors runs)
    (emits : ∀ run ∈ runs, ∀ row ∈ run, emit row = .ok (out row)) :
    kwayMerge key head next emit fuel cursors = .ok ((union key fuel runs).filterMap out) := by
  induction fuel generalizing cursors runs with
  | zero => rfl
  | succ fuel ih =>
      have heads : List.Forall₂ (fun cursor run => head cursor = List.head? run) cursors runs :=
        represent.imp (fun cursor run here => model.atHead cursor run here)
      rw [kwayMerge, union, min_key_congr key head List.head? cursors runs heads]
      cases least : minKey key List.head? runs with
      | none => rfl
      | some low =>
          simp only
          rw [newest_at_congr key head List.head? low cursors runs heads]
          cases found : newestAt key List.head? low runs with
          | none => rfl
          | some row =>
              obtain ⟨⟨run, member, atHead⟩, _⟩ := newest_at_some key List.head? low runs row found
              have emitted := emits run member row (List.mem_of_mem_head? atHead)
              obtain ⟨moved, movedEq, movedRep⟩ := advance_all key head next rep model low cursors runs represent
              have rest := ih moved (runs.map (dropKey key low)) movedRep (by
                intro other inRuns other' inRun
                obtain ⟨original, inOriginal, rfl⟩ := List.mem_map.mp inRuns
                refine emits original inOriginal other' ?_
                cases original with
                | nil => exact inRun
                | cons first tail =>
                    by_cases same : key first = low
                    · rw [dropKey, if_pos same] at inRun
                      simp [inRun]
                    · rwa [dropKey, if_neg same] at inRun)
              simp only [emitted, movedEq, bind, Except.bind, pure, Except.pure, rest]
              cases outEq : out row <;> simp [outEq]

end Merge

theorem range_filter_map {A : Type} (items : List A) (i count : Nat) (inside : i + count ≤ items.length) :
    (List.range' i count).filterMap (fun n => items[n]?) = (items.drop i).take count := by
  induction count generalizing i with
  | zero => simp
  | succ count ih =>
      have bound : i < items.length := by omega
      rw [List.range'_succ, List.filterMap_cons, List.getElem?_eq_getElem bound, ih (i + 1) (by omega),
        List.drop_eq_getElem_cons bound, List.take_succ_cons]

theorem segment_split {A : Type} (items : List A) (i count : Nat) :
    items = items.take i ++ (items.drop i).take count ++ items.drop (i + count) := by
  rw [List.append_assoc, ← List.drop_drop, List.take_append_drop, List.take_append_drop]

section Listing

variable {K R V : Type} [LinearOrder K] (key : R → K)

-- The values of the rows' keys, listed in the order of the keys.
theorem ascending_listing (rows : List R) (ascending : Ascending key rows) (value : K → Option V)
    (out : R → Option (K × V)) (outs : ∀ row ∈ rows, out row = (value (key row)).map (fun v => (key row, v))) :
    (rows.filterMap out).Pairwise (fun a b => a.1 < b.1) ∧
      ∀ query v, (query, v) ∈ rows.filterMap out ↔ findKey key query rows ≠ none ∧ value query = some v := by
  have keys : ∀ row ∈ rows, ∀ pair, out row = some pair → pair.1 = key row ∧ value (key row) = some pair.2 := by
    intro row member pair shown
    rw [outs row member] at shown
    obtain ⟨v, there, rfl⟩ := Option.map_eq_some_iff.mp shown
    exact ⟨rfl, there⟩
  refine ⟨?_, fun query v => ?_⟩
  · rw [List.pairwise_filterMap]
    refine List.Pairwise.imp_of_mem ?_ ascending
    intro a b inA inB less first outA second outB
    rw [(keys a inA first outA).1, (keys b inB second outB).1]
    exact less
  · rw [List.mem_filterMap]
    constructor
    · rintro ⟨row, member, shown⟩
      obtain ⟨same, there⟩ := keys row member _ shown
      rw [show query = key row from same]
      exact ⟨by rw [ascending_find key rows ascending row member]; simp, there⟩
    · rintro ⟨present, there⟩
      obtain ⟨row, found⟩ := Option.ne_none_iff_exists'.mp present
      obtain ⟨member, same⟩ := find_key_some key query rows row found
      exact ⟨row, member, by rw [outs row member, same, there]; rfl⟩

end Listing

section Greatest

variable {A B : Type} [LE B] [Max B] (weight : A → B) (refl : ∀ b : B, b ≤ b)
    (trans : ∀ a b c : B, a ≤ b → b ≤ c → a ≤ c)
variable (upper : ∀ a b : B, a ≤ max a b ∧ b ≤ max a b) (chooses : ∀ a b : B, max a b = a ∨ max a b = b)

include refl trans upper chooses in
-- The greatest weight, by a loop over the entries.
theorem foldl_max_spec (entries : List A) (start : B) :
    start ≤ entries.foldl (fun m entry => max m (weight entry)) start ∧
      (∀ entry ∈ entries, weight entry ≤ entries.foldl (fun m entry => max m (weight entry)) start) ∧
      (entries.foldl (fun m entry => max m (weight entry)) start = start ∨
        ∃ entry ∈ entries, weight entry = entries.foldl (fun m entry => max m (weight entry)) start) := by
  induction entries generalizing start with
  | nil => exact ⟨refl start, List.forall_mem_nil _, .inl rfl⟩
  | cons entry rest ih =>
      obtain ⟨low, all, attained⟩ := ih (max start (weight entry))
      obtain ⟨left, right⟩ := upper start (weight entry)
      rw [List.foldl_cons]
      refine ⟨trans _ _ _ left low, List.forall_mem_cons.mpr ⟨trans _ _ _ right low, all⟩, ?_⟩
      rcases attained with same | ⟨other, inside, same⟩
      · rw [same]
        exact (chooses start (weight entry)).imp id (fun this => ⟨entry, by simp, this.symm⟩)
      · exact .inr ⟨other, by simp [inside], same⟩

include refl trans upper chooses in
theorem foldl_max_attained (entries : List A) (start : B) (least : ∀ b : B, b ≤ start → b = start)
    (nonempty : entries ≠ []) :
    ∃ entry ∈ entries, weight entry = entries.foldl (fun m entry => max m (weight entry)) start := by
  obtain ⟨_, all, same | there⟩ := foldl_max_spec weight refl trans upper chooses entries start
  · obtain ⟨entry, member⟩ := List.exists_mem_of_ne_nil entries nonempty
    have below := all entry member
    rw [same] at below ⊢
    exact ⟨entry, member, least _ below⟩
  · exact there

end Greatest

end Tombstash
