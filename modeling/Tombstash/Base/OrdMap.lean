import Tombstash.Base.Runs

set_option autoImplicit false

namespace Tombstash

variable {K V : Type} [LinearOrder K]

-- A std::map: association pairs in strictly ascending key order.
structure OrdMap (K V : Type) [LinearOrder K] where
  entries : List (K × V)
  ascending : Ascending Prod.fst entries

def insertEntry (key : K) (value : V) : List (K × V) → List (K × V)
  | [] => [(key, value)]
  | entry :: tail =>
      if key < entry.1 then (key, value) :: entry :: tail
      else if key = entry.1 then (key, value) :: tail
      else entry :: insertEntry key value tail

theorem insert_entry_above (key lower : K) (value : V) (entries : List (K × V)) (less : lower < key)
    (above : ∀ entry ∈ entries, lower < entry.1) : ∀ entry ∈ insertEntry key value entries, lower < entry.1 := by
  induction entries with
  | nil => simpa [insertEntry] using less
  | cons head tail ih =>
      have rest := ih (fun entry member => above entry (by simp [member]))
      intro entry member
      rw [insertEntry] at member
      split at member
      · rcases List.mem_cons.mp member with same | later
        · rw [same]
          exact less
        · exact above entry later
      · split at member
        · rcases List.mem_cons.mp member with same | later
          · rw [same]
            exact less
          · exact above entry (by simp [later])
        · rcases List.mem_cons.mp member with same | later
          · exact above entry (by simp [same])
          · exact rest entry later

theorem insert_entry_ascending (key : K) (value : V) (entries : List (K × V))
    (ascending : Ascending Prod.fst entries) : Ascending Prod.fst (insertEntry key value entries) := by
  induction entries with
  | nil => exact List.pairwise_singleton _ _
  | cons head tail ih =>
      obtain ⟨below, rest⟩ := List.pairwise_cons.mp ascending
      rw [insertEntry]
      by_cases less : key < head.1
      · rw [if_pos less]
        refine List.pairwise_cons.mpr ⟨?_, ascending⟩
        intro entry member
        rcases List.mem_cons.mp member with same | later
        · rw [same]
          exact less
        · exact lt_trans less (below entry later)
      · by_cases same : key = head.1
        · rw [if_neg less, if_pos same]
          exact List.pairwise_cons.mpr ⟨fun entry member => by simpa [same] using below entry member, rest⟩
        · rw [if_neg less, if_neg same]
          have above : head.1 < key := lt_of_le_of_ne (not_lt.mp less) (Ne.symm same)
          exact List.pairwise_cons.mpr ⟨insert_entry_above key head.1 value tail above below, ih rest⟩

theorem find_insert_entry (key query : K) (value : V) (entries : List (K × V)) :
    findKey Prod.fst query (insertEntry key value entries) =
      if key = query then some (key, value) else findKey Prod.fst query entries := by
  induction entries with
  | nil => simp [insertEntry, find_key_cons]
  | cons head tail ih =>
      rw [insertEntry]
      by_cases less : key < head.1
      · simp only [if_pos less, find_key_cons]
      · by_cases same : key = head.1
        · rw [if_neg less, if_pos same, find_key_cons]
          by_cases hit : key = query
          · rw [if_pos hit, if_pos hit]
          · rw [if_neg hit, if_neg hit, find_key_cons, if_neg (fun eq => hit (same.trans eq))]
        · rw [if_neg less, if_neg same, find_key_cons, ih, find_key_cons]
          by_cases hit : key = query
          · rw [if_pos hit, if_neg (fun eq => same (hit.trans eq.symm)), if_pos hit]
          · rw [if_neg hit, if_neg hit]

def OrdMap.empty : OrdMap K V := ⟨[], List.Pairwise.nil⟩

def OrdMap.find (map : OrdMap K V) (query : K) : Option V := (findKey Prod.fst query map.entries).map Prod.snd

def OrdMap.insert (map : OrdMap K V) (key : K) (value : V) : OrdMap K V :=
  ⟨insertEntry key value map.entries, insert_entry_ascending key value map.entries map.ascending⟩

theorem OrdMap.find_insert (map : OrdMap K V) (key query : K) (value : V) :
    (map.insert key value).find query = if key = query then some value else map.find query := by
  simp only [OrdMap.find, OrdMap.insert, find_insert_entry]
  by_cases hit : key = query <;> simp [hit]

theorem OrdMap.find_some_iff (map : OrdMap K V) (query : K) (value : V) :
    map.find query = some value ↔ (query, value) ∈ map.entries := by
  constructor
  · intro found
    obtain ⟨entry, hit, rfl⟩ := Option.map_eq_some_iff.mp found
    obtain ⟨member, rfl⟩ := find_key_some Prod.fst query map.entries entry hit
    exact member
  · intro member
    have hit := ascending_find Prod.fst map.entries map.ascending (query, value) member
    simp only [OrdMap.find, hit, Option.map_some]

def OrdMap.total (weight : K → V → Nat) (map : OrdMap K V) : Nat :=
  (map.entries.map (fun entry => weight entry.1 entry.2)).sum

theorem insert_entry_new (key : K) (value : V) (entries : List (K × V)) (weight : K × V → Nat)
    (absent : ∀ entry ∈ entries, entry.1 ≠ key) :
    ((insertEntry key value entries).map weight).sum = (entries.map weight).sum + weight (key, value) := by
  induction entries with
  | nil => simp [insertEntry]
  | cons head tail ih =>
      rw [insertEntry, if_neg (Ne.symm (absent head (by simp)))]
      by_cases less : key < head.1
      · rw [if_pos less]
        simp only [List.map_cons, List.sum_cons]
        omega
      · rw [if_neg less]
        simp only [List.map_cons, List.sum_cons, ih (fun entry member => absent entry (by simp [member]))]
        omega

theorem insert_entry_old (key : K) (value old : V) (entries : List (K × V)) (weight : K × V → Nat)
    (ascending : Ascending Prod.fst entries) (present : (key, old) ∈ entries) :
    ((insertEntry key value entries).map weight).sum + weight (key, old) =
      (entries.map weight).sum + weight (key, value) := by
  induction entries with
  | nil => simp at present
  | cons head tail ih =>
      obtain ⟨below, rest⟩ := List.pairwise_cons.mp ascending
      rw [insertEntry]
      rcases List.mem_cons.mp present with same | later
      · subst same
        rw [if_neg (lt_irrefl _), if_pos rfl]
        simp only [List.map_cons, List.sum_cons]
        omega
      · have less : head.1 < key := below (key, old) later
        rw [if_neg (not_lt_of_gt less), if_neg (ne_of_gt less)]
        have tailSum := ih rest later
        simp only [List.map_cons, List.sum_cons]
        omega

theorem OrdMap.total_insert_new (map : OrdMap K V) (key : K) (value : V) (weight : K → V → Nat)
    (absent : map.find key = none) : (map.insert key value).total weight = map.total weight + weight key value := by
  refine insert_entry_new key value map.entries (fun entry => weight entry.1 entry.2) ?_
  rintro ⟨other, held⟩ member rfl
  have found := (OrdMap.find_some_iff map other held).mpr member
  rw [absent] at found
  cases found

theorem OrdMap.total_insert_old (map : OrdMap K V) (key : K) (value old : V) (weight : K → V → Nat)
    (present : map.find key = some old) :
    (map.insert key value).total weight + weight key old = map.total weight + weight key value :=
  insert_entry_old key value old map.entries (fun entry => weight entry.1 entry.2) map.ascending
    ((OrdMap.find_some_iff map key old).mp present)

theorem OrdMap.weight_le_total (map : OrdMap K V) (key : K) (value : V) (weight : K → V → Nat)
    (present : map.find key = some value) : weight key value ≤ map.total weight := by
  obtain ⟨front, back, split⟩ := List.append_of_mem ((OrdMap.find_some_iff map key value).mp present)
  rw [OrdMap.total, split]
  simp only [List.map_append, List.map_cons, List.sum_append, List.sum_cons]
  omega

end Tombstash
