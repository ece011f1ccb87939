import Tombstash.Numbers

set_option autoImplicit false

namespace Tombstash

-- The order in which leveled compaction expects to find its tables.
def LevelOrder (tables : List Table) : Prop := (∀ table ∈ tables, table.level = 0) ∨ tables.Pairwise LevelBefore

-- Levels that a MANIFEST can hold; only level 0 has empty tables.
structure LevelFits (table : Table) : Prop where
  low : 0 ≤ table.level
  high : table.level ≤ intMax
  filled : table.level ≠ 0 → table.sst.records ≠ []

theorem level_order_levels (tables : List Table) (order : LevelOrder tables) :
    tables.Pairwise (fun a b => a.level ≤ b.level) := by
  rcases order with flat | ordered
  · refine List.pairwise_of_forall_mem_list (fun a inA b inB => ?_)
    rw [flat a inA, flat b inB]
  · refine ordered.imp (fun {a b} before => ?_)
    rcases before with less | ⟨same, _⟩
    · exact le_of_lt less
    · exact le_of_eq same

theorem shallower_before (tables : List Table) (order : LevelOrder tables) (a b : Table) (inA : a ∈ tables)
    (inB : b ∈ tables) (less : a.level < b.level) : Before tables a b := by
  have different : a ≠ b := fun same => by
    rw [same] at less
    exact lt_irrefl _ less
  rcases before_total tables a b inA inB different with before | before
  · exact before
  · have wrong := pairwise_before _ tables (level_order_levels tables order) b a before
    omega

def RangesApart (a b : Table) : Prop := a.sst.maxKey < b.sst.minKey ∨ b.sst.maxKey < a.sst.minKey

-- Tables that share a level past the first have no key range in common.
def LevelApart (a b : Table) : Prop := a.level = b.level → a.level ≠ 0 → RangesApart a b

theorem ranges_apart_symm (a b : Table) (apart : RangesApart a b) : RangesApart b a := Or.symm apart

instance : Std.Symm LevelApart :=
  ⟨fun a b apart same deep => ranges_apart_symm a b (apart same.symm (same ▸ deep))⟩

theorem level_order_apart (tables : List Table) (order : LevelOrder tables) : tables.Pairwise LevelApart := by
  rcases order with flat | ordered
  · exact List.pairwise_of_forall_mem_list (fun a inA b _ _ deep => absurd (flat a inA) deep)
  · refine ordered.imp (fun {a b} before same deep => ?_)
    rcases before with less | ⟨_, less⟩
    · exact absurd same (ne_of_lt less)
    · rw [if_neg deep] at less
      exact .inl less

theorem ranges_apart_keys (a b : Table) (formedA : a.sst.WellFormed) (formedB : b.sst.WellFormed)
    (apart : RangesApart a b) (key : Bytes) (hasA : HasKey a key) (hasB : HasKey b key) : False := by
  have rangeA := has_key_range a formedA key hasA
  have rangeB := has_key_range b formedB key hasB
  rcases apart with before | after
  · exact absurd (lt_of_le_of_lt rangeA.2 (lt_of_lt_of_le before rangeB.1)) (lt_irrefl key)
  · exact absurd (lt_of_le_of_lt rangeB.2 (lt_of_lt_of_le after rangeA.1)) (lt_irrefl key)

theorem low_key_le (first : Table) (rest : List Table) (table : Table) (member : table ∈ first :: rest) :
    lowKey first rest ≤ table.sst.minKey := by
  have fold : ∀ (tables : List Table) (lo : Bytes),
      let low := tables.foldl (fun lo table => if table.sst.minKey < lo then table.sst.minKey else lo) lo
      low ≤ lo ∧ ∀ table ∈ tables, low ≤ table.sst.minKey := by
    intro tables
    induction tables with
    | nil => intro lo; simp
    | cons head tail ih =>
        intro lo
        simp only [List.foldl_cons]
        by_cases less : head.sst.minKey < lo
        · rw [if_pos less]
          obtain ⟨below, all⟩ := ih head.sst.minKey
          exact ⟨le_trans below (le_of_lt less), List.forall_mem_cons.mpr ⟨below, all⟩⟩
        · rw [if_neg less]
          obtain ⟨below, all⟩ := ih lo
          exact ⟨below, List.forall_mem_cons.mpr ⟨le_trans below (not_lt.mp less), all⟩⟩
  exact (fold (first :: rest) first.sst.minKey).2 table member

theorem le_high_key (first : Table) (rest : List Table) (table : Table) (member : table ∈ first :: rest) :
    table.sst.maxKey ≤ highKey first rest := by
  have fold : ∀ (tables : List Table) (hi : Bytes),
      let high := tables.foldl (fun hi table => if hi < table.sst.maxKey then table.sst.maxKey else hi) hi
      hi ≤ high ∧ ∀ table ∈ tables, table.sst.maxKey ≤ high := by
    intro tables
    induction tables with
    | nil => intro hi; simp
    | cons head tail ih =>
        intro hi
        simp only [List.foldl_cons]
        by_cases less : hi < head.sst.maxKey
        · rw [if_pos less]
          obtain ⟨above, all⟩ := ih head.sst.maxKey
          exact ⟨le_trans (le_of_lt less) above, List.forall_mem_cons.mpr ⟨above, all⟩⟩
        · rw [if_neg less]
          obtain ⟨above, all⟩ := ih hi
          exact ⟨above, List.forall_mem_cons.mpr ⟨le_trans (not_lt.mp less) above, all⟩⟩
  exact (fold (first :: rest) first.sst.maxKey).2 table member

theorem max_level_ge (tables : List Table) (table : Table) (member : table ∈ tables) :
    table.level ≤ maxLevel tables := by
  have fold : ∀ (tables : List Table) (top : Int),
      let highest := tables.foldl (fun top table => max top table.level) top
      top ≤ highest ∧ ∀ table ∈ tables, table.level ≤ highest := by
    intro tables
    induction tables with
    | nil => intro top; simp
    | cons head tail ih =>
        intro top
        obtain ⟨above, all⟩ := ih (max top head.level)
        exact ⟨le_trans (le_max_left _ _) above, List.forall_mem_cons.mpr ⟨le_trans (le_max_right _ _) above, all⟩⟩
  exact (fold tables 0).2 table member

theorem levels_sublist (tables : List Table) (levels : tables.Pairwise (fun a b => a.level ≤ b.level)) (low high : Int)
    (less : low < high) : (atLevel tables low ++ atLevel tables high).Sublist tables := by
  induction tables with
  | nil => exact List.Sublist.refl _
  | cons table rest ih =>
      obtain ⟨below, ordered⟩ := List.pairwise_cons.mp levels
      have tail := ih ordered
      by_cases isLow : table.level = low
      · have notHigh : table.level ≠ high := by omega
        simp only [atLevel, List.filter_cons, isLow, decide_true, if_true, List.cons_append] at tail ⊢
        rw [if_neg (by simpa using (by omega : low ≠ high))]
        exact tail.cons_cons table
      · by_cases isHigh : table.level = high
        · have noLow : atLevel rest low = [] := by
            refine List.filter_eq_nil_iff.mpr (fun other member => ?_)
            have bound := below other member
            simp only [decide_eq_true_eq]
            omega
          have sub : (atLevel rest high).Sublist rest := List.filter_sublist
          simp only [atLevel, List.filter_cons, isHigh, decide_true, if_true]
          rw [if_neg (by simpa using (by omega : high ≠ low))]
          rw [show rest.filter (fun table => decide (table.level = low)) = [] from noLow, List.nil_append]
          exact sub.cons_cons table
        · simp only [atLevel, List.filter_cons, isLow, isHigh, decide_false, Bool.false_eq_true, if_false] at tail ⊢
          exact tail.cons table

section Pick

variable (tables : List Table) (pick : LeveledPick) (source : Int) (first : Table) (rest : List Table)
  (order : LevelOrder tables) (formed : ∀ table ∈ tables, table.sst.WellFormed)
  (choice : LeveledChoice tables pick source first rest)

include order choice in
theorem pick_sublist : pick.inputs.Sublist tables := by
  obtain ⟨members, all, single⟩ := source_tables_members tables source first rest choice.chosen
  have sources : (first :: rest).Sublist (atLevel tables source) := by
    by_cases zero : source = 0
    · rw [all zero, zero]
    · rw [single zero, List.singleton_sublist]
      exact (mem_at_level tables source first).mpr (members first (by simp))
  rw [choice.inputs]
  exact (sources.append List.filter_sublist).trans
    (levels_sublist tables (level_order_levels tables order) source (source + 1) (by omega))

include order formed choice in
theorem pick_meets (table : Table) (inTables : table ∈ tables) (away : table.id ∉ tableIds pick.inputs) (input : Table)
    (inInputs : input ∈ pick.inputs) (key : Bytes) (hasTable : HasKey table key) (hasInput : HasKey input key) :
    (table.level < pick.destLevel ∧ Before tables table input) ∨
      (pick.destLevel < table.level ∧ pick.dropTombstones = false ∧ Before tables input table) := by
  obtain ⟨members, all, single⟩ := source_tables_members tables source first rest choice.chosen
  obtain ⟨_, inputLevels⟩ := leveled_choice_inputs tables pick source first rest choice
  obtain ⟨inputPresent, inputLevel⟩ := inputLevels input inInputs
  have different : table ≠ input := fun same => away (by rw [same]; exact List.mem_map_of_mem inInputs)
  have disjoint : table.level = input.level → table.level ≠ 0 → False := fun same deep =>
    ranges_apart_keys table input (formed table inTables) (formed input inputPresent)
      ((level_order_apart tables order).forall inTables inputPresent different same deep) key hasTable hasInput
  have nonneg := choice.nonneg
  rw [choice.dest]
  by_cases deeper : source + 1 < table.level
  · refine .inr ⟨deeper, ?_, shallower_before tables order input table inputPresent inTables (by omega)⟩
    rw [choice.drops, decide_eq_false_iff_not]
    have bound := max_level_ge tables table inTables
    omega
  · by_cases next : table.level = source + 1
    · -- A table of the next level outside the range of the sources.
      exfalso
      rcases inputLevel with atSource | atNext
      · apply away
        have isSource : input ∈ first :: rest := by
          rw [choice.inputs] at inInputs
          rcases List.mem_append.mp inInputs with inSource | inNext
          · exact inSource
          · have level := ((mem_at_level _ _ _).mp (List.mem_filter.mp inNext).1).2
            omega
        have rangeTable := has_key_range table (formed table inTables) key hasTable
        have rangeInput := has_key_range input (formed input inputPresent) key hasInput
        have low := le_trans (low_key_le first rest input isSource) rangeInput.1
        have high := le_trans rangeInput.2 (le_high_key first rest input isSource)
        have meets : overlaps (lowKey first rest) (highKey first rest) table = true := by
          simp only [overlaps, Bool.not_eq_true', Bool.or_eq_false_iff, decide_eq_false_iff_not, not_lt]
          exact ⟨le_trans low rangeTable.2, le_trans rangeTable.1 high⟩
        refine List.mem_map_of_mem ?_
        rw [choice.inputs]
        exact List.mem_append_right _
          (List.mem_filter.mpr ⟨(mem_at_level tables (source + 1) table).mpr ⟨inTables, next⟩, meets⟩)
      · exact disjoint (by omega) (by omega)
    · by_cases atSource : table.level = source
      · by_cases zero : source = 0
        · -- Level 0 is taken whole.
          exfalso
          apply away
          refine List.mem_map_of_mem ?_
          rw [choice.inputs, all zero]
          exact List.mem_append_left _ ((mem_at_level tables 0 table).mpr ⟨inTables, by omega⟩)
        · rcases inputLevel with same | deeperInput
          · exact (disjoint (by omega) (by omega)).elim
          · exact .inl ⟨by omega, shallower_before tables order table input inTables inputPresent (by omega)⟩
      · exact .inl ⟨by omega, shallower_before tables order table input inTables inputPresent (by omega)⟩

include formed choice in
theorem pick_clear (levels : tables.Pairwise LevelApart) (fits : ∀ table ∈ tables, LevelFits table) (table : Table)
    (inTables : table ∈ tables) (away : table.id ∉ tableIds pick.inputs) (level : table.level = pick.destLevel) :
    (∀ input ∈ pick.inputs, ∀ key, HasKey input key → key < table.sst.minKey) ∨
      (∀ input ∈ pick.inputs, ∀ key, HasKey input key → table.sst.maxKey < key) := by
  have nonneg := choice.nonneg
  rw [choice.dest] at level
  have split : ∀ input ∈ pick.inputs, input ∈ first :: rest ∨
      (input.level = source + 1 ∧ overlaps (lowKey first rest) (highKey first rest) input = true) := by
    intro input inside
    rw [choice.inputs] at inside
    rcases List.mem_append.mp inside with inSource | inNext
    · exact .inl inSource
    · obtain ⟨atNext, meets⟩ := List.mem_filter.mp inNext
      exact .inr ⟨((mem_at_level _ _ _).mp atNext).2, meets⟩
  have present := (leveled_choice_inputs tables pick source first rest choice).2
  have ordered : table.sst.minKey ≤ table.sst.maxKey := by
    obtain ⟨rec, member⟩ := List.exists_mem_of_ne_nil _ ((fits table inTables).filled (by omega))
    have range := has_key_range table (formed table inTables) rec.key ⟨rec, member, rfl⟩
    exact le_trans range.1 range.2
  have apart : ∀ input ∈ pick.inputs, input.level = source + 1 →
      input.sst.maxKey < table.sst.minKey ∨ table.sst.maxKey < input.sst.minKey := by
    intro input inside inputLevel
    have different : input ≠ table := fun same => away (by rw [← same]; exact List.mem_map_of_mem inside)
    exact levels.forall (present input inside).1 inTables different (by omega) (by omega)
  have missed : overlaps (lowKey first rest) (highKey first rest) table = false := by
    cases meets : overlaps (lowKey first rest) (highKey first rest) table with
    | false => rfl
    | true =>
        refine absurd (List.mem_map_of_mem ?_) away
        rw [choice.inputs]
        exact List.mem_append_right _
          (List.mem_filter.mpr ⟨(mem_at_level tables (source + 1) table).mpr ⟨inTables, level⟩, meets⟩)
  simp only [overlaps, Bool.not_eq_false', Bool.or_eq_true, decide_eq_true_eq] at missed
  rcases missed with left | right
  · refine .inr (fun input inside key has => ?_)
    have range := has_key_range input (formed input (present input inside).1) key has
    rcases split input inside with inSource | ⟨inputLevel, meets⟩
    · exact lt_of_lt_of_le left (le_trans (low_key_le first rest input inSource) range.1)
    · rcases apart input inside inputLevel with before | after
      · simp only [overlaps, Bool.not_eq_true', Bool.or_eq_false_iff, decide_eq_false_iff_not, not_lt] at meets
        have wrong := lt_of_le_of_lt (le_trans meets.1 (le_of_lt before)) (lt_of_le_of_lt ordered left)
        exact absurd wrong (lt_irrefl _)
      · exact lt_of_lt_of_le after range.1
  · refine .inl (fun input inside key has => ?_)
    have range := has_key_range input (formed input (present input inside).1) key has
    rcases split input inside with inSource | ⟨inputLevel, meets⟩
    · exact lt_of_le_of_lt (le_trans range.2 (le_high_key first rest input inSource)) right
    · rcases apart input inside inputLevel with before | after
      · exact lt_of_le_of_lt range.2 before
      · simp only [overlaps, Bool.not_eq_true', Bool.or_eq_false_iff, decide_eq_false_iff_not, not_lt] at meets
        have wrong := lt_of_lt_of_le (lt_of_le_of_lt ordered after) (le_trans meets.2 (le_of_lt right))
        exact absurd wrong (lt_irrefl _)

include order formed choice in
theorem pick_placed (fits : ∀ table ∈ tables, LevelFits table) :
    LeveledPlaced tables ⟨pick.inputs, pick.dropTombstones, pick.destLevel, true, [], none, none⟩ := by
  have nonneg := choice.nonneg
  have bounded := choice.bounded
  have dest := choice.dest
  refine ⟨pick_sublist tables pick source first rest order choice, ?_, ?_, ?_,
    pick_meets tables pick source first rest order formed choice,
    pick_clear tables pick source first rest formed choice (level_order_apart tables order) fits⟩
  · show 1 ≤ pick.destLevel
    omega
  · show pick.destLevel ≤ intMax
    omega
  · rcases order with flat | ordered
    · -- With one level only, all of it is taken.
      obtain ⟨members, all, _⟩ := source_tables_members tables source first rest choice.chosen
      have zero : source = 0 := by
        rw [← (members first (by simp)).2]
        exact flat first (members first (by simp)).1
      have gone : tables.filter (notAmong (tableIds pick.inputs)) = [] := by
        refine List.filter_eq_nil_iff.mpr (fun table member => ?_)
        simp only [notAmong, decide_eq_true_eq, not_not]
        refine List.mem_map_of_mem ?_
        rw [choice.inputs, all zero]
        exact List.mem_append_left _ ((mem_at_level tables 0 table).mpr ⟨member, flat table member⟩)
      rw [gone]
      exact List.Pairwise.nil
    · exact ordered.sublist List.filter_sublist

end Pick

end Tombstash
