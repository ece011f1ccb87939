import Tombstash.Interleave

set_option autoImplicit false

namespace Tombstash

theorem cast_int_le (n : Nat) : castInt n ≤ n := by
  unfold castInt
  rw [Int.bmod_def]
  omega

theorem cast_int_range (n : Nat) : castInt n ≤ intMax := by
  unfold intMax castInt
  rw [Int.bmod_def]
  omega

theorem cast_int_small (n : Nat) (small : (n : Int) ≤ intMax) : castInt n = n := by
  unfold intMax at small
  unfold castInt
  rw [Int.bmod_def]
  omega

theorem over_budget_filled (cfg : Config) (tables : List Table) (level : Int)
    (above : overBudget cfg tables level = true) :
    atLevel tables level ≠ [] := by
  intro empty
  have more := of_decide_eq_true above
  rw [levelBytes, empty] at more
  exact absurd more (Nat.not_lt_zero _)

theorem source_tables_some (tables : List Table) (level : Int) (filled : atLevel tables level ≠ []) :
    ∃ first rest, sourceTables tables level = some (first, rest) := by
  rw [sourceTables]
  cases at_ : atLevel tables level with
  | nil => exact absurd at_ filled
  | cons first rest =>
      by_cases zero : level = 0
      · exact ⟨first, rest, by simp only [if_pos zero]⟩
      · exact ⟨minTable first rest, [], by simp only [if_neg zero]⟩

theorem source_level_some (cfg : Config) (tables : List Table) (source : Int)
    (chosen : sourceLevel cfg tables = some source) :
    source = 0 ∧ castInt cfg.minMerge ≤ castInt (atLevel tables 0).length ∨
      1 ≤ source ∧ overBudget cfg tables source = true := by
  rw [sourceLevel] at chosen
  split at chosen
  · rename_i many
    cases chosen
    exact .inl ⟨rfl, many⟩
  · obtain ⟨n, inside, rfl⟩ := List.mem_map.mp (List.mem_of_find?_eq_some chosen)
    have low := (List.mem_range'_1.mp inside).1
    exact .inr ⟨by omega, List.find?_some chosen⟩

theorem source_level_enough (cfg : Config) (high : (cfg.minMerge : Int) ≤ intMax) (tables : List Table)
    (chosen : sourceLevel cfg tables = some 0) : cfg.minMerge ≤ (atLevel tables 0).length := by
  rcases source_level_some cfg tables 0 chosen with ⟨_, many⟩ | ⟨deep, _⟩
  · have count := cast_int_le (atLevel tables 0).length
    rw [cast_int_small cfg.minMerge high] at many
    omega
  · exact absurd deep (by decide)

-- Level 0 is taken only with a count that is at least one, a deeper level only
-- with some bytes.
theorem source_level_filled (cfg : Config) (low : 1 ≤ cfg.minMerge) (high : (cfg.minMerge : Int) ≤ intMax)
    (tables : List Table) (source : Int) (chosen : sourceLevel cfg tables = some source) :
    ∃ first rest, sourceTables tables source = some (first, rest) := by
  refine source_tables_some tables source (fun empty => ?_)
  rcases source_level_some cfg tables source chosen with ⟨rfl, _⟩ | ⟨_, above⟩
  · have enough := source_level_enough cfg high tables chosen
    rw [empty] at enough
    exact absurd (le_trans low enough) (by decide)
  · exact over_budget_filled cfg tables source above empty

-- For any tables at all, reachable or not.
theorem selection_never_empty (cfg : Config) (low : 1 ≤ cfg.minMerge) (high : (cfg.minMerge : Int) ≤ intMax) (db : DB) :
    leveledPending cfg db.sstables = true → ∀ source, sourceLevel cfg db.sstables = some source →
      (∃ first rest, sourceTables db.sstables source = some (first, rest)) ∧
        (source = 0 → cfg.minMerge ≤ (atLevel db.sstables 0).length) := by
  intro _ source chosen
  refine ⟨source_level_filled cfg low high db.sstables source chosen, ?_⟩
  rintro rfl
  exact source_level_enough cfg high db.sstables chosen

-- Where min_merge is 0 or past INT_MAX the cast is smaller than the count that
-- is asked for, so level 0 is taken too early: by a fresh store already unless
-- the cast is above zero.
theorem outside_selects_early (cfg : Config) (outside : cfg.minMerge = 0 ∨ intMax < (cfg.minMerge : Int)) (db : DB)
    (count : (atLevel db.sstables 0).length = (castInt cfg.minMerge).toNat) :
    sourceLevel cfg db.sstables = some 0 ∧
      (atLevel db.sstables 0 = [] ∨ (atLevel db.sstables 0).length < cfg.minMerge) := by
  have range := cast_int_range cfg.minMerge
  have positive : 0 ≤ intMax := by decide
  have small : castInt (atLevel db.sstables 0).length = (atLevel db.sstables 0).length :=
    cast_int_small _ (by rw [count]; omega)
  refine ⟨if_pos (by rw [small, count]; omega), ?_⟩
  rcases outside with zero | large
  · left
    rw [← List.length_eq_zero_iff, count, zero]
    rfl
  · right
    have := cast_int_le cfg.minMerge
    omega

def leveledStore (minMerge : Nat) : Config := { smallStore 1000 1000 with leveled := true, minMerge := minMerge }

-- min_merge = 0: the constructor's own state is pending, and level 0 is the
-- source though it holds no table.
theorem empty_level_selected :
    run (leveledStore 0) DB.fresh [] = some DB.fresh ∧ leveledPending (leveledStore 0) DB.fresh.sstables = true ∧
      sourceLevel (leveledStore 0) DB.fresh.sstables = some 0 ∧ atLevel DB.fresh.sstables 0 = [] := by
  refine ⟨rfl, by decide, by decide, rfl⟩

def twoFlushes : List Label := [.put [1] [2] false, .flush, .put [2] [3] false, .flush]

theorem two_tables_selected :
    ∃ db, run (leveledStore 2) DB.fresh twoFlushes = some db ∧ sourceLevel (leveledStore 2) db.sstables = some 0 ∧
      ∃ first rest, sourceTables db.sstables 0 = some (first, rest) := by
  have reached : ((run (leveledStore 2) DB.fresh twoFlushes).map (fun db =>
      (leveledPending (leveledStore 2) db.sstables, sourceLevel (leveledStore 2) db.sstables))) =
        some (true, some 0) := by
    decide +kernel
  obtain ⟨db, here, seen⟩ := Option.map_eq_some_iff.mp reached
  obtain ⟨pending, source⟩ := Prod.mk.inj seen
  exact ⟨db, here, source, (selection_never_empty (leveledStore 2) (by decide) (by decide) db pending 0 source).1⟩

end Tombstash
