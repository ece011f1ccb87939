import Tombstash.Interleave

set_option autoImplicit false

namespace Tombstash

-- What a get adds to stat_bloom_checks_, stat_bloom_skips_, stat_bloom_fps_ and
-- g_block_reads.
structure ReadCost where
  checks : Nat := 0
  skips : Nat := 0
  falsePositives : Nat := 0
  blockReads : Nat := 0
deriving DecidableEq, Repr

-- get_no_bloom counts the read of its candidate block.
def SSTable.blockReads (table : SSTable) (key : Bytes) : Nat :=
  if table.index.isEmpty then 0 else if table.upperBound key = 0 then 0 else 1

-- The unlocked loop of get, for what it counts.
def costTables (useBloom : Bool) (key : Bytes) : List Table → ReadCost → ReadCost
  | [], cost => cost
  | table :: rest, cost =>
      let cost := if useBloom then { cost with checks := cost.checks + 1 } else cost
      if useBloom && !table.sst.mayContain key then costTables useBloom key rest { cost with skips := cost.skips + 1 }
      else
        let cost := { cost with blockReads := cost.blockReads + table.sst.blockReads key }
        match table.sst.getNoBloom key with
        | .error _ => cost
        | .ok none =>
            costTables useBloom key rest
              (if useBloom then { cost with falsePositives := cost.falsePositives + 1 } else cost)
        | .ok (some _) => cost

def Lookup.cost (key : Bytes) : Lookup → ReadCost
  | .answered _ => {}
  | .search tables _ useBloom => costTables useBloom key tables {}

def DB.getCost (db : DB) (key : Bytes) : ReadCost := (getLocked db key).cost key

-- The tables that get looks at: those up to the first that has the key.
def holds (key : Bytes) (table : Table) : Bool := (findKey Record.key key table.sst.records).isSome

def consulted (key : Bytes) : List Table → List Table
  | [] => []
  | table :: rest => if holds key table then [table] else table :: consulted key rest

def skipped (key : Bytes) (table : Table) : Bool := !table.sst.mayContain key

def misses (key : Bytes) (table : Table) : Bool := table.sst.mayContain key && !holds key table

def readsOf (key : Bytes) (tables : List Table) : Nat := (tables.map (fun table => table.sst.blockReads key)).sum

theorem holds_may_contain (key : Bytes) (table : Table) (formed : table.sst.WellFormed)
    (there : holds key table = true) :
    table.sst.mayContain key = true := by
  obtain ⟨top, hit⟩ := Option.isSome_iff_exists.mp there
  obtain ⟨member, sameKey⟩ := find_key_some Record.key key _ top hit
  rw [← sameKey]
  exact formed.bloom top member

theorem get_no_bloom_holds (key : Bytes) (table : Table) (formed : table.sst.WellFormed) :
    ∃ found, table.sst.getNoBloom key = .ok found ∧ found.isSome = holds key table :=
  ⟨_, get_no_bloom_find _ _ formed key, rfl⟩

theorem filtered_cost (key : Bytes) (tables : List Table) (formed : ∀ table ∈ tables, table.sst.WellFormed)
    (cost : ReadCost) :
    costTables true key tables cost =
      { checks := cost.checks + (consulted key tables).length
        skips := cost.skips + (consulted key tables).countP (skipped key)
        falsePositives := cost.falsePositives + (consulted key tables).countP (misses key)
        blockReads :=
          cost.blockReads + readsOf key ((consulted key tables).filter (fun table => !skipped key table)) } := by
  induction tables generalizing cost with
  | nil => rfl
  | cons table rest ih =>
      obtain ⟨here, others⟩ := List.forall_mem_cons.mp formed
      obtain ⟨found, reads, same⟩ := get_no_bloom_holds key table here
      rw [costTables, consulted, reads]
      cases there : holds key table with
      | true =>
          have may := holds_may_contain key table here there
          rw [there] at same
          obtain ⟨rec, rfl⟩ := Option.isSome_iff_exists.mp same
          simp [may, there, skipped, misses, readsOf]
      | false =>
          rw [there, Option.isSome_eq_false_iff, Option.isNone_iff_eq_none] at same
          subst same
          cases may : table.sst.mayContain key with
          | true =>
              simp only [Bool.not_true, Bool.and_false, Bool.false_eq_true, if_false, if_true]
              rw [ih others]
              simp [may, there, skipped, misses, readsOf]
              omega
          | false =>
              simp only [Bool.not_false, Bool.and_true, Bool.false_eq_true, if_false, if_true]
              rw [ih others]
              simp [may, skipped, misses, readsOf]
              omega

theorem plain_cost (key : Bytes) (tables : List Table) (formed : ∀ table ∈ tables, table.sst.WellFormed)
    (cost : ReadCost) :
    costTables false key tables cost =
    { cost with blockReads := cost.blockReads + readsOf key (consulted key tables) } := by
  induction tables generalizing cost with
  | nil => rfl
  | cons table rest ih =>
      obtain ⟨here, others⟩ := List.forall_mem_cons.mp formed
      obtain ⟨found, reads, same⟩ := get_no_bloom_holds key table here
      rw [costTables, consulted, reads]
      cases there : holds key table with
      | true =>
          rw [there] at same
          obtain ⟨rec, rfl⟩ := Option.isSome_iff_exists.mp same
          simp [readsOf]
      | false =>
          rw [there, Option.isSome_eq_false_iff, Option.isNone_iff_eq_none] at same
          subst same
          simp only [Bool.false_and, Bool.false_eq_true, if_false]
          rw [ih others]
          simp [readsOf, Nat.add_assoc]

theorem reads_bound (key : Bytes) (tables : List Table) : readsOf key tables ≤ tables.length := by
  induction tables with
  | nil => exact Nat.le_refl _
  | cons table rest ih =>
      have one : table.sst.blockReads key ≤ 1 := by
        rw [SSTable.blockReads]
        split
        · exact Nat.zero_le _
        · split <;> decide
      simp only [readsOf, List.map_cons, List.sum_cons, List.length_cons] at ih ⊢
      omega

theorem reads_split (key : Bytes) (keep : Table → Bool) (tables : List Table) :
    readsOf key tables = readsOf key (tables.filter keep) + readsOf key (tables.filter (fun table => !keep table)) := by
  induction tables with
  | nil => rfl
  | cons table rest ih =>
      simp only [readsOf, List.map_cons, List.sum_cons, List.filter_cons] at ih ⊢
      cases keep table with
      | true =>
          simp only [if_true, Bool.not_true, Bool.false_eq_true, if_false, List.map_cons, List.sum_cons]
          omega
      | false =>
          simp only [Bool.false_eq_true, if_false, Bool.not_false, if_true, List.map_cons, List.sum_cons]
          omega

theorem consulted_length (key : Bytes) (tables : List Table) : (consulted key tables).length ≤ tables.length := by
  induction tables with
  | nil => exact Nat.le_refl _
  | cons table rest ih =>
      rw [consulted]
      split
      · simp
      · simpa using ih

theorem consulted_account (key : Bytes) (tables : List Table) (formed : ∀ table ∈ tables, table.sst.WellFormed) :
    (consulted key tables).length = (consulted key tables).countP (skipped key) +
    (consulted key tables).countP (misses key) +
      if tables.any (holds key) then 1 else 0 := by
  induction tables with
  | nil => rfl
  | cons table rest ih =>
      obtain ⟨here, others⟩ := List.forall_mem_cons.mp formed
      have later := ih others
      rw [consulted]
      cases there : holds key table with
      | true =>
          have may := holds_may_contain key table here there
          simp [there, skipped, misses, may]
      | false =>
          cases may : table.sst.mayContain key with
          | true =>
              simp [there, skipped, misses, may] at later ⊢
              omega
          | false =>
              simp [there, skipped, misses, may] at later ⊢
              omega

-- Whether a get ends in a table.
def DB.foundInTable (db : DB) (key : Bytes) : Bool :=
  match getLocked db key with
  | .answered _ => false
  | .search tables _ _ => tables.any (holds key)

-- set_bloom_enabled
def DB.withBloom (db : DB) (on : Bool) : DB := { db with bloomEnabled := on }

theorem get_locked_bloom (db : DB) (key : Bytes) :
    (∃ value, ∀ on, getLocked (db.withBloom on) key = .answered value) ∨
      ∀ on, getLocked (db.withBloom on) key = .search db.sstables db.vlogs on := by
  cases value : db.memtable.get key with
  | some v => exact .inl ⟨some v, fun on => by simp [getLocked, DB.withBloom, value]⟩
  | none =>
      cases gone : db.memtable.isTombstone key with
      | true => exact .inl ⟨none, fun on => by simp [getLocked, DB.withBloom, value, gone]⟩
      | false =>
          cases has : db.hasFlushing with
          | false => exact .inr (fun on => by simp [getLocked, DB.withBloom, value, gone, has])
          | true =>
              cases sealed : db.flushingMemtable.get key with
              | some v => exact .inl ⟨some v, fun on => by simp [getLocked, DB.withBloom, value, gone, has, sealed]⟩
              | none =>
                  cases dropped : db.flushingMemtable.isTombstone key with
                  | true =>
                      exact .inl ⟨none, fun on => by simp [getLocked, DB.withBloom, value, gone, has, sealed, dropped]⟩
                  | false => exact .inr (fun on => by simp [getLocked, DB.withBloom, value, gone, has, sealed, dropped])

theorem step_sound (cfg : Config) (db : DB) (i : Nat) (log : ValueLog) (label : Label) (effect : Effect)
    (sound : Sound False db i log) (done : step cfg db label = some effect) :
    ∃ j later, Sound False effect.db j later := by
  obtain ⟨⟨middle, front, back, early, late, first, second, _, one, two, _⟩, _⟩ := step_moves cfg db label effect done
  obtain ⟨k, between, half, _⟩ := move_sound cfg db i log first middle front early sound one False.elim
  obtain ⟨j, later, whole, _⟩ := move_sound cfg middle k between second effect.db back late half two False.elim
  exact ⟨j, later, whole⟩

theorem run_formed (cfg : Config) (db later : DB) (i : Nat) (log : ValueLog) (labels : List Label)
    (sound : Sound False db i log) (done : run cfg db labels = some later) :
    ∀ table ∈ later.sstables, table.sst.WellFormed := by
  induction labels generalizing db i log with
  | nil =>
      cases done
      exact sound.formed
  | cons label rest ih =>
      obtain ⟨effect, stepped, remaining⟩ := Option.bind_eq_some_iff.mp done
      obtain ⟨j, next, whole⟩ := step_sound cfg db i log label effect sound stepped
      exact ih effect.db j next whole remaining

-- The filters change no answer, and save a block read for a table they skip at
-- most. Each of their checks is a skip, a false positive, or the hit.
theorem filters_pay (cfg : Config) (labels : List Label) (db : DB) (key : Bytes)
    (done : run cfg DB.fresh labels = some db) :
    (db.withBloom true).get key = (db.withBloom false).get key ∧
      ((db.withBloom true).getCost key).checks = ((db.withBloom true).getCost key).skips +
        ((db.withBloom true).getCost key).falsePositives + (if (db.withBloom true).foundInTable key then 1 else 0) ∧
      ((db.withBloom true).getCost key).checks ≤ db.sstables.length ∧
      ((db.withBloom true).getCost key).blockReads + ((db.withBloom true).getCost key).skips ≤
        ((db.withBloom true).getCost key).checks ∧
      ((db.withBloom true).getCost key).blockReads ≤ ((db.withBloom false).getCost key).blockReads ∧
      ((db.withBloom false).getCost key).blockReads ≤
        ((db.withBloom true).getCost key).blockReads + ((db.withBloom true).getCost key).skips := by
  have formed := run_formed cfg DB.fresh db 0 _ labels fresh_sound done
  rcases get_locked_bloom db key with ⟨value, answered⟩ | search
  · simp only [DB.get, DB.getCost, DB.foundInTable, answered, Lookup.finish, Lookup.cost]
    simp
  · have skips : ((consulted key db.sstables).filter (skipped key)).length =
      (consulted key db.sstables).countP (skipped key) :=
      List.countP_eq_length_filter.symm
    have parts : ((consulted key db.sstables).filter (fun table => !skipped key table)).length +
        ((consulted key db.sstables).filter (skipped key)).length = (consulted key db.sstables).length := by
      have sum := List.length_eq_length_filter_add (skipped key) (l := consulted key db.sstables)
      omega
    have account := consulted_account key db.sstables formed
    have length := consulted_length key db.sstables
    have split := reads_split key (skipped key) (consulted key db.sstables)
    have saved := reads_bound key ((consulted key db.sstables).filter (skipped key))
    have read := reads_bound key ((consulted key db.sstables).filter (fun table => !skipped key table))
    simp only [DB.get, DB.getCost, DB.foundInTable, search, Lookup.finish, Lookup.cost,
      filtered_cost key db.sstables formed,
      plain_cost key db.sstables formed, get_tables_reads _ db.vlogs _ key db.sstables formed, Nat.zero_add]
    exact ⟨rfl, account, length, by omega, by omega, by omega⟩

theorem shadowed_filters_pay :
    ∃ db, run (smallStore 1000 1000) DB.fresh shadowedKey = some db ∧ ((db.withBloom true).getCost [2]).checks = 2 ∧
      (db.withBloom true).get [2] = (db.withBloom false).get [2] := by
  have value :
    (run (smallStore 1000 1000) DB.fresh shadowedKey).map (fun db => ((db.withBloom true).getCost [2]).checks) =
      some 2 := by decide +kernel
  obtain ⟨db, done, checks⟩ := Option.map_eq_some_iff.mp value
  exact ⟨db, done, checks, (filters_pay _ shadowedKey db [2] done).1⟩

end Tombstash
