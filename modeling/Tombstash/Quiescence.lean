import Tombstash.Selection

set_option autoImplicit false

namespace Tombstash

-- The choice of do_leveled_compaction with levels in exact arithmetic.
def chooseLeveled (cfg : Config) (tables : List Table) : Option LeveledPick :=
  if leveledPending cfg tables then
    match sourceLevel cfg tables with
    | none => none
    | some source =>
        match sourceTables tables source with
        | none => none
        | some (first, rest) =>
            some
              { inputs := first :: rest ++ (atLevel tables (source + 1)).filter (overlaps (lowKey first rest)
                    (highKey first rest))
                destLevel := source + 1
                dropTombstones := decide (source + 1 ≥ maxLevel tables) }
  else none

-- The files of the groups, one reserved sequence number for each, and their
-- install. build is SSTable::build and the constructor on its file.
def installGroups (build : List Record → SSTable) (db : DB) (pick : LeveledPick) (groups : List (List Record)) : DB :=
  let seqs := List.range' db.nextSeq groups.length
  installLeveled { db with nextSeq := db.nextSeq + groups.length }
    ⟨pick.inputs, pick.dropTombstones, pick.destLevel, true, seqs, some groups, none⟩
    ((seqs.map sstName).zip (groups.map build))

-- One call of do_leveled_compaction from its pick to its install, with nothing
-- in between.
def doLeveledCompaction (cfg : Config) (build : List Record → SSTable) (db : DB) : Except Error (Option DB) :=
  (chooseLeveled cfg db.sstables).mapM (fun pick => do
    let merged ← mergeRecords (pick.inputs.map Table.sst) pick.dropTombstones
    return installGroups build db pick (splitGroups cfg.leveledTargetBytes [] 0 merged))

-- The rounds of compaction_loop: it calls do_leveled_compaction while work is
-- pending.
def compactionLoop (cfg : Config) (build : List Record → SSTable) : Nat → DB → Except Error DB
  | 0, db => .ok db
  | rounds + 1, db => do
      match ← doLeveledCompaction cfg build db with
      | none => return db
      | some next => compactionLoop cfg build rounds next

structure LeveledState (db : DB) : Prop where
  formed : ∀ table ∈ db.sstables, table.sst.WellFormed
  levels : ∀ table ∈ db.sstables, 0 ≤ table.level
  distinct : (tableIds db.sstables).Nodup
  older : ∀ table ∈ db.sstables, table.id < db.nextId

def StoredIn (db : DB) (rec : Record) : Prop := ∃ table ∈ db.sstables, rec ∈ table.sst.records

-- Any selection of the stored records can be made a table. Nothing is asked of
-- its file size.
def Buildable (build : List Record → SSTable) (db : DB) : Prop :=
  ∀ records, Ascending Record.key records → (∀ rec ∈ records, StoredIn db rec) → Represents (build records) records

-- Where buildAndOpen throws there is no table; any stands for it.
def builtTable (cfg : Config) (records : List Record) : SSTable :=
  match buildAndOpen cfg records with
  | .ok (_, sst) => sst
  | .error _ => ⟨[], 0, 0, 0, [], [], [], ⟨1, 1, [0]⟩⟩

def AllBuild (cfg : Config) (db : DB) : Prop :=
  ∀ records, Ascending Record.key records → (∀ rec ∈ records, StoredIn db rec) →
    ∃ bytes sst, buildAndOpen cfg records = .ok (bytes, sst)

theorem built_buildable (cfg : Config) (db : DB) (state : LeveledState db) (all : AllBuild cfg db) :
    Buildable (builtTable cfg) db := by
  intro records ascending stored
  obtain ⟨bytes, sst, built⟩ := all records ascending stored
  have shaped : ∀ rec ∈ records, Shaped rec := by
    intro rec member
    obtain ⟨table, present, inside⟩ := stored rec member
    exact storable_shaped rec ((state.formed table present).storable rec inside)
  rw [builtTable, built]
  exact (build_and_open_spec cfg records bytes sst ascending shaped built).1

-- A round takes newer and some of the next level away and puts the groups of
-- their merge into the next level.
structure Round (cfg : Config) (build : List Record → SSTable) (db next : DB) (source : Int)
    (newer older rest : List Table) (groups : List (List Record)) : Prop where
  selected : sourceLevel cfg db.sstables = some source
  taken : newer ≠ []
  newerLevel : ∀ table ∈ newer, table.level = source
  olderLevel : ∀ table ∈ older, table.level = source + 1
  before : db.sstables.Perm (newer ++ older ++ rest)
  after : ∃ outputs : List (Bytes × SSTable), outputs.map Prod.snd = groups.map build ∧
    next.sstables.Perm (rest ++ outputTables db.nextId (source + 1) outputs) ∧
    next.nextId = db.nextId + outputs.length ∧
    (tableIds next.sstables).Nodup
  filled : ∀ group ∈ groups, group ≠ []
  ascending : ∀ group ∈ groups, Ascending Record.key group
  origin : ∀ group ∈ groups, ∀ rec ∈ group, StoredIn db rec
  fewer : groups.flatten.length ≤ rowCount (tableRuns (newer ++ older))

theorem source_level_pending (cfg : Config) (tables : List Table) (levels : ∀ table ∈ tables, 0 ≤ table.level)
    (pending : leveledPending cfg tables = true) : ∃ source, sourceLevel cfg tables = some source := by
  rw [leveledPending, Bool.or_eq_true] at pending
  rw [sourceLevel]
  by_cases many : castInt (atLevel tables 0).length ≥ castInt cfg.minMerge
  · exact ⟨0, if_pos many⟩
  · rw [if_neg many]
    rcases pending with shallow | deep
    · exact absurd (of_decide_eq_true shallow) many
    · obtain ⟨table, member, above⟩ := List.any_eq_true.mp deep
      rw [Bool.and_eq_true, decide_eq_true_eq] at above
      have nonneg := levels table member
      have bound := max_level_ge tables table member
      have listed : table.level ∈ (List.range' 1 (maxLevel tables).toNat).map (fun n : Nat => (n : Int)) := by
        refine List.mem_map.mpr ⟨table.level.toNat, List.mem_range'_1.mpr ⟨?_, ?_⟩, ?_⟩ <;> omega
      cases found : ((List.range' 1 (maxLevel tables).toNat).map (fun n : Nat => (n : Int))).find?
        (overBudget cfg tables) with
      | some source => exact ⟨source, rfl⟩
      | none => exact absurd above.2 (List.find?_eq_none.mp found table.level listed)

theorem source_tables_sublist (tables : List Table) (source : Int) (first : Table) (rest : List Table)
    (distinct : tables.Nodup) (chosen : sourceTables tables source = some (first, rest)) : (first :: rest).Nodup := by
  obtain ⟨_, shallow, deep⟩ := source_tables_members tables source first rest chosen
  by_cases zero : source = 0
  · rw [shallow zero]
    exact distinct.sublist List.filter_sublist
  · rw [deep zero]
    exact List.nodup_singleton first

theorem inputs_perm (tables newer older : List Table) (source : Int) (distinct : (tableIds tables).Nodup)
    (newerNodup : newer.Nodup) (olderNodup : older.Nodup)
    (newerIn : ∀ table ∈ newer, table ∈ tables ∧ table.level = source)
    (olderIn : ∀ table ∈ older, table ∈ tables ∧ table.level = source + 1) :
    tables.Perm (newer ++ older ++ tables.filter (notAmong (tableIds (newer ++ older)))) := by
  have inputsNodup : (newer ++ older).Nodup := by
    refine List.nodup_append.mpr ⟨newerNodup, olderNodup, ?_⟩
    rintro table inNewer _ inOlder rfl
    have high := (newerIn table inNewer).2
    have low := (olderIn table inOlder).2
    omega
  have inputsIn : ∀ table ∈ newer ++ older, table ∈ tables := by
    intro table member
    rcases List.mem_append.mp member with new | old
    · exact (newerIn table new).1
    · exact (olderIn table old).1
  have split := (List.filter_append_perm (notAmong (tableIds (newer ++ older))) tables).symm
  refine split.trans (List.perm_append_comm.trans (List.Perm.append_right _ ?_))
  refine (List.perm_ext_iff_of_nodup ((List.Nodup.of_map _ distinct).filter _) inputsNodup).mpr (fun table => ?_)
  rw [List.mem_filter]
  constructor
  · rintro ⟨member, among⟩
    have idIn : table.id ∈ tableIds (newer ++ older) := by simpa [notAmong] using among
    obtain ⟨other, inside, same⟩ := List.mem_map.mp idIn
    rwa [← List.inj_on_of_nodup_map distinct (inputsIn other inside) member same]
  · intro member
    refine ⟨inputsIn table member, ?_⟩
    have idIn : table.id ∈ tableIds (newer ++ older) := List.mem_map_of_mem member
    simpa [notAmong] using idIn

theorem merged_fewer (inputs : List Table) (formed : ∀ table ∈ inputs, table.sst.WellFormed) (drop : Bool)
    (merged : List Record) (merges : mergeRecords (inputs.map Table.sst) drop = .ok merged) :
    merged.length ≤ rowCount (tableRuns inputs) := by
  obtain ⟨ascending, _, origin⟩ := merged_records_fit inputs formed drop merged merges
  have nodup : merged.Nodup := ascending.imp (fun less same => by rw [same] at less; exact lt_irrefl _ less)
  refine (List.subperm_of_subset nodup (fun rec member => ?_)).length_le
  obtain ⟨table, inside, present⟩ := origin rec member
  exact List.mem_flatten.mpr ⟨table.sst.records, List.mem_map_of_mem inside, present⟩

theorem do_leveled_done (cfg : Config) (build : List Record → SSTable) (db : DB) (pick : LeveledPick)
    (merged : List Record) (picked : chooseLeveled cfg db.sstables = some pick)
    (merges : mergeRecords (pick.inputs.map Table.sst) pick.dropTombstones = .ok merged) :
    doLeveledCompaction cfg build db =
      .ok (some (installGroups build db pick (splitGroups cfg.leveledTargetBytes [] 0 merged))) := by
  rw [doLeveledCompaction, picked, Option.mapM_some, merges]
  rfl

theorem leveled_merge (cfg : Config) (build : List Record → SSTable) (db : DB) (state : LeveledState db)
    (low : 1 ≤ cfg.minMerge) (high : (cfg.minMerge : Int) ≤ intMax) (pending : leveledPending cfg db.sstables = true) :
    ∃ pick merged source newer older rest, chooseLeveled cfg db.sstables = some pick ∧
      mergeRecords (pick.inputs.map Table.sst) pick.dropTombstones = .ok merged ∧
      Round cfg build db (installGroups build db pick (splitGroups cfg.leveledTargetBytes [] 0 merged))
      source newer older rest
        (splitGroups cfg.leveledTargetBytes [] 0 merged) := by
  obtain ⟨source, selected⟩ := source_level_pending cfg db.sstables state.levels pending
  obtain ⟨first, others, chosen⟩ := source_level_filled cfg low high db.sstables source selected
  obtain ⟨members, _, _⟩ := source_tables_members db.sstables source first others chosen
  have picked : chooseLeveled cfg db.sstables = some
      { inputs := first :: others ++ (atLevel db.sstables (source + 1)).filter (overlaps (lowKey first others)
            (highKey first others))
        destLevel := source + 1
        dropTombstones := decide (source + 1 ≥ maxLevel db.sstables) } := by
    rw [chooseLeveled, if_pos pending, selected]
    simp only [chosen]
  generalize olderEq :
    (atLevel db.sstables (source + 1)).filter (overlaps (lowKey first others) (highKey first others)) = older
    at picked
  have olderIn : ∀ table ∈ older, table ∈ db.sstables ∧ table.level = source + 1 := by
    intro table member
    rw [← olderEq] at member
    exact (mem_at_level _ _ _).mp (List.mem_filter.mp member).1
  have tablesNodup := List.Nodup.of_map _ state.distinct
  have olderNodup : older.Nodup := by
    rw [← olderEq]
    exact (tablesNodup.filter _).filter _
  have before := inputs_perm db.sstables (first :: others) older source state.distinct
    (source_tables_sublist db.sstables source first others tablesNodup chosen) olderNodup members olderIn
  have inputsIn : ∀ table ∈ first :: others ++ older, table ∈ db.sstables := by
    intro table member
    rcases List.mem_append.mp member with new | old
    · exact (members table new).1
    · exact (olderIn table old).1
  have formed : ∀ table ∈ first :: others ++ older, table.sst.WellFormed := fun table member =>
    state.formed table (inputsIn table member)
  obtain ⟨merged, merges, _, _, _⟩ :=
    merge_tables_spec (first :: others ++ older) formed (decide (source + 1 ≥ maxLevel db.sstables))
  obtain ⟨ascending, shaped, origin⟩ := merged_records_fit _ formed _ merged merges
  obtain ⟨flat, filled⟩ := split_groups_spec cfg.leveledTargetBytes [] 0 merged
  rw [List.nil_append] at flat
  refine ⟨_, merged, source, first :: others, older,
    db.sstables.filter (notAmong (tableIds (first :: others ++ older))), picked, merges, ?_⟩
  generalize splitGroups cfg.leveledTargetBytes [] 0 merged = groups at flat filled
  obtain ⟨groupsAscending, _⟩ := group_members groups merged flat ascending shaped
  rw [installGroups]
  refine ⟨selected, List.cons_ne_nil _ _, fun table member => (members table member).2,
    fun table member =>
    (olderIn table member).2, before, ⟨_, List.map_snd_zip (by simp), List.perm_insertionSort _ _, rfl, ?_⟩,
    filled, groupsAscending, ?_, ?_⟩
  · exact ((List.perm_insertionSort _ _).map Table.id).nodup_iff.mpr
      (installed_ids_nodup db.sstables db.nextId _ _ _ state.distinct state.older)
  · intro group member rec inside
    obtain ⟨table, present, stored⟩ := origin rec (flat ▸ List.mem_flatten.mpr ⟨group, member, inside⟩)
    exact ⟨table, inputsIn table present, stored⟩
  · rw [flat]
    exact merged_fewer _ formed _ merged merges

theorem leveled_round (cfg : Config) (build : List Record → SSTable) (db : DB) (state : LeveledState db)
    (low : 1 ≤ cfg.minMerge) (high : (cfg.minMerge : Int) ≤ intMax) (pending : leveledPending cfg db.sstables = true) :
    ∃ next source newer older rest groups, doLeveledCompaction cfg build db = .ok (some next) ∧
      Round cfg build db next source newer older rest groups := by
  obtain ⟨pick, merged, source, newer, older, rest, picked, merges, round⟩ :=
    leveled_merge cfg build db state low high pending
  exact ⟨_, source, newer, older, rest, _, do_leveled_done cfg build db pick merged picked merges, round⟩

-- A table weighs factor of its level for each of its records, and one if it has
-- none.
def tableWeight (factor : Int → Nat) (table : Table) : Nat :=
  table.sst.records.length * factor table.level + if table.sst.records = [] then 1 else 0

def weigh (factor : Int → Nat) (tables : List Table) : Nat := (tables.map (tableWeight factor)).sum

theorem weigh_append (factor : Int → Nat) (front back : List Table) :
    weigh factor (front ++ back) = weigh factor front + weigh factor back := by
  simp [weigh]

theorem weigh_perm (factor : Int → Nat) (left right : List Table) (same : left.Perm right) :
    weigh factor left = weigh factor right :=
  (same.map _).sum_nat

theorem row_count_cons (table : Table) (rest : List Table) :
    rowCount (tableRuns (table :: rest)) = table.sst.records.length + rowCount (tableRuns rest) := by
  simp [rowCount, tableRuns]

theorem row_count_append (front back : List Table) :
    rowCount (tableRuns (front ++ back)) = rowCount (tableRuns front) + rowCount (tableRuns back) := by
  simp [rowCount, tableRuns]

theorem weigh_at_least (factor : Int → Nat) (tables : List Table) (bound : Nat)
    (heavy : ∀ table ∈ tables, bound ≤ factor table.level) :
    rowCount (tableRuns tables) * bound ≤ weigh factor tables := by
  induction tables with
  | nil => simp [rowCount, tableRuns]
  | cons table rest ih =>
      have tail := ih (fun other member => heavy other (by simp [member]))
      have head : table.sst.records.length * bound ≤ tableWeight factor table :=
        le_trans (Nat.mul_le_mul_left _ (heavy table (by simp))) (Nat.le_add_right _ _)
      rw [row_count_cons, Nat.add_mul]
      simp only [weigh, List.map_cons, List.sum_cons] at tail ⊢
      omega

theorem weigh_above (factor : Int → Nat) (tables : List Table) (bound : Nat)
    (heavy : ∀ table ∈ tables, bound + 1 ≤ factor table.level) :
    rowCount (tableRuns tables) * bound + tables.length ≤ weigh factor tables := by
  induction tables with
  | nil => simp [rowCount, tableRuns]
  | cons table rest ih =>
      have tail := ih (fun other member => heavy other (by simp [member]))
      have head : table.sst.records.length * bound + 1 ≤ tableWeight factor table := by
        have more := Nat.mul_le_mul_left table.sst.records.length (heavy table (by simp))
        rw [Nat.mul_add, Nat.mul_one] at more
        rw [tableWeight]
        by_cases none : table.sst.records = []
        · rw [if_pos none]
          omega
        · have positive := List.length_pos_iff.mpr none
          omega
      rw [row_count_cons, Nat.add_mul, List.length_cons]
      simp only [weigh, List.map_cons, List.sum_cons] at tail ⊢
      omega

theorem weigh_filled (factor : Int → Nat) (tables : List Table) (level : Int)
    (filled : ∀ table ∈ tables, table.sst.records ≠ []) (here : ∀ table ∈ tables, table.level = level) :
    weigh factor tables = rowCount (tableRuns tables) * factor level := by
  induction tables with
  | nil => simp [rowCount, tableRuns, weigh]
  | cons table rest ih =>
      have tail :=
        ih (fun other member => filled other (by simp [member])) (fun other member => here other (by simp [member]))
      have head : tableWeight factor table = table.sst.records.length * factor level := by
        rw [tableWeight, if_neg (filled table (by simp)), here table (by simp)]
        rfl
      rw [row_count_cons, Nat.add_mul]
      simp only [weigh, List.map_cons, List.sum_cons] at tail ⊢
      omega

theorem output_tables_ssts (start : Nat) (level : Int) (outputs : List (Bytes × SSTable)) :
    (outputTables start level outputs).map Table.sst = outputs.map Prod.snd := by
  rw [outputTables, List.map_map]
  calc outputs.zipIdx.map (Table.sst ∘ fun entry => (⟨start + entry.2, entry.1.1, level, entry.1.2⟩ : Table))
      = (outputs.zipIdx.map Prod.fst).map Prod.snd := by rw [List.map_map]; rfl
    _ = outputs.map Prod.snd := by rw [List.zipIdx_map_fst]

section Rounds

variable {cfg : Config} {build : List Record → SSTable} {db next : DB} {source : Int} {newer older rest : List Table}
  {groups : List (List Record)}

theorem round_groups (buildable : Buildable build db) (round : Round cfg build db next source newer older rest groups)
    (group : List Record) (member : group ∈ groups) : Represents (build group) group :=
  buildable group (round.ascending group member) (round.origin group member)

theorem round_outputs (buildable : Buildable build db) (round : Round cfg build db next source newer older rest groups)
    (outputs : List (Bytes × SSTable)) (built : outputs.map Prod.snd = groups.map build) (start : Nat) (level : Int) :
    tableRuns (outputTables start level outputs) = groups := by
  have ssts := output_tables_ssts start level outputs
  rw [built] at ssts
  calc tableRuns (outputTables start level outputs)
      = ((outputTables start level outputs).map Table.sst).map SSTable.records := by rw [List.map_map]; rfl
    _ = groups.map (fun group => (build group).records) := by rw [ssts, List.map_map]; rfl
    _ = groups.map id := List.map_congr_left (fun group member =>
        represents_records _ _ (round_groups buildable round group member))
    _ = groups := List.map_id groups

theorem round_output_table (buildable : Buildable build db)
    (round : Round cfg build db next source newer older rest groups) (outputs : List (Bytes × SSTable))
    (built : outputs.map Prod.snd = groups.map build) (table : Table)
    (member : table ∈ outputTables db.nextId (source + 1) outputs) :
    table.level = source + 1 ∧ ∃ group ∈ groups, table.sst = build group ∧ table.sst.records = group := by
  obtain ⟨_, _, level, inside⟩ := output_tables_member _ _ _ table member
  have sst : table.sst ∈ groups.map build := by
    rw [← built]
    exact List.mem_map_of_mem inside
  obtain ⟨group, here, same⟩ := List.mem_map.mp sst
  refine ⟨level, group, here, same.symm, ?_⟩
  rw [← same]
  exact represents_records _ _ (round_groups buildable round group here)

theorem round_state (state : LeveledState db) (buildable : Buildable build db)
    (round : Round cfg build db next source newer older rest groups) : LeveledState next := by
  obtain ⟨outputs, built, after, ids, distinct⟩ := round.after
  have kept : ∀ table ∈ rest, table ∈ db.sstables := fun table member =>
    round.before.mem_iff.mpr (List.mem_append_right _ member)
  obtain ⟨first, others, eq⟩ := List.exists_cons_of_ne_nil round.taken
  have nonneg : 0 ≤ source := by
    have inNewer : first ∈ newer := by rw [eq]; simp
    rw [← round.newerLevel first inNewer]
    exact state.levels first (round.before.mem_iff.mpr (by simp [inNewer]))
  refine ⟨?_, ?_, distinct, ?_⟩ <;> intro table member <;>
    rcases List.mem_append.mp (after.mem_iff.mp member) with old | new
  · exact state.formed table (kept table old)
  · obtain ⟨_, group, inside, sst, _⟩ := round_output_table buildable round outputs built table new
    rw [sst]
    exact represents_well_formed _ _ (round_groups buildable round group inside)
  · exact state.levels table (kept table old)
  · rw [(round_output_table buildable round outputs built table new).1]
    omega
  · have bound := state.older table (kept table old)
    omega
  · have bound := (output_tables_member _ _ _ table new).2.1
    omega

theorem round_stored (buildable : Buildable build db) (round : Round cfg build db next source newer older rest groups)
    (rec : Record) (stored : StoredIn next rec) : StoredIn db rec := by
  obtain ⟨outputs, built, after, _, _⟩ := round.after
  obtain ⟨table, member, inside⟩ := stored
  rcases List.mem_append.mp (after.mem_iff.mp member) with old | new
  · exact ⟨table, round.before.mem_iff.mpr (List.mem_append_right _ old), inside⟩
  · obtain ⟨_, group, here, _, records⟩ := round_output_table buildable round outputs built table new
    rw [records] at inside
    exact round.origin group here rec inside

theorem round_weight (buildable : Buildable build db) (round : Round cfg build db next source newer older rest groups)
    (factor : Int → Nat) :
    weigh factor next.sstables = weigh factor rest + groups.flatten.length * factor (source + 1) ∧
      weigh factor db.sstables = weigh factor newer + weigh factor older + weigh factor rest := by
  obtain ⟨outputs, built, after, _, _⟩ := round.after
  have filled : ∀ table ∈ outputTables db.nextId (source + 1) outputs, table.sst.records ≠ [] := by
    intro table member
    obtain ⟨_, group, inside, _, records⟩ := round_output_table buildable round outputs built table member
    rw [records]
    exact round.filled group inside
  have level : ∀ table ∈ outputTables db.nextId (source + 1) outputs, table.level = source + 1 := fun table member =>
    (round_output_table buildable round outputs built table member).1
  constructor
  · rw [weigh_perm factor _ _ after, weigh_append, weigh_filled factor _ (source + 1) filled level,
      round_outputs buildable round outputs built]
    rfl
  · rw [weigh_perm factor _ _ round.before, weigh_append, weigh_append]

theorem round_weight_le (buildable : Buildable build db)
    (round : Round cfg build db next source newer older rest groups) (factor : Int → Nat)
    (falls : factor (source + 1) ≤ factor source) : weigh factor next.sstables ≤ weigh factor db.sstables := by
  obtain ⟨after, before⟩ := round_weight buildable round factor
  have moved := weigh_at_least factor newer (factor (source + 1)) (fun table member => by
    rw [round.newerLevel table member]
    exact falls)
  have stayed :=
    weigh_at_least factor older (factor (source + 1)) (fun table member => by rw [round.olderLevel table member])
  have fewer := Nat.mul_le_mul_right (factor (source + 1)) round.fewer
  rw [row_count_append, Nat.add_mul] at fewer
  omega

theorem round_weight_lt (buildable : Buildable build db)
    (round : Round cfg build db next source newer older rest groups) (factor : Int → Nat)
    (falls : factor (source + 1) < factor source) : weigh factor next.sstables < weigh factor db.sstables := by
  obtain ⟨after, before⟩ := round_weight buildable round factor
  have moved := weigh_above factor newer (factor (source + 1)) (fun table member => by
    rw [round.newerLevel table member]
    exact falls)
  have stayed :=
    weigh_at_least factor older (factor (source + 1)) (fun table member => by rw [round.olderLevel table member])
  have fewer := Nat.mul_le_mul_right (factor (source + 1)) round.fewer
  have positive := List.length_pos_iff.mpr round.taken
  rw [row_count_append, Nat.add_mul] at fewer
  omega

end Rounds

theorem size_bounded {A : Type} (pool : List A) (n : Nat) (size : List A → Nat) :
    ∃ bound, ∀ items : List A, items.length ≤ n → (∀ item ∈ items, item ∈ pool) → size items ≤ bound := by
  induction n generalizing size with
  | zero =>
      refine ⟨size [], fun items short _ => ?_⟩
      rw [List.eq_nil_of_length_eq_zero (Nat.le_zero.mp short)]
  | succ n ih =>
      have heads : ∀ firsts : List A, ∃ bound, ∀ first ∈ firsts, ∀ items : List A, items.length ≤ n →
          (∀ item ∈ items, item ∈ pool) → size (first :: items) ≤ bound := by
        intro firsts
        induction firsts with
        | nil => exact ⟨0, by simp⟩
        | cons first others firstsIh =>
            obtain ⟨here, holds⟩ := ih (fun items => size (first :: items))
            obtain ⟨later, others_hold⟩ := firstsIh
            refine ⟨max here later, fun item member items short inside => ?_⟩
            rcases List.mem_cons.mp member with rfl | elsewhere
            · exact le_trans (holds items short inside) (le_max_left _ _)
            · exact le_trans (others_hold item elsewhere items short inside) (le_max_right _ _)
      obtain ⟨bound, holds⟩ := heads pool
      refine ⟨max (size []) bound, fun items short inside => ?_⟩
      cases items with
      | nil => exact le_max_left _ _
      | cons first others =>
          refine le_trans (holds first (inside first (by simp)) others (by simpa using short) ?_) (le_max_right _ _)
          exact fun item member => inside item (by simp [member])

theorem max_size (tables : List Table) : ∃ bound, ∀ table ∈ tables, table.sst.fileSize ≤ bound := by
  induction tables with
  | nil => exact ⟨0, by simp⟩
  | cons table rest ih =>
      obtain ⟨bound, holds⟩ := ih
      refine ⟨max table.sst.fileSize bound, fun other member => ?_⟩
      rcases List.mem_cons.mp member with rfl | later
      · exact le_max_left _ _
      · exact le_trans (holds other later) (le_max_right _ _)

def mass (tables : List Table) : Nat := weigh (fun _ => 1) tables

theorem rows_le_mass (tables : List Table) : rowCount (tableRuns tables) ≤ mass tables := by
  have rows := weigh_at_least (fun _ => 1) tables 1 (fun _ _ => le_refl _)
  rwa [Nat.mul_one] at rows

theorem length_le_mass (tables : List Table) : tables.length ≤ mass tables := by
  have count := weigh_above (fun _ => 1) tables 0 (fun _ _ => le_refl _)
  rwa [Nat.mul_zero, Nat.zero_add] at count

-- A table that was there at first, or one built of records that were.
def Drawn (build : List Record → SSTable) (first : DB) (table : Table) : Prop :=
  (∃ old ∈ first.sstables, table.sst = old.sst) ∨
    ∃ records, table.sst = build records ∧ records.length ≤ mass first.sstables ∧ ∀ rec ∈ records, StoredIn first rec

theorem drawn_bounded (build : List Record → SSTable) (first : DB) :
    ∃ bound, ∀ table, Drawn build first table → table.sst.fileSize ≤ bound := by
  obtain ⟨old, oldHolds⟩ := max_size first.sstables
  obtain ⟨new, newHolds⟩ := size_bounded (tableRuns first.sstables).flatten (mass first.sstables) (fun records =>
    (build records).fileSize)
  refine ⟨max old new, fun table drawn => ?_⟩
  rcases drawn with ⟨source, member, same⟩ | ⟨records, same, short, stored⟩
  · rw [same]
    exact le_trans (oldHolds source member) (le_max_left _ _)
  · rw [same]
    refine le_trans (newHolds records short (fun rec member => ?_)) (le_max_right _ _)
    obtain ⟨table, present, inside⟩ := stored rec member
    exact List.mem_flatten.mpr ⟨table.sst.records, List.mem_map_of_mem present, inside⟩

theorem level_bytes_le (tables : List Table) (level : Int) (bound : Nat)
    (holds : ∀ table ∈ tables, table.sst.fileSize ≤ bound) :
    levelBytes tables level ≤ tables.length * bound := by
  refine le_trans (Nat.mod_le _ _) ?_
  have general : ∀ some : List Table, (∀ table ∈ some, table.sst.fileSize ≤ bound) →
      (some.map (fun table => table.sst.fileSize)).sum ≤ some.length * bound := by
    intro some all
    induction some with
    | nil => simp
    | cons table rest ih =>
        have tail := ih (fun other member => all other (by simp [member]))
        have head := all table (by simp)
        rw [List.map_cons, List.sum_cons, List.length_cons, Nat.add_mul]
        omega
  refine le_trans (general _ (fun table member => holds table (List.mem_filter.mp member).1)) ?_
  exact Nat.mul_le_mul_right _ (List.length_filter_le _ _)

theorem deep_budget (budget : Int → Nat) (unbounded : ∀ bound, ∃ level : Nat, bound ≤ budget level) (n bound : Nat) :
    ∃ level : Nat, n ≤ level ∧ bound ≤ budget level := by
  obtain ⟨level, large⟩ := unbounded (bound + ((List.range n).map (fun l : Nat => budget l)).sum + 1)
  refine ⟨level, ?_, by omega⟩
  by_contra shallow
  have inside : budget level ∈ (List.range n).map (fun l : Nat => budget l) :=
    List.mem_map.mpr ⟨level, List.mem_range.mpr (by omega), rfl⟩
  obtain ⟨front, back, split⟩ := List.append_of_mem inside
  rw [split, List.sum_append_nat, List.sum_cons] at large
  omega

-- A state on the way from first, with no table below top.
structure Settling (build : List Record → SSTable) (first : DB) (top : Nat) (db : DB) : Prop where
  state : LeveledState db
  stored : ∀ rec, StoredIn db rec → StoredIn first rec
  drawn : ∀ table ∈ db.sstables, Drawn build first table
  lighter : mass db.sstables ≤ mass first.sstables
  shallow : ∀ table ∈ db.sstables, table.level ≤ top

-- top is deep enough never to be above its budget.
def Deep (cfg : Config) (build : List Record → SSTable) (first : DB) (top : Nat) : Prop :=
  1 ≤ top ∧ ∀ db, Settling build first top db → overBudget cfg db.sstables top = false

theorem deep_exists (cfg : Config) (build : List Record → SSTable) (first : DB)
    (unbounded : ∀ bound, ∃ level : Nat, bound ≤ cfg.levelBudget level) :
    ∃ top : Nat, Deep cfg build first top ∧ ∀ table ∈ first.sstables, table.level ≤ top := by
  obtain ⟨size, sizes⟩ := drawn_bounded build first
  obtain ⟨top, deep, large⟩ := deep_budget cfg.levelBudget unbounded ((maxLevel first.sstables).toNat + 1)
    (mass first.sstables * size)
  refine ⟨top, ⟨by omega, fun db settling => ?_⟩, fun table member => ?_⟩
  · have bytes := level_bytes_le db.sstables top size (fun table member => sizes table (settling.drawn table member))
    have count : db.sstables.length ≤ mass first.sstables := le_trans (length_le_mass _) settling.lighter
    have total := Nat.mul_le_mul_right size count
    rw [overBudget, decide_eq_false_iff_not]
    omega
  · have bound := max_level_ge first.sstables table member
    omega

-- What is left of the way down for each record.
def descent (top : Nat) (level : Int) : Nat := (top + 1 - level).toNat

section Settle

variable {cfg : Config} {build : List Record → SSTable} {first : DB} {top : Nat}

theorem settling_buildable (buildable : Buildable build first) (db : DB) (settling : Settling build first top db) :
    Buildable build db := fun records ascending stored =>
  buildable records ascending (fun rec member => settling.stored rec (stored rec member))

theorem settling_round (buildable : Buildable build first) (deep : Deep cfg build first top) (db next : DB)
    (settling : Settling build first top db) (source : Int) (newer older rest : List Table)
    (groups : List (List Record)) (round : Round cfg build db next source newer older rest groups) :
    Settling build first top next ∧ weigh (descent top) next.sstables < weigh (descent top) db.sstables := by
  have here := settling_buildable buildable db settling
  have state := settling.state
  have below : source < top := by
    rcases source_level_some cfg db.sstables source round.selected with ⟨rfl, _⟩ | ⟨_, above⟩
    · have positive := deep.1
      omega
    · obtain ⟨table, others, eq⟩ := List.exists_cons_of_ne_nil round.taken
      have member : table ∈ newer := by rw [eq]; simp
      have bound := settling.shallow table (round.before.mem_iff.mpr (by simp [member]))
      rw [round.newerLevel table member] at bound
      have different : source ≠ top := by
        rintro rfl
        rw [deep.2 db settling] at above
        cases above
      omega
  have falls : descent top (source + 1) < descent top source := by
    unfold descent
    omega
  refine ⟨⟨round_state state here round, fun rec stored => settling.stored rec (round_stored here round rec stored), ?_,
    ?_, ?_⟩, round_weight_lt here round _ falls⟩
  · obtain ⟨outputs, built, after, _, _⟩ := round.after
    intro table member
    rcases List.mem_append.mp (after.mem_iff.mp member) with old | new
    · exact settling.drawn table (round.before.mem_iff.mpr (List.mem_append_right _ old))
    · obtain ⟨_, group, inside, sst, _⟩ := round_output_table here round outputs built table new
      refine .inr ⟨group, sst, ?_, fun rec present => settling.stored rec (round.origin group inside rec present)⟩
      have part := (List.sublist_flatten_of_mem inside).length_le
      have rows := round.fewer
      have inputs := rows_le_mass (newer ++ older)
      have all := weigh_perm (fun _ => 1) _ _ round.before
      have lighter := settling.lighter
      rw [weigh_append] at all
      unfold mass at inputs lighter ⊢
      omega
  · exact le_trans (round_weight_le here round (fun _ => 1) (le_refl _)) settling.lighter
  · obtain ⟨outputs, built, after, _, _⟩ := round.after
    intro table member
    rcases List.mem_append.mp (after.mem_iff.mp member) with old | new
    · exact settling.shallow table (round.before.mem_iff.mpr (List.mem_append_right _ old))
    · rw [(round_output_table here round outputs built table new).1]
      omega

theorem idle_round (db : DB) (idle : leveledPending cfg db.sstables = false) :
    doLeveledCompaction cfg build db = .ok none := by
  rw [doLeveledCompaction, chooseLeveled, if_neg (by rw [idle]; exact Bool.false_ne_true), Option.mapM_none]
  rfl

theorem loop_next (rounds : Nat) (db next : DB) (done : doLeveledCompaction cfg build db = .ok (some next)) :
    compactionLoop cfg build (rounds + 1) db = compactionLoop cfg build rounds next := by
  rw [compactionLoop, done]
  rfl

theorem loop_idle (rounds : Nat) (db : DB) (idle : leveledPending cfg db.sstables = false) :
    compactionLoop cfg build rounds db = .ok db := by
  cases rounds with
  | zero => rfl
  | succ rounds =>
      rw [compactionLoop, idle_round db idle]
      rfl

theorem loop_settling (low : 1 ≤ cfg.minMerge) (high : (cfg.minMerge : Int) ≤ intMax)
    (buildable : Buildable build first) (deep : Deep cfg build first top) (rounds : Nat) (db mid : DB)
    (settling : Settling build first top db) (reached : compactionLoop cfg build rounds db = .ok mid) :
    Settling build first top mid := by
  induction rounds generalizing db with
  | zero =>
      cases reached
      exact settling
  | succ rounds ih =>
      cases pending : leveledPending cfg db.sstables with
      | false =>
          rw [loop_idle _ db pending] at reached
          cases reached
          exact settling
      | true =>
          obtain ⟨next, source, newer, older, rest, groups, done, round⟩ :=
            leveled_round cfg build db settling.state low high pending
          rw [loop_next rounds db next done] at reached
          exact ih next (settling_round buildable deep db next settling source newer older rest groups round).1 reached

theorem loop_ends (low : 1 ≤ cfg.minMerge) (high : (cfg.minMerge : Int) ≤ intMax) (buildable : Buildable build first)
    (deep : Deep cfg build first top) (fuel : Nat) (db : DB) (settling : Settling build first top db)
    (enough : weigh (descent top) db.sstables ≤ fuel) :
    ∃ rounds last, compactionLoop cfg build rounds db = .ok last ∧ leveledPending cfg last.sstables = false := by
  induction fuel generalizing db with
  | zero =>
      cases pending : leveledPending cfg db.sstables with
      | false => exact ⟨0, db, rfl, pending⟩
      | true =>
          obtain ⟨next, source, newer, older, rest, groups, _, round⟩ :=
            leveled_round cfg build db settling.state low high pending
          have less := (settling_round buildable deep db next settling source newer older rest groups round).2
          omega
  | succ fuel ih =>
      cases pending : leveledPending cfg db.sstables with
      | false => exact ⟨0, db, rfl, pending⟩
      | true =>
          obtain ⟨next, source, newer, older, rest, groups, done, round⟩ :=
            leveled_round cfg build db settling.state low high pending
          obtain ⟨settled, less⟩ := settling_round buildable deep db next settling source newer older rest groups round
          obtain ⟨rounds, last, reached, idle⟩ := ih next settled (by omega)
          exact ⟨rounds + 1, last, by rw [loop_next rounds db next done, reached], idle⟩

end Settle

theorem leveled_compaction_quiesces (cfg : Config) (build : List Record → SSTable) (db : DB) (state : LeveledState db)
    (buildable : Buildable build db) (low : 1 ≤ cfg.minMerge) (high : (cfg.minMerge : Int) ≤ intMax)
    (unbounded : ∀ bound, ∃ level : Nat, bound ≤ cfg.levelBudget level) :
    (∃ rounds last, compactionLoop cfg build rounds db = .ok last ∧ leveledPending cfg last.sstables = false) ∧
      ∀ rounds mid, compactionLoop cfg build rounds db = .ok mid → leveledPending cfg mid.sstables = true →
        ∃ next, doLeveledCompaction cfg build mid = .ok (some next) := by
  obtain ⟨top, deep, shallow⟩ := deep_exists cfg build db unbounded
  have settling : Settling build db top db :=
    ⟨state, fun _ stored => stored, fun table member => .inl ⟨table, member, rfl⟩, le_refl _, shallow⟩
  refine ⟨loop_ends low high buildable deep _ db settling (le_refl _), fun rounds mid reached pending => ?_⟩
  have there := loop_settling low high buildable deep rounds db mid settling reached
  obtain ⟨next, _, _, _, _, _, done, _⟩ := leveled_round cfg build mid there.state low high pending
  exact ⟨next, done⟩

def doublingStore : Config := { leveledStore 1 with levelBudget := fun level => 2 ^ level.toNat }

def oneRecord : Record := ⟨Op.put, [0x61], [0x62], false, {}⟩

def oneTableStore : DB :=
  { DB.fresh with sstables := [⟨0, sstName 0, 0, builtTable doublingStore [oneRecord]⟩], nextSeq := 1, nextId := 1 }

theorem one_record_lists (records : List Record) (ascending : Ascending Record.key records)
    (only : ∀ rec ∈ records, rec = oneRecord) : records = [] ∨ records = [oneRecord] := by
  cases records with
  | nil => exact .inl rfl
  | cons first rest =>
      cases rest with
      | nil => exact .inr (by rw [only first (by simp)])
      | cons second rest =>
          have less := (List.pairwise_cons.mp ascending).1 second (by simp)
          rw [only first (by simp), only second (by simp)] at less
          exact absurd less (lt_irrefl _)

theorem small_build (records : List Record) (fine : (buildAndOpen doublingStore records).isOk = true) :
    ∃ bytes sst, buildAndOpen doublingStore records = .ok (bytes, sst) := by
  cases built : buildAndOpen doublingStore records with
  | error e =>
      rw [built] at fine
      cases fine
  | ok result => exact ⟨result.1, result.2, rfl⟩

theorem one_table_quiesces :
    leveledPending doublingStore oneTableStore.sstables = true ∧
      ∃ rounds last, compactionLoop doublingStore (builtTable doublingStore) rounds oneTableStore = .ok last ∧
        leveledPending doublingStore last.sstables = false := by
  have represents : Represents (builtTable doublingStore [oneRecord]) [oneRecord] := by
    obtain ⟨bytes, sst, built⟩ := small_build [oneRecord] (by decide +kernel)
    rw [builtTable, built]
    exact (build_and_open_spec doublingStore _ bytes sst (List.pairwise_singleton _ _)
      (by simpa [oneRecord] using ⟨by decide, by decide, by decide⟩) built).1
  have state : LeveledState oneTableStore := by
    refine ⟨?_, by simp [oneTableStore], by simp [oneTableStore, tableIds], by simp [oneTableStore]⟩
    intro table member
    rw [List.mem_singleton.mp member]
    exact represents_well_formed _ _ represents
  have all : AllBuild doublingStore oneTableStore := by
    intro records ascending stored
    have only : ∀ rec ∈ records, rec = oneRecord := by
      intro rec member
      obtain ⟨table, present, inside⟩ := stored rec member
      rw [List.mem_singleton.mp present, represents_records _ _ represents] at inside
      exact List.mem_singleton.mp inside
    rcases one_record_lists records ascending only with rfl | rfl
    · exact small_build [] (by decide +kernel)
    · exact small_build [oneRecord] (by decide +kernel)
  have unbounded : ∀ bound, ∃ level : Nat, bound ≤ doublingStore.levelBudget level := fun bound =>
    ⟨bound, le_of_lt (Nat.lt_two_pow_self)⟩
  exact ⟨by decide +kernel, (leveled_compaction_quiesces doublingStore (builtTable doublingStore) oneTableStore state
    (built_buildable doublingStore oneTableStore state all) (by decide) (by decide) unbounded).1⟩

end Tombstash
