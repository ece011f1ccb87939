import Tombstash.Merge

set_option autoImplicit false

namespace Tombstash

theorem pick_job_tiered (cfg : Config) (db next : DB) (job : MergeJob) (tiered : cfg.leveled = false)
    (picks : pickJob cfg db = some (next, job)) :
    next = { db with nextSeq := db.nextSeq + 1, compacting := true } ∧
      job = ⟨job.inputs, job.dropTombstones, 0, false, [db.nextSeq], none, none⟩ ∧ job.inputs ≠ [] ∧
      ∃ front back, db.sstables = front ++ job.inputs ++ back ∧ (job.dropTombstones = true → back = []) := by
  rw [pickJob, tiered, if_neg (by simp)] at picks
  obtain ⟨pick, chosen, eq⟩ := Option.map_eq_some_iff.mp picks
  cases eq
  obtain ⟨i, count, positive, inside, indices, reaches⟩ := pick_compaction_run _ _ _ pick chosen
  rw [List.length_map] at inside reaches
  have inputs : pick.indices.filterMap (fun n => db.sstables[n]?) = (db.sstables.drop i).take count := by
    rw [indices]
    exact range_filter_map db.sstables i count inside
  refine ⟨rfl, rfl, ?_, db.sstables.take i, db.sstables.drop (i + count), ?_, ?_⟩
  · intro empty
    have short := congrArg List.length (inputs.symm.trans empty)
    simp only [List.length_take, List.length_drop, List.length_nil] at short
    omega
  · rw [inputs]
    exact segment_split db.sstables i count
  · intro drop
    rw [reaches drop]
    exact List.drop_length

theorem pick_job_leveled (cfg : Config) (db next : DB) (job : MergeJob) (leveled : cfg.leveled = true)
    (picks : pickJob cfg db = some (next, job)) :
    next = { db with compacting := true } ∧ ∃ pick, pickLeveled cfg db.sstables = some pick ∧
      job = ⟨pick.inputs, pick.dropTombstones, pick.destLevel, true, [], none, none⟩ := by
  rw [pickJob, leveled, if_pos rfl] at picks
  obtain ⟨pick, chosen, eq⟩ := Option.map_eq_some_iff.mp picks
  cases eq
  exact ⟨rfl, pick, chosen, rfl⟩

theorem min_table_spec (first : Table) (rest : List Table) :
    minTable first rest ∈ first :: rest ∧
      ∀ table ∈ first :: rest, ¬ table.sst.minKey < (minTable first rest).sst.minKey := by
  unfold minTable
  induction rest generalizing first with
  | nil => simp
  | cons table rest ih =>
      rw [List.foldl_cons]
      by_cases less : table.sst.minKey < first.sst.minKey
      · rw [if_pos less]
        obtain ⟨member, least⟩ := ih table
        refine ⟨List.mem_cons_of_mem _ member, fun other inside => ?_⟩
        rcases List.mem_cons.mp inside with rfl | inside
        · exact fun smaller => least table (by simp) (lt_trans less smaller)
        · exact least other inside
      · rw [if_neg less]
        obtain ⟨member, least⟩ := ih first
        refine ⟨?_, fun other inside => ?_⟩
        · rcases List.mem_cons.mp member with here | later
          · rw [here]
            simp
          · simp [later]
        · rcases List.mem_cons.mp inside with rfl | inside
          · exact least other (by simp)
          · rcases List.mem_cons.mp inside with rfl | inside
            · exact fun smaller => least first (by simp) (lt_of_le_of_lt (not_lt.mp less) smaller)
            · exact least other (by simp [inside])

-- What a leveled pick takes: all of level 0 or one table of a deeper level,
-- and the tables of the next level that meet the range of these.
structure LeveledChoice (tables : List Table) (pick : LeveledPick) (source : Int) (first : Table) (rest : List Table) :
    Prop where
  chosen : sourceTables tables source = some (first, rest)
  bounded : source < intMax
  nonneg : 0 ≤ source
  inputs : pick.inputs = first :: rest ++
    (atLevel tables (source + 1)).filter (overlaps (lowKey first rest) (highKey first rest))
  dest : pick.destLevel = source + 1
  drops : pick.dropTombstones = decide (source + 1 ≥ maxLevel tables)

theorem pick_leveled_choice (cfg : Config) (tables : List Table) (pick : LeveledPick)
    (picks : pickLeveled cfg tables = some pick) :
    ∃ source first rest, LeveledChoice tables pick source first rest := by
  rw [pickLeveled] at picks
  by_cases pending : leveledPending cfg tables = true
  · rw [if_pos pending] at picks
    cases level : sourceLevel cfg tables with
    | none => simp [level] at picks
    | some source =>
        cases chosen : sourceTables tables source with
        | none => simp [level, chosen] at picks
        | some taken =>
            obtain ⟨first, rest⟩ := taken
            simp only [level, chosen] at picks
            by_cases large : source ≥ intMax
            · rw [if_pos large] at picks
              cases picks
            · rw [if_neg large] at picks
              cases picks
              have nonneg : 0 ≤ source := by
                rw [sourceLevel] at level
                split at level
                · cases level
                  exact Int.le_refl 0
                · obtain ⟨n, _, rfl⟩ := List.mem_map.mp (List.mem_of_find?_eq_some level)
                  exact Int.natCast_nonneg n
              exact ⟨source, first, rest, chosen, by omega, nonneg, rfl, rfl, rfl⟩
  · rw [if_neg pending] at picks
    cases picks

theorem mem_at_level (tables : List Table) (level : Int) (table : Table) :
    table ∈ atLevel tables level ↔ table ∈ tables ∧ table.level = level := by
  simp [atLevel]

theorem source_tables_members (tables : List Table) (source : Int) (first : Table) (rest : List Table)
    (chosen : sourceTables tables source = some (first, rest)) :
    (∀ table ∈ first :: rest, table ∈ tables ∧ table.level = source) ∧ (source = 0 → first :: rest = atLevel tables 0) ∧
      (source ≠ 0 → rest = []) := by
  rw [sourceTables] at chosen
  cases level : atLevel tables source with
  | nil => simp [level] at chosen
  | cons head tail =>
      simp only [level] at chosen
      have inLevel : ∀ table ∈ head :: tail, table ∈ tables ∧ table.level = source := fun table member =>
        (mem_at_level tables source table).mp (level ▸ member)
      by_cases zero : source = 0
      · rw [if_pos zero] at chosen
        cases chosen
        exact ⟨inLevel, fun _ => by rw [← zero, level], fun other => absurd zero other⟩
      · rw [if_neg zero] at chosen
        cases chosen
        refine ⟨fun table member => ?_, fun other => absurd other zero, fun _ => rfl⟩
        rw [List.mem_singleton.mp member]
        exact inLevel _ (min_table_spec head tail).1

theorem leveled_choice_inputs (tables : List Table) (pick : LeveledPick) (source : Int) (first : Table)
    (rest : List Table) (choice : LeveledChoice tables pick source first rest) :
    pick.inputs ≠ [] ∧ ∀ table ∈ pick.inputs, table ∈ tables ∧ (table.level = source ∨ table.level = source + 1) := by
  obtain ⟨members, _, _⟩ := source_tables_members tables source first rest choice.chosen
  rw [choice.inputs]
  refine ⟨by simp, fun table member => ?_⟩
  rcases List.mem_append.mp member with inSource | inNext
  · exact ⟨(members table inSource).1, .inl (members table inSource).2⟩
  · obtain ⟨present, level⟩ := (mem_at_level tables (source + 1) table).mp (List.mem_filter.mp inNext).1
    exact ⟨present, .inr level⟩

-- A merge that has only been picked.
structure FreshJob (tables : List Table) (job : MergeJob) : Prop where
  present : ∀ table ∈ job.inputs, table ∈ tables
  nonempty : job.inputs ≠ []
  unmerged : job.groups = none
  unbuilt : job.built = none
  seqs : job.leveled = false → ∃ seq, job.seqs = [seq]

theorem fresh_job_sound {serial : Prop} (tables : List Table) (job : MergeJob) (fresh : FreshJob tables job)
    (formed : ∀ table ∈ tables, table.sst.WellFormed) : MergeSound serial tables job := by
  obtain ⟨present, nonempty, unmerged, unbuilt, seqs⟩ := fresh
  exact ⟨fun _ => present, fun table member => formed table (present table member), nonempty, fun _ => unbuilt, seqs,
    by simp [unmerged], by simp [unbuilt], by simp [unbuilt]⟩

theorem pick_job_fresh (cfg : Config) (db next : DB) (job : MergeJob) (picks : pickJob cfg db = some (next, job)) :
    (∃ seq, next = { db with nextSeq := seq, compacting := true } ∧ db.nextSeq ≤ seq) ∧ FreshJob db.sstables job := by
  cases strategy : cfg.leveled with
  | false =>
      obtain ⟨rfl, shape, nonempty, front, back, split, _⟩ := pick_job_tiered cfg db next job strategy picks
      refine ⟨⟨db.nextSeq + 1, rfl, by omega⟩, fun table member => ?_, nonempty, by rw [shape], by rw [shape],
        fun _ => ⟨db.nextSeq, by rw [shape]⟩⟩
      rw [split]
      simp [member]
  | true =>
      obtain ⟨rfl, pick, chosen, rfl⟩ := pick_job_leveled cfg db next job strategy picks
      obtain ⟨source, first, rest, choice⟩ := pick_leveled_choice cfg db.sstables pick chosen
      obtain ⟨nonempty, members⟩ := leveled_choice_inputs db.sstables pick source first rest choice
      exact ⟨⟨db.nextSeq, rfl, by omega⟩, fun table member => (members table member).1, nonempty, rfl, rfl, by simp⟩

theorem pick_all_fresh (db : DB) (many : 1 < db.sstables.length) :
    FreshJob db.sstables ⟨db.sstables, true, 0, false, [db.nextSeq], none, none⟩ := by
  refine ⟨fun _ member => member, fun empty => ?_, rfl, rfl, fun _ => ⟨db.nextSeq, rfl⟩⟩
  rw [show db.sstables = [] from empty] at many
  simp at many

end Tombstash
