import Tombstash.Contents

set_option autoImplicit false

namespace Tombstash

def Before (tables : List Table) (a b : Table) : Prop := [a, b].Sublist tables

theorem before_total (tables : List Table) (a b : Table) (inA : a ∈ tables) (inB : b ∈ tables) (different : a ≠ b) :
    Before tables a b ∨ Before tables b a := by
  induction tables with
  | nil => simp at inA
  | cons first rest ih =>
      rcases List.mem_cons.mp inA with rfl | laterA
      · rcases List.mem_cons.mp inB with same | laterB
        · exact absurd same.symm different
        · exact .inl (.cons_cons a (List.singleton_sublist.mpr laterB))
      · rcases List.mem_cons.mp inB with rfl | laterB
        · exact .inr (.cons_cons b (List.singleton_sublist.mpr laterA))
        · rcases ih laterA laterB with before | before
          · exact .inl (before.cons first)
          · exact .inr (before.cons first)

theorem pairwise_before (rel : Table → Table → Prop) (tables : List Table) (ordered : tables.Pairwise rel) (a b : Table)
    (before : Before tables a b) : rel a b :=
  List.pairwise_iff_forall_sublist.mp ordered before

theorem layers_before (stamp : Nat → Layer Bytes) (tables : List Table)
    (ordered : (layersOf stamp tables).Pairwise Newer) (a b : Table) (before : Before tables a b) :
    Newer (stamp a.id) (stamp b.id) :=
  pairwise_before _ tables (List.pairwise_map.mp ordered) a b before

theorem holds_tables (stamp : Nat → Layer Bytes) (tables : List Table) (key : Bytes) (n : Nat) :
    Holds (layersOf stamp tables) key n ↔ ∃ table ∈ tables, stamp table.id key = some n := by
  simp [Holds, layersOf]

def HasKey (table : Table) (key : Bytes) : Prop := ∃ rec ∈ table.sst.records, rec.key = key

theorem stamped_has_key (log : ValueLog) (history : List Write) (layer : Layer Bytes) (table : Table) (key : Bytes)
    (n : Nat) (stamped : Stamped log history layer table.sst.records) (there : layer key = some n) :
    HasKey table key := by
  obtain ⟨rec, found⟩ := answers_holds log history layer _ stamped key n there
  obtain ⟨member, same⟩ := find_key_some Record.key key _ rec found
  exact ⟨rec, member, same⟩

-- Where a table of sequence number and level goes in the leveled order.
def LevelBefore (a b : Table) : Prop :=
  a.level < b.level ∨
    a.level = b.level ∧ (if a.level = 0 then seqOfPath b.name < seqOfPath a.name else a.sst.maxKey < b.sst.minKey)

-- A leveled merge in flight. The tables it leaves are in leveled order, and
-- those that share keys with its inputs stand on the side of their level.
structure LeveledPlaced (tables : List Table) (job : MergeJob) : Prop where
  sub : job.inputs.Sublist tables
  deep : 1 ≤ job.destLevel
  bounded : job.destLevel ≤ intMax
  kept : (tables.filter (notAmong (tableIds job.inputs))).Pairwise LevelBefore
  meets : ∀ table ∈ tables, table.id ∉ tableIds job.inputs → ∀ input ∈ job.inputs, ∀ key, HasKey table key →
    HasKey input key → (table.level < job.destLevel ∧ Before tables table input) ∨
      (job.destLevel < table.level ∧ job.dropTombstones = false ∧ Before tables input table)
  clear : ∀ table ∈ tables, table.id ∉ tableIds job.inputs → table.level = job.destLevel →
    (∀ input ∈ job.inputs, ∀ key, HasKey input key → key < table.sst.minKey) ∨
      (∀ input ∈ job.inputs, ∀ key, HasKey input key → table.sst.maxKey < key)

-- A size-tiered merge or compact_all in flight: its inputs are neighbours.
def TieredPlaced (tables : List Table) (job : MergeJob) : Prop :=
  ∃ front back, tables = front ++ job.inputs ++ back ∧ (job.dropTombstones = true → back = [])

structure Placed (tables : List Table) (job : MergeJob) : Prop where
  tiered : job.leveled = false → TieredPlaced tables job
  leveled : job.leveled = true → LeveledPlaced tables job

theorem placed_same (tables : List Table) (job next : MergeJob) (same : SameJob job next) (placed : Placed tables job) :
    Placed tables next := by
  refine ⟨fun tiered => ?_, fun leveled => ?_⟩
  · obtain ⟨front, back, split, reaches⟩ := placed.tiered (same.leveled ▸ tiered)
    exact ⟨front, back, by rw [same.inputs]; exact split, by rw [same.drop]; exact reaches⟩
  · obtain ⟨sub, deep, bounded, kept, meets, clear⟩ := placed.leveled (same.leveled ▸ leveled)
    exact ⟨by rw [same.inputs]; exact sub, by rw [same.dest]; exact deep, by rw [same.dest]; exact bounded,
      by rw [same.inputs]; exact kept,
      by rw [same.inputs, same.dest, same.drop]; exact meets, by rw [same.inputs, same.dest]; exact clear⟩

theorem placed_push (tables : List Table) (table : Table) (job : MergeJob) (placed : Placed tables job)
    (fresh : table.id ∉ tableIds tables) (flat : table.level = 0)
    (newest : job.leveled = true → ∀ other ∈ tables, other.id ∉ tableIds job.inputs → other.level = 0 →
      seqOfPath other.name < seqOfPath table.name)
    (levels : job.leveled = true → ∀ other ∈ tables, 0 ≤ other.level) : Placed (table :: tables) job := by
  refine ⟨fun tiered => ?_, fun leveled => ?_⟩
  · obtain ⟨front, back, split, reaches⟩ := placed.tiered tiered
    exact ⟨table :: front, back, by rw [split]; rfl, reaches⟩
  · obtain ⟨sub, deep, bounded, kept, meets, clear⟩ := placed.leveled leveled
    have outside : table.id ∉ tableIds job.inputs := fun member => by
      obtain ⟨input, inside, same⟩ := List.mem_map.mp member
      exact fresh (List.mem_map.mpr ⟨input, sub.subset inside, same⟩)
    refine ⟨sub.cons table, deep, bounded, ?_, ?_, ?_⟩
    · have stays : notAmong (tableIds job.inputs) table = true := by simp [notAmong, outside]
      rw [List.filter_cons, if_pos stays, List.pairwise_cons]
      refine ⟨fun other member => ?_, kept⟩
      obtain ⟨present, away⟩ := List.mem_filter.mp member
      have notInput : other.id ∉ tableIds job.inputs := by simpa [notAmong] using away
      by_cases zero : other.level = 0
      · refine .inr ⟨flat.trans zero.symm, ?_⟩
        rw [if_pos flat]
        exact newest leveled other present notInput zero
      · have nonneg := levels leveled other present
        exact .inl (by omega)
    · intro other member away input inputMember key hasOther hasInput
      rcases List.mem_cons.mp member with rfl | later
      · exact .inl ⟨by omega, .cons_cons _ (List.singleton_sublist.mpr (sub.subset inputMember))⟩
      · rcases meets other later away input inputMember key hasOther hasInput with
          ⟨level, before⟩ | ⟨level, drop, before⟩
        · exact .inl ⟨level, before.cons table⟩
        · exact .inr ⟨level, drop, before.cons table⟩
    · intro other member away level
      rcases List.mem_cons.mp member with rfl | later
      · omega
      · exact clear other later away level

end Tombstash
