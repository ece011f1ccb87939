import Tombstash.Placement

set_option autoImplicit false

namespace Tombstash

theorem forall_two_get {A B : Type} (rel : A → B → Prop) (left : List A) (right : List B)
    (related : List.Forall₂ rel left right) (k : Nat) (a : A) (present : left[k]? = some a) :
    ∃ b, right[k]? = some b ∧ rel a b := by
  induction related generalizing k with
  | nil => simp at present
  | @cons x y _ _ here _ ih =>
      cases k with
      | zero =>
          cases present
          exact ⟨y, rfl, here⟩
      | succ k => exact ih k (by simpa using present)

section Merged

variable (stamp : Nat → Layer Bytes) (start : Nat) (inputs : List Table) (groups : List (List Record))

-- The versions in the output of a merge are those of its inputs.
def mergedLayer (records : List Record) : Layer Bytes :=
  restrict (firstLayer (layersOf stamp inputs)) (fun key => findKey Record.key key records)

def mergedStamp : Nat → Layer Bytes := fun id =>
  if id < start then stamp id
  else
    match groups[id - start]? with
    | some group => mergedLayer stamp inputs group
    | none => fun _ => none

theorem merged_stamp_old (tables : List Table) (older : ∀ table ∈ tables, table.id < start) :
    layersOf (mergedStamp stamp start inputs groups) tables = layersOf stamp tables := by
  rw [layersOf, layersOf, List.map_inj_left]
  intro table member
  rw [mergedStamp, if_pos (older table member)]

variable (level : Int) (outputs : List (Bytes × SSTable))

theorem merged_stamp_output (represent : List.Forall₂ (fun output group => Represents output.2 group) outputs groups)
    (table : Table) (member : table ∈ outputTables start level outputs) :
    ∃ (k : Nat) (group : List Record), groups[k]? = some group ∧ table.id = start + k ∧ table.sst.records = group ∧
      mergedStamp stamp start inputs groups table.id = mergedLayer stamp inputs group := by
  obtain ⟨entry, inside, rfl⟩ := List.mem_map.mp member
  obtain ⟨group, there, represents⟩ := forall_two_get _ outputs groups represent entry.2 entry.1
    (List.mem_zipIdx_iff_getElem?.mp inside)
  refine ⟨entry.2, group, there, rfl, represents_records _ group represents, ?_⟩
  rw [mergedStamp, if_neg (by simp), Nat.add_sub_cancel_left, there]

theorem output_table_of_group (represent : List.Forall₂ (fun output group => Represents output.2 group) outputs groups)
    (k : Nat) (group : List Record) (there : groups[k]? = some group) :
    ∃ table ∈ outputTables start level outputs,
      mergedStamp stamp start inputs groups table.id = mergedLayer stamp inputs group := by
  obtain ⟨output, found, represents⟩ := forall_two_get _ groups outputs represent.flip k group there
  refine ⟨⟨start + k, output.1, level, output.2⟩, ?_, ?_⟩
  · exact List.mem_map.mpr ⟨(output, k), List.mem_zipIdx_iff_getElem?.mpr found, rfl⟩
  · rw [mergedStamp, if_neg (by simp), Nat.add_sub_cancel_left, there]

theorem merged_layer_some (records : List Record) (key : Bytes) (n : Nat) :
    mergedLayer stamp inputs records key = some n ↔
      (∃ rec ∈ records, rec.key = key) ∧ firstLayer (layersOf stamp inputs) key = some n := by
  rw [mergedLayer, restrict]
  cases found : findKey Record.key key records with
  | some rec =>
      have member := find_key_some Record.key key records rec found
      simp only [Option.isSome_some, if_true]
      exact ⟨fun first => ⟨⟨rec, member⟩, first⟩, fun both => both.2⟩
  | none =>
      have absent := (find_key_none Record.key key records).mp found
      simp only [Option.isSome_none, Bool.false_eq_true, if_false]
      refine ⟨fun bad => (by cases bad), fun both => ?_⟩
      obtain ⟨⟨rec, member, same⟩, _⟩ := both
      exact absurd same (absent rec member)

theorem outputs_hold (represent : List.Forall₂ (fun output group => Represents output.2 group) outputs groups)
    (key : Bytes) (n : Nat) :
    Holds (layersOf (mergedStamp stamp start inputs groups) (outputTables start level outputs)) key n ↔
      mergedLayer stamp inputs groups.flatten key = some n := by
  rw [holds_tables, merged_layer_some]
  constructor
  · rintro ⟨table, member, there⟩
    obtain ⟨k, group, atK, _, _, stamped⟩ :=
      merged_stamp_output stamp start inputs groups level outputs represent table member
    rw [stamped, merged_layer_some] at there
    obtain ⟨⟨rec, inside, same⟩, first⟩ := there
    exact ⟨⟨rec, List.mem_flatten.mpr ⟨group, List.mem_of_getElem? atK, inside⟩, same⟩, first⟩
  · rintro ⟨⟨rec, inside, same⟩, first⟩
    obtain ⟨group, inGroups, inGroup⟩ := List.mem_flatten.mp inside
    obtain ⟨k, atK⟩ := List.getElem?_of_mem inGroups
    obtain ⟨table, member, stamped⟩ :=
      output_table_of_group stamp start inputs groups level outputs represent k group atK
    exact ⟨table, member, by rw [stamped, merged_layer_some]; exact ⟨⟨rec, inGroup, same⟩, first⟩⟩

end Merged

theorem groups_apart (groups : List (List Record)) (ascending : Ascending Record.key groups.flatten) (j k : Nat)
    (left right : List Record) (atJ : groups[j]? = some left) (atK : groups[k]? = some right) (less : j < k)
    (a b : Record) (inLeft : a ∈ left) (inRight : b ∈ right) : a.key < b.key := by
  induction groups generalizing j k with
  | nil => simp at atJ
  | cons group rest ih =>
      rw [List.flatten_cons, Ascending, List.pairwise_append] at ascending
      obtain ⟨_, restAscending, across⟩ := ascending
      cases k with
      | zero => omega
      | succ k =>
          rw [List.getElem?_cons_succ] at atK
          cases j with
          | zero =>
              cases atJ
              exact across a inLeft b (List.mem_flatten.mpr ⟨right, List.mem_of_getElem? atK, inRight⟩)
          | succ j =>
              rw [List.getElem?_cons_succ] at atJ
              exact ih restAscending j k atJ atK (by omega)

-- What a finished merge offers for installation.
structure Finished (log : ValueLog) (history : List Write) (stamp : Nat → Layer Bytes) (job : MergeJob)
    (outputs : List (Bytes × SSTable)) (groups : List (List Record)) : Prop where
  represent : List.Forall₂ (fun output group => Represents output.2 group) outputs groups
  ascending : Ascending Record.key groups.flatten
  merges : MergesTo history job.dropTombstones (layersOf stamp job.inputs) (mergedLayer stamp job.inputs groups.flatten)
  stamped : ∀ group ∈ groups, Stamped log history (mergedLayer stamp job.inputs group) group
  whole : job.leveled = false → ∃ records, groups = [records]
  filled : job.leveled = true → ∀ group ∈ groups, group ≠ []

theorem finished_merge (log : ValueLog) (history : List Write) (stamp : Nat → Layer Bytes) (tables : List Table)
    (job : MergeJob) (io : List DiskOp) (outputs : List (Bytes × SSTable)) (sound : MergeSound True tables job)
    (formed : ∀ table ∈ tables, table.sst.WellFormed) (built : job.built = some (io, outputs))
    (stamped : ∀ table ∈ tables, Stamped log history (stamp table.id) table.sst.records) :
    ∃ groups, Finished log history stamp job outputs groups := by
  obtain ⟨groups, grouped, represent⟩ := sound.built io outputs built
  obtain ⟨records, merges, flat, whole, filled⟩ := sound.merged groups grouped
  obtain ⟨merged, done, ascending, _, answers⟩ := merge_tables_spec job.inputs
    (fun table member => formed table (sound.present trivial table member)) job.dropTombstones
  rw [merges] at done
  cases done
  have inputs :=
    answers_tables log history stamp job.inputs (fun table member => stamped table (sound.present trivial table member))
  have finds : (fun key => findKey Record.key key records) =
      fun key => (firstMatch Record.key key (tableRuns job.inputs)).filter (keptBy job.dropTombstones) := funext answers
  refine ⟨groups, represent, flat ▸ ascending, ?_, ?_, fun tiered => ⟨records, whole tiered⟩, filled⟩
  · rw [flat, mergedLayer, finds]
    exact filter_merges log history _ _ job.dropTombstones inputs
  · intro group member
    refine answers_restrict log history _ _ _ inputs (fun key rec found => ?_)
    obtain ⟨inGroup, same⟩ := find_key_some Record.key key group rec found
    have inRecords : rec ∈ records := flat ▸ List.mem_flatten.mpr ⟨group, member, inGroup⟩
    have hit := ascending_find Record.key records ascending rec inRecords
    rw [same, answers] at hit
    exact (Option.filter_eq_some_iff.mp hit).1

theorem head_key_le (records : List Record) (ascending : Ascending Record.key records) (rec : Record)
    (member : rec ∈ records) : headKey records ≤ rec.key := by
  cases records with
  | nil => simp at member
  | cons first rest =>
      rw [show headKey (first :: rest) = first.key from rfl]
      rcases List.mem_cons.mp member with same | later
      · rw [same]
      · exact le_of_lt ((List.pairwise_cons.mp ascending).1 rec later)

theorem le_last_key (records : List Record) (ascending : Ascending Record.key records) (rec : Record)
    (member : rec ∈ records) : rec.key ≤ lastKey records := by
  induction records generalizing rec with
  | nil => simp at member
  | cons first rest ih =>
      obtain ⟨below, restAscending⟩ := List.pairwise_cons.mp ascending
      cases rest with
      | nil =>
          rw [List.mem_singleton.mp member]
          exact le_refl _
      | cons second others =>
          have same : lastKey (first :: second :: others) = lastKey (second :: others) := by
            simp [lastKey, List.getLast?_cons_cons]
          rw [same]
          rcases List.mem_cons.mp member with rfl | later
          · exact le_trans (le_of_lt (below second (by simp))) (ih restAscending second (by simp))
          · exact ih restAscending rec later

theorem has_key_range (table : Table) (formed : table.sst.WellFormed) (key : Bytes) (has : HasKey table key) :
    table.sst.minKey ≤ key ∧ key ≤ table.sst.maxKey := by
  obtain ⟨rec, member, rfl⟩ := has
  rw [formed.minKey, formed.maxKey]
  exact ⟨head_key_le _ formed.ascending rec member, le_last_key _ formed.ascending rec member⟩

theorem table_before_iff (a b : Table) : tableBefore a b = true ↔ a.level < b.level ∨
    a.level = b.level ∧ (if a.level = 0 then seqOfPath b.name < seqOfPath a.name else a.sst.minKey < b.sst.minKey) := by
  rw [tableBefore]
  by_cases same : a.level = b.level
  · rw [if_neg (by simp [same])]
    by_cases zero : a.level = 0
    · rw [if_pos zero, if_pos zero]
      simp [same]
    · rw [if_neg zero, if_neg zero]
      simp [same]
  · rw [if_pos same]
    simp [same]

theorem reorder_sorted (tables : List Table) :
    (reorderSstables tables).Pairwise (fun a b => tableBefore b a = false) := by
  have total : Std.Total (fun a b : Table => tableBefore b a = false) := by
    refine ⟨fun a b => ?_⟩
    by_contra neither
    simp only [not_or, Bool.not_eq_false, table_before_iff] at neither
    obtain ⟨one, two⟩ := neither
    split_ifs at one two with zero other zero
    · omega
    · omega
    · omega
    · rcases one with less | ⟨same, less⟩
      · omega
      · rcases two with more | ⟨_, more⟩
        · omega
        · exact lt_asymm less more
  have trans : IsTrans Table (fun a b => tableBefore b a = false) := by
    refine ⟨fun a b c ab bc => ?_⟩
    rw [← Bool.not_eq_true, table_before_iff] at ab bc ⊢
    rintro (less | ⟨same, less⟩)
    · refine ab (.inl ?_)
      by_contra above
      exact bc (.inl (by omega))
    · have levels : b.level = a.level := by
        by_contra different
        rcases lt_or_gt_of_ne different with low | high
        · exact ab (.inl low)
        · exact bc (.inl (by omega))
      by_cases zero : a.level = 0
      · have atC : c.level = 0 := by omega
        rw [if_pos atC] at less
        have notAb : ¬ seqOfPath a.name < seqOfPath b.name := fun more =>
          ab (.inr ⟨levels, by rw [if_pos (by omega)]; exact more⟩)
        have notBc : ¬ seqOfPath b.name < seqOfPath c.name := fun more =>
          bc (.inr ⟨by omega, by rw [if_pos (by omega)]; exact more⟩)
        omega
      · have atC : ¬ c.level = 0 := by omega
        rw [if_neg atC] at less
        have notAb : ¬ b.sst.minKey < a.sst.minKey := fun more =>
          ab (.inr ⟨levels, by rw [if_neg (by omega)]; exact more⟩)
        have notBc : ¬ c.sst.minKey < b.sst.minKey := fun more =>
          bc (.inr ⟨by omega, by rw [if_neg (by omega)]; exact more⟩)
        exact notAb (lt_of_le_of_lt (not_lt.mp notBc) less)
  exact List.pairwise_insertionSort _ tables

section Installation

variable (log : ValueLog) (history : List Write) (stamp : Nat → Layer Bytes) (tables : List Table) (start : Nat)
  (job : MergeJob) (outputs : List (Bytes × SSTable)) (groups : List (List Record))

theorem nodup_middle (front middle back : List Table) (distinct : (tableIds (front ++ middle ++ back)).Nodup) :
    (∀ table ∈ front, table.id ∉ tableIds middle) ∧ ∀ table ∈ back, table.id ∉ tableIds middle := by
  rw [tableIds, List.map_append, List.map_append, List.nodup_append, List.nodup_append] at distinct
  obtain ⟨⟨_, _, frontMiddle⟩, _, middleBack⟩ := distinct
  refine ⟨fun table member inside => ?_, fun table member inside => ?_⟩
  · exact frontMiddle _ (List.mem_map_of_mem member) _ inside rfl
  · exact middleBack _ (List.mem_append_right _ inside) _ (List.mem_map_of_mem member) rfl

theorem tiered_install_faithful (name : Bytes) (sst : SSTable) (records : List Record)
    (faithful : Faithful history (layersOf stamp tables)) (distinct : (tableIds tables).Nodup)
    (older : ∀ table ∈ tables, table.id < start) (nonempty : job.inputs ≠ []) (placed : TieredPlaced tables job)
    (merges : MergesTo history job.dropTombstones (layersOf stamp job.inputs) (mergedLayer stamp job.inputs records)) :
    Faithful history (layersOf (mergedStamp stamp start job.inputs [records])
      (replaceInputs (tableIds job.inputs) ⟨start, name, 0, sst⟩ false tables)) := by
  obtain ⟨front, back, rfl, reaches⟩ := placed
  obtain ⟨awayFront, awayBack⟩ := nodup_middle front job.inputs back distinct
  have oldFront :=
    merged_stamp_old stamp start job.inputs [records] front (fun table member => older table (by simp [member]))
  have oldBack :=
    merged_stamp_old stamp start job.inputs [records] back (fun table member => older table (by simp [member]))
  have output : layersOf (mergedStamp stamp start job.inputs [records]) [⟨start, name, 0, sst⟩] =
      [mergedLayer stamp job.inputs records] := by
    simp [layersOf, mergedStamp]
  rw [replace_inputs_segment (tableIds job.inputs) _ front job.inputs back nonempty
    (fun table member => List.mem_map_of_mem member)
    awayFront awayBack]
  rw [layersOf, List.map_append, List.map_append, ← layersOf, ← layersOf, ← layersOf, oldFront, oldBack, output]
  rw [layersOf, List.map_append, List.map_append, ← layersOf, ← layersOf, ← layersOf] at faithful
  refine faithful_segment history _ _ _ _ job.dropTombstones faithful merges (fun drop => ?_)
  rw [reaches drop]
  rfl

variable (faithful : Faithful history (layersOf stamp tables)) (formed : ∀ table ∈ tables, table.sst.WellFormed)
  (stamped : ∀ table ∈ tables, Stamped log history (stamp table.id) table.sst.records)
  (older : ∀ table ∈ tables, table.id < start) (placed : LeveledPlaced tables job)
  (finished : Finished log history stamp job outputs groups)

include stamped placed in
theorem kept_input_order (faithful : Faithful history (layersOf stamp tables)) (kept input : Table)
    (inKept : kept ∈ tables) (away : kept.id ∉ tableIds job.inputs) (inInputs : input ∈ job.inputs) (key : Bytes)
    (m n : Nat) (atKept : stamp kept.id key = some m) (atInput : stamp input.id key = some n) :
    (kept.level < job.destLevel ∧ n < m) ∨ (job.destLevel < kept.level ∧ job.dropTombstones = false ∧ m < n) := by
  have inTables := placed.sub.subset inInputs
  have hasKept := stamped_has_key log history _ kept key m (stamped kept inKept) atKept
  have hasInput := stamped_has_key log history _ input key n (stamped input inTables) atInput
  rcases placed.meets kept inKept away input inInputs key hasKept hasInput with ⟨level, before⟩ | ⟨level, drop, before⟩
  · exact .inl ⟨level, layers_before stamp tables faithful.ordered kept input before key m n atKept atInput⟩
  · exact .inr ⟨level, drop, layers_before stamp tables faithful.ordered input kept before key n m atInput atKept⟩

include faithful formed stamped placed in
theorem kept_order (a b : Table) (inA : a ∈ tables) (inB : b ∈ tables) (awayA : a.id ∉ tableIds job.inputs)
    (awayB : b.id ∉ tableIds job.inputs) (different : a ≠ b) (sorted : tableBefore b a = false) :
    Newer (stamp a.id) (stamp b.id) := by
  rcases before_total tables a b inA inB different with before | before
  · exact layers_before stamp tables faithful.ordered a b before
  · have keptBefore : Before (tables.filter (notAmong (tableIds job.inputs))) b a := by
      have filtered := before.filter (notAmong (tableIds job.inputs))
      simpa [Before, notAmong, awayA, awayB] using filtered
    rw [← Bool.not_eq_true, table_before_iff] at sorted
    rcases pairwise_before _ _ placed.kept b a keptBefore with less | ⟨same, apart⟩
    · exact absurd (.inl less) sorted
    · by_cases zero : b.level = 0
      · rw [if_pos zero] at apart
        exact absurd (.inr ⟨same, by rw [if_pos zero]; exact apart⟩) sorted
      · rw [if_neg zero] at apart
        intro key m n atA atB
        have lowA := (has_key_range a (formed a inA) key (stamped_has_key log history _ a key m (stamped a inA) atA)).1
        have highB := (has_key_range b (formed b inB) key (stamped_has_key log history _ b key n (stamped b inB) atB)).2
        exact absurd (lt_of_le_of_lt highB apart) (not_lt.mpr lowA)

theorem kept_member (older : ∀ table ∈ tables, table.id < start) (table : Table)
    (member : table ∈ tables.filter (notAmong (tableIds job.inputs))) :
    table ∈ tables ∧ table.id ∉ tableIds job.inputs ∧
      mergedStamp stamp start job.inputs groups table.id = stamp table.id := by
  obtain ⟨present, away⟩ := List.mem_filter.mp member
  refine ⟨present, by simpa [notAmong] using away, ?_⟩
  rw [mergedStamp, if_pos (older table present)]

theorem merged_from_input (group : List Record) (key : Bytes) (n : Nat)
    (there : mergedLayer stamp job.inputs group key = some n) :
    ∃ input ∈ job.inputs, stamp input.id key = some n :=
  (holds_tables stamp job.inputs key n).mp
    (first_layer_some _ key n ((merged_layer_some stamp job.inputs group key n).mp there).2)

theorem outputs_apart (finished : Finished log history stamp job outputs groups) (j k : Nat) (left right : List Record)
    (atJ : groups[j]? = some left) (atK : groups[k]? = some right) (different : j ≠ k) :
    Newer (mergedLayer stamp job.inputs left) (mergedLayer stamp job.inputs right) := by
  intro key m n atLeft atRight
  obtain ⟨⟨a, inLeft, keyA⟩, _⟩ := (merged_layer_some stamp job.inputs left key m).mp atLeft
  obtain ⟨⟨b, inRight, keyB⟩, _⟩ := (merged_layer_some stamp job.inputs right key n).mp atRight
  have strict : a.key < b.key ∨ b.key < a.key := by
    rcases lt_or_gt_of_ne different with less | more
    · exact .inl (groups_apart groups finished.ascending j k left right atJ atK less a b inLeft inRight)
    · exact .inr (groups_apart groups finished.ascending k j right left atK atJ more b a inRight inLeft)
  rw [keyA, keyB, or_self] at strict
  exact absurd strict (lt_irrefl key)

include faithful formed stamped older placed finished in
theorem installed_order (level : Int) (dest : level = job.destLevel) (a b : Table)
    (inA : a ∈ tables.filter (notAmong (tableIds job.inputs)) ++ outputTables start level outputs)
    (inB : b ∈ tables.filter (notAmong (tableIds job.inputs)) ++ outputTables start level outputs)
    (different : a.id ≠ b.id) (sorted : tableBefore b a = false) :
    Newer (mergedStamp stamp start job.inputs groups a.id) (mergedStamp stamp start job.inputs groups b.id) := by
  have outputSpec := merged_stamp_output stamp start job.inputs groups level outputs finished.represent
  have unsorted : ¬ b.level < a.level := fun less => by
    rw [(table_before_iff b a).mpr (.inl less)] at sorted
    cases sorted
  rcases List.mem_append.mp inA with keptA | outA
  · obtain ⟨presentA, awayA, oldA⟩ := kept_member stamp tables start job groups older a keptA
    rcases List.mem_append.mp inB with keptB | outB
    · obtain ⟨presentB, awayB, oldB⟩ := kept_member stamp tables start job groups older b keptB
      rw [oldA, oldB]
      exact kept_order log history stamp tables job faithful formed stamped placed a b presentA presentB awayA awayB
        (fun same => different (by rw [same])) sorted
    · obtain ⟨_, group, _, _, _, stampB⟩ := outputSpec b outB
      have levelB := (output_tables_member _ _ _ b outB).2.2.1
      rw [oldA, stampB]
      intro key m n atA atB
      obtain ⟨input, inInputs, atInput⟩ := merged_from_input stamp job group key n atB
      rcases kept_input_order log history stamp tables job stamped placed faithful a input presentA
        awayA inInputs key m n
        atA atInput with ⟨_, newer⟩ | ⟨deeper, _⟩
      · exact newer
      · exact absurd (by omega) unsorted
  · obtain ⟨j, groupA, atJ, idA, _, stampA⟩ := outputSpec a outA
    have levelA := (output_tables_member _ _ _ a outA).2.2.1
    rcases List.mem_append.mp inB with keptB | outB
    · obtain ⟨presentB, awayB, oldB⟩ := kept_member stamp tables start job groups older b keptB
      rw [oldB, stampA]
      intro key m n atA atB
      obtain ⟨input, inInputs, atInput⟩ := merged_from_input stamp job groupA key m atA
      rcases kept_input_order log history stamp tables job stamped placed faithful b input presentB
        awayB inInputs key n m
        atB atInput with ⟨shallower, _⟩ | ⟨_, _, older⟩
      · exact absurd (by omega) unsorted
      · exact older
    · obtain ⟨k, groupB, atK, idB, _, stampB⟩ := outputSpec b outB
      rw [stampA, stampB]
      exact outputs_apart log history stamp job outputs groups finished j k groupA groupB atJ atK
        (fun same => different (by rw [idA, idB, same]))

include faithful formed stamped older placed finished in
theorem leveled_install_faithful (level : Int) (dest : level = job.destLevel) (distinct : (tableIds tables).Nodup) :
    Faithful history (layersOf (mergedStamp stamp start job.inputs groups)
      (reorderSstables (tables.filter (notAmong (tableIds job.inputs)) ++ outputTables start level outputs))) := by
  have keptLayers : layersOf (mergedStamp stamp start job.inputs groups)
    (tables.filter (notAmong (tableIds job.inputs))) =
      layersOf stamp (tables.filter (notAmong (tableIds job.inputs))) :=
    merged_stamp_old stamp start job.inputs groups _ (fun table member => older table (List.mem_filter.mp member).1)
  refine faithful_replace history (layersOf stamp tables)
    (layersOf stamp (tables.filter (notAmong (tableIds job.inputs))))
    (layersOf stamp job.inputs) _ (mergedLayer stamp job.inputs groups.flatten) job.dropTombstones faithful ?_
    (faithful.ordered.sublist (placed.sub.map _)) finished.merges ?_ ?_ ?_
  · intro key n
    simp only [holds_tables]
    constructor
    · rintro ⟨table, member, there⟩
      by_cases input : table.id ∈ tableIds job.inputs
      · obtain ⟨source, inside, same⟩ := List.mem_map.mp input
        exact .inr ⟨source, inside, by rw [same]; exact there⟩
      · exact .inl ⟨table, List.mem_filter.mpr ⟨member, by simp [notAmong, input]⟩, there⟩
    · rintro (⟨table, member, there⟩ | ⟨table, member, there⟩)
      · exact ⟨table, (List.mem_filter.mp member).1, there⟩
      · exact ⟨table, placed.sub.subset member, there⟩
  · intro key n
    rw [← keptLayers, ← outputs_hold stamp start job.inputs groups level outputs finished.represent]
    simp only [holds_tables, reorderSstables, List.mem_insertionSort, List.mem_append, or_and_right, exists_or]
  · have perm := List.perm_insertionSort (fun a b : Table => tableBefore b a = false)
      (tables.filter (notAmong (tableIds job.inputs)) ++ outputTables start level outputs)
    have apart := (perm.map Table.id).nodup_iff.mpr
      (installed_ids_nodup tables start level (tableIds job.inputs) outputs distinct older)
    rw [layersOf, List.pairwise_map]
    refine List.Pairwise.imp_of_mem ?_ ((reorder_sorted _).and (List.pairwise_map.mp apart))
    rintro a b inA inB ⟨sorted, different⟩
    exact installed_order log history stamp tables start job outputs groups faithful formed stamped
      older placed finished
      level dest a b (perm.mem_iff.mp inA) (perm.mem_iff.mp inB) different sorted
  · intro drop key m n inInputs inKept
    obtain ⟨input, inputMember, atInput⟩ := (holds_tables stamp job.inputs key n).mp inInputs
    obtain ⟨kept, keptMember, atKept⟩ := (holds_tables stamp _ key m).mp inKept
    obtain ⟨present, away, _⟩ := kept_member stamp tables start job groups older kept keptMember
    rcases kept_input_order log history stamp tables job stamped placed faithful kept input present away
      inputMember key m n
      atKept atInput with ⟨_, newer⟩ | ⟨_, notDropped, _⟩
    · exact newer
    · rw [drop] at notDropped
      cases notDropped

end Installation

end Tombstash
