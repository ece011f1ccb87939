import Tombstash.SSTableRead

set_option autoImplicit false

namespace Tombstash

structure CompactionPick where
  indices : List Nat
  dropTombstones : Bool
deriving DecidableEq, Repr

def contiguousToOldest (sortedIndices : List Nat) (total : Nat) : Bool :=
  match sortedIndices.head?, sortedIndices.getLast? with
  | some front, some back =>
      decide (back = total - 1) && sortedIndices.zipIdx.all (fun entry => decide (entry.1 = front + entry.2))
  | _, _ => false

-- !best || b < best_bucket
def beatsBest (b : Int) : Option (CompactionPick × Int) → Bool
  | none => true
  | some (_, bestBucket) => decide (b < bestBucket)

-- The outer loop of pick_compaction from table i on; each round handles one
-- maximal run of tables in one bucket. The floating-point size_bucket is the
-- parameter bucket.
def pickLoop (bucket : Nat → Int) (tables : List SSTable) (minMerge : Nat) :
    Nat → Nat → Option (CompactionPick × Int) → Option (CompactionPick × Int)
  | 0, _, best => best
  | fuel + 1, i, best =>
      match tables.drop i with
      | [] => best
      | first :: rest =>
          let b := bucket first.fileSize
          let j := i + 1 + (rest.takeWhile (fun table => decide (bucket table.fileSize = b))).length
          let best' :=
            if minMerge ≤ j - i ∧ beatsBest b best = true then
              some (⟨List.range' i (j - i), contiguousToOldest (List.range' i (j - i)) tables.length⟩, b)
            else best
          pickLoop bucket tables minMerge fuel j best'

def pickCompaction (bucket : Nat → Int) (tables : List SSTable) (minMerge : Nat) : Option CompactionPick :=
  if minMerge < 2 ∨ tables.length < minMerge then none
  else (pickLoop bucket tables minMerge tables.length 0 none).map Prod.fst

-- A round of the merge consumes a record, and no input has more of them than
-- bytes in its blocks.
def mergeFuel (inputs : List SSTable) : Nat := (inputs.map (fun table => table.index.length * table.file.length)).sum

def mergeEmit (dropTombstones : Bool) (rec : Record) : Except Error (Option Record) :=
  .ok (if dropTombstones = true ∧ rec.op = Op.delete then none else some rec)

def mergeRecords (inputs : List SSTable) (dropTombstones : Bool) : Except Error (List Record) := do
  let cursor ← inputs.mapM SSTable.iterator
  kwayMerge Record.key Iterator.head Iterator.next (mergeEmit dropTombstones) (mergeFuel inputs) cursor

theorem forall_two_right {A B : Type} (rel : A → B → Prop) (left : List A) (right : List B)
    (related : List.Forall₂ rel left right) (b : B) (member : b ∈ right) : ∃ a ∈ left, rel a b := by
  induction related with
  | nil => simp at member
  | cons here _ ih =>
      rcases List.mem_cons.mp member with same | later
      · exact ⟨_, by simp, same ▸ here⟩
      · obtain ⟨a, inside, holds⟩ := ih later
        exact ⟨a, by simp [inside], holds⟩

theorem forall_two_left {A B : Type} (rel : A → B → Prop) (left : List A) (right : List B)
    (related : List.Forall₂ rel left right) (a : A) (member : a ∈ left) : ∃ b ∈ right, rel a b :=
  forall_two_right (fun b a => rel a b) right left related.flip a member

theorem iterators_rep (inputs : List SSTable) (runs : List (List Record))
    (represent : List.Forall₂ Represents inputs runs) :
    ∃ cursors, inputs.mapM SSTable.iterator = .ok cursors ∧ List.Forall₂ IteratorRep cursors runs := by
  induction represent with
  | nil => exact ⟨[], rfl, .nil⟩
  | cons here _ ih =>
      obtain ⟨it, opened, rep⟩ := iterator_rep _ _ here
      obtain ⟨cursors, others, reps⟩ := ih
      refine ⟨it :: cursors, ?_, .cons rep reps⟩
      rw [List.mapM_cons, opened, others]
      rfl

theorem merge_fuel_enough (inputs : List SSTable) (runs : List (List Record))
    (represent : List.Forall₂ Represents inputs runs) : rowCount runs ≤ mergeFuel inputs := by
  induction represent with
  | nil => simp [rowCount]
  | @cons table run tables runs here _ ih =>
      have bound : run.length ≤ table.index.length * table.file.length := by
        obtain ⟨blocks, valid, flat⟩ := represents_blocks table run here
        cases blocks with
        | nil =>
            have none : run = [] := by simpa using flat.symm
            simp [none]
        | cons block rest =>
            have some : 1 ≤ table.index.length := by simp [valid.length]
            exact le_trans here.rows (Nat.le_mul_of_pos_left _ some)
      simp only [rowCount, mergeFuel, List.flatten_cons, List.length_append, List.map_cons, List.sum_cons] at ih ⊢
      omega

def keptBy (dropTombstones : Bool) (rec : Record) : Bool := !(dropTombstones && decide (rec.op = Op.delete))

theorem find_key_filter (rows : List Record) (ascending : Ascending Record.key rows) (keep : Record → Bool)
    (key : Bytes) :
    findKey Record.key key (rows.filter keep) = (findKey Record.key key rows).filter keep := by
  have kept := ascending_filter Record.key rows keep ascending
  apply Option.ext
  intro rec
  rw [ascending_find_iff Record.key _ kept, Option.filter_eq_some_iff, ascending_find_iff Record.key _ ascending,
    List.mem_filter]
  tauto

theorem merge_records_spec (inputs : List SSTable) (runs : List (List Record)) (drop : Bool)
    (represent : List.Forall₂ Represents inputs runs) :
    ∃ merged, mergeRecords inputs drop = .ok merged ∧ Ascending Record.key merged ∧
      (∀ rec ∈ merged, ∃ run ∈ runs, rec ∈ run) ∧
      ∀ key, findKey Record.key key merged = (firstMatch Record.key key runs).filter (keptBy drop) := by
  obtain ⟨cursors, opened, reps⟩ := iterators_rep inputs runs represent
  have ascendingRuns : ∀ run ∈ runs, Ascending Record.key run := by
    intro run member
    obtain ⟨table, _, rep⟩ := forall_two_right Represents inputs runs represent run member
    exact rep.ascending
  obtain ⟨ascending, answers⟩ := union_spec Record.key (mergeFuel inputs) runs ascendingRuns
    (merge_fuel_enough inputs runs represent)
  have emitted := kway_merge_union Record.key Iterator.head Iterator.next IteratorRep iterator_model (mergeEmit drop)
    (Option.guard (keptBy drop)) (mergeFuel inputs) cursors runs reps (by
      intro run _ row _
      rw [mergeEmit, Option.guard]
      by_cases gone : drop = true ∧ row.op = Op.delete <;> simp [gone, keptBy])
  rw [List.filterMap_eq_filter] at emitted
  refine ⟨_, by rw [mergeRecords, opened]; exact emitted, ascending_filter Record.key _ _ ascending, ?_, ?_⟩
  · intro rec member
    have inUnion := (List.mem_filter.mp member).1
    have found := ascending_find Record.key _ ascending rec inUnion
    rw [answers] at found
    obtain ⟨run, inside, present, _⟩ := first_match_some Record.key rec.key runs rec found
    exact ⟨run, inside, present⟩
  · intro key
    rw [find_key_filter _ ascending, answers]

theorem well_formed_represent (inputs : List SSTable) (formed : ∀ table ∈ inputs, table.WellFormed) :
    List.Forall₂ Represents inputs (inputs.map SSTable.records) := by
  rw [List.forall₂_map_right_iff, List.forall₂_same]
  exact formed

-- A record is in the merge exactly if the first input with its key has it
-- and it is not a tombstone to be dropped.
theorem merge_newest_wins (inputs : List SSTable) (formed : ∀ table ∈ inputs, table.WellFormed) (drop : Bool) :
    ∃ merged, mergeRecords inputs drop = .ok merged ∧ Ascending Record.key merged ∧
      ∀ rec, rec ∈ merged ↔ firstMatch Record.key rec.key (inputs.map SSTable.records) = some rec ∧
        ¬ (drop = true ∧ rec.op = Op.delete) := by
  obtain ⟨merged, done, ascending, _, answers⟩ :=
    merge_records_spec inputs _ drop (well_formed_represent inputs formed)
  refine ⟨merged, done, ascending, fun rec => ?_⟩
  have here := ascending_find_iff Record.key merged ascending rec.key rec
  rw [answers, Option.filter_eq_some_iff] at here
  rw [← and_iff_left (a := rec ∈ merged) (rfl : rec.key = rec.key), ← here]
  refine and_congr_right (fun _ => ?_)
  cases drop <;> simp [keptBy]

def oldRow : List Record := [⟨Op.put, [1], [], true, ⟨0, 9, 3⟩⟩]
def goneRow : List Record := [⟨Op.delete, [1], [], false, {}⟩]

theorem built_well_formed (records : List Record) (ascending : Ascending Record.key records)
    (storable : ∀ rec ∈ records, Storable rec) (fine : (buildTable smallBloom records).isOk = true) :
    ∃ table, (buildTable smallBloom records).bind openTable = .ok table ∧ Represents table records := by
  cases built : buildTable smallBloom records with
  | error e => simp [built, Except.isOk, Except.toBool] at fine
  | ok file =>
      obtain ⟨table, opened, _, _, represents⟩ := open_built_table smallBloom records file ascending storable built
      exact ⟨table, opened, represents⟩

-- A tombstone over a separated record: the newest wins, and is dropped when asked.
theorem merge_newest_wins_two : ∃ newer older merged, Represents newer goneRow ∧ Represents older oldRow ∧
    mergeRecords [newer, older] true = .ok merged ∧ ∀ rec ∈ merged, rec.key ≠ [1] := by
  obtain ⟨newer, _, newerRows⟩ := built_well_formed goneRow (by rw [Ascending]; decide)
    (by simpa [goneRow] using ⟨by decide, by decide, by decide, by decide, by decide⟩) (by decide +kernel)
  obtain ⟨older, _, olderRows⟩ := built_well_formed oldRow (by rw [Ascending]; decide)
    (by simpa [oldRow] using ⟨by decide, by decide, by decide, by decide, by decide⟩) (by decide +kernel)
  obtain ⟨merged, done, _, members⟩ := merge_newest_wins [newer, older]
    (by simpa using ⟨represents_well_formed newer _ newerRows, represents_well_formed older _ olderRows⟩) true
  refine ⟨newer, older, merged, newerRows, olderRows, done, fun rec member same => ?_⟩
  obtain ⟨found, kept⟩ := (members rec).mp member
  rw [List.map_cons, represents_records newer _ newerRows, same, first_match_cons] at found
  have gone : findKey Record.key [1] goneRow = goneRow[0]? := by decide
  rw [gone] at found
  obtain rfl : (⟨Op.delete, [1], [], false, {}⟩ : Record) = rec := by simpa [goneRow] using found
  exact kept ⟨rfl, rfl⟩

def isLive (rec : Record) : Bool := decide (rec.op ≠ Op.delete)

-- In place of its inputs their merge answers as they did, a tombstone counting
-- as absent.
theorem merged_run_shown (front inputs back : List (List Record)) (merged : List Record) (drop : Bool)
    (finds : ∀ key, findKey Record.key key merged = (firstMatch Record.key key inputs).filter (keptBy drop))
    (reaches : drop = true → back = []) (key : Bytes) :
    (firstMatch Record.key key (front ++ [merged] ++ back)).filter isLive =
      (firstMatch Record.key key (front ++ inputs ++ back)).filter isLive := by
  have here : firstMatch Record.key key [merged] = (firstMatch Record.key key inputs).filter (keptBy drop) := by
    rw [← finds, first_match_cons]
    simp [firstMatch]
  simp only [first_match_append, here]
  cases drop with
  | false =>
      have all : (firstMatch Record.key key inputs).filter (keptBy false) = firstMatch Record.key key inputs := by
        cases firstMatch Record.key key inputs <;> rfl
      rw [all]
  | true =>
      rw [reaches rfl]
      cases firstMatch Record.key key front with
      | some rec => rfl
      | none =>
          cases firstMatch Record.key key inputs with
          | none => rfl
          | some rec =>
              by_cases gone : rec.op = Op.delete <;> simp [Option.filter_some, keptBy, isLive, gone, firstMatch]

-- A maximal run i..j-1 of tables in bucket b.
structure MaximalRun (buckets : List Int) (i j : Nat) (b : Int) : Prop where
  filled : i < j
  same : ∀ k, i ≤ k → k < j → buckets[k]? = some b
  newer : ∀ k, k + 1 = i → buckets[k]? ≠ some b
  older : buckets[j]? ≠ some b

def Qualifies (buckets : List Int) (minMerge i j : Nat) (b : Int) : Prop := MaximalRun buckets i j b ∧ minMerge ≤ j - i

-- The run to pick among those that start before limit: of the smallest bucket,
-- and of these the newest.
structure Preferred (buckets : List Int) (minMerge limit i j : Nat) (b : Int) : Prop where
  qualifies : Qualifies buckets minMerge i j b
  before : i < limit
  first : ∀ i' j' b', Qualifies buckets minMerge i' j' b' → i' < limit → b < b' ∨ b = b' ∧ i ≤ i'

theorem maximal_run_inside (buckets : List Int) (i j : Nat) (b : Int) (run : MaximalRun buckets i j b) :
    j ≤ buckets.length := by
  have filled := run.filled
  obtain ⟨inside, _⟩ := List.getElem?_eq_some_iff.mp (run.same (j - 1) (by omega) (by omega))
  omega

theorem maximal_run_starts (buckets : List Int) (i j i' j' : Nat) (b b' : Int) (run : MaximalRun buckets i j b)
    (other : MaximalRun buckets i' j' b') (after : i ≤ i') (inside : i' < j) : i' = i := by
  by_contra different
  have here := run.same i' after inside
  rw [other.same i' (le_refl _) other.filled] at here
  have left := run.same (i' - 1) (by omega) (by omega)
  rw [← here] at left
  exact other.newer (i' - 1) (by omega) left

theorem maximal_run_unique (buckets : List Int) (i j j' : Nat) (b b' : Int) (run : MaximalRun buckets i j b)
    (other : MaximalRun buckets i j' b') : j' = j ∧ b' = b := by
  have here := run.same i (le_refl _) run.filled
  rw [other.same i (le_refl _) other.filled] at here
  cases here
  refine ⟨?_, rfl⟩
  rcases Nat.lt_trichotomy j' j with less | same | more
  · exact absurd (run.same j' (le_of_lt other.filled) less) other.older
  · exact same
  · exact absurd (other.same j (le_of_lt run.filled) more) run.older

theorem take_while_run (buckets : List Int) (i : Nat) (b : Int) (rest : List Int)
    (remaining : buckets.drop i = b :: rest) (newer : ∀ k, k + 1 = i → buckets[k]? ≠ buckets[i]?) :
    MaximalRun buckets i (i + 1 + (rest.takeWhile (fun other => decide (other = b))).length) b := by
  have at_ (k : Nat) : buckets[i + k]? = (b :: rest)[k]? := by rw [← remaining, List.getElem?_drop]
  have head : buckets[i]? = some b := by simpa using at_ 0
  refine ⟨by omega, ?_, ?_, ?_⟩
  · intro k after before
    obtain ⟨n, rfl⟩ : ∃ n, k = i + n := ⟨k - i, by omega⟩
    rw [at_]
    cases n with
    | zero => rfl
    | succ n =>
        have short : n < (rest.takeWhile (fun other => decide (other = b))).length := by omega
        have taken := List.getElem_mem short
        have equal : (rest.takeWhile (fun other => decide (other = b)))[n] = b := by
          simpa using List.mem_takeWhile_imp taken
        rw [List.getElem?_cons_succ,
          ← List.takeWhile_append_dropWhile (p := fun other => decide (other = b)) (l := rest),
          List.getElem?_append_left short, List.getElem?_eq_getElem short, equal]
  · intro k next
    rw [← head]
    exact newer k next
  · rw [Nat.add_assoc, at_, Nat.add_comm 1, List.getElem?_cons_succ]
    intro more
    have rest_eq := List.takeWhile_append_dropWhile (p := fun other => decide (other = b)) (l := rest)
    rw [← rest_eq, List.getElem?_append_right (by simp)] at more
    rw [List.takeWhile_append_dropWhile, Nat.sub_self, ← List.head?_eq_getElem?] at more
    have stops := List.head?_dropWhile_not (fun other => decide (other = b)) rest
    rw [more] at stops
    simp at stops

theorem contiguous_range (i count total : Nat) (some : 0 < count) (inside : i + count ≤ total) :
    contiguousToOldest (List.range' i count) total = decide (i + count = total) := by
  obtain ⟨count, rfl⟩ : ∃ less, count = less + 1 := ⟨count - 1, by omega⟩
  have steps : ∀ entry ∈ (List.range' i (count + 1)).zipIdx, entry.1 = i + entry.2 := by
    rintro ⟨value, n⟩ member
    obtain ⟨_, bound, eq⟩ := List.mem_zipIdx member
    rw [eq, List.getElem_range']
    omega
  have all : (List.range' i (count + 1)).zipIdx.all (fun entry => decide (entry.1 = i + entry.2)) = true := by
    rw [List.all_eq_true]
    intro entry member
    exact decide_eq_true (steps entry member)
  simp only [contiguousToOldest, List.head?_range', List.getLast?_range', Nat.add_eq_zero_iff, Nat.succ_ne_self,
    and_false, if_false, all, Bool.and_true]
  exact decide_eq_decide.mpr (by omega)

def bucketsOf (bucket : Nat → Int) (tables : List SSTable) : List Int := tables.map (fun table => bucket table.fileSize)

def runPick (tables : List SSTable) (i j : Nat) : CompactionPick := ⟨List.range' i (j - i), decide (j = tables.length)⟩

-- What best holds when the loop stands at table i.
def BestBefore (buckets : List Int) (tables : List SSTable) (minMerge limit : Nat) :
    Option (CompactionPick × Int) → Prop
  | none => ∀ i j b, Qualifies buckets minMerge i j b → limit ≤ i
  | some (pick, b) => ∃ i j, Preferred buckets minMerge limit i j b ∧ pick = runPick tables i j

theorem best_before_next (buckets : List Int) (tables : List SSTable) (minMerge i j : Nat) (b : Int)
    (best : Option (CompactionPick × Int)) (so_far : BestBefore buckets tables minMerge i best)
    (run : MaximalRun buckets i j b) :
    BestBefore buckets tables minMerge j
      (if minMerge ≤ j - i ∧ beatsBest b best = true then some (runPick tables i j, b) else best) := by
  have filled := run.filled
  -- A run that starts before j starts before i or is this one.
  have starts : ∀ i' j' b', Qualifies buckets minMerge i' j' b' → i' < j →
      i' < i ∨ i' = i ∧ b' = b ∧ minMerge ≤ j - i := by
    intro i' j' b' other before
    by_cases earlier : i' < i
    · exact .inl earlier
    · have same := maximal_run_starts buckets i j i' j' b b' run other.1 (by omega) before
      subst same
      obtain ⟨rfl, rfl⟩ := maximal_run_unique buckets i' j j' b b' run other.1
      exact .inr ⟨rfl, rfl, other.2⟩
  cases best with
  | none =>
      by_cases long : minMerge ≤ j - i
      · rw [if_pos ⟨long, rfl⟩]
        refine ⟨i, j, ⟨⟨run, long⟩, filled, ?_⟩, rfl⟩
        intro i' j' b' other before
        rcases starts i' j' b' other before with earlier | ⟨rfl, rfl, _⟩
        · exact absurd (so_far i' j' b' other) (by omega)
        · exact .inr ⟨rfl, le_refl _⟩
      · rw [if_neg (fun both => long both.1)]
        intro i' j' b' other
        by_contra before
        rcases starts i' j' b' other (by omega) with earlier | ⟨_, _, enough⟩
        · exact absurd (so_far i' j' b' other) (by omega)
        · exact long enough
  | some held =>
      obtain ⟨pick, bestBucket⟩ := held
      obtain ⟨i₀, j₀, preferred, shape⟩ := so_far
      have bestBefore := preferred.before
      by_cases replaced : minMerge ≤ j - i ∧ beatsBest b (some (pick, bestBucket)) = true
      · rw [if_pos replaced]
        have less : b < bestBucket := of_decide_eq_true replaced.2
        refine ⟨i, j, ⟨⟨run, replaced.1⟩, filled, ?_⟩, rfl⟩
        intro i' j' b' other before
        rcases starts i' j' b' other before with earlier | ⟨rfl, rfl, _⟩
        · rcases preferred.first i' j' b' other earlier with smaller | ⟨same, _⟩
          · exact .inl (lt_trans less smaller)
          · exact .inl (same ▸ less)
        · exact .inr ⟨rfl, le_refl _⟩
      · rw [if_neg replaced]
        refine ⟨i₀, j₀, ⟨preferred.qualifies, by omega, ?_⟩, shape⟩
        intro i' j' b' other before
        rcases starts i' j' b' other before with earlier | ⟨rfl, rfl, enough⟩
        · exact preferred.first i' j' b' other earlier
        · have notLess : ¬ b' < bestBucket := fun less => replaced ⟨enough, decide_eq_true less⟩
          rcases lt_or_eq_of_le (not_lt.mp notLess) with smaller | same
          · exact .inl smaller
          · exact .inr ⟨same, by omega⟩

theorem pick_loop_best (bucket : Nat → Int) (tables : List SSTable) (minMerge fuel i : Nat)
    (best : Option (CompactionPick × Int)) (enough : tables.length ≤ i + fuel)
    (boundary : ∀ k, k + 1 = i → i < tables.length → (bucketsOf bucket tables)[k]? ≠ (bucketsOf bucket tables)[i]?)
    (so_far : BestBefore (bucketsOf bucket tables) tables minMerge i best) :
    ∃ limit, tables.length ≤ limit ∧
      BestBefore (bucketsOf bucket tables) tables minMerge limit (pickLoop bucket tables minMerge fuel i best) := by
  induction fuel generalizing i best with
  | zero => exact ⟨i, enough, so_far⟩
  | succ fuel ih =>
      rw [pickLoop]
      cases remaining : tables.drop i with
      | nil => exact ⟨i, List.drop_eq_nil_iff.mp remaining, so_far⟩
      | cons first rest =>
          have inside : i < tables.length := by
            by_contra past
            rw [List.drop_eq_nil_of_le (by omega)] at remaining
            cases remaining
          have dropped : (bucketsOf bucket tables).drop i =
              bucket first.fileSize :: rest.map (fun table => bucket table.fileSize) := by
            rw [bucketsOf, ← List.map_drop, remaining, List.map_cons]
          have run := take_while_run (bucketsOf bucket tables) i (bucket first.fileSize) _ dropped
            (fun k next => boundary k next inside)
          rw [List.takeWhile_map, List.length_map] at run
          have taken :
            ((fun other => decide (other = bucket first.fileSize)) ∘ fun table : SSTable => bucket table.fileSize) =
              fun table => decide (bucket table.fileSize = bucket first.fileSize) := rfl
          rw [taken] at run
          generalize jEq :
            i + 1 + (rest.takeWhile (fun table => decide (bucket table.fileSize = bucket first.fileSize))).length = j
            at run
          have filled := run.filled
          have bounded := maximal_run_inside _ _ _ _ run
          rw [bucketsOf, List.length_map] at bounded
          have next := best_before_next _ tables minMerge i j _ best so_far run
          have flag : contiguousToOldest (List.range' i (j - i)) tables.length = decide (j = tables.length) := by
            rw [contiguous_range i (j - i) tables.length (by omega) (by omega)]
            exact decide_eq_decide.mpr (by omega)
          simp only [jEq, flag]
          refine ih j _ (by omega) ?_ next
          intro k before _ same
          have last := run.same k (by omega) (by omega)
          rw [same] at last
          exact run.older last

theorem qualifies_long (buckets : List Int) (minMerge i j : Nat) (b : Int) (run : Qualifies buckets minMerge i j b) :
    minMerge ≤ buckets.length := by
  have bounded := maximal_run_inside _ _ _ _ run.1
  have enough := run.2
  omega

theorem pick_compaction_spec (bucket : Nat → Int) (tables : List SSTable) (minMerge : Nat) :
    match pickCompaction bucket tables minMerge with
    | none => minMerge < 2 ∨ ∀ i j b, ¬ Qualifies (bucketsOf bucket tables) minMerge i j b
    | some pick => 2 ≤ minMerge ∧ ∃ i j b,
        Preferred (bucketsOf bucket tables) minMerge tables.length i j b ∧ pick = runPick tables i j := by
  have length : (bucketsOf bucket tables).length = tables.length := List.length_map _
  have inside : ∀ i j b, Qualifies (bucketsOf bucket tables) minMerge i j b → i < tables.length := by
    intro i j b run
    have bounded := maximal_run_inside _ _ _ _ run.1
    have filled := run.1.filled
    omega
  rw [pickCompaction]
  by_cases small : minMerge < 2 ∨ tables.length < minMerge
  · rw [if_pos small]
    rcases small with few | short
    · exact .inl few
    · right
      intro i j b run
      have long := qualifies_long _ _ _ _ _ run
      omega
  · rw [if_neg small]
    obtain ⟨limit, past, best⟩ := pick_loop_best bucket tables minMerge tables.length 0 none (by omega)
      (fun k next => absurd next (Nat.succ_ne_zero k)) (fun i _ _ _ => Nat.zero_le i)
    cases result : pickLoop bucket tables minMerge tables.length 0 none with
    | none =>
        rw [result] at best
        right
        intro i j b run
        have late := best i j b run
        have early := inside i j b run
        omega
    | some held =>
        obtain ⟨pick, b⟩ := held
        rw [result] at best
        obtain ⟨i, j, preferred, shape⟩ := best
        refine ⟨by omega, i, j, b, ⟨preferred.qualifies, inside i j b preferred.qualifies, ?_⟩, shape⟩
        intro i' j' b' other early
        exact preferred.first i' j' b' other (by omega)

-- A pick is a run of neighbours, and tombstones go only if it ends at the
-- oldest table.
def PicksRun (total : Nat) (pick : CompactionPick) : Prop :=
  ∃ i count, 0 < count ∧ i + count ≤ total ∧ pick.indices = List.range' i count ∧
    (pick.dropTombstones = true → i + count = total)

theorem pick_compaction_run (bucket : Nat → Int) (tables : List SSTable) (minMerge : Nat) (pick : CompactionPick)
    (chosen : pickCompaction bucket tables minMerge = some pick) : PicksRun tables.length pick := by
  have spec := pick_compaction_spec bucket tables minMerge
  rw [chosen] at spec
  obtain ⟨_, i, j, b, preferred, rfl⟩ := spec
  have filled := preferred.qualifies.1.filled
  have bounded := maximal_run_inside _ _ _ _ preferred.qualifies.1
  rw [bucketsOf, List.length_map] at bounded
  refine ⟨i, j - i, by omega, by omega, rfl, fun drop => ?_⟩
  have reaches : j = tables.length := of_decide_eq_true drop
  omega

-- What a newest-first list of tables shows of a key: the first match, unless it
-- is a tombstone.
def shownBy (tables : List SSTable) (key : Bytes) : Option Record :=
  (firstMatch Record.key key (tables.map SSTable.records)).filter isLive

theorem run_merge_shown (tables : List SSTable) (formed : ∀ table ∈ tables, table.WellFormed) (i j : Nat)
    (before : i < j) (inside : j ≤ tables.length) :
    ∃ merged, mergeRecords ((runPick tables i j).indices.filterMap (fun n => tables[n]?))
    (runPick tables i j).dropTombstones =
        .ok merged ∧
      ∀ output, SSTable.records output = merged → ∀ key,
        shownBy (tables.take i ++ [output] ++ tables.drop j) key = shownBy tables key := by
  have inputs : (runPick tables i j).indices.filterMap (fun n => tables[n]?) = (tables.drop i).take (j - i) :=
    range_filter_map tables i (j - i) (by omega)
  have split := segment_split tables i (j - i)
  rw [show i + (j - i) = j by omega] at split
  obtain ⟨merged, done, _, _, finds⟩ :=
    merge_records_spec ((tables.drop i).take (j - i)) _ (runPick tables i j).dropTombstones
    (well_formed_represent _ (fun table member => formed table (List.mem_of_mem_drop (List.mem_of_mem_take member))))
  refine ⟨merged, by rw [inputs, done], fun output holds key => ?_⟩
  have reaches : (runPick tables i j).dropTombstones = true → (tables.drop j).map SSTable.records = [] := by
    intro drop
    rw [of_decide_eq_true drop, List.drop_length]
    rfl
  have same :=
    merged_run_shown ((tables.take i).map SSTable.records) _ ((tables.drop j).map SSTable.records) merged _ finds
    reaches key
  rw [shownBy, shownBy]
  conv_rhs => rw [split]
  simp only [List.map_append, List.map_cons, List.map_nil, holds]
  exact same

theorem pick_compaction_exact (bucket : Nat → Int) (tables : List SSTable) (minMerge : Nat) :
    match pickCompaction bucket tables minMerge with
    | none => minMerge < 2 ∨ ∀ i j b, ¬ Qualifies (bucketsOf bucket tables) minMerge i j b
    | some pick => 2 ≤ minMerge ∧ ∃ i j b, Preferred (bucketsOf bucket tables) minMerge tables.length i j b ∧
        pick.indices = List.range' i (j - i) ∧ (pick.dropTombstones = true ↔ j = tables.length) ∧
        ((∀ table ∈ tables, table.WellFormed) →
          ∃ merged, mergeRecords (pick.indices.filterMap (fun n => tables[n]?)) pick.dropTombstones = .ok merged ∧
            ∀ output, SSTable.records output = merged → ∀ key,
              shownBy (tables.take i ++ [output] ++ tables.drop j) key = shownBy tables key) := by
  have spec := pick_compaction_spec bucket tables minMerge
  cases chosen : pickCompaction bucket tables minMerge with
  | none =>
      rw [chosen] at spec
      exact spec
  | some pick =>
      rw [chosen] at spec
      obtain ⟨enough, i, j, b, preferred, rfl⟩ := spec
      have bounded := maximal_run_inside _ _ _ _ preferred.qualifies.1
      rw [bucketsOf, List.length_map] at bounded
      refine ⟨enough, i, j, b, preferred, rfl, decide_eq_true_iff, fun formed => ?_⟩
      exact run_merge_shown tables formed i j preferred.qualifies.1.filled bounded

end Tombstash
