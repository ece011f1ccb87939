import Mathlib.Data.List.TakeWhile
import Tombstash.SSTableFormat

set_option autoImplicit false

namespace Tombstash

theorem head_key_least (block : List Record) (rest : List Record) (nonempty : block ≠ [])
    (ascending : Ascending Record.key (block ++ rest)) :
    (∃ first ∈ block, first.key = headKey block) ∧ ∀ rec ∈ block ++ rest, headKey block ≤ rec.key := by
  cases block with
  | nil => exact absurd rfl nonempty
  | cons first tail =>
      refine ⟨⟨first, by simp, rfl⟩, ?_⟩
      intro rec member
      rcases List.mem_cons.mp member with same | later
      · rw [same]
        exact le_refl _
      · exact le_of_lt ((List.pairwise_cons.mp ascending).1 rec later)

theorem scan_block_find (key : Bytes) (block : List Record) (ascending : Ascending Record.key block) :
    scanBlock key block = findKey Record.key key block := by
  induction block with
  | nil => rfl
  | cons rec rest ih =>
      obtain ⟨below, restAscending⟩ := List.pairwise_cons.mp ascending
      rw [scanBlock, find_key_cons]
      by_cases same : rec.key = key
      · rw [if_pos same, if_pos same]
      · rw [if_neg same, if_neg same]
        by_cases passed : key < rec.key
        · rw [if_pos passed]
          symm
          rw [find_key_none]
          intro later member
          exact ne_of_gt (lt_trans passed (below later member))
        · rw [if_neg passed, ih restAscending]

theorem scan_block_absent (key : Bytes) (block : List Record) (absent : ∀ rec ∈ block, rec.key ≠ key) :
    scanBlock key block = none := by
  induction block with
  | nil => rfl
  | cons rec rest ih =>
      rw [scanBlock, if_neg (absent rec (by simp)), ih (fun other member => absent other (by simp [member]))]
      split <;> rfl

def inWindow (start stop : Bytes) (rec : Record) : Bool := decide (start ≤ rec.key) && decide (rec.key < stop)

theorem range_block_spec (start stop : Bytes) (block : List Record) (ascending : Ascending Record.key block) :
    (rangeBlock start stop block).1 = block.filter (inWindow start stop) ∧
      ((rangeBlock start stop block).2 = true → ∃ rec ∈ block, stop ≤ rec.key) := by
  induction block with
  | nil => simp [rangeBlock]
  | cons rec rest ih =>
      obtain ⟨below, restAscending⟩ := List.pairwise_cons.mp ascending
      obtain ⟨kept, done⟩ := ih restAscending
      rw [rangeBlock]
      by_cases early : rec.key < start
      · rw [if_pos early]
        refine ⟨?_, fun stopped => ?_⟩
        · rw [kept, List.filter_cons_of_neg (by simp [inWindow, not_le.mpr early])]
        · obtain ⟨last, member, past⟩ := done stopped
          exact ⟨last, by simp [member], past⟩
      · rw [if_neg early]
        by_cases late : ¬ rec.key < stop
        · rw [if_pos late]
          refine ⟨?_, fun _ => ⟨rec, by simp, not_lt.mp late⟩⟩
          symm
          rw [List.filter_eq_nil_iff]
          intro other member
          have past : stop ≤ other.key := by
            rcases List.mem_cons.mp member with same | later
            · rw [same]
              exact not_lt.mp late
            · exact le_of_lt (lt_of_le_of_lt (not_lt.mp late) (below other later))
          simp [inWindow, not_lt.mpr past]
        · rw [if_neg late]
          refine ⟨?_, fun stopped => ?_⟩
          · rw [kept, List.filter_cons_of_pos (by simp [inWindow, not_lt.mp early, not_not.mp late])]
          · obtain ⟨last, member, past⟩ := done stopped
            exact ⟨last, by simp [member], past⟩

-- The blocks behind an opened table, in the order of its index.
structure Blocks (table : SSTable) (blocks : List (List Record)) : Prop where
  nonempty : ∀ block ∈ blocks, block ≠ []
  firstKeys : table.index.map IndexEntry.firstKey = blocks.map headKey
  reads : ∀ (i : Nat) block, blocks[i]? = some block → table.readBlockRecords i = .ok block

theorem Blocks.length {table : SSTable} {blocks : List (List Record)} (valid : Blocks table blocks) :
    table.index.length = blocks.length := by
  simpa using congrArg List.length valid.firstKeys

theorem represents_blocks (table : SSTable) (records : List Record) (represents : Represents table records) :
    ∃ blocks, Blocks table blocks ∧ blocks.flatten = records := by
  obtain ⟨blocks, flat, nonempty, keys, reads⟩ := represents.blocks
  exact ⟨blocks, ⟨nonempty, keys, reads⟩, flat⟩

theorem upper_bound_blocks (table : SSTable) (blocks : List (List Record)) (valid : Blocks table blocks) (key : Bytes) :
    table.upperBound key = (blocks.takeWhile (fun block => !decide (key < headKey block))).length := by
  have left : table.upperBound key =
      ((table.index.map IndexEntry.firstKey).takeWhile (fun first => !decide (key < first))).length := by
    rw [SSTable.upperBound, List.takeWhile_map, List.length_map]
    rfl
  rw [left, valid.firstKeys, List.takeWhile_map, List.length_map]
  rfl

-- upper_bound splits the blocks into those that start at or before the key
-- and those that start after it.
theorem upper_bound_split (table : SSTable) (blocks : List (List Record)) (valid : Blocks table blocks) (key : Bytes) :
    ∃ front back, blocks = front ++ back ∧ table.upperBound key = front.length ∧
      (∀ block ∈ front, headKey block ≤ key) ∧ ∀ block, back.head? = some block → key < headKey block := by
  refine ⟨blocks.takeWhile (fun block => !decide (key < headKey block)),
    blocks.dropWhile (fun block => !decide (key < headKey block)), List.takeWhile_append_dropWhile.symm,
    upper_bound_blocks table blocks valid key, ?_, ?_⟩
  · intro block member
    have holds := List.mem_takeWhile_imp member
    simpa using holds
  · intro block first
    have fails := List.head?_dropWhile_not (fun block => !decide (key < headKey block)) blocks
    rw [first] at fails
    simpa using fails

theorem get_no_bloom_find (table : SSTable) (records : List Record) (represents : Represents table records)
    (key : Bytes) : table.getNoBloom key = .ok (findKey Record.key key records) := by
  obtain ⟨blocks, valid, flat⟩ := represents_blocks table records represents
  obtain ⟨front, back, cut, bound, low, high⟩ := upper_bound_split table blocks valid key
  have ascending := represents.ascending
  rw [← flat, cut, List.flatten_append] at ascending
  rw [← flat, cut, List.flatten_append, find_key_append]
  -- No record of a block that starts after the key has the key.
  have beyond : findKey Record.key key back.flatten = none := by
    cases back with
    | nil => rfl
    | cons block rest =>
        have tail := (List.pairwise_append.mp ascending).2.1
        obtain ⟨_, least⟩ := head_key_least block rest.flatten
          (valid.nonempty block (by simp [cut])) (by simpa [Ascending] using tail)
        rw [find_key_none]
        intro rec member
        exact ne_of_gt (lt_of_lt_of_le (high block rfl) (least rec (by simpa using member)))
  rw [beyond, Option.or_none]
  rw [SSTable.getNoBloom]
  rcases List.eq_nil_or_concat front with none | ⟨earlier, last, split⟩
  · subst none
    by_cases empty : table.index.isEmpty = true
    · rw [if_pos empty]
      rfl
    · rw [if_neg empty, bound]
      rfl
  · rw [List.concat_eq_append] at split
    have filled : ¬ table.index.isEmpty = true := by
      intro empty
      have short : table.index.length = 0 := by simpa using empty
      rw [valid.length, cut, split] at short
      simp at short
    have here : blocks[front.length - 1]? = some last := by simp [cut, split]
    have lastAscending : Ascending Record.key last := by
      have inner := (List.pairwise_append.mp ascending).1
      rw [split, List.flatten_append] at inner
      simpa [Ascending] using (List.pairwise_append.mp inner).2.1
    have before : findKey Record.key key earlier.flatten = none := by
      have inner := (List.pairwise_append.mp ascending).1
      rw [split, List.flatten_append] at inner
      obtain ⟨⟨first, inLast, firstKey⟩, _⟩ := head_key_least last []
        (valid.nonempty last (by simp [cut, split])) (by simpa using lastAscending)
      rw [find_key_none]
      intro rec member
      have below := (List.pairwise_append.mp inner).2.2 rec member first (by simpa using inLast)
      rw [firstKey] at below
      exact ne_of_lt (lt_of_lt_of_le below (low last (by simp [split])))
    rw [if_neg filled, bound, if_neg (by simp [split]), valid.reads _ last here]
    simp only [bind, Except.bind, pure, Except.pure]
    rw [scan_block_find key last lastAscending, split, List.flatten_append, find_key_append, before]
    simp

theorem range_from_window (table : SSTable) (blocks : List (List Record)) (valid : Blocks table blocks)
    (ascending : Ascending Record.key blocks.flatten) (start stop : Bytes) (fuel i : Nat)
    (enough : blocks.length ≤ fuel + i) :
    table.rangeFrom start stop fuel i = .ok ((blocks.drop i).flatten.filter (inWindow start stop)) := by
  induction fuel generalizing i with
  | zero => rw [SSTable.rangeFrom, List.drop_eq_nil_of_le (by omega)]; rfl
  | succ fuel ih =>
      rw [SSTable.rangeFrom]
      cases found : blocks[i]? with
      | none =>
          have past := List.getElem?_eq_none_iff.mp found
          have indexed : table.index[i]? = none := List.getElem?_eq_none_iff.mpr (by rw [valid.length]; exact past)
          simp only [indexed]
          rw [List.drop_eq_nil_of_le past]
          rfl
      | some block =>
          obtain ⟨bound, atI⟩ := List.getElem?_eq_some_iff.mp found
          have rest : blocks.drop i = block :: blocks.drop (i + 1) := by rw [← atI, ← List.drop_eq_getElem_cons bound]
          have key : (table.index[i]?).map IndexEntry.firstKey = some (headKey block) := by
            rw [← List.getElem?_map, valid.firstKeys, List.getElem?_map, found, Option.map_some]
          obtain ⟨entry, indexed, entryKey⟩ := Option.map_eq_some_iff.mp key
          have suffix : Ascending Record.key (block ++ (blocks.drop (i + 1)).flatten) := by
            have whole := ascending
            rw [← List.take_append_drop i blocks, rest, List.flatten_append, List.flatten_cons] at whole
            exact (List.pairwise_append.mp whole).2.1
          obtain ⟨_, least⟩ := head_key_least block _ (valid.nonempty block (List.mem_of_getElem? found)) suffix
          simp only [indexed, entryKey]
          rw [rest, List.flatten_cons]
          by_cases late : ¬ headKey block < stop
          · rw [if_pos late]
            congr 1
            symm
            rw [List.filter_eq_nil_iff]
            intro rec member
            have past := le_trans (not_lt.mp late) (least rec member)
            simp [inWindow, not_lt.mpr past]
          · obtain ⟨kept, done⟩ := range_block_spec start stop block (List.pairwise_append.mp suffix).1
            rw [if_neg late, valid.reads i block found, List.filter_append, ← kept]
            simp only [bind, Except.bind, pure, Except.pure]
            cases stopped : (rangeBlock start stop block).2 with
            | false =>
                simp only [Bool.false_eq_true, if_false, ih (i + 1) (by omega)]
            | true =>
                obtain ⟨last, inBlock, past⟩ := done stopped
                have nothing : (blocks.drop (i + 1)).flatten.filter (inWindow start stop) = [] := by
                  rw [List.filter_eq_nil_iff]
                  intro rec member
                  have above := lt_of_le_of_lt past ((List.pairwise_append.mp suffix).2.2 last inBlock rec member)
                  simp [inWindow, not_lt.mpr (le_of_lt above)]
                simp only [if_true, nothing, List.append_nil]

theorem range_window (table : SSTable) (records : List Record) (represents : Represents table records)
    (start stop : Bytes) : table.range start stop = .ok (records.filter (inWindow start stop)) := by
  obtain ⟨blocks, valid, flat⟩ := represents_blocks table records represents
  have ascending := represents.ascending
  rw [← flat] at ascending ⊢
  rw [SSTable.range]
  by_cases trivial : table.index.isEmpty = true ∨ ¬ start < stop
  · rw [if_pos trivial]
    congr 1
    symm
    rw [List.filter_eq_nil_iff]
    intro rec member
    rcases trivial with empty | inverted
    · have none : blocks = [] := by
        have short : table.index.length = 0 := by simpa using empty
        rw [valid.length] at short
        exact List.eq_nil_of_length_eq_zero short
      simp [none] at member
    · by_cases inside : start ≤ rec.key
      · simp [inWindow, not_lt.mpr (le_trans (not_lt.mp inverted) inside)]
      · simp [inWindow, inside]
  · rw [if_neg trivial, range_from_window table blocks valid ascending start stop _ _ (by rw [valid.length]; omega)]
    congr 1
    -- The blocks that are skipped end before start.
    obtain ⟨front, back, cut, bound, low, _⟩ := upper_bound_split table blocks valid start
    have skipped : (blocks.take (table.upperBound start - 1)).flatten.filter (inWindow start stop) = [] := by
      rcases List.eq_nil_or_concat front with none | ⟨earlier, last, split⟩
      · simp [bound, none]
      · rw [List.concat_eq_append] at split
        have prior : blocks.take (table.upperBound start - 1) = earlier := by simp [bound, cut, split]
        rw [prior, List.filter_eq_nil_iff]
        intro rec member
        rw [cut, split] at ascending
        simp only [List.flatten_append, List.flatten_cons, List.flatten_nil, List.append_nil] at ascending
        have inner := (List.pairwise_append.mp ascending).1
        obtain ⟨⟨first, inLast, firstKey⟩, _⟩ := head_key_least last []
          (valid.nonempty last (by simp [cut, split])) (by simpa [Ascending] using (List.pairwise_append.mp inner).2.1)
        have below := (List.pairwise_append.mp inner).2.2 rec member first inLast
        rw [firstKey] at below
        have early := lt_of_lt_of_le below (low last (by simp [split]))
        simp [inWindow, not_le.mpr early]
    conv_rhs => rw [← List.take_append_drop (table.upperBound start - 1) blocks, List.flatten_append,
      List.filter_append, skipped, List.nil_append]

theorem get_find (table : SSTable) (records : List Record) (represents : Represents table records) (key : Bytes) :
    table.get key = .ok (findKey Record.key key records) := by
  rw [SSTable.get]
  by_cases maybe : table.mayContain key = true
  · rw [if_pos maybe, get_no_bloom_find table records represents]
  · rw [if_neg maybe]
    congr 1
    symm
    rw [find_key_none]
    intro rec member same
    rw [← same] at maybe
    exact maybe (represents.bloom rec member)

-- An iterator stands for the rows it has still to give.
structure IteratorRep (it : Iterator) (rows : List Record) : Prop where
  standing : ∃ blocks, Blocks it.sst blocks ∧
    ((blocks[it.blockIdx]? = some it.block ∧ it.pos < it.block.length ∧
        rows = it.block.drop it.pos ++ (blocks.drop (it.blockIdx + 1)).flatten) ∨
      (rows = [] ∧ blocks.length ≤ it.blockIdx))

theorem load_block_rep (table : SSTable) (blocks : List (List Record)) (valid : Blocks table blocks) (i : Nat)
    (inside : i < blocks.length) :
    ∃ it, Iterator.loadBlock table i = .ok it ∧ IteratorRep it (blocks.drop i).flatten := by
  have found : blocks[i]? = some (blocks.get ⟨i, inside⟩) := List.getElem?_eq_getElem inside
  refine ⟨⟨table, i, blocks.get ⟨i, inside⟩, 0⟩, ?_, ⟨blocks, valid, .inl ⟨found, ?_, ?_⟩⟩⟩
  · rw [Iterator.loadBlock, valid.reads i _ found]
    rfl
  · exact List.length_pos_iff.mpr (valid.nonempty _ (List.mem_of_getElem? found))
  · simp only [List.drop_zero]
    rw [List.drop_eq_getElem_cons inside, List.flatten_cons]
    rfl

theorem iterator_rep (table : SSTable) (records : List Record) (represents : Represents table records) :
    ∃ it, table.iterator = .ok it ∧ IteratorRep it records := by
  obtain ⟨blocks, valid, flat⟩ := represents_blocks table records represents
  rw [SSTable.iterator]
  cases blocks with
  | nil =>
      have empty : table.index = [] := List.eq_nil_of_length_eq_zero valid.length
      refine ⟨⟨table, 0, [], 0⟩, by simp [empty], ⟨[], valid, .inr ⟨by simpa using flat.symm, by simp⟩⟩⟩
  | cons block rest =>
      have filled : table.index.isEmpty = false := by
        have long := valid.length
        cases shape : table.index with
        | nil => simp [shape] at long
        | cons entry tail => rfl
      rw [filled]
      obtain ⟨it, loaded, rep⟩ := load_block_rep table (block :: rest) valid 0 (by simp)
      exact ⟨it, by simpa using loaded, by simpa [flat] using rep⟩

theorem iterator_model : CursorModel Iterator.head Iterator.next IteratorRep := by
  refine ⟨?_, ?_⟩
  · rintro it rows ⟨blocks, valid, ⟨found, inside, rest⟩ | ⟨none, past⟩⟩
    · have bound := (List.getElem?_eq_some_iff.mp found).1
      have standing : it.valid = true := by simp [Iterator.valid, valid.length, bound, inside]
      rw [Iterator.head, if_pos standing, rest, List.drop_eq_getElem_cons inside]
      simp [inside]
    · have ended : it.valid = false := by simp [Iterator.valid, valid.length, past]
      rw [Iterator.head, ended, none]
      rfl
  · rintro it row rows ⟨blocks, valid, ⟨found, inside, rest⟩ | ⟨none, _⟩⟩
    · rw [List.drop_eq_getElem_cons inside, List.cons_append, List.cons.injEq] at rest
      obtain ⟨_, remaining⟩ := rest
      rw [Iterator.next]
      by_cases ended : it.pos + 1 ≥ it.block.length
      · rw [if_pos ended]
        rw [List.drop_eq_nil_of_le ended, List.nil_append] at remaining
        by_cases more : it.blockIdx + 1 < it.sst.index.length
        · rw [if_pos more, remaining]
          exact load_block_rep it.sst blocks valid (it.blockIdx + 1) (by rw [← valid.length]; exact more)
        · rw [if_neg more]
          rw [valid.length] at more
          rw [List.drop_eq_nil_of_le (by omega)] at remaining
          exact ⟨_, rfl, ⟨blocks, valid, .inr ⟨remaining, by simp [valid.length]⟩⟩⟩
      · rw [if_neg ended]
        exact ⟨_, rfl, ⟨blocks, valid, .inl ⟨found, by simpa using ended, remaining⟩⟩⟩
    · cases none

-- All records behind an opened table.
def SSTable.records (table : SSTable) : List Record :=
  ((List.range table.index.length).map (fun i => ((table.readBlockRecords i).toOption).getD [])).flatten

def SSTable.WellFormed (table : SSTable) : Prop := Represents table table.records

theorem represents_records (table : SSTable) (records : List Record) (represents : Represents table records) :
    table.records = records := by
  obtain ⟨blocks, valid, flat⟩ := represents_blocks table records represents
  rw [SSTable.records, ← flat, valid.length]
  congr 1
  apply List.ext_getElem?
  intro i
  rw [List.getElem?_map]
  by_cases inside : i < blocks.length
  · rw [List.getElem?_range inside, Option.map_some, List.getElem?_eq_getElem inside,
      valid.reads i _ (List.getElem?_eq_getElem inside)]
    rfl
  · have past : (List.range blocks.length)[i]? = none := List.getElem?_eq_none_iff.mpr (by simpa using inside)
    rw [past, Option.map_none, List.getElem?_eq_none_iff.mpr (by simpa using inside)]

theorem represents_well_formed (table : SSTable) (records : List Record) (represents : Represents table records) :
    table.WellFormed := by
  rw [SSTable.WellFormed, represents_records table records represents]
  exact represents

-- The loop that runs an iterator until it is invalid, for at most fuel records:
-- the records read and the iterator it ends with.
def Iterator.drain : Nat → Iterator → Except Error (List Record × Iterator)
  | 0, it => .ok ([], it)
  | fuel + 1, it =>
      match it.head with
      | none => .ok ([], it)
      | some rec => do
          let after ← it.next
          let (rest, last) ← Iterator.drain fuel after
          return (rec :: rest, last)

theorem head_none (it : Iterator) (ended : it.head = none) : it.valid = false := by
  rw [Iterator.head] at ended
  by_cases valid : it.valid = true
  · have inside : it.pos < it.block.length := by
      simp only [Iterator.valid, Bool.and_eq_true, decide_eq_true_eq] at valid
      exact valid.2
    rw [if_pos valid, List.getElem?_eq_none_iff] at ended
    omega
  · simpa using valid

theorem drain_rep (fuel : Nat) (it : Iterator) (rows : List Record) (rep : IteratorRep it rows)
    (enough : rows.length ≤ fuel) : ∃ last, it.drain fuel = .ok (rows, last) ∧ last.head = none := by
  induction fuel generalizing it rows with
  | zero =>
      have none : rows = [] := List.eq_nil_of_length_eq_zero (by omega)
      subst none
      exact ⟨it, rfl, iterator_model.atHead it [] rep⟩
  | succ fuel ih =>
      have first := iterator_model.atHead it rows rep
      cases rows with
      | nil => exact ⟨it, by rw [Iterator.drain, first]; rfl, first⟩
      | cons row rest =>
          obtain ⟨after, stepped, repAfter⟩ := iterator_model.onNext it row rest rep
          obtain ⟨last, drained, ended⟩ := ih after rest repAfter (by simpa using enough)
          refine ⟨last, ?_, ended⟩
          rw [Iterator.drain, first]
          simp [stepped, drained, bind, Except.bind, pure, Except.pure]

-- The entries of an index cover the bytes from start to stop, one after the other.
def Partitions : Nat → List IndexEntry → Nat → Prop
  | start, [], stop => start = stop
  | start, entry :: rest, stop => entry.offset = start ∧ 0 < entry.length ∧ Partitions (start + entry.length) rest stop

theorem block_index_partitions (offset : Nat) (blocks : List (List Record)) (nonempty : ∀ block ∈ blocks, block ≠ []) :
    Partitions offset (blockIndex offset blocks) (offset + (encodeRecords blocks.flatten).length) := by
  induction blocks generalizing offset with
  | nil => rfl
  | cons block rest ih =>
      have later := ih (offset + (encodeRecords block).length) (fun other member => nonempty other (by simp [member]))
      have filled : 0 < block.length := List.length_pos_iff.mpr (nonempty block (by simp))
      refine ⟨rfl, lt_of_lt_of_le filled (length_encode_records block), ?_⟩
      rw [List.flatten_cons, encode_records_append, List.length_append, ← Nat.add_assoc]
      exact later

theorem laid_first_keys (table : SSTable) (records : List Record) (blocks : List (List Record))
    (laid : Laid table records blocks) (i : Nat) (entry : IndexEntry) (indexed : table.index[i]? = some entry) :
    ∃ first rest, table.readBlockRecords i = .ok (first :: rest) ∧ entry.firstKey = first.key := by
  rw [laid.index] at indexed
  have inside := (List.getElem?_eq_some_iff.mp indexed).1
  rw [length_block_index] at inside
  have found : blocks[i]? = some (blocks.get ⟨i, inside⟩) := List.getElem?_eq_getElem inside
  have here := laid.reads i _ found
  rw [block_index_entry 0 blocks i _ found, Option.some.injEq] at indexed
  have filled := laid.nonempty _ (List.mem_of_getElem? found)
  cases shape : blocks.get ⟨i, inside⟩ with
  | nil => exact absurd shape filled
  | cons first rest =>
      rw [shape] at here indexed
      exact ⟨first, rest, here, by rw [← indexed]; rfl⟩

-- SSTable::build: the file it writes and the size it returns.
def SSTable.build (sizing : Nat → BloomSize) (sorted : List Record) : Except Error (Bytes × Nat) := do
  let file ← buildTable sizing sorted
  return (file, file.length)

theorem build_records_total (records : List Record) (state : BuildState)
    (fits : ∀ rec ∈ records, rec.key.length ≤ uint32Max ∧ rec.value.length ≤ uint32Max) :
    ∃ last, records.foldlM buildRecord state = .ok last := by
  induction records generalizing state with
  | nil => exact ⟨state, rfl⟩
  | cons rec rest ih =>
      have here := fits rec (by simp)
      have step : ∃ next, buildRecord state rec = .ok next := by
        rw [buildRecord, if_neg (by omega)]
        exact ⟨_, (apply_ite Except.ok _ _ _).symm⟩
      obtain ⟨next, stepped⟩ := step
      obtain ⟨last, rested⟩ := ih next (fun other member => fits other (by simp [member]))
      exact ⟨last, by rw [List.foldlM_cons, stepped]; exact rested⟩

-- Only a file past the largest offset stops a build of records that fit.
def Builds (sizing : Nat → BloomSize) (records : List Record) : Prop :=
  ∃ state, records.foldlM buildRecord (buildStart sizing records) = .ok state ∧
    buildTable sizing records =
      if (assemble state).length ≥ offMax then .error (.system "SSTable write") else .ok (assemble state)

theorem build_total (sizing : Nat → BloomSize) (records : List Record)
    (fits : ∀ rec ∈ records, rec.key.length ≤ uint32Max ∧ rec.value.length ≤ uint32Max) : Builds sizing records := by
  obtain ⟨last, ran⟩ := build_records_total records (buildStart sizing records) fits
  exact ⟨last, ran, by rw [buildTable, ran]; rfl⟩

-- What a table file gives back once it is opened.
theorem table_round_trip (sizing : Nat → BloomSize) (records : List Record) (ascending : Ascending Record.key records)
    (storable : ∀ rec ∈ records, Storable rec) :
    Builds sizing records ∧
      ∀ file size, SSTable.build sizing records = .ok (file, size) → size = file.length ∧
        ∃ table, openTable file = .ok table ∧ table.fileSize = file.length ∧ table.numRecords = records.length ∧
          table.minKey = headKey records ∧ table.maxKey = lastKey records ∧
          (∃ it, table.iterator = .ok it ∧ ∀ fuel, records.length ≤ fuel →
            ∃ last, it.drain fuel = .ok (records, last) ∧ last.valid = false) ∧
          Partitions 0 table.index table.dataSize ∧
          ∀ i entry, table.index[i]? = some entry →
            ∃ first rest, table.readBlockRecords i = .ok (first :: rest) ∧ entry.firstKey = first.key := by
  refine ⟨build_total sizing records (fun rec member => ⟨(storable rec member).key, (storable rec member).value⟩), ?_⟩
  intro file size done
  rw [SSTable.build] at done
  obtain ⟨bytes, built, done⟩ := bind_returns _ _ _ done
  simp only [pure, Except.pure, Except.ok.injEq, Prod.mk.injEq] at done
  obtain ⟨rfl, rfl⟩ := done
  obtain ⟨table, blocks, opened, _, fileSize, laid⟩ := open_built_blocks sizing records bytes storable built
  have represents := laid_represents table records blocks laid ascending storable
  obtain ⟨it, started, rep⟩ := iterator_rep table records represents
  refine ⟨rfl, table, opened, fileSize, laid.count, laid.minKey, laid.maxKey, ⟨it, started, ?_⟩, ?_, ?_⟩
  · intro fuel enough
    obtain ⟨last, drained, ended⟩ := drain_rep fuel it records rep enough
    exact ⟨last, drained, head_none last ended⟩
  · have whole := block_index_partitions 0 blocks laid.nonempty
    rw [laid.flat, Nat.zero_add] at whole
    rw [laid.index, laid.dataSize]
    exact whole
  · exact laid_first_keys table records blocks laid

def twoRows : List Record := [⟨Op.put, [1], [7], false, {}⟩, ⟨Op.put, [2], [], true, ⟨0, 9, 3⟩⟩]

theorem two_rows_ascending : Ascending Record.key twoRows := by
  rw [Ascending]
  decide

theorem two_rows_storable : ∀ rec ∈ twoRows, Storable rec := by
  simp only [twoRows, List.forall_mem_cons]
  exact ⟨⟨by decide, by decide, by decide, by decide, by decide⟩,
    ⟨by decide, by decide, by decide, by decide, by decide⟩, by simp⟩

theorem two_rows_built : ∃ file, buildTable smallBloom twoRows = .ok file := by
  have fine : (buildTable smallBloom twoRows).isOk = true := by decide +kernel
  cases built : buildTable smallBloom twoRows with
  | error e => simp [built, Except.isOk, Except.toBool] at fine
  | ok file => exact ⟨file, rfl⟩

theorem two_rows_round_trip : ∃ file size table, SSTable.build smallBloom twoRows = .ok (file, size) ∧
    openTable file = .ok table ∧ table.minKey = [1] ∧ table.maxKey = [2] := by
  obtain ⟨file, built⟩ := two_rows_built
  have done : SSTable.build smallBloom twoRows = .ok (file, file.length) := by
    rw [SSTable.build, built]
    rfl
  obtain ⟨_, reads⟩ := table_round_trip smallBloom twoRows two_rows_ascending two_rows_storable
  obtain ⟨_, table, opened, _, _, low, high, _⟩ := reads file file.length done
  exact ⟨file, file.length, table, done, opened, low, high⟩

theorem find_key_stored (key : Bytes) (records : List Record) :
    findKey Record.key key (records.map Record.stored) = (findKey Record.key key records).map Record.stored := by
  rw [findKey, findKey, List.find?_map]
  congr 2
  funext rec
  simp

theorem window_stored (start stop : Bytes) (records : List Record) :
    (records.map Record.stored).filter (inWindow start stop) =
      (records.filter (inWindow start stop)).map Record.stored := by
  rw [List.filter_map]
  congr 2
  funext rec
  simp [inWindow]

theorem ascending_stored (records : List Record) (ascending : Ascending Record.key records) :
    Ascending Record.key (records.map Record.stored) := by
  rw [Ascending, List.pairwise_map]
  simp only [stored_key]
  exact ascending

theorem map_stored_same (records : List Record)
    (contract : ∀ rec ∈ records, (rec.separated = true → rec.value = []) ∧ (rec.separated = false → rec.vptr = {})) :
    records.map Record.stored = records :=
  (List.map_congr_left (fun rec member => stored_record_same rec (contract rec member).1 (contract rec member).2)).trans
    (List.map_id records)

-- Reads through the sparse index are a plain scan of the records the table
-- keeps, which are the records it was built from where those follow the
-- rules for separated and inline values.
theorem sparse_reads_scan (sizing : Nat → BloomSize) (records : List Record) (file : Bytes)
    (ascending : Ascending Record.key records) (ops : ∀ rec ∈ records, ValidOp rec)
    (built : buildTable sizing records = .ok file) :
    ∃ table, openTable file = .ok table ∧ ∀ key start stop,
      table.getNoBloom key = .ok ((findKey Record.key key records).map Record.stored) ∧
      table.range start stop = .ok ((records.filter (inWindow start stop)).map Record.stored) ∧
      (¬ start < stop → table.range start stop = .ok []) ∧
      ((∀ rec ∈ records, (rec.separated = true → rec.value = []) ∧ (rec.separated = false → rec.vptr = {})) →
        table.getNoBloom key = .ok (findKey Record.key key records) ∧
          table.range start stop = .ok (records.filter (inWindow start stop))) := by
  obtain ⟨storable, table, blocks, opened, laid⟩ := open_stored_blocks sizing records file ops built
  have represents := laid_represents table _ blocks laid (ascending_stored records ascending) storable
  refine ⟨table, opened, fun key start stop => ?_⟩
  have get := get_no_bloom_find table _ represents key
  have range := range_window table _ represents start stop
  refine ⟨by rw [get, find_key_stored], by rw [range, window_stored], fun inverted => ?_, fun contract => ?_⟩
  · rw [SSTable.range, if_pos (.inr inverted)]
  · rw [map_stored_same records contract] at get range
    exact ⟨get, range⟩

theorem two_rows_scan : ∃ file table, buildTable smallBloom twoRows = .ok file ∧ openTable file = .ok table ∧
    table.getNoBloom [2] = .ok (twoRows[1]?) ∧ table.range [1] [2] = .ok (twoRows.take 1) := by
  obtain ⟨file, built⟩ := two_rows_built
  obtain ⟨table, opened, reads⟩ := sparse_reads_scan smallBloom twoRows file two_rows_ascending
    (fun rec member => (two_rows_storable rec member).op) built
  obtain ⟨_, _, _, same⟩ := reads [2] [1] [2]
  obtain ⟨get, range⟩ := same (by decide)
  exact ⟨file, table, built, opened, get, range⟩

theorem laid_get_no_bloom (table : SSTable) (records : List Record) (blocks : List (List Record))
    (laid : Laid table records blocks) (key : Bytes) (excluded : table.mayContain key = false) :
    table.getNoBloom key = .ok none := by
  rw [SSTable.getNoBloom]
  split
  · rfl
  · simp only
    split
    · rfl
    · have bounded : table.upperBound key ≤ blocks.length := by
        rw [SSTable.upperBound, ← length_block_index 0 blocks, ← laid.index]
        exact (List.takeWhile_sublist _).length_le
      have inside : table.upperBound key - 1 < blocks.length := by omega
      have found : blocks[table.upperBound key - 1]? = some (blocks.get ⟨_, inside⟩) := List.getElem?_eq_getElem inside
      rw [laid.reads _ _ found]
      simp only [bind, Except.bind, pure, Except.pure, Except.ok.injEq]
      apply scan_block_absent
      intro rec member same
      have present : rec ∈ records := by
        rw [← laid.flat]
        exact List.mem_flatten.mpr ⟨_, List.mem_of_getElem? found, member⟩
      rw [← same, laid.bloom rec present] at excluded
      cases excluded

end Tombstash
