import Tombstash.SSTable

set_option autoImplicit false

namespace Tombstash

-- What append_record stores without loss: the two operations, fields that fit
-- their length words, and either a value or a pointer.
structure Storable (rec : Record) : Prop where
  op : rec.op = Op.put ∨ rec.op = Op.delete
  key : rec.key.length ≤ uint32Max
  value : rec.value.length ≤ uint32Max
  separated : rec.separated = true → rec.value = []
  inline : rec.separated = false → rec.vptr = {}

def encodeRecords (records : List Record) : Bytes := (records.map appendRecord).flatten

theorem append_record_positive (rec : Record) : 9 ≤ (appendRecord rec).length := by
  unfold appendRecord
  split <;> simp <;> omega

theorem op_flag (op : Op) (valid : op = Op.put ∨ op = Op.delete) :
    (op.code ||| kSeparatedFlag) &&& kSeparatedFlag ≠ 0 ∧ (op.code ||| kSeparatedFlag) &&& 0x7f = op.code ∧
      op.code &&& kSeparatedFlag = 0 ∧ op.code &&& 0x7f = op.code := by
  rcases valid with same | same <;> rw [same] <;> decide

theorem parse_one_append (rec : Record) (storable : Storable rec) (rest : Bytes) :
    parseOne (appendRecord rec ++ rest) = .ok (rec, rest) := by
  obtain ⟨op, key, value, separated, vptr⟩ := rec
  obtain ⟨flagSet, flagBack, flagClear, codeBack⟩ := op_flag op storable.op
  have keyFits := storable.key
  have valueFits := storable.value
  simp only at keyFits valueFits flagSet flagBack flagClear codeBack
  cases separated with
  | true =>
      have empty : value = [] := storable.separated rfl
      subst empty
      obtain ⟨gen, offset, len⟩ := vptr
      have lenFits : len.toNat ≤ uint32Max := Nat.le_of_lt_succ len.toNat_lt
      have genFits : gen.toNat ≤ uint32Max := Nat.le_of_lt_succ gen.toNat_lt
      have offsetBack : readU64Le (putU64Le offset.toNat ++ rest) = offset.toNat := by
        rw [read_put_u64, Nat.mod_eq_of_lt offset.toNat_lt]
      simp only [appendRecord, if_true, List.append_assoc, List.cons_append, List.nil_append]
      simp only [parseOne, List.length_cons, List.length_append, length_put_u32, length_put_u64, List.headD_cons,
        List.drop_succ_cons, List.drop_zero]
      rw [if_neg (by omega), read_put_u32_of_le _ _ keyFits, List.drop_left' (length_put_u32 _)]
      rw [if_neg (by simp), List.take_left' rfl, List.drop_left' rfl, read_put_u32_of_le _ _ lenFits,
        List.drop_left' (length_put_u32 _), if_pos (bne_iff_ne.mpr flagSet)]
      rw [if_neg (by simp; omega), read_put_u32_of_le _ _ genFits, List.drop_left' (length_put_u32 _), offsetBack,
        List.drop_left' (length_put_u64 _), flagBack, UInt32.ofNat_toNat, UInt32.ofNat_toNat, UInt64.ofNat_toNat]
  | false =>
      have default : vptr = {} := storable.inline rfl
      subst default
      simp only [appendRecord, Bool.false_eq_true, if_false, List.append_assoc, List.cons_append, List.nil_append]
      simp only [parseOne, List.length_cons, List.length_append, length_put_u32, List.headD_cons,
        List.drop_succ_cons, List.drop_zero]
      rw [if_neg (by omega), read_put_u32_of_le _ _ keyFits, List.drop_left' (length_put_u32 _)]
      rw [if_neg (by simp), List.take_left' rfl, List.drop_left' rfl, read_put_u32_of_le _ _ valueFits,
        List.drop_left' (length_put_u32 _), if_neg (by rw [flagClear]; decide)]
      rw [if_neg (by simp), List.take_left' rfl, List.drop_left' rfl, codeBack]

theorem parse_records_encode (records : List Record) (storable : ∀ rec ∈ records, Storable rec) (fuel : Nat)
    (enough : records.length ≤ fuel) : parseRecords fuel (encodeRecords records) = .ok records := by
  induction records generalizing fuel with
  | nil => cases fuel <;> rfl
  | cons rec rest ih =>
      cases fuel with
      | zero => simp at enough
      | succ fuel =>
          have positive := append_record_positive rec
          have nonempty : (encodeRecords (rec :: rest)).isEmpty = false := by
            cases shape : appendRecord rec with
            | nil => simp [shape] at positive
            | cons byte tail => simp [encodeRecords, shape]
          have head : encodeRecords (rec :: rest) = appendRecord rec ++ encodeRecords rest := by simp [encodeRecords]
          have tail := ih (fun other member => storable other (by simp [member])) fuel (by simpa using enough)
          rw [parseRecords, nonempty, if_neg (by simp), head, parse_one_append rec (storable rec (by simp))]
          simp only [bind, Except.bind, tail, pure, Except.pure]

theorem length_encode_records (records : List Record) : records.length ≤ (encodeRecords records).length := by
  induction records with
  | nil => simp
  | cons rec rest ih =>
      have positive := append_record_positive rec
      simp only [encodeRecords, List.map_cons, List.flatten_cons, List.length_append, List.length_cons] at ih ⊢
      omega

theorem encode_records_append (front back : List Record) :
    encodeRecords (front ++ back) = encodeRecords front ++ encodeRecords back := by
  simp [encodeRecords]

def headKey (block : List Record) : Bytes := ((block.head?).map Record.key).getD []

def encodeEntry (entry : IndexEntry) : Bytes :=
  putU32Le entry.firstKey.length ++ entry.firstKey ++ putU64Le entry.offset ++ putU64Le entry.length

def encodeIndex (entries : List IndexEntry) : Bytes := (entries.map encodeEntry).flatten

-- The index entries of consecutive blocks, the first of which starts at offset.
def blockIndex : Nat → List (List Record) → List IndexEntry
  | _, [] => []
  | offset, block :: rest =>
      ⟨headKey block, offset, (encodeRecords block).length⟩ :: blockIndex (offset + (encodeRecords block).length) rest

theorem block_index_append (offset : Nat) (front back : List (List Record)) :
    blockIndex offset (front ++ back) =
      blockIndex offset front ++ blockIndex (offset + (encodeRecords front.flatten).length) back := by
  induction front generalizing offset with
  | nil => simp [blockIndex, encodeRecords]
  | cons block rest ih =>
      rw [List.cons_append, blockIndex, ih, blockIndex, List.flatten_cons, encode_records_append, List.length_append,
        Nat.add_assoc, List.cons_append]

theorem block_index_first_keys (offset : Nat) (blocks : List (List Record)) :
    (blockIndex offset blocks).map IndexEntry.firstKey = blocks.map headKey := by
  induction blocks generalizing offset with
  | nil => rfl
  | cons block rest ih => simp [blockIndex, ih]

@[simp] theorem length_block_index (offset : Nat) (blocks : List (List Record)) :
    (blockIndex offset blocks).length = blocks.length := by
  have keys := congrArg List.length (block_index_first_keys offset blocks)
  simpa using keys

theorem length_encode_entry (entry : IndexEntry) : (encodeEntry entry).length = 20 + entry.firstKey.length := by
  simp [encodeEntry]
  omega

theorem parse_index_encode (entries : List IndexEntry)
    (fits : ∀ entry ∈ entries, entry.firstKey.length ≤ uint32Max ∧ entry.offset < 2 ^ 64 ∧ entry.length < 2 ^ 64)
    (fuel : Nat) (enough : entries.length ≤ fuel) : parseIndex fuel (encodeIndex entries) = .ok entries := by
  induction entries generalizing fuel with
  | nil => cases fuel <;> rfl
  | cons entry rest ih =>
      cases fuel with
      | zero => simp at enough
      | succ fuel =>
          obtain ⟨keyFits, offsetFits, lengthFits⟩ := fits entry (by simp)
          have tail := ih (fun other member => fits other (by simp [member])) fuel (by simpa using enough)
          have head : encodeIndex (entry :: rest) = putU32Le entry.firstKey.length ++ (entry.firstKey ++
              (putU64Le entry.offset ++ (putU64Le entry.length ++ encodeIndex rest))) := by
            simp [encodeIndex, encodeEntry]
          have nonempty : (encodeIndex (entry :: rest)).isEmpty = false := by
            rw [head]
            simp [putU32Le, leBytes]
          rw [parseIndex, nonempty, if_neg (by simp), head]
          rw [if_neg (by simp), read_put_u32_of_le _ _ keyFits, List.drop_left' (length_put_u32 _),
            if_neg (by simp; omega), List.take_left' rfl, List.drop_left' rfl]
          have after : (putU64Le entry.offset ++ (putU64Le entry.length ++ encodeIndex rest)).drop 16 =
              encodeIndex rest := by
            rw [← List.append_assoc]
            exact List.drop_left' (by simp)
          have second : readU64Le ((putU64Le entry.offset ++ (putU64Le entry.length ++ encodeIndex rest)).drop 8) =
              entry.length := by
            rw [List.drop_left' (length_put_u64 _), read_put_u64, Nat.mod_eq_of_lt lengthFits]
          simp only [after, second, tail, read_put_u64, Nat.mod_eq_of_lt offsetFits, bind, Except.bind,
            pure, Except.pure]

-- What SSTable::build has written after some records: closed blocks and the
-- records of the block that is still open.
structure BuildInv (start : BloomFilter) (records : List Record) (closed : List (List Record)) (current : List Record)
    (state : BuildState) : Prop where
  split : closed.flatten ++ current = records
  nonempty : ∀ block ∈ closed, block ≠ []
  data : state.data = encodeRecords records
  index : state.index = encodeIndex (blockIndex 0 closed)
  count : state.numRecords = records.length
  blockOpen : state.blockOpen = !current.isEmpty
  started : current ≠ [] → state.blockStart = (encodeRecords closed.flatten).length ∧ state.firstKey = headKey current
  bloom : state.bloom = (records.map Record.key).foldl BloomFilter.add start
  fits : ∀ rec ∈ records, rec.key.length ≤ uint32Max ∧ rec.value.length ≤ uint32Max

theorem close_block_entry (closed : List (List Record)) (block : List Record) :
    encodeIndex (blockIndex 0 closed) ++ closeBlock (headKey block) (encodeRecords closed.flatten).length
        (encodeRecords (closed.flatten ++ block)).length =
      encodeIndex (blockIndex 0 (closed ++ [block])) := by
  have width : (encodeRecords (closed.flatten ++ block)).length - (encodeRecords closed.flatten).length =
      (encodeRecords block).length := by
    rw [encode_records_append, List.length_append]
    omega
  rw [closeBlock, width, block_index_append]
  simp [encodeIndex, encodeEntry, blockIndex]

theorem build_record_keeps (start : BloomFilter) (records : List Record) (closed : List (List Record))
    (current : List Record) (state next : BuildState) (rec : Record)
    (valid : BuildInv start records closed current state) (step : buildRecord state rec = .ok next) :
    ∃ closed' current', BuildInv start (records ++ [rec]) closed' current' next := by
  rw [buildRecord] at step
  by_cases long : rec.key.length > uint32Max ∨ rec.value.length > uint32Max
  · rw [if_pos long] at step
    cases step
  rw [if_neg long] at step
  have isOpen := valid.blockOpen
  -- The block that receives the record: a fresh one when none is open.
  have begin : (if state.blockOpen then state.blockStart else state.data.length) =
      (encodeRecords closed.flatten).length := by
    cases current with
    | nil => simp [isOpen, valid.data, ← valid.split]
    | cons first rest => simp [isOpen, valid.started]
  have first : (if state.blockOpen then state.firstKey else rec.key) = headKey (current ++ [rec]) := by
    cases current with
    | nil => simp [isOpen, headKey]
    | cons head rest => simp [isOpen, valid.started, headKey]
  have data : state.data ++ appendRecord rec = encodeRecords (records ++ [rec]) := by
    rw [encode_records_append, valid.data]
    simp [encodeRecords]
  have split : closed.flatten ++ (current ++ [rec]) = records ++ [rec] := by
    rw [← List.append_assoc, valid.split]
  have bloom : state.bloom.add rec.key = ((records ++ [rec]).map Record.key).foldl BloomFilter.add start := by
    simp [valid.bloom]
  have fits : ∀ other ∈ records ++ [rec], other.key.length ≤ uint32Max ∧ other.value.length ≤ uint32Max := by
    intro other member
    rcases List.mem_append.mp member with old | new
    · exact valid.fits other old
    · rw [List.mem_singleton.mp new]
      omega
  simp only [begin, first, data] at step
  split at step
  · cases step
    refine ⟨closed ++ [current ++ [rec]], [], ⟨by simpa using split, ?_, rfl, ?_, by simp [valid.count], rfl,
      by simp, bloom, fits⟩⟩
    · intro block member
      rcases List.mem_append.mp member with old | new
      · exact valid.nonempty block old
      · simp [List.mem_singleton.mp new]
    · rw [← close_block_entry, split, valid.index]
  · cases step
    exact ⟨closed, current ++ [rec], ⟨split, valid.nonempty, rfl, valid.index, by simp [valid.count], by simp,
      fun _ => ⟨rfl, rfl⟩, bloom, fits⟩⟩

theorem build_records_keep (start : BloomFilter) (done rest : List Record) (closed : List (List Record))
    (current : List Record) (state last : BuildState) (valid : BuildInv start done closed current state)
    (run : rest.foldlM buildRecord state = .ok last) :
    ∃ closed' current', BuildInv start (done ++ rest) closed' current' last := by
  induction rest generalizing done closed current state with
  | nil =>
      cases run
      exact ⟨closed, current, by simpa using valid⟩
  | cons rec rest ih =>
      rw [List.foldlM_cons] at run
      obtain ⟨next, step, run⟩ := bind_returns _ _ _ run
      obtain ⟨closed', current', kept⟩ := build_record_keeps start done closed current state next rec valid step
      obtain ⟨closed'', current'', final⟩ := ih (done ++ [rec]) closed' current' next kept run
      exact ⟨closed'', current'', by simpa using final⟩

-- The regions of a table file with the given blocks.
def tableBytes (blocks : List (List Record)) (bloom : BloomFilter) : Bytes :=
  encodeRecords blocks.flatten ++ encodeIndex (blockIndex 0 blocks) ++ bloom.serialize ++
    footerBytes (encodeRecords blocks.flatten).length (encodeIndex (blockIndex 0 blocks)).length
      bloom.serialize.length blocks.flatten.length

theorem assemble_shape (start : BloomFilter) (records : List Record) (closed : List (List Record))
    (current : List Record) (state : BuildState) (valid : BuildInv start records closed current state) :
    ∃ blocks : List (List Record), blocks.flatten = records ∧ (∀ block ∈ blocks, block ≠ []) ∧
      assemble state = tableBytes blocks ((records.map Record.key).foldl BloomFilter.add start) := by
  have isOpen := valid.blockOpen
  cases current with
  | nil =>
      have same : closed.flatten = records := by simpa using valid.split
      refine ⟨closed, same, valid.nonempty, ?_⟩
      have index : finishIndex state = encodeIndex (blockIndex 0 closed) := by simp [finishIndex, isOpen, valid.index]
      rw [assemble, tableBytes, index, valid.data, valid.count, valid.bloom, same]
  | cons first tail =>
      have same : (closed ++ [first :: tail]).flatten = records := by simpa using valid.split
      obtain ⟨begin, key⟩ := valid.started (by simp)
      refine ⟨closed ++ [first :: tail], same, ?_, ?_⟩
      · intro block member
        rcases List.mem_append.mp member with old | new
        · exact valid.nonempty block old
        · simp [List.mem_singleton.mp new]
      · have index : finishIndex state = encodeIndex (blockIndex 0 (closed ++ [first :: tail])) := by
          rw [← close_block_entry, valid.split, finishIndex, isOpen, begin, key, valid.index, valid.data]
          rfl
        rw [assemble, tableBytes, index, valid.data, valid.count, valid.bloom, same]

theorem build_table_shape (sizing : Nat → BloomSize) (records : List Record) (file : Bytes)
    (built : buildTable sizing records = .ok file) :
    ∃ blocks : List (List Record), blocks.flatten = records ∧ (∀ block ∈ blocks, block ≠ []) ∧
      (∀ rec ∈ records, rec.key.length ≤ uint32Max ∧ rec.value.length ≤ uint32Max) ∧ file.length < offMax ∧
      file = tableBytes blocks ((records.map Record.key).foldl BloomFilter.add (buildStart sizing records).bloom) := by
  rw [buildTable] at built
  obtain ⟨state, run, built⟩ := bind_returns _ _ _ built
  have initial : BuildInv (buildStart sizing records).bloom [] [] [] (buildStart sizing records) :=
    ⟨rfl, by simp, rfl, rfl, rfl, rfl, by simp, rfl, by simp⟩
  obtain ⟨closed, current, valid⟩ := build_records_keep _ [] records [] [] _ state initial run
  rw [List.nil_append] at valid
  obtain ⟨blocks, flat, nonempty, shape⟩ := assemble_shape _ records closed current state valid
  by_cases large : (assemble state).length ≥ offMax
  · rw [if_pos large] at built
    cases built
  · rw [if_neg large] at built
    cases built
    exact ⟨blocks, flat, nonempty, valid.fits, by omega, shape⟩

theorem pread_exact_region (front middle rest : Bytes) (small : (front ++ middle ++ rest).length < offMax) :
    preadExact (front ++ middle ++ rest) front.length middle.length = .ok middle := by
  simp only [List.length_append] at small
  cases middle with
  | nil => rfl
  | cons byte tail =>
      rw [preadExact, preadRange, if_neg (by simp), if_neg, slice_append_right _ _ _ _ rfl]
      simp only [List.length_append]
      omega

theorem read_block_region (front rest : Bytes) (block : List Record) (key : Bytes)
    (storable : ∀ rec ∈ block, Storable rec) (small : (front ++ encodeRecords block ++ rest).length < offMax) :
    readBlock (front ++ encodeRecords block ++ rest) ⟨key, front.length, (encodeRecords block).length⟩ = .ok block := by
  rw [readBlock, pread_exact_region front _ rest small]
  exact parse_records_encode block storable _ (length_encode_records block)

theorem block_index_entry (offset : Nat) (blocks : List (List Record)) (i : Nat) (block : List Record)
    (found : blocks[i]? = some block) :
    (blockIndex offset blocks)[i]? =
      some ⟨headKey block, offset + (encodeRecords (blocks.take i).flatten).length, (encodeRecords block).length⟩ := by
  induction blocks generalizing offset i with
  | nil => simp at found
  | cons first rest ih =>
      cases i with
      | zero =>
          simp only [List.getElem?_cons_zero, Option.some.injEq] at found
          subst found
          simp [blockIndex, encodeRecords]
      | succ i =>
          rw [List.getElem?_cons_succ] at found
          rw [blockIndex, List.getElem?_cons_succ, ih _ i found, List.take_succ_cons, List.flatten_cons,
            encode_records_append, List.length_append, Nat.add_assoc]

theorem read_built_block (blocks : List (List Record)) (bloom : BloomFilter) (i : Nat) (block : List Record)
    (found : blocks[i]? = some block) (storable : ∀ rec ∈ blocks.flatten, Storable rec)
    (small : (tableBytes blocks bloom).length < offMax) (entry : IndexEntry)
    (indexed : (blockIndex 0 blocks)[i]? = some entry) : readBlock (tableBytes blocks bloom) entry = .ok block := by
  obtain ⟨bound, at_i⟩ := List.getElem?_eq_some_iff.mp found
  have cut : blocks = blocks.take i ++ (block :: blocks.drop (i + 1)) := by
    rw [← at_i, ← List.drop_eq_getElem_cons bound, List.take_append_drop]
  have data : encodeRecords blocks.flatten = encodeRecords (blocks.take i).flatten ++ encodeRecords block ++
      encodeRecords (blocks.drop (i + 1)).flatten := by
    conv_lhs => rw [cut]
    simp [encode_records_append]
  rw [block_index_entry 0 blocks i block found, Option.some.injEq, Nat.zero_add] at indexed
  subst indexed
  have inside : ∀ rec ∈ block, Storable rec := fun rec member =>
    storable rec (List.mem_flatten.mpr ⟨block, List.mem_of_getElem? found, member⟩)
  rw [tableBytes, data, List.append_assoc _ _ (encodeRecords (blocks.drop (i + 1)).flatten)] at small ⊢
  simp only [List.append_assoc] at small ⊢
  rw [← List.append_assoc] at small ⊢
  exact read_block_region _ _ block _ inside small

theorem length_footer (dataSize indexSize bloomSize numRecords : Nat) :
    (footerBytes dataSize indexSize bloomSize numRecords).length = kFooterSize := by
  simp [footerBytes, kMagic, kFooterSize]

theorem read_footer (dataSize indexSize bloomSize numRecords : Nat) :
    readU64Le (footerBytes dataSize indexSize bloomSize numRecords) = dataSize % 2 ^ 64 ∧
      readU64Le ((footerBytes dataSize indexSize bloomSize numRecords).drop 8) = indexSize % 2 ^ 64 ∧
      readU64Le ((footerBytes dataSize indexSize bloomSize numRecords).drop 16) = bloomSize % 2 ^ 64 ∧
      readU64Le ((footerBytes dataSize indexSize bloomSize numRecords).drop 24) = numRecords % 2 ^ 64 ∧
      (footerBytes dataSize indexSize bloomSize numRecords).drop 32 = kMagic := by
  have one : footerBytes dataSize indexSize bloomSize numRecords = putU64Le dataSize ++ (putU64Le indexSize ++
      (putU64Le bloomSize ++ (putU64Le numRecords ++ kMagic))) := by simp [footerBytes]
  have skip : ∀ (n v : Nat) (rest : Bytes), (putU64Le v ++ rest).drop (8 + n) = rest.drop n := by
    intro n v rest
    rw [← List.drop_drop, List.drop_left' (length_put_u64 v)]
  rw [one]
  refine ⟨read_put_u64 _ _, ?_, ?_, ?_, ?_⟩
  · rw [skip 0, List.drop_zero, read_put_u64]
  · rw [skip 8, skip 0, List.drop_zero, read_put_u64]
  · rw [skip 16, skip 8, skip 0, List.drop_zero, read_put_u64]
  · rw [skip 24, skip 16, skip 8, skip 0, List.drop_zero]

theorem block_index_fits (blocks : List (List Record)) (offset limit : Nat)
    (keys : ∀ rec ∈ blocks.flatten, rec.key.length ≤ uint32Max)
    (small : offset + (encodeRecords blocks.flatten).length < limit) :
    ∀ entry ∈ blockIndex offset blocks,
      entry.firstKey.length ≤ uint32Max ∧ entry.offset < limit ∧ entry.length < limit := by
  induction blocks generalizing offset with
  | nil => simp [blockIndex]
  | cons block rest ih =>
      rw [List.flatten_cons, encode_records_append, List.length_append] at small
      intro entry member
      rw [blockIndex] at member
      rcases List.mem_cons.mp member with here | later
      · subst here
        refine ⟨?_, by simp only; omega, by simp only; omega⟩
        cases block with
        | nil => simp [headKey]
        | cons first tail => exact keys first (by simp)
      · exact ih (offset + (encodeRecords block).length) (fun rec inside => keys rec (by simp [inside])) (by omega)
          entry later

def lastKey (records : List Record) : Bytes := ((records.getLast?).map Record.key).getD []

theorem length_encode_index (entries : List IndexEntry) : entries.length ≤ (encodeIndex entries).length := by
  induction entries with
  | nil => simp
  | cons entry rest ih =>
      have width := length_encode_entry entry
      simp only [encodeIndex, List.map_cons, List.flatten_cons, List.length_append, List.length_cons] at ih ⊢
      omega

theorem key_range_built (blocks : List (List Record)) (bloom : BloomFilter)
    (storable : ∀ rec ∈ blocks.flatten, Storable rec) (nonempty : ∀ block ∈ blocks, block ≠ [])
    (small : (tableBytes blocks bloom).length < offMax) :
    keyRange (tableBytes blocks bloom) (blockIndex 0 blocks) =
      .ok (headKey blocks.flatten, lastKey blocks.flatten) := by
  rcases List.eq_nil_or_concat blocks with none | ⟨front, last, cut⟩
  · subst none
    rfl
  · rw [List.concat_eq_append] at cut
    have lastAt : blocks[front.length]? = some last := by simp [cut]
    have entryAt := block_index_entry 0 blocks front.length last lastAt
    have lastEntry : (blockIndex 0 blocks).getLast? = (blockIndex 0 blocks)[front.length]? := by
      rw [List.getLast?_eq_getElem?, length_block_index, cut]
      simp
    have lastNonempty : last ≠ [] := nonempty last (by simp [cut])
    have lastRow : lastKey blocks.flatten = ((last.getLast?).map Record.key).getD [] := by
      rw [lastKey, cut]
      simp [List.getLast?_append, Option.or_of_isSome, lastNonempty]
    have readLast := read_built_block blocks bloom front.length last lastAt storable small _ entryAt
    cases blocks with
    | nil => simp at lastAt
    | cons first rest =>
        have firstNonempty : first ≠ [] := nonempty first (by simp)
        have firstRow : headKey (first :: rest).flatten = headKey first := by
          cases first with
          | nil => exact absurd rfl firstNonempty
          | cons row tail => simp [headKey]
        rw [keyRange, lastEntry, entryAt, lastRow, firstRow]
        simp only [blockIndex, List.head?_cons, readLast, bind, Except.bind, pure, Except.pure]

theorem open_table_bytes (blocks : List (List Record)) (bloom : BloomFilter) (well : bloom.WellSized)
    (storable : ∀ rec ∈ blocks.flatten, Storable rec) (nonempty : ∀ block ∈ blocks, block ≠ [])
    (small : (tableBytes blocks bloom).length < offMax) :
    openTable (tableBytes blocks bloom) = .ok ⟨tableBytes blocks bloom, (encodeRecords blocks.flatten).length,
      (tableBytes blocks bloom).length, blocks.flatten.length, headKey blocks.flatten, lastKey blocks.flatten,
      blockIndex 0 blocks, bloom⟩ := by
  generalize dataEq : encodeRecords blocks.flatten = data
  generalize indexEq : encodeIndex (blockIndex 0 blocks) = index
  generalize fileEq : tableBytes blocks bloom = file at small
  have shape : file = data ++ index ++ bloom.serialize ++
      footerBytes data.length index.length bloom.serialize.length blocks.flatten.length := by
    rw [← fileEq, ← dataEq, ← indexEq]
    rfl
  have total : file.length = data.length + index.length + bloom.serialize.length + kFooterSize := by
    rw [shape]
    simp only [List.length_append, length_footer]
  have rows : blocks.flatten.length ≤ data.length := by
    rw [← dataEq]
    exact length_encode_records _
  unfold offMax at small
  obtain ⟨footData, footIndex, footBloom, footCount, footMagic⟩ :=
    read_footer data.length index.length bloom.serialize.length blocks.flatten.length
  have footer : preadExact file (file.length - kFooterSize) kFooterSize =
      .ok (footerBytes data.length index.length bloom.serialize.length blocks.flatten.length) := by
    have region := pread_exact_region (data ++ index ++ bloom.serialize)
      (footerBytes data.length index.length bloom.serialize.length blocks.flatten.length) []
    rw [List.append_nil, ← shape, length_footer] at region
    have start : (data ++ index ++ bloom.serialize).length = file.length - kFooterSize := by
      rw [total]
      simp only [List.length_append]
      omega
    rw [← start]
    exact region (by unfold offMax; exact small)
  have readIndex : preadExact file data.length index.length = .ok index := by
    have region := pread_exact_region data index (bloom.serialize ++
      footerBytes data.length index.length bloom.serialize.length blocks.flatten.length)
    rw [← List.append_assoc, ← shape] at region
    exact region (by unfold offMax; exact small)
  have readBloom : preadExact file (data.length + index.length) bloom.serialize.length = .ok bloom.serialize := by
    have region := pread_exact_region (data ++ index) bloom.serialize
      (footerBytes data.length index.length bloom.serialize.length blocks.flatten.length)
    rw [← shape, List.length_append] at region
    exact region (by unfold offMax; exact small)
  have parsed : parseIndex index.length index = .ok (blockIndex 0 blocks) := by
    rw [← indexEq]
    refine parse_index_encode _ (block_index_fits blocks 0 _ (fun rec member => (storable rec member).key)
      (by rw [dataEq]; omega)) _ ?_
    exact length_encode_index _
  have range : keyRange file (blockIndex 0 blocks) = .ok (headKey blocks.flatten, lastKey blocks.flatten) := by
    rw [← fileEq]
    exact key_range_built blocks bloom storable nonempty (by rw [fileEq]; unfold offMax; exact small)
  have bounds : data.length % 2 ^ 64 = data.length ∧ index.length % 2 ^ 64 = index.length ∧
      bloom.serialize.length % 2 ^ 64 = bloom.serialize.length ∧
      blocks.flatten.length % 2 ^ 64 = blocks.flatten.length := by
    refine ⟨Nat.mod_eq_of_lt ?_, Nat.mod_eq_of_lt ?_, Nat.mod_eq_of_lt ?_, Nat.mod_eq_of_lt ?_⟩ <;> omega
  rw [openTable, if_neg (by omega), footer]
  simp only [bind, Except.bind, footMagic, ne_eq, not_true_eq_false, if_false, footData, footIndex,
    footBloom, footCount, bounds]
  rw [if_neg (by rw [← total, Nat.mod_eq_of_lt (by omega)]; simp), readIndex]
  simp only [parsed, range]
  rw [Nat.mod_eq_of_lt (by omega : data.length + index.length < 2 ^ 64), readBloom]
  simp only [deserialize_serialize bloom well, pure, Except.pure]

-- What an opened table gives its readers for the records it was built from.
structure Represents (table : SSTable) (records : List Record) : Prop where
  ascending : Ascending Record.key records
  storable : ∀ rec ∈ records, Storable rec
  blocks : ∃ blocks : List (List Record), blocks.flatten = records ∧ (∀ block ∈ blocks, block ≠ []) ∧
    table.index.map IndexEntry.firstKey = blocks.map headKey ∧
    ∀ (i : Nat) block, blocks[i]? = some block → table.readBlockRecords i = .ok block
  bloom : ∀ rec ∈ records, table.mayContain rec.key = true
  count : table.numRecords = records.length
  rows : records.length ≤ table.file.length
  minKey : table.minKey = headKey records
  maxKey : table.maxKey = lastKey records

-- A table as it is opened from the file SSTable::build has written.
structure Laid (table : SSTable) (records : List Record) (blocks : List (List Record)) : Prop where
  flat : blocks.flatten = records
  nonempty : ∀ block ∈ blocks, block ≠ []
  index : table.index = blockIndex 0 blocks
  dataSize : table.dataSize = (encodeRecords records).length
  reads : ∀ (i : Nat) block, blocks[i]? = some block → table.readBlockRecords i = .ok block
  bloom : ∀ rec ∈ records, table.mayContain rec.key = true
  count : table.numRecords = records.length
  rows : records.length ≤ table.file.length
  minKey : table.minKey = headKey records
  maxKey : table.maxKey = lastKey records

theorem open_built_blocks (sizing : Nat → BloomSize) (records : List Record) (file : Bytes)
    (storable : ∀ rec ∈ records, Storable rec) (built : buildTable sizing records = .ok file) :
    ∃ table blocks, openTable file = .ok table ∧ table.file = file ∧ table.fileSize = file.length ∧
      Laid table records blocks := by
  obtain ⟨blocks, flat, nonempty, _, small, shape⟩ := build_table_shape sizing records file built
  have startWell : (buildStart sizing records).bloom.WellSized := sized_well _
  obtain ⟨well, contains⟩ := add_all_contains _ startWell (records.map Record.key)
  subst flat
  have small' := small
  rw [shape] at small'
  rw [shape]
  refine ⟨_, blocks, open_table_bytes blocks _ well storable nonempty small', rfl, rfl, ?_⟩
  refine ⟨rfl, nonempty, rfl, rfl, ?_, ?_, rfl, ?_, rfl, rfl⟩
  · intro i block found
    have entry := block_index_entry 0 blocks i block found
    rw [SSTable.readBlockRecords]
    simp only [entry]
    exact read_built_block blocks _ i block found storable small' _ entry
  · intro rec member
    exact contains rec.key (.inl (List.mem_map_of_mem member))
  · have rows := length_encode_records blocks.flatten
    simp only [tableBytes, List.length_append]
    omega

theorem laid_represents (table : SSTable) (records : List Record) (blocks : List (List Record))
    (laid : Laid table records blocks) (ascending : Ascending Record.key records)
    (storable : ∀ rec ∈ records, Storable rec) : Represents table records :=
  ⟨ascending, storable,
    ⟨blocks, laid.flat, laid.nonempty, by rw [laid.index]; exact block_index_first_keys 0 blocks, laid.reads⟩,
    laid.bloom, laid.count, laid.rows, laid.minKey, laid.maxKey⟩

theorem open_built_table (sizing : Nat → BloomSize) (records : List Record) (file : Bytes)
    (ascending : Ascending Record.key records) (storable : ∀ rec ∈ records, Storable rec)
    (built : buildTable sizing records = .ok file) :
    ∃ table, openTable file = .ok table ∧ table.file = file ∧ table.fileSize = file.length ∧
    Represents table records := by
  obtain ⟨table, blocks, opened, same, size, laid⟩ := open_built_blocks sizing records file storable built
  exact ⟨table, opened, same, size, laid_represents table records blocks laid ascending storable⟩

-- A record as a table keeps it: no inline value where the value is separated,
-- no pointer where it is inline.
def Record.stored (rec : Record) : Record := if rec.separated then { rec with value := [] } else { rec with vptr := {} }

def ValidOp (rec : Record) : Prop := rec.op = Op.put ∨ rec.op = Op.delete

@[simp] theorem stored_key (rec : Record) : rec.stored.key = rec.key := by
  rw [Record.stored]
  split <;> rfl

theorem stored_record_same (rec : Record) (separated : rec.separated = true → rec.value = [])
    (inline : rec.separated = false → rec.vptr = {}) : rec.stored = rec := by
  obtain ⟨op, key, value, isSeparated, vptr⟩ := rec
  cases isSeparated with
  | true =>
      obtain rfl : value = [] := separated rfl
      rfl
  | false =>
      obtain rfl : vptr = {} := inline rfl
      rfl

theorem stored_storable (rec : Record) (op : ValidOp rec) (key : rec.key.length ≤ uint32Max)
    (value : rec.value.length ≤ uint32Max) : Storable rec.stored := by
  obtain ⟨code, key', value', isSeparated, vptr⟩ := rec
  cases isSeparated with
  | true => exact ⟨op, key, by simp [Record.stored], fun _ => rfl, by simp [Record.stored]⟩
  | false => exact ⟨op, key, value, by simp [Record.stored], fun _ => rfl⟩

theorem append_stored (rec : Record) : appendRecord rec.stored = appendRecord rec := by
  obtain ⟨op, key, value, isSeparated, vptr⟩ := rec
  cases isSeparated <;> rfl

theorem stored_value_length (rec : Record) : rec.stored.value.length ≤ rec.value.length := by
  rw [Record.stored]
  split <;> simp

theorem build_record_stored (state next : BuildState) (rec : Record) (step : buildRecord state rec = .ok next) :
    buildRecord state rec.stored = .ok next := by
  rw [buildRecord] at step
  by_cases long : rec.key.length > uint32Max ∨ rec.value.length > uint32Max
  · rw [if_pos long] at step
    cases step
  · have shorter := stored_value_length rec
    rw [if_neg long] at step
    rw [buildRecord, if_neg (by rw [stored_key]; omega), append_stored, stored_key]
    exact step

theorem build_records_stored (records : List Record) (state last : BuildState)
    (run : records.foldlM buildRecord state = .ok last) :
    (records.map Record.stored).foldlM buildRecord state = .ok last := by
  induction records generalizing state with
  | nil => exact run
  | cons rec rest ih =>
      rw [List.foldlM_cons] at run
      obtain ⟨next, step, run⟩ := bind_returns _ _ _ run
      rw [List.map_cons, List.foldlM_cons, build_record_stored state next rec step]
      exact ih next run

theorem build_table_stored (sizing : Nat → BloomSize) (records : List Record) (file : Bytes)
    (built : buildTable sizing records = .ok file) : buildTable sizing (records.map Record.stored) = .ok file := by
  have start : buildStart sizing (records.map Record.stored) = buildStart sizing records := by simp [buildStart]
  rw [buildTable] at built ⊢
  rw [start]
  obtain ⟨state, run, built⟩ := bind_returns _ _ _ built
  rw [build_records_stored records _ state run]
  exact built

theorem open_stored_blocks (sizing : Nat → BloomSize) (records : List Record) (file : Bytes)
    (ops : ∀ rec ∈ records, ValidOp rec) (built : buildTable sizing records = .ok file) :
    (∀ rec ∈ records.map Record.stored, Storable rec) ∧
      ∃ table blocks, openTable file = .ok table ∧ Laid table (records.map Record.stored) blocks := by
  obtain ⟨_, _, _, fits, _, _⟩ := build_table_shape sizing records file built
  have storable : ∀ rec ∈ records.map Record.stored, Storable rec := by
    intro rec member
    obtain ⟨original, inside, rfl⟩ := List.mem_map.mp member
    exact stored_storable original (ops original inside) (fits original inside).1 (fits original inside).2
  obtain ⟨table, blocks, opened, _, _, laid⟩ :=
    open_built_blocks sizing _ file storable (build_table_stored sizing records file built)
  exact ⟨storable, table, blocks, opened, laid⟩

end Tombstash
