import Tombstash.SSTableFormat

set_option autoImplicit false

namespace Tombstash

theorem parse_one_shrinks (b rest : Bytes) (rec : Record) (parsed : parseOne b = .ok (rec, rest)) :
    rest.length < b.length := by
  rw [parseOne] at parsed
  split at parsed
  · cases parsed
  rename_i header
  dsimp only at parsed
  split at parsed
  · cases parsed
  split at parsed
  · split at parsed
    · cases parsed
    cases parsed
    simp only [List.length_drop]
    omega
  · split at parsed
    · cases parsed
    cases parsed
    simp only [List.length_drop]
    omega

theorem parse_records_fuel (fuel : Nat) (bytes : Bytes) (enough : bytes.length ≤ fuel) :
    parseRecords fuel bytes = parseRecords bytes.length bytes := by
  refine loop_fuel parseRecords (fun fuel => by cases fuel <;> rfl) ?_ fuel bytes enough
  intro fuel more bytes _ shorter
  rw [parseRecords, parseRecords]
  cases parsed : parseOne bytes with
  | error e => rfl
  | ok result =>
      have shrinks := parse_one_shrinks bytes result.2 result.1 parsed
      simp only [bind, Except.bind, shorter result.2 shrinks]

theorem parse_index_fuel (fuel : Nat) (idx : Bytes) (enough : idx.length ≤ fuel) :
    parseIndex fuel idx = parseIndex idx.length idx := by
  refine loop_fuel parseIndex (fun fuel => by cases fuel <;> rfl) ?_ fuel idx enough
  intro fuel more idx some shorter
  have positive := List.length_pos_iff.mpr some
  rw [parseIndex, parseIndex]
  dsimp only
  rw [shorter _ (by simp only [List.length_drop]; omega)]

theorem pread_inside (file bytes : Bytes) (offset len : Nat) (done : preadExact file offset len = .ok bytes) :
    bytes.length = len ∧ (0 < len → offset < offMax ∧ offset + len ≤ file.length) := by
  rw [preadExact, preadRange] at done
  split at done
  · rename_i none
    cases done
    exact ⟨none.symm, fun some => by omega⟩
  · split at done
    · cases done
    rename_i inside
    cases done
    have fits : offset + len ≤ file.length := by omega
    exact ⟨length_slice file offset len fits, fun _ => ⟨by omega, fits⟩⟩

theorem deserialize_header (data : Bytes) (filter : BloomFilter)
    (accepted : BloomFilter.deserialize data = .ok filter) :
    12 ≤ data.length := by
  rw [BloomFilter.deserialize] at accepted
  split at accepted
  · cases accepted
  · omega

def footerOf (file : Bytes) : Bytes := slice file (file.length - kFooterSize) kFooterSize

theorem open_table_reads (file : Bytes) (table : SSTable) (opened : openTable file = .ok table) :
    (readU64Le (footerOf file) + readU64Le ((footerOf file).drop 8) +
      readU64Le ((footerOf file).drop 16) + kFooterSize) %
        2 ^ 64 = file.length ∧
      (∃ idx, preadExact file (readU64Le (footerOf file)) (readU64Le ((footerOf file).drop 8)) = .ok idx) ∧
      ∃ bloomBytes filter, preadExact file ((readU64Le (footerOf file) + readU64Le ((footerOf file).drop 8)) % 2 ^ 64)
        (readU64Le ((footerOf file).drop 16)) = .ok bloomBytes ∧ BloomFilter.deserialize bloomBytes = .ok filter := by
  rw [openTable] at opened
  split at opened
  · cases opened
  cases footerRead : preadExact file (file.length - kFooterSize) kFooterSize with
  | error e =>
      rw [footerRead] at opened
      cases opened
  | ok footer =>
      have same : footer = footerOf file := by
        rw [preadExact, preadRange, if_neg (by decide)] at footerRead
        split at footerRead
        · cases footerRead
        · cases footerRead
          rfl
      subst same
      rw [footerRead] at opened
      dsimp only [bind, Except.bind] at opened
      split at opened
      · cases opened
      split at opened
      · cases opened
      rename_i sizes
      split at opened
      · cases opened
      rename_i idx idxRead
      split at opened
      · cases opened
      split at opened
      · cases opened
      split at opened
      · cases opened
      rename_i bloomBytes bloomRead
      split at opened
      · cases opened
      rename_i filter accepted
      exact ⟨not_not.mp sizes, ⟨idx, idxRead⟩, bloomBytes, filter, bloomRead, accepted⟩

-- The Bloom block is never empty, so its read alone bounds all three sizes: where
-- the index is empty it starts at data_size, and otherwise the index read has
-- placed the sum below 2^63.
theorem opened_sizes (file : Bytes) (table : SSTable) (small : file.length < offMax)
    (opened : openTable file = .ok table) :
    readU64Le (footerOf file) + readU64Le ((footerOf file).drop 8) + readU64Le ((footerOf file).drop 16) + kFooterSize =
      file.length := by
  obtain ⟨sizes, ⟨idx, idxRead⟩, bloomBytes, filter, bloomRead, accepted⟩ := open_table_reads file table opened
  have dataBound := read_u64_lt (footerOf file)
  obtain ⟨_, indexInside⟩ := pread_inside _ _ _ _ idxRead
  obtain ⟨bloomLength, bloomInside⟩ := pread_inside _ _ _ _ bloomRead
  have header := deserialize_header bloomBytes filter accepted
  obtain ⟨_, bloomFits⟩ := bloomInside (by omega)
  unfold offMax at small indexInside
  unfold kFooterSize at sizes ⊢
  rcases Nat.eq_zero_or_pos (readU64Le ((footerOf file).drop 8)) with none | some
  · rw [none] at sizes bloomFits ⊢
    omega
  · obtain ⟨_, indexFits⟩ := indexInside some
    omega

theorem opened_table_partitions (file : Bytes) (small : file.length < offMax) :
    (∀ table, openTable file = .ok table →
      readU64Le (footerOf file) + readU64Le ((footerOf file).drop 8) + readU64Le
      ((footerOf file).drop 16) + kFooterSize =
        file.length) ∧
    ∀ bytes fuel, bytes.length ≤ fuel →
      parseIndex fuel bytes = parseIndex bytes.length bytes ∧
      parseRecords fuel bytes = parseRecords bytes.length bytes :=
  ⟨fun table opened => opened_sizes file table small opened,
    fun bytes fuel enough => ⟨parse_index_fuel fuel bytes enough, parse_records_fuel fuel bytes enough⟩⟩

def oneRowFile : Bytes := ((buildTable smallBloom [⟨Op.put, [0x61], [0x62], false, {}⟩]).toOption).getD []

theorem one_row_file_partitions :
    (openTable oneRowFile).isOk = true ∧
      readU64Le (footerOf oneRowFile) + readU64Le ((footerOf oneRowFile).drop 8) + readU64Le
      ((footerOf oneRowFile).drop 16) +
        kFooterSize = oneRowFile.length := by
  have fine : (openTable oneRowFile).isOk = true := by decide +kernel
  refine ⟨fine, ?_⟩
  cases opened : openTable oneRowFile with
  | error e =>
      rw [opened] at fine
      cases fine
  | ok table => exact (opened_table_partitions oneRowFile (by decide +kernel)).1 table opened

end Tombstash
