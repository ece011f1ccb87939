import Tombstash.Record

set_option autoImplicit false

namespace Tombstash

structure BloomFilter where
  numBits : UInt64
  k : UInt32
  bits : List UInt8
deriving DecidableEq, Repr

def fnv1a (s : Bytes) (seed : UInt64) : UInt64 :=
  s.foldl (fun h c => (h ^^^ c.toUInt64) * 1099511628211) (1469598103934665603 ^^^ seed)

-- The floating-point sizing (optimal_bits, optimal_hashes) of a filter for n
-- keys is a parameter: any sizes it can give are allowed.
structure BloomSize where
  numBits : UInt64
  k : UInt32
  someBits : 1 ≤ numBits.toNat
  noWrap : numBits.toNat ≤ 2 ^ 64 - 8
  someHashes : 1 ≤ k.toNat

-- One byte of bits and one hash, for runs on small inputs.
def smallBloom (_ : Nat) : BloomSize := ⟨8, 1, by decide, by decide, by decide⟩

def BloomFilter.sized (size : BloomSize) : BloomFilter :=
  ⟨size.numBits, size.k, List.replicate ((size.numBits + 7) / 8).toNat 0⟩

def BloomFilter.make (numBits : UInt64) (k : UInt32) : BloomFilter :=
  let n := if numBits = 0 then 1 else numBits
  ⟨n, if k = 0 then 1 else k, List.replicate ((n + 7) / 8).toNat 0⟩

def BloomFilter.setBit (filter : BloomFilter) (i : UInt64) : BloomFilter :=
  { filter with
    bits := filter.bits.modify (i >>> 3).toNat (fun byte => UInt8.ofNat (byte.toNat ||| 1 <<< (i &&& 7).toNat)) }

-- A probe past the end of bits_ is undefined in the source; it reads 0 here.
def BloomFilter.getBit (filter : BloomFilter) (i : UInt64) : Bool :=
  (filter.bits.getD (i >>> 3).toNat 0).toNat.testBit (i &&& 7).toNat

-- The bit indices that add and maybe_contains compute for a key.
def BloomFilter.probes (filter : BloomFilter) (key : Bytes) : List UInt64 :=
  let h1 := fnv1a key 0
  let h2 := fnv1a key 0x9e3779b97f4a7c15 ||| 1
  (List.range filter.k.toNat).map (fun i => (h1 + UInt64.ofNat i * h2) % filter.numBits)

def BloomFilter.add (filter : BloomFilter) (key : Bytes) : BloomFilter :=
  (filter.probes key).foldl BloomFilter.setBit filter

def BloomFilter.maybeContains (filter : BloomFilter) (key : Bytes) : Bool :=
  (filter.probes key).all filter.getBit

def BloomFilter.serialize (filter : BloomFilter) : Bytes :=
  putU64Le filter.numBits.toNat ++ putU32Le filter.k.toNat ++ filter.bits

def BloomFilter.deserialize (data : Bytes) : Except Error BloomFilter :=
  if data.length < 12 then .error (.runtime "bloom: truncated header")
  else
    let filter := BloomFilter.make (UInt64.ofNat (readU64Le data)) (UInt32.ofNat (readU32Le (data.drop 8)))
    if data.length - 12 ≠ filter.bits.length then .error (.runtime "bloom: bit-array size mismatch")
    else .ok { filter with bits := data.drop 12 }

structure BloomFilter.WellSized (filter : BloomFilter) : Prop where
  someBits : 1 ≤ filter.numBits.toNat
  noWrap : filter.numBits.toNat ≤ 2 ^ 64 - 8
  someHashes : 1 ≤ filter.k.toNat
  size : filter.bits.length = (filter.numBits.toNat + 7) / 8

theorem bit_bytes (n : UInt64) (noWrap : n.toNat ≤ 2 ^ 64 - 8) : ((n + 7) / 8).toNat = (n.toNat + 7) / 8 := by
  have sum : (n + 7).toNat = n.toNat + 7 := by
    rw [UInt64.toNat_add]
    exact Nat.mod_eq_of_lt (by simp; omega)
  rw [UInt64.toNat_div, sum]
  rfl

theorem sized_well (size : BloomSize) : (BloomFilter.sized size).WellSized :=
  ⟨size.someBits, size.noWrap, size.someHashes, by simp [BloomFilter.sized, bit_bytes size.numBits size.noWrap]⟩

@[simp] theorem set_bit_num_bits (filter : BloomFilter) (i : UInt64) : (filter.setBit i).numBits = filter.numBits := rfl
@[simp] theorem set_bit_k (filter : BloomFilter) (i : UInt64) : (filter.setBit i).k = filter.k := rfl
@[simp] theorem set_bit_length (filter : BloomFilter) (i : UInt64) :
    (filter.setBit i).bits.length = filter.bits.length := by simp [BloomFilter.setBit]

theorem shift_index (i : UInt64) : (i >>> 3).toNat = i.toNat / 8 := by
  simp [UInt64.toNat_shiftRight, Nat.shiftRight_eq_div_pow]

theorem mask_index (i : UInt64) : (i &&& 7).toNat = i.toNat % 8 := by
  rw [UInt64.toNat_and]
  exact Nat.and_two_pow_sub_one_eq_mod i.toNat 3

theorem small_or (byte : UInt8) (s : Nat) (small : s < 8) :
    (UInt8.ofNat (byte.toNat ||| 1 <<< s)).toNat = byte.toNat ||| 1 <<< s := by
  rw [UInt8.toNat_ofNat']
  refine Nat.mod_eq_of_lt (Nat.or_lt_two_pow byte.toNat_lt ?_)
  rw [Nat.shiftLeft_eq, Nat.one_mul]
  exact Nat.pow_lt_pow_right (by decide) small

theorem get_set_bit (filter : BloomFilter) (i j : UInt64) (inside : i.toNat / 8 < filter.bits.length) :
    (filter.setBit i).getBit j = (filter.getBit j || decide (i = j)) := by
  simp only [BloomFilter.getBit, BloomFilter.setBit, shift_index, mask_index, List.getD_eq_getElem?_getD,
    List.getElem?_modify]
  by_cases sameByte : i.toNat / 8 = j.toNat / 8
  · have here : j.toNat / 8 < filter.bits.length := by omega
    simp only [if_pos sameByte, List.getElem?_eq_getElem here, Option.map_eq_map, Option.map_some, Option.getD_some]
    rw [small_or _ _ (Nat.mod_lt _ (by decide)), Nat.testBit_or, Nat.shiftLeft_eq, Nat.one_mul, Nat.testBit_two_pow]
    congr 1
    apply decide_eq_decide.mpr
    constructor
    · intro sameBit
      apply UInt64.toNat_inj.mp
      omega
    · rintro rfl
      rfl
  · have different : i ≠ j := fun eq => sameByte (by rw [eq])
    simp [sameByte, different]

theorem set_bits_keep (filter : BloomFilter) (indices : List UInt64) (j : UInt64)
    (inside : ∀ i ∈ indices, i.toNat / 8 < filter.bits.length) :
    (indices.foldl BloomFilter.setBit filter).getBit j = (filter.getBit j || decide (j ∈ indices)) ∧
      (indices.foldl BloomFilter.setBit filter).bits.length = filter.bits.length ∧
      (indices.foldl BloomFilter.setBit filter).numBits = filter.numBits ∧
      (indices.foldl BloomFilter.setBit filter).k = filter.k := by
  induction indices generalizing filter with
  | nil => simp
  | cons i rest ih =>
      obtain ⟨bit, length, numBits, k⟩ := ih (filter.setBit i) (fun other member => by
        rw [set_bit_length]
        exact inside other (by simp [member]))
      simp only [List.foldl_cons]
      refine ⟨?_, by rw [length, set_bit_length], by rw [numBits, set_bit_num_bits], by rw [k, set_bit_k]⟩
      rw [bit, get_set_bit filter i j (inside i (by simp)), Bool.or_assoc]
      congr 1
      by_cases same : i = j
      · simp [same]
      · simp [same, Ne.symm same]

theorem probe_inside (filter : BloomFilter) (well : filter.WellSized) (key : Bytes) :
    ∀ i ∈ filter.probes key, i.toNat / 8 < filter.bits.length := by
  intro i member
  simp only [BloomFilter.probes, List.mem_map] at member
  obtain ⟨n, _, rfl⟩ := member
  have positive := well.someBits
  rw [UInt64.toNat_mod, well.size]
  have below := Nat.mod_lt ((fnv1a key 0 + UInt64.ofNat n * (fnv1a key 0x9e3779b97f4a7c15 ||| 1)).toNat)
    (by omega : 0 < filter.numBits.toNat)
  omega

theorem add_well (filter : BloomFilter) (well : filter.WellSized) (key : Bytes) : (filter.add key).WellSized := by
  obtain ⟨_, length, numBits, k⟩ := set_bits_keep filter (filter.probes key) 0 (probe_inside filter well key)
  refine ⟨?_, ?_, ?_, ?_⟩ <;> simp only [BloomFilter.add, length, numBits, k]
  · exact well.someBits
  · exact well.noWrap
  · exact well.someHashes
  · exact well.size

theorem add_probes (filter : BloomFilter) (well : filter.WellSized) (key other : Bytes) :
    (filter.add key).probes other = filter.probes other := by
  obtain ⟨_, _, numBits, k⟩ := set_bits_keep filter (filter.probes key) 0 (probe_inside filter well key)
  simp only [BloomFilter.probes, BloomFilter.add] at numBits k ⊢
  rw [numBits, k]

theorem add_contains (filter : BloomFilter) (well : filter.WellSized) (key other : Bytes)
    (present : other = key ∨ filter.maybeContains other = true) : (filter.add key).maybeContains other = true := by
  rw [BloomFilter.maybeContains, add_probes filter well, List.all_eq_true]
  intro j member
  rw [BloomFilter.add, (set_bits_keep filter _ j (probe_inside filter well key)).1]
  rcases present with same | before
  · subst same
    simp [member]
  · rw [BloomFilter.maybeContains, List.all_eq_true] at before
    simp [before j member]

theorem add_all_contains (filter : BloomFilter) (well : filter.WellSized) (keys : List Bytes) :
    (keys.foldl BloomFilter.add filter).WellSized ∧
      ∀ key, key ∈ keys ∨ filter.maybeContains key = true →
        (keys.foldl BloomFilter.add filter).maybeContains key = true := by
  induction keys generalizing filter with
  | nil => exact ⟨well, by simp⟩
  | cons first rest ih =>
      obtain ⟨restWell, restContains⟩ := ih (filter.add first) (add_well filter well first)
      refine ⟨restWell, fun key present => restContains key ?_⟩
      rcases present with member | before
      · rcases List.mem_cons.mp member with same | later
        · exact .inr (add_contains filter well first key (.inl same))
        · exact .inl later
      · exact .inr (add_contains filter well first key (.inr before))

theorem length_serialize (filter : BloomFilter) : filter.serialize.length = 12 + filter.bits.length := by
  simp [BloomFilter.serialize]
  omega

theorem deserialize_serialize (filter : BloomFilter) (well : filter.WellSized) :
    BloomFilter.deserialize filter.serialize = .ok filter := by
  have first : readU64Le filter.serialize = filter.numBits.toNat := by
    rw [BloomFilter.serialize, List.append_assoc, read_put_u64]
    exact Nat.mod_eq_of_lt filter.numBits.toNat_lt
  have second : readU32Le (filter.serialize.drop 8) = filter.k.toNat := by
    rw [BloomFilter.serialize, List.append_assoc, List.drop_left' (length_put_u64 _), read_put_u32]
    exact Nat.mod_eq_of_lt filter.k.toNat_lt
  have third : filter.serialize.drop 12 = filter.bits := by
    rw [BloomFilter.serialize]
    exact List.drop_left' (by simp)
  have bitsNonzero : filter.numBits ≠ 0 := by
    intro zero
    have positive := well.someBits
    rw [zero] at positive
    exact absurd positive (by decide)
  have hashesNonzero : filter.k ≠ 0 := by
    intro zero
    have positive := well.someHashes
    rw [zero] at positive
    exact absurd positive (by decide)
  have made : BloomFilter.make filter.numBits filter.k =
      ⟨filter.numBits, filter.k, List.replicate ((filter.numBits.toNat + 7) / 8) 0⟩ := by
    simp [BloomFilter.make, bitsNonzero, hashesNonzero, bit_bytes filter.numBits well.noWrap]
  rw [BloomFilter.deserialize, length_serialize, if_neg (by omega), first, second, UInt64.ofNat_toNat,
    UInt32.ofNat_toNat, made]
  simp only [List.length_replicate, third]
  rw [if_neg (by rw [well.size]; omega)]

-- The indices maybe_contains gets to: it returns at the first clear bit.
def BloomFilter.visited (filter : BloomFilter) : List UInt64 → List UInt64
  | [] => []
  | i :: rest => if filter.getBit i then i :: filter.visited rest else [i]

theorem visited_mem (filter : BloomFilter) (indices : List UInt64) (i : UInt64) (member : i ∈ filter.visited indices) :
    i ∈ indices := by
  induction indices with
  | nil => exact member
  | cons head rest ih =>
      rw [BloomFilter.visited] at member
      split at member
      · rcases List.mem_cons.mp member with same | later
        · simp [same]
        · exact List.mem_cons_of_mem _ (ih later)
      · simp [List.mem_singleton.mp member]

theorem visited_first (filter : BloomFilter) (indices : List UInt64) (some : indices ≠ []) :
    ∃ i, i ∈ filter.visited indices := by
  cases indices with
  | nil => exact absurd rfl some
  | cons head rest =>
      refine ⟨head, ?_⟩
      rw [BloomFilter.visited]
      split <;> simp

theorem probes_nonempty (filter : BloomFilter) (key : Bytes) (hashes : 1 ≤ filter.k.toNat) :
    filter.probes key ≠ [] := by
  intro empty
  have length := congrArg List.length empty
  simp only [BloomFilter.probes, List.length_map, List.length_range, List.length_nil] at length
  omega

theorem make_hashes (numBits : UInt64) (k : UInt32) : 1 ≤ (BloomFilter.make numBits k).k.toNat := by
  show 1 ≤ (if k = 0 then 1 else k).toNat
  by_cases zero : k = 0
  · rw [if_pos zero]
    decide
  · rw [if_neg zero]
    exact Nat.pos_of_ne_zero (fun empty => zero (UInt32.toNat_inj.mp empty))

theorem make_well (numBits : UInt64) (k : UInt32) (noWrap : numBits.toNat ≤ 2 ^ 64 - 8) :
    (BloomFilter.make numBits k).WellSized := by
  have bits : 1 ≤ (if numBits = 0 then 1 else numBits).toNat ∧
    (if numBits = 0 then 1 else numBits).toNat ≤ 2 ^ 64 - 8 := by
    by_cases zero : numBits = 0
    · rw [if_pos zero]
      decide
    · rw [if_neg zero]
      refine ⟨Nat.pos_of_ne_zero (fun empty => zero ?_), noWrap⟩
      exact UInt64.toNat_inj.mp empty
  refine ⟨bits.1, bits.2, make_hashes numBits k, ?_⟩
  rw [BloomFilter.make, List.length_replicate]
  exact bit_bytes _ bits.2

theorem make_wraps (numBits : UInt64) (k : UInt32) (wrap : 2 ^ 64 - 8 < numBits.toNat) :
    (BloomFilter.make numBits k).bits = [] := by
  have positive : numBits ≠ 0 := by
    rintro rfl
    exact absurd wrap (by decide)
  have below := numBits.toNat_lt
  have none : ((numBits + 7) / 8).toNat = 0 := by
    rw [UInt64.toNat_div, UInt64.toNat_add]
    simp only [UInt64.reduceToNat]
    omega
  simp [BloomFilter.make, positive, none]

theorem deserialize_accepts (data : Bytes) (filter : BloomFilter)
    (accepted : BloomFilter.deserialize data = .ok filter) :
    ∃ made, made = BloomFilter.make (UInt64.ofNat (readU64Le data)) (UInt32.ofNat (readU32Le (data.drop 8))) ∧
      filter.numBits = made.numBits ∧ filter.k = made.k ∧ filter.bits.length = made.bits.length := by
  rw [BloomFilter.deserialize] at accepted
  split at accepted
  · cases accepted
  dsimp only at accepted
  split at accepted
  · cases accepted
  rename_i sameLength
  cases accepted
  exact ⟨_, rfl, rfl, rfl, by rw [List.length_drop]; omega⟩

theorem accepted_probes_inside_iff (data : Bytes) (filter : BloomFilter)
    (accepted : BloomFilter.deserialize data = .ok filter) :
    (∀ key, ∀ i ∈ filter.visited (filter.probes key), (i >>> 3).toNat < filter.bits.length) ↔
      readU64Le data ≤ 2 ^ 64 - 8 := by
  obtain ⟨made, shape, numBits, k, length⟩ := deserialize_accepts data filter accepted
  have header : (UInt64.ofNat (readU64Le data)).toNat = readU64Le data := by
    rw [UInt64.toNat_ofNat']
    exact Nat.mod_eq_of_lt (read_u64_lt data)
  constructor
  · intro inside
    by_contra wrap
    have empty := make_wraps (UInt64.ofNat (readU64Le data)) (UInt32.ofNat (readU32Le (data.drop 8)))
      (by rw [header]; omega)
    rw [← shape] at empty
    have hashes : 1 ≤ filter.k.toNat := by
      rw [k, shape]
      exact make_hashes _ _
    obtain ⟨i, first⟩ := visited_first filter (filter.probes []) (probes_nonempty filter [] hashes)
    have bound := inside [] i first
    rw [length, empty] at bound
    exact absurd bound (Nat.not_lt_zero _)
  · intro noWrap key i member
    have well : filter.WellSized := by
      obtain ⟨someBits, fits, someHashes, size⟩ := make_well (UInt64.ofNat (readU64Le data))
        (UInt32.ofNat (readU32Le (data.drop 8))) (by rw [header]; exact noWrap)
      rw [← shape, ← numBits] at someBits fits size
      rw [← shape, ← k] at someHashes
      exact ⟨someBits, fits, someHashes, length.trans size⟩
    rw [shift_index]
    exact probe_inside filter well key i (visited_mem filter _ i member)

-- num_bits = 2^64 - 1 and k = 1 with no bit array at all.
def wrappedBlock : Bytes := [0xff, 0xff, 0xff, 0xff, 0xff, 0xff, 0xff, 0xff, 1, 0, 0, 0]

theorem wrapped_block_probes_outside :
    ∃ filter, BloomFilter.deserialize wrappedBlock = .ok filter ∧
      ∃ i ∈ filter.visited (filter.probes [0x61]), ¬(i >>> 3).toNat < filter.bits.length := by
  refine ⟨⟨0xffffffffffffffff, 1, []⟩, by decide +kernel, ?_⟩
  obtain ⟨i, first⟩ :=
    visited_first ⟨0xffffffffffffffff, 1, []⟩ _ (probes_nonempty ⟨0xffffffffffffffff, 1, []⟩ [0x61] (by decide))
  exact ⟨i, first, Nat.not_lt_zero _⟩

def oneByteBlock : Bytes := [8, 0, 0, 0, 0, 0, 0, 0, 1, 0, 0, 0, 0xff]

theorem one_byte_block_probes_inside :
    BloomFilter.deserialize oneByteBlock = .ok ⟨8, 1, [0xff]⟩ ∧ ∀ key,
      ∀ i ∈ (BloomFilter.mk 8 1 [0xff]).visited ((BloomFilter.mk 8 1 [0xff]).probes key), (i >>> 3).toNat < 1 := by
  have accepted : BloomFilter.deserialize oneByteBlock = .ok ⟨8, 1, [0xff]⟩ := by decide +kernel
  exact ⟨accepted, (accepted_probes_inside_iff oneByteBlock ⟨8, 1, [0xff]⟩ accepted).mpr (by decide)⟩

end Tombstash
