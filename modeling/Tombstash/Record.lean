import Tombstash.Base.Bytes
import Tombstash.Base.Runs

set_option autoImplicit false

namespace Tombstash

-- What a C++ exception carries: the kind that is thrown and its text. Texts
-- that end in a file path are cut before the path.
inductive Error where
  | runtime (what : String)
  | length (what : String)
  | system (what : String)
  | outOfRange (what : String)
deriving DecidableEq, Repr

theorem to_option_ok {A : Type} (result : Except Error A) (value : A) (found : result.toOption = some value) :
    result = .ok value := by
  cases result with
  | error e => cases found
  | ok other =>
      cases found
      rfl

theorem bind_returns {A B : Type} (first : Except Error A) (next : A → Except Error B) (value : B)
    (done : first >>= next = .ok value) : ∃ middle, first = .ok middle ∧ next middle = .ok value := by
  cases first with
  | error e => cases done
  | ok middle => exact ⟨middle, rfl, done⟩

-- enum class Op : uint8_t. Decoding casts any byte to it, so the codes other
-- than Put and Delete stay representable.
structure Op where
  code : UInt8
deriving DecidableEq, Repr

def Op.put : Op := ⟨0⟩
def Op.delete : Op := ⟨1⟩

structure ValuePtr where
  gen : UInt32 := 0
  offset : UInt64 := 0
  len : UInt32 := 0
deriving DecidableEq, Repr

structure Record where
  op : Op
  key : Bytes
  value : Bytes
  separated : Bool := false
  vptr : ValuePtr := {}
deriving DecidableEq, Repr

def uint32Max : Nat := 2 ^ 32 - 1

def putU32Le (v : Nat) : Bytes := leBytes 4 v
def putU64Le (v : Nat) : Bytes := leBytes 8 v
def readU32Le (p : Bytes) : Nat := leNat (p.take 4)
def readU64Le (p : Bytes) : Nat := leNat (p.take 8)

@[simp] theorem length_put_u32 (v : Nat) : (putU32Le v).length = 4 := length_le_bytes 4 v
@[simp] theorem length_put_u64 (v : Nat) : (putU64Le v).length = 8 := length_le_bytes 8 v

theorem read_put_u32 (v : Nat) (rest : Bytes) : readU32Le (putU32Le v ++ rest) = v % 2 ^ 32 := by
  have front : (putU32Le v ++ rest).take 4 = putU32Le v := List.take_left' (length_put_u32 v)
  calc readU32Le (putU32Le v ++ rest) = v % 256 ^ 4 := by rw [readU32Le, front, putU32Le, le_nat_le_bytes]
    _ = v % 2 ^ 32 := rfl

theorem read_put_u64 (v : Nat) (rest : Bytes) : readU64Le (putU64Le v ++ rest) = v % 2 ^ 64 := by
  have front : (putU64Le v ++ rest).take 8 = putU64Le v := List.take_left' (length_put_u64 v)
  calc readU64Le (putU64Le v ++ rest) = v % 256 ^ 8 := by rw [readU64Le, front, putU64Le, le_nat_le_bytes]
    _ = v % 2 ^ 64 := rfl

theorem read_put_u32_of_le (v : Nat) (rest : Bytes) (fits : v ≤ uint32Max) : readU32Le (putU32Le v ++ rest) = v := by
  rw [read_put_u32, Nat.mod_eq_of_lt (by unfold uint32Max at fits; omega)]

theorem read_u32_lt (p : Bytes) : readU32Le p < 2 ^ 32 := by
  have bound := le_nat_lt (p.take 4)
  have short : (p.take 4).length ≤ 4 := List.length_take_le 4 p
  exact lt_of_lt_of_le bound (Nat.pow_le_pow_right (by decide) short)

theorem read_u64_lt (p : Bytes) : readU64Le p < 2 ^ 64 := by
  have bound := le_nat_lt (p.take 8)
  have short : (p.take 8).length ≤ 8 := List.length_take_le 8 p
  exact lt_of_lt_of_le bound (Nat.pow_le_pow_right (by decide) short)

theorem read_u32_append (p rest : Bytes) (enough : 4 ≤ p.length) : readU32Le (p ++ rest) = readU32Le p := by
  rw [readU32Le, readU32Le, List.take_append_of_le_length enough]

theorem put_read_u32 (p : Bytes) (enough : 4 ≤ p.length) : putU32Le (readU32Le p) ++ p.drop 4 = p := by
  have len : (p.take 4).length = 4 := by rw [List.length_take]; omega
  have back := le_bytes_le_nat (p.take 4)
  rw [len] at back
  rw [putU32Le, readU32Le, back, List.take_append_drop]

end Tombstash
