import Mathlib.Algebra.Group.Int.Defs
import Mathlib.Algebra.GroupWithZero.Nat
import Mathlib.Data.List.Lex
import Mathlib.Data.Nat.Basic
import Mathlib.Order.Lattice

set_option autoImplicit false

namespace Tombstash

abbrev Bytes := List UInt8

-- Byte strings compare as unsigned bytes, lexicographically, which is what
-- std::char_traits<char> does for std::string.
instance byteOrder : LinearOrder UInt8 where
  le_refl a := UInt8.le_refl a
  le_trans a b c := UInt8.le_trans
  lt_iff_le_not_ge a b := by
    rw [UInt8.lt_iff_toNat_lt, UInt8.le_iff_toNat_le, UInt8.le_iff_toNat_le]
    omega
  le_antisymm a b := UInt8.le_antisymm
  le_total a b := UInt8.le_total a b
  toDecidableLE := inferInstance
  toDecidableLT := inferInstance
  toDecidableEq := inferInstance

instance (priority := 2000) bytesOrder : LinearOrder (List UInt8) := List.instLinearOrder

instance bytesLawfulBEq : LawfulBEq (List UInt8) := inferInstance

-- Comparisons of byte strings go through the linear order above, not through
-- the separate order instances of lists.
instance (priority := 2000) bytesLT : LT (List UInt8) := Preorder.toLT
instance (priority := 2000) bytesLE : LE (List UInt8) := Preorder.toLE
instance (priority := 2000) bytesDecidableLT : DecidableLT (List UInt8) := LinearOrder.toDecidableLT
instance (priority := 2000) bytesDecidableLE : DecidableLE (List UInt8) := LinearOrder.toDecidableLE

def leBytes : Nat → Nat → Bytes
  | 0, _ => []
  | width + 1, n => UInt8.ofNat n :: leBytes width (n / 256)

def leNat : Bytes → Nat
  | [] => 0
  | byte :: tail => byte.toNat + 256 * leNat tail

@[simp] theorem length_le_bytes (width n : Nat) : (leBytes width n).length = width := by
  induction width generalizing n with
  | zero => rfl
  | succ width ih => simp [leBytes, ih]

theorem le_nat_le_bytes (width n : Nat) : leNat (leBytes width n) = n % 256 ^ width := by
  induction width generalizing n with
  | zero => simp [leBytes, leNat, Nat.mod_one]
  | succ width ih =>
      have byte : (UInt8.ofNat n).toNat = n % 256 := by simp
      rw [leBytes, leNat, ih, byte, Nat.pow_succ, Nat.mul_comm (256 ^ width), Nat.mod_mul]

theorem le_nat_lt (bytes : Bytes) : leNat bytes < 256 ^ bytes.length := by
  induction bytes with
  | nil => simp [leNat]
  | cons byte tail ih =>
      have small : byte.toNat < 256 := byte.toNat_lt
      rw [leNat, List.length_cons, Nat.pow_succ]
      omega

theorem le_bytes_le_nat (bytes : Bytes) : leBytes bytes.length (leNat bytes) = bytes := by
  induction bytes with
  | nil => rfl
  | cons byte tail ih =>
      have small : byte.toNat < 256 := byte.toNat_lt
      have quotient : (byte.toNat + 256 * leNat tail) / 256 = leNat tail := by omega
      have low : UInt8.ofNat (byte.toNat + 256 * leNat tail) = byte := by
        apply UInt8.toNat_inj.mp
        simp
      rw [List.length_cons, leNat, leBytes, quotient, ih, low]

def slice (bytes : Bytes) (offset len : Nat) : Bytes := (bytes.drop offset).take len

theorem slice_append_right (front middle rest : Bytes) (len : Nat) (exact : len = middle.length) :
    slice (front ++ middle ++ rest) front.length len = middle := by
  subst exact
  simp [slice, List.append_assoc]

theorem length_slice (bytes : Bytes) (offset len : Nat) (inside : offset + len ≤ bytes.length) :
    (slice bytes offset len).length = len := by
  simp only [slice, List.length_take, List.length_drop]
  omega

-- Bytes appended to a file leave every range that was already inside it alone.
theorem slice_append_left (bytes extra : Bytes) (offset len : Nat) (inside : offset + len ≤ bytes.length) :
    slice (bytes ++ extra) offset len = slice bytes offset len := by
  simp only [slice]
  rw [List.drop_append_of_le_length (by omega), List.take_append_of_le_length (by simp; omega)]

-- A loop on a byte string whose turns each leave a shorter rest: from the
-- length on, more turns change nothing.
theorem loop_fuel {A : Type} (loop : Nat → Bytes → A) (empty : ∀ fuel, loop fuel [] = loop 0 [])
    (turn : ∀ fuel more data, data ≠ [] →
      (∀ rest : Bytes, rest.length < data.length → loop more rest = loop fuel rest) →
      loop (more + 1) data = loop (fuel + 1) data)
    (fuel : Nat) (data : Bytes) (enough : data.length ≤ fuel) : loop fuel data = loop data.length data := by
  have general : ∀ n more data, data.length ≤ n → n ≤ more → loop more data = loop n data := by
    intro n
    induction n with
    | zero =>
        intro more data short _
        rw [List.eq_nil_of_length_eq_zero (Nat.le_zero.mp short)]
        exact empty more
    | succ n ih =>
        intro more data short large
        obtain ⟨more, rfl⟩ : ∃ smaller, more = smaller + 1 := ⟨more - 1, by omega⟩
        by_cases none : data = []
        · rw [none, empty, empty (n + 1)]
        · exact turn n more data none (fun rest shorter => ih more rest (by omega) (by omega))
  exact general data.length fuel data (le_refl _) enough

end Tombstash
