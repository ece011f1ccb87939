import Tombstash.Record

set_option autoImplicit false

namespace Tombstash

-- "wal.log", "wal-flushing.log", "MANIFEST", "MANIFEST.tmp" and ".tmp".
def walName : Bytes := [0x77, 0x61, 0x6c, 0x2e, 0x6c, 0x6f, 0x67]
def flushingWalName : Bytes :=
  [0x77, 0x61, 0x6c, 0x2d, 0x66, 0x6c, 0x75, 0x73, 0x68, 0x69, 0x6e, 0x67, 0x2e, 0x6c, 0x6f, 0x67]
def manifestName : Bytes := [0x4d, 0x41, 0x4e, 0x49, 0x46, 0x45, 0x53, 0x54]
def tmpSuffix : Bytes := [0x2e, 0x74, 0x6d, 0x70]
def manifestTmpName : Bytes := manifestName ++ tmpSuffix

-- "sst-", ".sst", "vlog-" and ".log".
def sstFront : Bytes := [0x73, 0x73, 0x74, 0x2d]
def sstBack : Bytes := [0x2e, 0x73, 0x73, 0x74]
def vlogFront : Bytes := [0x76, 0x6c, 0x6f, 0x67, 0x2d]
def vlogBack : Bytes := [0x2e, 0x6c, 0x6f, 0x67]

def digitByte (d : Nat) : UInt8 := UInt8.ofNat (48 + d)

-- Decimal digits, most significant first; twenty of them hold 64 bits.
def decimal : Nat → Nat → Bytes
  | 0, _ => []
  | width + 1, n => if n < 10 then [digitByte n] else decimal width (n / 10) ++ [digitByte (n % 10)]

-- %06llu
def padded (n : Nat) : Bytes := List.replicate (6 - (decimal 20 n).length) 48 ++ decimal 20 n

def sstName (seq : Nat) : Bytes := sstFront ++ padded seq ++ sstBack
def vlogName (gen : UInt32) : Bytes := vlogFront ++ padded gen.toNat ++ vlogBack
def tmpName (name : Bytes) : Bytes := name ++ tmpSuffix

def isDigit (c : UInt8) : Bool := !(decide (c < 48) || decide (57 < c))

-- The digits between the two ends of a name, as parse_seq and parse_vlog_gen
-- cut them out.
def nameDigits (front back name : Bytes) : Option Bytes :=
  if name.length ≤ front.length + back.length then none
  else if name.take front.length ≠ front then none
  else if name.drop (name.length - back.length) ≠ back then none
  else
    let digits := (name.drop front.length).take (name.length - front.length - back.length)
    if digits.isEmpty then none else if digits.all isDigit then some digits else none

def digitsValue (digits : Bytes) : Nat := digits.foldl (fun value c => value * 10 + (c.toNat - 48)) 0

-- std::stoull and std::stoul, where unsigned long has 64 bits. They differ in
-- the text of their exception.
def parseUnsigned (what : String) (digits : Bytes) : Except Error Nat :=
  if digitsValue digits < 2 ^ 64 then .ok (digitsValue digits) else .error (.outOfRange what)

def stoull (digits : Bytes) : Except Error Nat := parseUnsigned "stoull" digits
def stoul (digits : Bytes) : Except Error Nat := parseUnsigned "stoul" digits

def parseSeq (name : Bytes) : Except Error (Option Nat) :=
  match nameDigits sstFront sstBack name with
  | none => .ok none
  | some digits => (stoull digits).map some

def parseVlogGen (name : Bytes) : Except Error (Option UInt32) :=
  match nameDigits vlogFront vlogBack name with
  | none => .ok none
  | some digits => (stoul digits).map (fun value => some (UInt32.ofNat value))

def isTmp (name : Bytes) : Bool := decide (4 ≤ name.length) && decide (name.drop (name.length - 4) = tmpSuffix)

def seqOfPath (name : Bytes) : Nat :=
  match parseSeq name with
  | .ok (some seq) => seq
  | _ => 0

theorem digits_value_append (front : Bytes) (c : UInt8) :
    digitsValue (front ++ [c]) = digitsValue front * 10 + (c.toNat - 48) := by
  simp [digitsValue]

theorem digit_byte (d : Nat) (small : d < 10) : (digitByte d).toNat = 48 + d := by
  rw [digitByte, UInt8.toNat_ofNat']
  omega

theorem digit_is_digit (d : Nat) (small : d < 10) : isDigit (digitByte d) = true := by
  have byte := digit_byte d small
  have low : ¬ digitByte d < 48 := by
    rw [UInt8.lt_iff_toNat_lt, byte]
    change ¬ 48 + d < 48
    omega
  have high : ¬ (57 : UInt8) < digitByte d := by
    rw [UInt8.lt_iff_toNat_lt, byte]
    change ¬ 57 < 48 + d
    omega
  rw [isDigit, decide_eq_false low, decide_eq_false high]
  rfl

theorem decimal_spec (width n : Nat) (fits : n < 10 ^ width) (some : 0 < width) :
    digitsValue (decimal width n) = n ∧ (decimal width n).all isDigit = true ∧ decimal width n ≠ [] := by
  induction width generalizing n with
  | zero => omega
  | succ width ih =>
      rw [decimal]
      by_cases small : n < 10
      · rw [if_pos small]
        refine ⟨?_, by simp [digit_is_digit n small], by simp⟩
        simp [digitsValue, digit_byte n small]
      · rw [if_neg small]
        have shorter : n / 10 < 10 ^ width := by
          rw [Nat.pow_succ] at fits
          omega
        have wide : 0 < width := by
          rcases Nat.eq_zero_or_pos width with zero | positive
          · subst zero
            simp at shorter
            omega
          · exact positive
        obtain ⟨value, digits, _⟩ := ih (n / 10) shorter wide
        have last : n % 10 < 10 := Nat.mod_lt _ (by decide)
        refine ⟨?_, ?_, by simp⟩
        · rw [digits_value_append, value, digit_byte _ last]
          omega
        · simp [digits, digit_is_digit _ last]

theorem zeros_value (count : Nat) (digits : Bytes) :
    digitsValue (List.replicate count 48 ++ digits) = digitsValue digits := by
  induction count with
  | zero => simp
  | succ count ih =>
      rw [List.replicate_succ, List.cons_append]
      simp only [digitsValue, List.foldl_cons] at ih ⊢
      simpa using ih

theorem padded_spec (n : Nat) (fits : n < 2 ^ 64) :
    digitsValue (padded n) = n ∧ (padded n).all isDigit = true ∧ padded n ≠ [] := by
  obtain ⟨value, digits, nonempty⟩ := decimal_spec 20 n (lt_trans fits (by decide)) (by decide)
  refine ⟨by rw [padded, zeros_value, value], ?_, by simp [padded, nonempty]⟩
  rw [padded, List.all_append, digits, Bool.and_true, List.all_eq_true]
  intro c member
  rw [(List.mem_replicate.mp member).2]
  decide

theorem name_digits_exact (front back digits : Bytes) (nonempty : digits ≠ []) (all : digits.all isDigit = true) :
    nameDigits front back (front ++ digits ++ back) = some digits := by
  have long : 0 < digits.length := List.length_pos_iff.mpr nonempty
  have cut : (front ++ digits ++ back).length = front.length + digits.length + back.length := by
    rw [List.length_append, List.length_append]
  have start : (front ++ digits ++ back).take front.length = front := by
    rw [List.append_assoc]
    exact List.take_left' rfl
  have finish : (front ++ digits ++ back).drop ((front ++ digits ++ back).length - back.length) = back := by
    rw [cut, show front.length + digits.length + back.length - back.length = (front ++ digits).length by simp]
    exact List.drop_left' rfl
  have middle : ((front ++ digits ++ back).drop front.length).take
      ((front ++ digits ++ back).length - front.length - back.length) = digits := by
    rw [cut, List.append_assoc, List.drop_left' rfl]
    exact List.take_left' (by omega)
  rw [nameDigits, if_neg (by omega), if_neg (not_not.mpr start), if_neg (not_not.mpr finish)]
  simp only [middle]
  rw [if_neg (by simpa using nonempty), if_pos all]

theorem parse_seq_sst_name (seq : Nat) (fits : seq < 2 ^ 64) : parseSeq (sstName seq) = .ok (some seq) := by
  obtain ⟨value, digits, nonempty⟩ := padded_spec seq fits
  rw [parseSeq, sstName, name_digits_exact _ _ _ nonempty digits]
  simp only [stoull, parseUnsigned, value, if_pos fits]
  rfl

theorem parse_vlog_gen_vlog_name (gen : UInt32) : parseVlogGen (vlogName gen) = .ok (some gen) := by
  have fits : gen.toNat < 2 ^ 64 := lt_trans gen.toNat_lt (by decide)
  obtain ⟨value, digits, nonempty⟩ := padded_spec gen.toNat fits
  rw [parseVlogGen, vlogName, name_digits_exact _ _ _ nonempty digits]
  simp only [stoul, parseUnsigned, value, if_pos fits]
  simp [Except.map]

theorem sst_name_injective (left right : Nat) (leftFits : left < 2 ^ 64) (rightFits : right < 2 ^ 64)
    (same : sstName left = sstName right) : left = right := by
  have first := parse_seq_sst_name left leftFits
  rw [same, parse_seq_sst_name right rightFits] at first
  cases first
  rfl

theorem vlog_name_injective (left right : UInt32) (same : vlogName left = vlogName right) : left = right := by
  have first := parse_vlog_gen_vlog_name left
  rw [same, parse_vlog_gen_vlog_name right] at first
  cases first
  rfl

theorem seq_of_sst_name (seq : Nat) (fits : seq < 2 ^ 64) : seqOfPath (sstName seq) = seq := by
  rw [seqOfPath, parse_seq_sst_name seq fits]

-- Three bytes of a name that tell the kinds of files apart.
def nameKind (name : Bytes) : Option UInt8 × Option UInt8 × Option UInt8 := (name[0]?, name[3]?, name.getLast?)

theorem ne_of_kind (left right : Bytes) (different : nameKind left ≠ nameKind right) : left ≠ right := fun same =>
  different (by rw [same])

@[simp] theorem kind_wal : nameKind walName = (some 0x77, some 0x2e, some 0x67) := rfl
@[simp] theorem kind_flushing_wal : nameKind flushingWalName = (some 0x77, some 0x2d, some 0x67) := rfl
@[simp] theorem kind_manifest : nameKind manifestName = (some 0x4d, some 0x49, some 0x54) := rfl
@[simp] theorem kind_manifest_tmp : nameKind manifestTmpName = (some 0x4d, some 0x49, some 0x70) := rfl

@[simp] theorem kind_sst (seq : Nat) : nameKind (sstName seq) = (some 0x73, some 0x2d, some 0x74) := by
  simp [nameKind, sstName, sstFront, sstBack, List.getLast?_cons, List.getLast?_append]

@[simp] theorem kind_sst_tmp (seq : Nat) : nameKind (tmpName (sstName seq)) = (some 0x73, some 0x2d, some 0x70) := by
  simp [nameKind, tmpName, tmpSuffix, sstName, sstFront, sstBack, List.getLast?_cons, List.getLast?_append]

@[simp] theorem kind_vlog (gen : UInt32) : nameKind (vlogName gen) = (some 0x76, some 0x67, some 0x67) := by
  simp [nameKind, vlogName, vlogFront, vlogBack, List.getLast?_cons, List.getLast?_append]

theorem sst_first (seq : Nat) : (sstName seq)[0]? = some 0x73 := congrArg Prod.fst (kind_sst seq)

theorem vlog_first (gen : UInt32) : (vlogName gen)[0]? = some 0x76 := congrArg Prod.fst (kind_vlog gen)

theorem name_digits_ends (front back name digits : Bytes) (found : nameDigits front back name = some digits) :
    name.take front.length = front ∧ name.drop (name.length - back.length) = back ∧
    front.length + back.length < name.length := by
  simp only [nameDigits] at found
  split at found
  · cases found
  · next long =>
      split at found
      · cases found
      · next starts =>
          split at found
          · cases found
          · next ends => exact ⟨not_not.mp starts, not_not.mp ends, Nat.lt_of_not_le long⟩

theorem parse_seq_kind (name : Bytes) (seq : Nat) (parsed : parseSeq name = .ok (some seq)) :
    nameKind name = (some 0x73, some 0x2d, some 0x74) := by
  rw [parseSeq] at parsed
  cases digits : nameDigits sstFront sstBack name with
  | none => simp [digits] at parsed
  | some found =>
      obtain ⟨starts, ends, long⟩ := name_digits_ends _ _ _ _ digits
      have early : ∀ i, i < 4 → name[i]? = sstFront[i]? := by
        intro i inside
        rw [← starts]
        exact (List.getElem?_take_of_lt inside).symm
      have last : name.getLast? = sstBack.getLast? := by
        rw [← ends, List.getLast?_drop, if_neg]
        simp [sstBack, sstFront] at long ⊢
        omega
      simp [nameKind, early 0 (by omega), early 3 (by omega), last, sstFront, sstBack]

theorem parse_vlog_gen_first (name : Bytes) (gen : UInt32) (parsed : parseVlogGen name = .ok (some gen)) :
    name[0]? = some 0x76 := by
  rw [parseVlogGen] at parsed
  cases digits : nameDigits vlogFront vlogBack name with
  | none => simp [digits] at parsed
  | some found =>
      obtain ⟨starts, _, _⟩ := name_digits_ends _ _ _ _ digits
      have first : name[0]? = vlogFront[0]? := by
        rw [← starts]
        exact (List.getElem?_take_of_lt (by decide)).symm
      rw [first]
      rfl

theorem length_decimal (width n : Nat) : (decimal width n).length ≤ width := by
  induction width generalizing n with
  | zero => simp [decimal]
  | succ width ih =>
      rw [decimal]
      have shorter := ih (n / 10)
      split
      · simp
      · simp only [List.length_append, List.length_singleton]
        omega

theorem length_sst_name (seq : Nat) : (sstName seq).length ≤ 28 := by
  have digits := length_decimal 20 seq
  simp only [sstName, padded, List.length_append, List.length_replicate, sstFront, sstBack,
    List.length_cons, List.length_nil]
  omega

theorem length_vlog_name (gen : UInt32) : (vlogName gen).length ≤ 29 := by
  have digits := length_decimal 20 gen.toNat
  simp only [vlogName, padded, List.length_append, List.length_replicate, vlogFront, vlogBack,
    List.length_cons, List.length_nil]
  omega

theorem tmp_name_injective (left right : Bytes) (same : tmpName left = tmpName right) : left = right :=
  List.append_cancel_right same

theorem is_tmp_name (name : Bytes) : isTmp (tmpName name) = true := by
  simp [isTmp, tmpName, tmpSuffix]

theorem not_tmp_of_last (name : Bytes) (last : name.getLast? ≠ some 0x70) : isTmp name = false := by
  cases found : isTmp name with
  | false => rfl
  | true =>
      simp only [isTmp, Bool.and_eq_true, decide_eq_true_eq] at found
      refine absurd ?_ last
      have split := List.take_append_drop (name.length - 4) name
      rw [← split, found.2]
      simp [tmpSuffix]

theorem sst_not_tmp (seq : Nat) : isTmp (sstName seq) = false := by
  have last : (sstName seq).getLast? = some 0x74 := congrArg (fun kind => kind.2.2) (kind_sst seq)
  exact not_tmp_of_last _ (by rw [last]; decide)

theorem vlog_not_tmp (gen : UInt32) : isTmp (vlogName gen) = false := by
  have last : (vlogName gen).getLast? = some 0x67 := congrArg (fun kind => kind.2.2) (kind_vlog gen)
  exact not_tmp_of_last _ (by rw [last]; decide)

end Tombstash
