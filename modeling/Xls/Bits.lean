import Mathlib.Data.List.Basic
import Mathlib.Data.List.Forall2
import Mathlib.Tactic.Ring

/-!
# Bit vectors

The IR's `Bits`: a list of bits, least significant first, so bit `i` of `b` is
`b[i]` and the width is the length. Concatenation in the IR lists its operands
most significant first; here it is `List.append` of the operands reversed
(`Xls.Ir`).

* `Bits.toNat`, `uBits` (`UBits(value, bit_count)`) and `powerOfTwo`
  (`Bits::PowerOfTwo`), with `toNat_uBits`: the low bits of the value;
* the `bits_ops` the select-simplification pass calls on constants:
  `oneHotLsbToMsb`, `oneHotMsbToLsb`, `countLeadingOnes`,
  `countTrailingOnes`;
* `Bits.firstSet`: the index of the least significant set bit, which a priority
  select selects by.
-/

namespace Xls

/-- A bit vector, least significant bit first. -/
abbrev Bits := List Bool

namespace Bits

/-- The unsigned value of `b`. -/
def toNat : Bits → Nat
  | [] => 0
  | x :: b => x.toNat + 2 * toNat b

@[simp] theorem toNat_nil : toNat [] = 0 := rfl

@[simp] theorem toNat_cons (x : Bool) (b : Bits) : toNat (x :: b) = x.toNat + 2 * toNat b := rfl

theorem toNat_lt (b : Bits) : b.toNat < 2 ^ b.length := by
  induction b with
  | nil => simp
  | cons x b ih => cases x <;> simp [Nat.pow_succ] <;> omega

/-- All bits are zero. -/
def IsZero (b : Bits) : Prop := ∀ x ∈ b, x = false

instance (b : Bits) : Decidable (IsZero b) := inferInstanceAs (Decidable (∀ x ∈ b, x = false))

theorem isZero_iff_toNat (b : Bits) : IsZero b ↔ b.toNat = 0 := by
  induction b with
  | nil => simp [IsZero]
  | cons x b ih => cases x <;> simp_all [IsZero]

/-- The all-zero vector of width `w`. -/
def zero (w : Nat) : Bits := List.replicate w false

@[simp] theorem length_zero (w : Nat) : (zero w).length = w := List.length_replicate _ _

theorem isZero_iff_eq_zero {b : Bits} : IsZero b ↔ b = zero b.length := by
  simp only [IsZero, zero, List.eq_replicate_iff, true_and]

/-- The index of the least significant set bit, if any. -/
def firstSet : Bits → Option Nat
  | [] => none
  | true :: _ => some 0
  | false :: b => (firstSet b).map (· + 1)

theorem firstSet_eq_none (b : Bits) : firstSet b = none ↔ IsZero b := by
  induction b with
  | nil => simp [firstSet, IsZero]
  | cons x b ih => cases x <;> simp_all [firstSet, IsZero]

theorem firstSet_eq_some {b : Bits} {i : Nat} :
    firstSet b = some i ↔ b[i]? = some true ∧ ∀ j < i, b[j]? = some false := by
  induction b generalizing i with
  | nil => simp [firstSet]
  | cons x b ih =>
    cases x <;> cases i <;> simp [firstSet, ih, Nat.forall_lt_succ_left']

end Bits

/-- `UBits(value, bit_count)`: the `bit_count` low bits of `value`. -/
def uBits : Nat → Nat → Bits
  | _, 0 => []
  | v, w + 1 => (v % 2 == 1) :: uBits (v / 2) w

@[simp] theorem length_uBits (v w : Nat) : (uBits v w).length = w := by
  induction w generalizing v <;> simp [uBits, *]

theorem toNat_uBits (v w : Nat) : (uBits v w).toNat = v % 2 ^ w := by
  induction w generalizing v with
  | zero => simp [uBits, Nat.mod_one]
  | succ w ih =>
    rw [uBits, Bits.toNat_cons, ih, Nat.pow_succ', Nat.mod_mul]
    cases Nat.mod_two_eq_zero_or_one v <;> simp_all

@[simp] theorem uBits_zero (w : Nat) : uBits 0 w = Bits.zero w := by
  induction w <;> simp_all [uBits, Bits.zero, List.replicate_succ]

theorem uBits_toNat (b : Bits) : uBits b.toNat b.length = b := by
  induction b with
  | nil => rfl
  | cons x b ih => cases x <;> simp [uBits, Nat.add_mul_div_left, ih]

/-- `Bits::PowerOfTwo(set_bit_index, bit_count)`. -/
def powerOfTwo (setBitIndex bitCount : Nat) : Bits := uBits (2 ^ setBitIndex) bitCount

/-- A vector of width `w` is `UBits(i, w)`, for `i` that fits, when its value
    is `i`. -/
theorem eq_uBits_iff {b : Bits} {i w : Nat} (hb : b.length = w) (hi : i < 2 ^ w) :
    b = uBits i w ↔ b.toNat = i := by
  constructor
  · rintro rfl
    rw [toNat_uBits, Nat.mod_eq_of_lt hi]
  · rintro rfl
    rw [← hb, uBits_toNat]

theorem powerOfTwo_succ (i : Nat) : powerOfTwo i (i + 1) = List.replicate i false ++ [true] := by
  induction i with
  | zero => rfl
  | succ i ih =>
    rw [powerOfTwo, uBits, Nat.pow_succ, Nat.mul_mod_left, Nat.mul_div_cancel _ (by omega)]
    simpa [powerOfTwo, List.replicate_succ] using ih

/-- The low `i + 1` bits of `b` are `PowerOfTwo(i, i + 1)` exactly when bit `i`
    is the least significant set bit. -/
theorem take_eq_powerOfTwo_iff : ∀ {b : Bits} {i : Nat}, i < b.length →
    (b.take (i + 1) = powerOfTwo i (i + 1) ↔ Bits.firstSet b = some i)
  | x :: b, 0, _ => by cases x <;> simp [powerOfTwo_succ, Bits.firstSet]
  | x :: b, i + 1, h => by
    have ih := take_eq_powerOfTwo_iff (b := b) (i := i) (by simp at h; omega)
    rw [powerOfTwo_succ] at ih ⊢
    cases x <;> simp [Bits.firstSet, List.replicate_succ, ih]

/-! ## `bits_ops` -/

/-- `bits_ops::OneHotLsbToMsb`: bit `i < n` is set when bit `i` is the least
    significant set bit of `b`; bit `n` when `b` is zero. -/
def oneHotLsbToMsb (b : Bits) : Bits :=
  (List.range b.length).map (fun i => b.getD i false && decide (Bits.IsZero (b.take i))) ++
    [decide (Bits.IsZero b)]

/-- `bits_ops::OneHotMsbToLsb`: bit `i < n` is set when bit `i` is the most
    significant set bit of `b`; bit `n` when `b` is zero. -/
def oneHotMsbToLsb (b : Bits) : Bits :=
  (List.range b.length).map (fun i => b.getD i false && decide (Bits.IsZero (b.drop (i + 1)))) ++
    [decide (Bits.IsZero b)]

/-- `bits_ops::And`. -/
def BitsOps.and (a b : Bits) : Bits := List.zipWith (· && ·) a b

/-- `bits_ops::Or`. -/
def BitsOps.or (a b : Bits) : Bits := List.zipWith (· || ·) a b

/-- `bits_ops::Not`. -/
def BitsOps.not (a : Bits) : Bits := a.map (!·)

/-- `Bits::Slice(start, width)`. -/
def BitsOps.slice (b : Bits) (start width : Nat) : Bits := (b.drop start).take width

/-- `bits_ops::SignExtend`: the most significant bit repeated up to the new
    width (zeros for an empty vector). -/
def BitsOps.signExtend (b : Bits) (newBitCount : Nat) : Bits :=
  b ++ List.replicate (newBitCount - b.length) (b.getLastD false)

/-- `bits_ops::Concat`: the operands are listed most significant first. -/
def BitsOps.concat : List Bits → Bits
  | [] => []
  | b :: bs => concat bs ++ b

/-- `bits_ops::CountTrailingOnes`. -/
def countTrailingOnes : Bits → Nat
  | true :: b => countTrailingOnes b + 1
  | _ => 0

/-- `bits_ops::CountLeadingOnes`: the ones at the most significant end. -/
def countLeadingOnes (b : Bits) : Nat := countTrailingOnes b.reverse

theorem countTrailingOnes_le : ∀ b : Bits, countTrailingOnes b ≤ b.length
  | [] => Nat.zero_le _
  | true :: b => by simpa [countTrailingOnes] using countTrailingOnes_le b
  | false :: _ => Nat.zero_le _

/-- The trailing ones are set. -/
theorem getElem?_of_lt_countTrailingOnes : ∀ {b : Bits} {i : Nat}, i < countTrailingOnes b → b[i]? = some true
  | true :: _, 0, _ => by simp
  | true :: b, i + 1, h => by
    simpa using getElem?_of_lt_countTrailingOnes (b := b) (by simpa [countTrailingOnes] using h)
  | false :: _, _, h => absurd h (Nat.not_lt_zero _)
  | [], _, h => absurd h (Nat.not_lt_zero _)

theorem countTrailingOnes_replicate : ∀ w : Nat, countTrailingOnes (List.replicate w true) = w
  | 0 => rfl
  | w + 1 => by simp [List.replicate_succ, countTrailingOnes, countTrailingOnes_replicate w]

theorem countLeadingOnes_le (b : Bits) : countLeadingOnes b ≤ b.length := by
  simpa using countTrailingOnes_le b.reverse

/-- The leading ones are set. -/
theorem getElem?_of_lt_countLeadingOnes {b : Bits} {i : Nat} (h : i < countLeadingOnes b) :
    b[b.length - 1 - i]? = some true := by
  have hl := countLeadingOnes_le b
  have := getElem?_of_lt_countTrailingOnes h
  rwa [List.getElem?_reverse (by omega)] at this

/-- Leading and trailing ones that overlap cover the whole vector (each bit is
    in one of the runs), so each run is all of it. -/
theorem countOnes_of_cover {b : Bits} (h : b.length < countLeadingOnes b + countTrailingOnes b) :
    countLeadingOnes b = b.length ∧ countTrailingOnes b = b.length := by
  have e : b = List.replicate b.length true := by
    refine List.ext_getElem? fun j => ?_
    by_cases hj : j < b.length
    · rw [List.getElem?_replicate, if_pos hj]
      by_cases ht : j < countTrailingOnes b
      · exact getElem?_of_lt_countTrailingOnes ht
      · simpa [show b.length - 1 - (b.length - 1 - j) = j by omega] using
          getElem?_of_lt_countLeadingOnes (b := b) (i := b.length - 1 - j) (by omega)
    · rw [List.getElem?_eq_none (by omega), List.getElem?_eq_none (by simp; omega)]
  constructor <;> rw [e] <;> simp [countLeadingOnes, countTrailingOnes_replicate]

namespace BitsOps

@[simp] theorem length_and (a b : Bits) : (and a b).length = min a.length b.length :=
  List.length_zipWith _ _ _

@[simp] theorem length_or (a b : Bits) : (or a b).length = min a.length b.length :=
  List.length_zipWith _ _ _

@[simp] theorem length_not (a : Bits) : (not a).length = a.length := List.length_map _ _

theorem length_slice {b : Bits} {start width : Nat} (h : start + width ≤ b.length) :
    (slice b start width).length = width := by
  simp [slice]; omega

theorem length_signExtend {b : Bits} {n : Nat} (h : b.length ≤ n) : (signExtend b n).length = n := by
  simp [signExtend]; omega

@[simp] theorem length_concat (bs : List Bits) : (concat bs).length = (bs.map List.length).sum := by
  induction bs with
  | nil => rfl
  | cons b bs ih => simp [concat, ih, Nat.add_comm]

theorem and_comm (a b : Bits) : and a b = and b a := by
  induction a generalizing b with
  | nil => cases b <;> rfl
  | cons x a ih => cases b <;> simp_all [and, Bool.and_comm]

theorem or_comm (a b : Bits) : or a b = or b a := by
  induction a generalizing b with
  | nil => cases b <;> rfl
  | cons x a ih => cases b <;> simp_all [or, Bool.or_comm]

theorem or_assoc (a b c : Bits) : or (or a b) c = or a (or b c) := by
  induction a generalizing b c with
  | nil => rfl
  | cons x a ih => cases b <;> cases c <;> simp_all [or, Bool.or_assoc]

@[simp] theorem or_self (a : Bits) : or a a = a := by
  induction a <;> simp_all [or]

theorem or_zero {a : Bits} {w : Nat} (h : a.length = w) : or a (Bits.zero w) = a := by
  subst h
  induction a <;> simp_all [or, Bits.zero, List.replicate_succ]

theorem and_replicate (a : Bits) (b : Bool) :
    and a (List.replicate a.length b) = if b then a else Bits.zero a.length := by
  induction a <;> cases b <;> simp_all [and, Bits.zero, List.replicate_succ]

/-- A vector masked by a sign-extended bit: itself where the bit is set, zero
    where it is not. -/
theorem and_signExtend_single (a : Bits) (b : Bool) :
    and a (signExtend [b] a.length) = if b then a else Bits.zero a.length := by
  cases a with
  | nil => cases b <;> rfl
  | cons x a =>
    have : signExtend [b] (a.length + 1) = List.replicate (a.length + 1) b := by
      simp [signExtend, List.replicate_succ]
    simpa [this] using and_replicate (x :: a) b

theorem slice_or (a b : Bits) (start width : Nat) :
    slice (or a b) start width = or (slice a start width) (slice b start width) := by
  simp only [slice, or, List.drop_zipWith, List.take_zipWith]

theorem slice_zero {w start width : Nat} (h : start + width ≤ w) :
    slice (Bits.zero w) start width = Bits.zero width := by
  simp [slice, Bits.zero]; omega

theorem slice_add (b : Bits) (start m n : Nat) : slice b start (m + n) = slice b start m ++ slice b (start + m) n := by
  simp only [slice, List.take_add, List.drop_drop]

theorem slice_one {b : Bits} {i : Nat} (h : i < b.length) : slice b i 1 = [b[i]] := by
  rw [slice, List.drop_eq_getElem_cons h]
  rfl

/-- Slices agree where the vectors do. -/
theorem slice_congr {a b : Bits} {s k : Nat} (h : ∀ j, s ≤ j → j < s + k → a[j]? = b[j]?) :
    slice a s k = slice b s k := by
  refine List.ext_getElem? fun i => ?_
  simp only [slice, List.getElem?_take, List.getElem?_drop]
  split
  · exact h _ (by omega) (by omega)
  · rfl

/-- The low `t` bits, the middle and the high `l` bits make up the vector. -/
theorem slice_three_eq_self {b : Bits} {l t : Nat} (h : l + t ≤ b.length) :
    slice b 0 t ++ slice b t (b.length - l - t) ++ slice b (b.length - l) l = b := by
  have e : b.drop (b.length - l) = (b.drop t).drop (b.length - l - t) := by
    rw [List.drop_drop]
    congr 1
    omega
  simp only [slice, List.drop_zero]
  rw [e, List.take_of_length_le (i := l) (by simp; omega), List.append_assoc, List.take_append_drop,
    List.take_append_drop]

theorem concat_append (bs cs : List Bits) : concat (bs ++ cs) = concat cs ++ concat bs := by
  induction bs <;> simp_all [concat]

/-- Concatenating pieces listed least significant first, as a list of bits is,
    joins them. -/
theorem concat_reverse (bs : List Bits) : concat bs.reverse = bs.flatten := by
  induction bs <;> simp_all [concat, concat_append]

end BitsOps

end Xls
