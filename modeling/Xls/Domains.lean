import Xls.Value

/-!
# Abstract domains: ternary vectors and interval sets

What a query engine says about a bits leaf: a `TernaryVector`, one
`TernaryValue` per bit (known zero, known one, unknown), or an `IntervalSet`
of possible unsigned values.

* `TernaryVector.Contains t b`: `b` agrees with every known bit of `t`;
  `TernaryVector.Refines t s`: `t` knows every bit `s` knows, with its value;
* `ternaryOps.updateWithUnion` (`ternary_ops::UpdateWithUnion`), which fails on
  a conflict; on two vectors that both contain some `b` it succeeds with a
  vector containing `b` and refining both (`updateWithUnion_of_contains`);
* `IntervalSet.intersect` (`IntervalSet::Intersect`), which contains exactly
  the values both sets contain (`contains_intersect`).
-/

namespace Xls

/-- `TernaryValue`. -/
inductive TernaryValue where
  | knownZero
  | knownOne
  | unknown
  deriving DecidableEq, Repr

namespace TernaryValue

/-- The bit `b` is possible under `t`. -/
def Contains : TernaryValue → Bool → Prop
  | knownZero, b => b = false
  | knownOne, b => b = true
  | unknown, _ => True

instance (t : TernaryValue) (b : Bool) : Decidable (t.Contains b) :=
  match t with
  | knownZero => inferInstanceAs (Decidable (b = false))
  | knownOne => inferInstanceAs (Decidable (b = true))
  | unknown => isTrue trivial

/-- `t` knows what `s` knows: `s` is unknown, or both are the same. -/
def Refines (t s : TernaryValue) : Prop := s = unknown ∨ t = s

theorem Refines.refl (t : TernaryValue) : t.Refines t := .inr rfl

theorem Refines.trans {a b c : TernaryValue} (h₁ : a.Refines b) (h₂ : b.Refines c) :
    a.Refines c := by
  rcases h₂ with rfl | rfl
  · exact .inl rfl
  · exact h₁

/-- The union of what two ternary values know; a conflict is an error. -/
def union : TernaryValue → TernaryValue → Except String TernaryValue
  | l, unknown => .ok l
  | unknown, r => .ok r
  | l, r => if l = r then .ok l else .error "Incompatible values; cannot update."

/-- Two ternary values possible for one bit have a union, which refines both
    and still contains the bit. -/
theorem union_of_contains {l r : TernaryValue} {b : Bool} (hl : l.Contains b)
    (hr : r.Contains b) : ∃ t, l.union r = .ok t ∧ t.Contains b ∧ t.Refines l ∧ t.Refines r := by
  cases l <;> cases r <;> cases b <;> simp_all [Contains, union, Refines]

end TernaryValue

/-- `TernaryVector`: one ternary value per bit, least significant first. -/
abbrev TernaryVector := List TernaryValue

namespace TernaryVector

/-- `b` is possible under `t`: the widths agree and every known bit agrees. -/
def Contains (t : TernaryVector) (b : Bits) : Prop := List.Forall₂ TernaryValue.Contains t b

/-- `t` knows every bit `s` knows, with the same value. -/
def Refines (t s : TernaryVector) : Prop := List.Forall₂ TernaryValue.Refines t s

theorem Refines.refl (t : TernaryVector) : t.Refines t := by
  induction t <;> simp_all [Refines, TernaryValue.Refines.refl]

theorem Refines.trans {a b c : TernaryVector} (h₁ : a.Refines b) (h₂ : b.Refines c) :
    a.Refines c := by
  induction h₁ generalizing c with
  | nil => cases h₂; exact .nil
  | cons h _ ih =>
    cases h₂ with
    | cons h' hs => exact .cons (h.trans h') (ih hs)

theorem Contains.length_eq {t : TernaryVector} {b : Bits} (h : t.Contains b) :
    t.length = b.length := List.Forall₂.length_eq h

/-- The vector of `w` unknown bits. -/
def unknown (w : Nat) : TernaryVector := List.replicate w .unknown

theorem unknown_contains {b : Bits} {w : Nat} (h : b.length = w) : (unknown w).Contains b := by
  subst h
  induction b <;> simp_all [unknown, Contains, List.replicate_succ, TernaryValue.Contains]

end TernaryVector

namespace ternaryOps

/-- Modelled from the spec: `ternary_ops::UpdateWithUnion` (not in the
    sources), the union that "can only discover more known bits": the bits
    either vector knows; an error on a conflicting bit or on vectors of
    different widths. -/
def updateWithUnion : TernaryVector → TernaryVector → Except String TernaryVector
  | [], [] => .ok []
  | l :: ls, r :: rs =>
    match l.union r, updateWithUnion ls rs with
    | .ok x, .ok xs => .ok (x :: xs)
    | .error e, _ => .error e
    | .ok _, .error e => .error e
  | _, _ => .error "Size mismatch"

/-- Two vectors both containing `b` have a union, containing `b` and refining
    both. -/
theorem updateWithUnion_of_contains {l r : TernaryVector} {b : Bits}
    (hl : l.Contains b) (hr : r.Contains b) :
    ∃ t, updateWithUnion l r = .ok t ∧ t.Contains b ∧ t.Refines l ∧ t.Refines r := by
  induction hl generalizing r with
  | nil => cases hr; exact ⟨[], rfl, .nil, .nil, .nil⟩
  | cons hx _ ih =>
    cases hr with
    | cons hy hs =>
      obtain ⟨x, hxe, hxc, hxl, hxr⟩ := TernaryValue.union_of_contains hx hy
      obtain ⟨t, hte, htc, htl, htr⟩ := ih hs
      exact ⟨x :: t, by simp [updateWithUnion, hxe, hte], .cons hxc htc, .cons hxl htl,
        .cons hxr htr⟩

theorem length_updateWithUnion {l r t : TernaryVector} (h : updateWithUnion l r = .ok t) :
    t.length = l.length := by
  induction l generalizing r t with
  | nil => cases r <;> simp_all [updateWithUnion]
  | cons x l ih =>
    cases r with
    | nil => simp [updateWithUnion] at h
    | cons y r =>
      simp only [updateWithUnion] at h
      split at h <;> simp_all
      cases h
      simp [ih ‹_›]

/-- Modelled from the spec: `ternary_ops::ToKnownBits` (not in the sources):
    set where the bit is known. -/
def toKnownBits (t : TernaryVector) : Bits := t.map (· != .unknown)

/-- Modelled from the spec: `ternary_ops::ToKnownBitsValues` (not in the
    sources): the known bits' values, zero elsewhere. -/
def toKnownBitsValues (t : TernaryVector) : Bits := t.map (· == .knownOne)

/-- A vector with every bit known holds one vector, its known values. -/
theorem toKnownBitsValues_of_contains {t : TernaryVector} {b : Bits} (h : t.Contains b)
    (hk : t.all (· != .unknown)) : toKnownBitsValues t = b := by
  induction h with
  | nil => rfl
  | @cons x y _ _ hxy _ ih =>
    simp only [List.all_cons, Bool.and_eq_true] at hk
    cases x <;> simp_all [toKnownBitsValues, TernaryValue.Contains]

end ternaryOps

/-- A vector known to be zero holds only zero bits. -/
theorem TernaryVector.isZero_of_contains {t : TernaryVector} {b : Bits} (h : t.Contains b)
    (hz : t.all (· == .knownZero)) : Bits.IsZero b := by
  induction h with
  | nil => intro x hx; cases hx
  | @cons x y _ _ hxy _ ih =>
    simp only [List.all_cons, Bool.and_eq_true, beq_iff_eq] at hz
    obtain ⟨rfl, hz⟩ := hz
    rintro z (_ | ⟨_, hz'⟩)
    · exact hxy
    · exact ih hz z hz'

/-- What a ternary value says of its bit, if it knows it. -/
def TernaryValue.toBool? : TernaryValue → Option Bool
  | .knownZero => some false
  | .knownOne => some true
  | .unknown => none

theorem TernaryValue.eq_of_toBool? {t : TernaryValue} {b x : Bool} (h : t.Contains b)
    (hx : t.toBool? = some x) : b = x := by
  cases t <;> simp_all [toBool?, Contains]

/-! ## Interval sets -/

/-- A closed interval of unsigned values. -/
structure Interval where
  lo : Nat
  hi : Nat
  deriving DecidableEq, Repr

/-- `IntervalSet`: a set of closed intervals of the unsigned values of
    `bitCount`-bit vectors. -/
structure IntervalSet where
  bitCount : Nat
  intervals : List Interval
  deriving DecidableEq, Repr

namespace IntervalSet

/-- `x` lies in one of the intervals. -/
def Contains (s : IntervalSet) (x : Nat) : Prop := ∃ i ∈ s.intervals, i.lo ≤ x ∧ x ≤ i.hi

/-- `IntervalSet::Maximal(bit_count)`: every value of the width. -/
def maximal (bitCount : Nat) : IntervalSet := ⟨bitCount, [⟨0, 2 ^ bitCount - 1⟩]⟩

theorem maximal_contains {b : Bits} : (maximal b.length).Contains b.toNat :=
  ⟨_, List.mem_singleton_self _, Nat.zero_le _, Nat.le_sub_one_of_lt b.toNat_lt⟩

/-- The intersection of two intervals, if not empty. -/
def Interval.inter (i j : Interval) : Option Interval :=
  if max i.lo j.lo ≤ min i.hi j.hi then some ⟨max i.lo j.lo, min i.hi j.hi⟩ else none

/-- Modelled from the spec: `IntervalSet::Intersect` (not in the sources), "each
    additional engine only narrows the possible value range": the pairwise
    intersections of the intervals. -/
def intersect (a b : IntervalSet) : IntervalSet :=
  ⟨a.bitCount, a.intervals.flatMap fun i => b.intervals.filterMap (Interval.inter i)⟩

/-- Every value of `a` is one of `b`. -/
def Subset (a b : IntervalSet) : Prop := ∀ x, a.Contains x → b.Contains x

theorem contains_intersect {a b : IntervalSet} {x : Nat} :
    (intersect a b).Contains x ↔ a.Contains x ∧ b.Contains x := by
  simp only [Contains, intersect, List.mem_flatMap, List.mem_filterMap, Interval.inter]
  constructor
  · rintro ⟨k, ⟨i, hi, j, hj, hk⟩, hx⟩
    split_ifs at hk
    cases hk
    dsimp only at hx
    exact ⟨⟨i, hi, by omega⟩, ⟨j, hj, by omega⟩⟩
  · rintro ⟨⟨i, hi, hx⟩, ⟨j, hj, hy⟩⟩
    exact ⟨_, ⟨i, hi, j, hj, if_pos (by omega)⟩, by dsimp only; omega⟩

theorem intersect_subset_left (a b : IntervalSet) : (intersect a b).Subset a :=
  fun _ h => (contains_intersect.1 h).1

theorem intersect_subset_right (a b : IntervalSet) : (intersect a b).Subset b :=
  fun _ h => (contains_intersect.1 h).2

end IntervalSet

/-- Pointwise transitivity of `Forall₂`. -/
theorem forall₂_trans {α β γ : Type} {R : α → β → Prop} {S : β → γ → Prop} {T : α → γ → Prop}
    (h : ∀ a b c, R a b → S b c → T a c) :
    ∀ {l₁ l₂ l₃}, List.Forall₂ R l₁ l₂ → List.Forall₂ S l₂ l₃ → List.Forall₂ T l₁ l₃
  | _, _, _, .nil, .nil => .nil
  | _, _, _, .cons hr hrs, .cons hs hss => .cons (h _ _ _ hr hs) (forall₂_trans h hrs hss)

theorem TernaryVector.refines_leaves_trans {a b c : List TernaryVector}
    (h₁ : List.Forall₂ TernaryVector.Refines a b) (h₂ : List.Forall₂ TernaryVector.Refines b c) :
    List.Forall₂ TernaryVector.Refines a c :=
  @forall₂_trans _ _ _ TernaryVector.Refines TernaryVector.Refines TernaryVector.Refines
    (fun _ _ _ h h' => h.trans h') _ _ _ h₁ h₂

theorem IntervalSet.subset_leaves_trans {a b c : List IntervalSet}
    (h₁ : List.Forall₂ IntervalSet.Subset a b) (h₂ : List.Forall₂ IntervalSet.Subset b c) :
    List.Forall₂ IntervalSet.Subset a c :=
  @forall₂_trans _ _ _ IntervalSet.Subset IntervalSet.Subset IntervalSet.Subset
    (fun _ _ _ h h' x hx => h' x (h x hx)) _ _ _ h₁ h₂

end Xls
