import Xls.Bits

/-!
# Types and values

The IR's types (`bits[w]`, tuples, arrays, tokens) and values. A value is a
tree whose leaves are bit vectors (and tokens); its *leaves*, in order, are
what a `LeafTypeTree` over its type holds one element for.

* `Value.HasType`, and `zeroOfType` (`ZeroOfType`), which has its type;
* `Value.or`, the bitwise OR of two values of one type, leaf by leaf: a one-hot
  select ORs its selected cases, starting from the zero of its type
  (`or_zero`, `or_comm`, `or_assoc` on values of one type);
* `Value.leaves` and `Ty.leafWidths`, which agree on a value of the type.

The equality of types and of values is decided by hand (`Ty.beq`,
`Value.beq`): the derivation handler does not cover nested inductives.
-/

namespace Xls

/-- An IR type. -/
inductive Ty where
  | bits (width : Nat)
  | tuple (elements : List Ty)
  | array (element : Ty) (size : Nat)
  | token
  deriving Inhabited

/-- An IR value. -/
inductive Value where
  | bits (b : Bits)
  | tuple (elements : List Value)
  | array (elements : List Value)
  | token
  deriving Inhabited

namespace Ty

mutual
/-- Boolean equality of types. -/
def beq : Ty → Ty → Bool
  | .bits w, .bits w' => w == w'
  | .tuple ts, .tuple ts' => beqList ts ts'
  | .array t n, .array t' n' => beq t t' && n == n'
  | .token, .token => true
  | _, _ => false
/-- Boolean equality of lists of types. -/
def beqList : List Ty → List Ty → Bool
  | [], [] => true
  | t :: ts, t' :: ts' => beq t t' && beqList ts ts'
  | _, _ => false
end

mutual
theorem eq_of_beq : ∀ {a b : Ty}, beq a b = true → a = b
  | .bits _, .bits _, h => congrArg bits (beq_iff_eq.1 h)
  | .tuple _, .tuple _, h => congrArg tuple (eq_of_beqList h)
  | .array t n, .array t' n', h =>
    have ⟨h₁, h₂⟩ : beq t t' = true ∧ (n == n') = true := Bool.and_eq_true_iff.1 h
    by rw [eq_of_beq h₁, beq_iff_eq.1 h₂]
  | .token, .token, _ => rfl
  | .bits _, .tuple _, h | .bits _, .array _ _, h | .bits _, .token, h
  | .tuple _, .bits _, h | .tuple _, .array _ _, h | .tuple _, .token, h
  | .array _ _, .bits _, h | .array _ _, .tuple _, h | .array _ _, .token, h
  | .token, .bits _, h | .token, .tuple _, h | .token, .array _ _, h => Bool.noConfusion h
theorem eq_of_beqList : ∀ {a b : List Ty}, beqList a b = true → a = b
  | [], [], _ => rfl
  | t :: ts, t' :: ts', h =>
    have ⟨h₁, h₂⟩ : beq t t' = true ∧ beqList ts ts' = true := Bool.and_eq_true_iff.1 h
    by rw [eq_of_beq h₁, eq_of_beqList h₂]
  | [], _ :: _, h | _ :: _, [], h => Bool.noConfusion h
end

mutual
theorem beq_self : ∀ a : Ty, beq a a = true
  | .bits w => beq_self_eq_true w
  | .tuple ts => beqList_self ts
  | .array t n => Bool.and_eq_true_iff.2 ⟨beq_self t, beq_self_eq_true n⟩
  | .token => rfl
theorem beqList_self : ∀ a : List Ty, beqList a a = true
  | [] => rfl
  | t :: ts => Bool.and_eq_true_iff.2 ⟨beq_self t, beqList_self ts⟩
end

instance : DecidableEq Ty := fun a b =>
  decidable_of_iff (beq a b = true) ⟨eq_of_beq, fun h => h ▸ beq_self a⟩

/-- `BitCountOrDie`: the width of a bits type (`0` for the others, where the
    source would abort). -/
def bitCount : Ty → Nat
  | .bits w => w
  | _ => 0

@[simp] theorem bitCount_bits (w : Nat) : (Ty.bits w).bitCount = w := rfl

/-- `IsBits`. -/
def isBits : Ty → Bool
  | .bits _ => true
  | _ => false

theorem isBits_iff {t : Ty} : t.isBits ↔ t = .bits t.bitCount := by
  cases t <;> simp [isBits, bitCount]

/-- `IsTuple`. -/
def isTuple : Ty → Bool
  | .tuple _ => true
  | _ => false

/-- The elements of a tuple type (none for the others). -/
def tupleElements : Ty → List Ty
  | .tuple ts => ts
  | _ => []

mutual
/-- The type has no array without elements: the IR has none (`Value::Array`
    takes at least one element). -/
def noEmptyArray : Ty → Bool
  | .bits _ => true
  | .tuple ts => noEmptyArrayList ts
  | .array t n => n != 0 && noEmptyArray t
  | .token => true
/-- No type of the list has an array without elements. -/
def noEmptyArrayList : List Ty → Bool
  | [] => true
  | t :: ts => noEmptyArray t && noEmptyArrayList ts
end

@[simp] theorem noEmptyArray_bits (w : Nat) : (Ty.bits w).noEmptyArray := rfl

@[simp] theorem noEmptyArray_token : Ty.token.noEmptyArray := rfl

theorem noEmptyArrayList_iff {ts : List Ty} : noEmptyArrayList ts ↔ ∀ t ∈ ts, t.noEmptyArray := by
  induction ts <;> simp_all [noEmptyArrayList]

theorem noEmptyArray_of_mem_tupleElements {t e : Ty} (ht : t.noEmptyArray) (he : e ∈ t.tupleElements) :
    e.noEmptyArray := by
  cases t <;> simp_all [tupleElements, noEmptyArray, noEmptyArrayList_iff]

mutual
/-- The widths of the leaves of a type, in order: the shape of a `LeafTypeTree`
    over it (a token is a leaf of width `0`). -/
def leafWidths : Ty → List Nat
  | .bits w => [w]
  | .tuple ts => leafWidthsList ts
  | .array t n => (List.replicate n (leafWidths t)).flatten
  | .token => [0]
/-- The leaf widths of the elements of a tuple. -/
def leafWidthsList : List Ty → List Nat
  | [] => []
  | t :: ts => leafWidths t ++ leafWidthsList ts
end

mutual
/-- The type holds a token. -/
def HasToken : Ty → Bool
  | .bits _ => false
  | .tuple ts => hasTokenList ts
  | .array t _ => HasToken t
  | .token => true
/-- An element of the list holds a token. -/
def hasTokenList : List Ty → Bool
  | [] => false
  | t :: ts => HasToken t || hasTokenList ts
end

end Ty

namespace Value

mutual
/-- Boolean equality of values. -/
def beq : Value → Value → Bool
  | .bits b, .bits b' => b == b'
  | .tuple vs, .tuple vs' => beqList vs vs'
  | .array vs, .array vs' => beqList vs vs'
  | .token, .token => true
  | _, _ => false
/-- Boolean equality of lists of values. -/
def beqList : List Value → List Value → Bool
  | [], [] => true
  | v :: vs, v' :: vs' => beq v v' && beqList vs vs'
  | _, _ => false
end

mutual
theorem eq_of_beq : ∀ {a b : Value}, beq a b = true → a = b
  | .bits _, .bits _, h => congrArg bits (beq_iff_eq.1 h)
  | .tuple _, .tuple _, h => congrArg tuple (eq_of_beqList h)
  | .array _, .array _, h => congrArg array (eq_of_beqList h)
  | .token, .token, _ => rfl
  | .bits _, .tuple _, h | .bits _, .array _, h | .bits _, .token, h
  | .tuple _, .bits _, h | .tuple _, .array _, h | .tuple _, .token, h
  | .array _, .bits _, h | .array _, .tuple _, h | .array _, .token, h
  | .token, .bits _, h | .token, .tuple _, h | .token, .array _, h => Bool.noConfusion h
theorem eq_of_beqList : ∀ {a b : List Value}, beqList a b = true → a = b
  | [], [], _ => rfl
  | v :: vs, v' :: vs', h =>
    have ⟨h₁, h₂⟩ : beq v v' = true ∧ beqList vs vs' = true := Bool.and_eq_true_iff.1 h
    by rw [eq_of_beq h₁, eq_of_beqList h₂]
  | [], _ :: _, h | _ :: _, [], h => Bool.noConfusion h
end

mutual
theorem beq_self : ∀ a : Value, beq a a = true
  | .bits b => beq_self_eq_true b
  | .tuple vs => beqList_self vs
  | .array vs => beqList_self vs
  | .token => rfl
theorem beqList_self : ∀ a : List Value, beqList a a = true
  | [] => rfl
  | v :: vs => Bool.and_eq_true_iff.2 ⟨beq_self v, beqList_self vs⟩
end

instance : DecidableEq Value := fun a b =>
  decidable_of_iff (beq a b = true) ⟨eq_of_beq, fun h => h ▸ beq_self a⟩

/-- The bits of a bits value (empty for the others). -/
def toBits : Value → Bits
  | .bits b => b
  | _ => []

@[simp] theorem toBits_bits (b : Bits) : (Value.bits b).toBits = b := rfl

/-- The elements of a tuple or array value (none for the others). -/
def elements : Value → List Value
  | .tuple vs => vs
  | .array vs => vs
  | _ => []

mutual
/-- The type of a literal value (an empty array's element type is not recorded;
    the IR has no empty arrays). -/
def ty : Value → Ty
  | .bits b => .bits b.length
  | .tuple vs => .tuple (tyList vs)
  | .array [] => .array .token 0
  | .array (v :: vs) => .array (ty v) (vs.length + 1)
  | .token => .token
/-- The types of a list of values. -/
def tyList : List Value → List Ty
  | [] => []
  | v :: vs => ty v :: tyList vs
end

mutual
/-- The check that a value conforms to a type. -/
def typeCheck : Value → Ty → Bool
  | .bits b, .bits w => b.length == w
  | .tuple vs, .tuple ts => typeCheckList vs ts
  | .array vs, .array t n => vs.length == n && typeCheckAll vs t
  | .token, .token => true
  | _, _ => false
/-- The values conform to the types, one by one. -/
def typeCheckList : List Value → List Ty → Bool
  | [], [] => true
  | v :: vs, t :: ts => typeCheck v t && typeCheckList vs ts
  | _, _ => false
/-- Every value conforms to the type. -/
def typeCheckAll : List Value → Ty → Bool
  | [], _ => true
  | v :: vs, t => typeCheck v t && typeCheckAll vs t
end

/-- `v` is a value of type `t`. -/
def HasType (v : Value) (t : Ty) : Prop := v.typeCheck t = true

instance (v : Value) (t : Ty) : Decidable (v.HasType t) := inferInstanceAs (Decidable (_ = true))

theorem typeCheckList_iff {vs : List Value} {ts : List Ty} :
    typeCheckList vs ts = true ↔ List.Forall₂ HasType vs ts := by
  induction vs generalizing ts with
  | nil => cases ts <;> simp [typeCheckList]
  | cons v vs ih => cases ts <;> simp [typeCheckList, ih, HasType]

theorem typeCheckAll_iff {vs : List Value} {t : Ty} :
    typeCheckAll vs t = true ↔ ∀ v ∈ vs, v.HasType t := by
  induction vs with
  | nil => simp [typeCheckAll]
  | cons v vs ih => simp [typeCheckAll, ih, HasType]

@[simp] theorem hasType_bits {b : Bits} {w : Nat} : (Value.bits b).HasType (.bits w) ↔ b.length = w :=
  beq_iff_eq

@[simp] theorem hasType_tuple {vs : List Value} {ts : List Ty} :
    (Value.tuple vs).HasType (.tuple ts) ↔ List.Forall₂ HasType vs ts :=
  typeCheckList_iff

@[simp] theorem hasType_array {vs : List Value} {t : Ty} {n : Nat} :
    (Value.array vs).HasType (.array t n) ↔ vs.length = n ∧ ∀ v ∈ vs, v.HasType t :=
  Bool.and_eq_true_iff.trans (and_congr beq_iff_eq typeCheckAll_iff)

@[simp] theorem hasType_token : Value.token.HasType .token := rfl

theorem hasType_bits_iff {v : Value} {w : Nat} : v.HasType (.bits w) ↔ ∃ b, v = .bits b ∧ b.length = w := by
  cases v <;> simp [HasType, typeCheck]

theorem hasType_tuple_iff {v : Value} {ts : List Ty} :
    v.HasType (.tuple ts) ↔ ∃ vs, v = .tuple vs ∧ List.Forall₂ HasType vs ts := by
  cases v <;> simp [HasType, typeCheck, typeCheckList_iff]

theorem hasType_array_iff {v : Value} {t : Ty} {n : Nat} :
    v.HasType (.array t n) ↔ ∃ vs, v = .array vs ∧ vs.length = n ∧ ∀ w ∈ vs, w.HasType t := by
  cases v <;> simp [HasType, typeCheck, typeCheckAll_iff]

theorem hasType_token_iff {v : Value} : v.HasType .token ↔ v = .token := by
  cases v <;> simp [HasType, typeCheck]

mutual
/-- The leaves of a value, in order (a token is an empty leaf). -/
def leaves : Value → List Bits
  | .bits b => [b]
  | .tuple vs => leavesList vs
  | .array vs => leavesList vs
  | .token => [[]]
/-- The leaves of the elements of a tuple or array. -/
def leavesList : List Value → List Bits
  | [] => []
  | v :: vs => leaves v ++ leavesList vs
end

mutual
/-- The bitwise OR of two values of one type, leaf by leaf. -/
def or : Value → Value → Value
  | .bits a, .bits b => .bits (BitsOps.or a b)
  | .tuple as, .tuple bs => .tuple (orList as bs)
  | .array as, .array bs => .array (orList as bs)
  | a, _ => a
/-- The OR of two lists of values, element by element. -/
def orList : List Value → List Value → List Value
  | a :: as, b :: bs => or a b :: orList as bs
  | _, _ => []
end

@[simp] theorem or_bits (a b : Bits) : (Value.bits a).or (.bits b) = .bits (BitsOps.or a b) := rfl

end Value

mutual
/-- `ZeroOfType`: the value of the type whose bits are all zero. -/
def zeroOfType : Ty → Value
  | .bits w => .bits (Bits.zero w)
  | .tuple ts => .tuple (zerosOfTypes ts)
  | .array t n => .array (List.replicate n (zeroOfType t))
  | .token => .token
/-- The zeros of a list of types. -/
def zerosOfTypes : List Ty → List Value
  | [] => []
  | t :: ts => zeroOfType t :: zerosOfTypes ts
end

@[simp] theorem zeroOfType_bits (w : Nat) : zeroOfType (.bits w) = .bits (Bits.zero w) := rfl

mutual
/-- `AllOnesOfType`: the value of the type whose bits are all one. -/
def allOnesOfType : Ty → Value
  | .bits w => .bits (List.replicate w true)
  | .tuple ts => .tuple (allOnesOfTypes ts)
  | .array t n => .array (List.replicate n (allOnesOfType t))
  | .token => .token
/-- The all-ones values of a list of types. -/
def allOnesOfTypes : List Ty → List Value
  | [] => []
  | t :: ts => allOnesOfType t :: allOnesOfTypes ts
end

/-! ## The OR of values of one type -/

namespace Value

theorem orList_comm_of {as bs : List Value} (h : ∀ a ∈ as, ∀ b ∈ bs, a.or b = b.or a) :
    orList as bs = orList bs as := by
  induction as generalizing bs with
  | nil => cases bs <;> rfl
  | cons a as ih =>
    cases bs with
    | nil => rfl
    | cons b bs =>
      simp only [orList, h a (.head _) b (.head _),
        ih fun a' ha' b' hb' => h a' (.tail _ ha') b' (.tail _ hb')]

theorem orList_assoc_of {as bs cs : List Value}
    (h : ∀ a ∈ as, ∀ b ∈ bs, ∀ c ∈ cs, (a.or b).or c = a.or (b.or c)) :
    orList (orList as bs) cs = orList as (orList bs cs) := by
  induction as generalizing bs cs with
  | nil => rfl
  | cons a as ih =>
    cases bs with
    | nil => rfl
    | cons b bs =>
      cases cs with
      | nil => rfl
      | cons c cs =>
        simp only [orList, h a (.head _) b (.head _) c (.head _),
          ih fun a' ha' b' hb' c' hc' => h a' (.tail _ ha') b' (.tail _ hb') c' (.tail _ hc')]

theorem orList_replicate_of {as : List Value} {z : Value} (h : ∀ a ∈ as, a.or z = a) :
    orList as (List.replicate as.length z) = as := by
  induction as with
  | nil => rfl
  | cons a as ih =>
    simp only [List.length_cons, List.replicate_succ, orList, h a (.head _),
      ih fun a' ha' => h a' (.tail _ ha')]

theorem mem_orList {as bs : List Value} {x : Value} (hx : x ∈ orList as bs) :
    ∃ a ∈ as, ∃ b ∈ bs, x = a.or b := by
  induction as generalizing bs with
  | nil => simp [orList] at hx
  | cons a as ih =>
    cases bs with
    | nil => simp [orList] at hx
    | cons b bs =>
      simp only [orList, List.mem_cons] at hx
      rcases hx with rfl | hx
      · exact ⟨a, .head _, b, .head _, rfl⟩
      · obtain ⟨a', ha', b', hb', rfl⟩ := ih hx
        exact ⟨a', .tail _ ha', b', .tail _ hb', rfl⟩

theorem length_orList (as bs : List Value) : (orList as bs).length = min as.length bs.length := by
  induction as generalizing bs with
  | nil => simp [orList]
  | cons a as ih => cases bs <;> simp [orList, ih, Nat.succ_min_succ]

mutual
@[simp] theorem or_self : ∀ a : Value, a.or a = a
  | .bits _ => by simp [or]
  | .tuple vs => by simp [or, orList_self vs]
  | .array vs => by simp [or, orList_self vs]
  | .token => rfl
@[simp] theorem orList_self : ∀ as : List Value, orList as as = as
  | [] => rfl
  | a :: as => by simp [orList, or_self a, orList_self as]
end

mutual
theorem or_comm_of_hasType : ∀ (t : Ty) {a b : Value}, a.HasType t → b.HasType t → a.or b = b.or a
  | .bits _, _, _, ha, hb => by
    obtain ⟨x, rfl, -⟩ := hasType_bits_iff.1 ha
    obtain ⟨y, rfl, -⟩ := hasType_bits_iff.1 hb
    simp [or, BitsOps.or_comm x y]
  | .tuple ts, _, _, ha, hb => by
    obtain ⟨as, rfl, has⟩ := hasType_tuple_iff.1 ha
    obtain ⟨bs, rfl, hbs⟩ := hasType_tuple_iff.1 hb
    simp only [or, orList_comm_of_forall₂ ts has hbs]
  | .array t _, _, _, ha, hb => by
    obtain ⟨as, rfl, -, has⟩ := hasType_array_iff.1 ha
    obtain ⟨bs, rfl, -, hbs⟩ := hasType_array_iff.1 hb
    simp only [or, orList_comm_of fun a ha b hb => or_comm_of_hasType t (has a ha) (hbs b hb)]
  | .token, _, _, ha, hb => by rw [hasType_token_iff.1 ha, hasType_token_iff.1 hb]
theorem orList_comm_of_forall₂ : ∀ (ts : List Ty) {as bs : List Value},
    List.Forall₂ HasType as ts → List.Forall₂ HasType bs ts → orList as bs = orList bs as
  | [], _, _, .nil, .nil => rfl
  | t :: ts, _, _, .cons ha has, .cons hb hbs => by
    simp only [orList, or_comm_of_hasType t ha hb, orList_comm_of_forall₂ ts has hbs]
end

mutual
theorem or_assoc_of_hasType : ∀ (t : Ty) {a b c : Value}, a.HasType t → b.HasType t → c.HasType t →
    (a.or b).or c = a.or (b.or c)
  | .bits _, _, _, _, ha, hb, hc => by
    obtain ⟨x, rfl, -⟩ := hasType_bits_iff.1 ha
    obtain ⟨y, rfl, -⟩ := hasType_bits_iff.1 hb
    obtain ⟨z, rfl, -⟩ := hasType_bits_iff.1 hc
    simp [or, BitsOps.or_assoc]
  | .tuple ts, _, _, _, ha, hb, hc => by
    obtain ⟨as, rfl, has⟩ := hasType_tuple_iff.1 ha
    obtain ⟨bs, rfl, hbs⟩ := hasType_tuple_iff.1 hb
    obtain ⟨cs, rfl, hcs⟩ := hasType_tuple_iff.1 hc
    simp only [or, orList_assoc_of_forall₂ ts has hbs hcs]
  | .array t _, _, _, _, ha, hb, hc => by
    obtain ⟨as, rfl, -, has⟩ := hasType_array_iff.1 ha
    obtain ⟨bs, rfl, -, hbs⟩ := hasType_array_iff.1 hb
    obtain ⟨cs, rfl, -, hcs⟩ := hasType_array_iff.1 hc
    simp only [or, orList_assoc_of fun a ha b hb c hc =>
      or_assoc_of_hasType t (has a ha) (hbs b hb) (hcs c hc)]
  | .token, _, _, _, ha, hb, hc => by
    rw [hasType_token_iff.1 ha, hasType_token_iff.1 hb, hasType_token_iff.1 hc]; rfl
theorem orList_assoc_of_forall₂ : ∀ (ts : List Ty) {as bs cs : List Value},
    List.Forall₂ HasType as ts → List.Forall₂ HasType bs ts → List.Forall₂ HasType cs ts →
    orList (orList as bs) cs = orList as (orList bs cs)
  | [], _, _, _, .nil, .nil, .nil => rfl
  | t :: ts, _, _, _, .cons ha has, .cons hb hbs, .cons hc hcs => by
    simp only [orList, or_assoc_of_hasType t ha hb hc, orList_assoc_of_forall₂ ts has hbs hcs]
end

mutual
theorem or_hasType : ∀ (t : Ty) {a b : Value}, a.HasType t → b.HasType t → (a.or b).HasType t
  | .bits _, _, _, ha, hb => by
    obtain ⟨x, rfl, hx⟩ := hasType_bits_iff.1 ha
    obtain ⟨y, rfl, hy⟩ := hasType_bits_iff.1 hb
    simp [or, hx, hy]
  | .tuple ts, _, _, ha, hb => by
    obtain ⟨as, rfl, has⟩ := hasType_tuple_iff.1 ha
    obtain ⟨bs, rfl, hbs⟩ := hasType_tuple_iff.1 hb
    simpa only [or, hasType_tuple] using orList_hasType ts has hbs
  | .array t _, _, _, ha, hb => by
    obtain ⟨as, rfl, hla, has⟩ := hasType_array_iff.1 ha
    obtain ⟨bs, rfl, hlb, hbs⟩ := hasType_array_iff.1 hb
    refine hasType_array.2 ⟨by simp [length_orList, hla, hlb], fun x hx => ?_⟩
    obtain ⟨a, ha, b, hb, rfl⟩ := mem_orList hx
    exact or_hasType t (has a ha) (hbs b hb)
  | .token, _, _, ha, hb => by rw [hasType_token_iff.1 ha, hasType_token_iff.1 hb]; rfl
theorem orList_hasType : ∀ (ts : List Ty) {as bs : List Value},
    List.Forall₂ HasType as ts → List.Forall₂ HasType bs ts → List.Forall₂ HasType (orList as bs) ts
  | [], _, _, .nil, .nil => .nil
  | t :: ts, _, _, .cons ha has, .cons hb hbs => .cons (or_hasType t ha hb) (orList_hasType ts has hbs)
end

end Value

mutual
theorem zeroOfType_hasType : ∀ t : Ty, (zeroOfType t).HasType t
  | .bits _ => by simp [Bits.zero]
  | .tuple ts => Value.hasType_tuple.2 (zerosOfTypes_hasType ts)
  | .array t n => Value.hasType_array.2 ⟨List.length_replicate _ _, fun _ hv => by
      rw [List.eq_of_mem_replicate hv]; exact zeroOfType_hasType t⟩
  | .token => rfl
theorem zerosOfTypes_hasType : ∀ ts : List Ty, List.Forall₂ Value.HasType (zerosOfTypes ts) ts
  | [] => .nil
  | t :: ts => .cons (zeroOfType_hasType t) (zerosOfTypes_hasType ts)
end

mutual
/-- A zero literal has the type it records: the check of a `Literal` node. -/
theorem zeroOfType_hasType_ty : ∀ t : Ty, (zeroOfType t).HasType (zeroOfType t).ty
  | .bits _ => by simp [Value.ty, Bits.zero]
  | .tuple ts => Value.hasType_tuple.2 (zerosOfTypes_hasType_tyList ts)
  | .array t 0 => by simp [zeroOfType, Value.ty]
  | .array t (n + 1) => by
    simp only [zeroOfType, List.replicate_succ, Value.ty, List.length_replicate, Value.hasType_array,
      List.length_cons, List.mem_cons, forall_eq_or_imp, true_and]
    exact ⟨zeroOfType_hasType_ty t, fun v hv => List.eq_of_mem_replicate hv ▸ zeroOfType_hasType_ty t⟩
  | .token => rfl
theorem zerosOfTypes_hasType_tyList :
    ∀ ts : List Ty, List.Forall₂ Value.HasType (zerosOfTypes ts) (Value.tyList (zerosOfTypes ts))
  | [] => .nil
  | t :: ts => .cons (zeroOfType_hasType_ty t) (zerosOfTypes_hasType_tyList ts)
end

mutual
/-- The zero literal of a type without empty arrays has that type. -/
theorem ty_zeroOfType : ∀ {t : Ty}, t.noEmptyArray → (zeroOfType t).ty = t
  | .bits _, _ => by simp [zeroOfType, Value.ty, Bits.zero]
  | .tuple _, h => by rw [zeroOfType, Value.ty, tyList_zerosOfTypes h]
  | .array _ 0, h => by simp [Ty.noEmptyArray] at h
  | .array _ (n + 1), h => by
    simp only [Ty.noEmptyArray, Bool.and_eq_true] at h
    simp only [zeroOfType, List.replicate_succ, Value.ty, List.length_replicate, ty_zeroOfType h.2]
  | .token, _ => rfl
theorem tyList_zerosOfTypes : ∀ {ts : List Ty}, Ty.noEmptyArrayList ts → Value.tyList (zerosOfTypes ts) = ts
  | [], _ => rfl
  | _ :: _, h => by
    simp only [Ty.noEmptyArrayList, Bool.and_eq_true] at h
    rw [zerosOfTypes, Value.tyList, ty_zeroOfType h.1, tyList_zerosOfTypes h.2]
end

namespace Value

mutual
theorem or_zero : ∀ (t : Ty) {a : Value}, a.HasType t → a.or (zeroOfType t) = a
  | .bits _, _, ha => by
    obtain ⟨x, rfl, hx⟩ := hasType_bits_iff.1 ha
    simp [or, BitsOps.or_zero hx]
  | .tuple ts, _, ha => by
    obtain ⟨as, rfl, has⟩ := hasType_tuple_iff.1 ha
    simp only [zeroOfType, or, orList_zeros ts has]
  | .array t _, _, ha => by
    obtain ⟨as, rfl, rfl, has⟩ := hasType_array_iff.1 ha
    simp only [zeroOfType, or, orList_replicate_of fun a ha => or_zero t (has a ha)]
  | .token, _, ha => by rw [hasType_token_iff.1 ha]; rfl
theorem orList_zeros : ∀ (ts : List Ty) {as : List Value},
    List.Forall₂ HasType as ts → orList as (zerosOfTypes ts) = as
  | [], _, .nil => rfl
  | t :: ts, _, .cons ha has => by simp only [zerosOfTypes, orList, or_zero t ha, orList_zeros ts has]
end

theorem zero_or {t : Ty} {a : Value} (ha : a.HasType t) : (zeroOfType t).or a = a := by
  rw [or_comm_of_hasType t (zeroOfType_hasType t) ha, or_zero t ha]

end Value

/-! ## Values whose leaves are zero -/

theorem Value.leaves_subset_leavesList {v : Value} {vs : List Value} (hv : v ∈ vs) :
    ∀ l ∈ v.leaves, l ∈ Value.leavesList vs := by
  induction vs with
  | nil => cases hv
  | cons w vs ih =>
    intro l hl
    simp only [Value.leavesList, List.mem_append]
    rcases hv with _ | ⟨_, hv⟩
    · exact .inl hl
    · exact .inr (ih hv l hl)

mutual
/-- A value of a type whose every leaf is zero is the type's zero. -/
theorem eq_zeroOfType_of_leaves : ∀ (t : Ty) {v : Value}, v.HasType t →
    (∀ l ∈ v.leaves, Bits.IsZero l) → v = zeroOfType t
  | .bits _, _, hv, hz => by
    obtain ⟨b, rfl, rfl⟩ := Value.hasType_bits_iff.1 hv
    simp only [Value.leaves, List.mem_singleton, forall_eq] at hz
    simp only [zeroOfType_bits, Bits.zero, Value.bits.injEq]
    exact List.eq_replicate_iff.2 ⟨rfl, hz⟩
  | .tuple ts, _, hv, hz => by
    obtain ⟨vs, rfl, hvs⟩ := Value.hasType_tuple_iff.1 hv
    rw [zeroOfType, eq_zerosOfTypes_of_leaves ts hvs hz]
  | .array t _, _, hv, hz => by
    obtain ⟨vs, rfl, rfl, hvs⟩ := Value.hasType_array_iff.1 hv
    rw [zeroOfType]
    exact congrArg _ (List.eq_replicate_iff.2 ⟨rfl, fun x hx =>
      eq_zeroOfType_of_leaves t (hvs x hx) fun l hl => hz l (Value.leaves_subset_leavesList hx l hl)⟩)
  | .token, _, hv, _ => by rw [Value.hasType_token_iff.1 hv]; rfl
theorem eq_zerosOfTypes_of_leaves : ∀ (ts : List Ty) {vs : List Value}, List.Forall₂ Value.HasType vs ts →
    (∀ l ∈ Value.leavesList vs, Bits.IsZero l) → vs = zerosOfTypes ts
  | [], _, .nil, _ => rfl
  | t :: ts, _, .cons hv hvs, hz => by
    simp only [Value.leavesList, List.mem_append] at hz
    rw [zerosOfTypes, eq_zeroOfType_of_leaves t hv fun l hl => hz l (.inl hl),
      eq_zerosOfTypes_of_leaves ts hvs fun l hl => hz l (.inr hl)]
end

end Xls