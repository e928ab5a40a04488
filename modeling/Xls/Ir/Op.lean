import Xls.Value

/-!
# Operations

The operations of the IR that the select-simplification pass reads or builds,
what they compute (`Op.sem`), the type a node's constructor gives them
(`Op.resultType`) and the verifier's check of a node (`Op.verify`).

* `selectValue`, `oneHotSelectValue`, `prioritySelectValue`: the three selects
  on values; a one-hot select ORs the cases whose selector bit is set, a
  priority select takes the case of the least significant set bit, and both
  give the zero of their type when no bit is set;
* `Op.verify`: the verifier's type rules, among them that a `Select` has a
  default exactly when its cases are fewer than its selector can index, and
  that a one-hot or priority select has at least one case and one selector bit
  per case;
* `sem_safe`: on operands of the checked types a node computes a value, and the
  value has the node's type (type soundness).
-/

namespace Xls

/-- `LsbOrMsb`: which set bit of its input a `OneHot` encodes. -/
inductive LsbOrMsb where
  | lsb
  | msb
  deriving DecidableEq, Repr

/-- An operation, with the attributes its node class holds. -/
inductive Op where
  /-- `Param`, and every node whose value comes from outside the function
      (its state, what it receives): the value is the environment's. -/
  | param (index : Nat)
  | literal (value : Value)
  /-- `Select`: the operands are the selector, the cases, then the default if
      there is one. -/
  | select (hasDefault : Bool)
  /-- `OneHotSelect`: the selector, then the cases. -/
  | oneHotSel
  /-- `PrioritySelect`: the selector, then the cases. -/
  | prioritySel
  | bitSlice (start width : Nat)
  | concat
  | and
  | or
  | nand
  | not
  | eq
  | uGe
  | signExt (newBitCount : Nat)
  | orReduce
  | tuple
  | tupleIndex (index : Nat)
  | oneHot (priority : LsbOrMsb)
  /-- Every other operation, the side-effecting ones among them: what it
      computes is the environment's. -/
  | other (kind : Nat)
  deriving DecidableEq

/-- What a function's values depend on besides its nodes: the value of its
    parameter of each index and type, and what the operations the pass does not
    look into compute. -/
structure Env where
  params : Nat → Ty → Value
  interp : Nat → Ty → List Value → Option Value

/-- The environment gives values of the right types: a parameter one of its
    type, an operation the pass does not look into one of the node's type. -/
def Env.Typed (env : Env) : Prop :=
  (∀ i t, (env.params i t).HasType t) ∧ ∀ k t vs, ∃ v, env.interp k t vs = some v ∧ v.HasType t

/-- The environment in which every parameter and every other operation is the
    zero of its type. -/
def Env.zero : Env := ⟨fun _ t => zeroOfType t, fun _ t _ => some (zeroOfType t)⟩

theorem Env.zero_typed : Env.zero.Typed :=
  ⟨fun _ t => zeroOfType_hasType t, fun _ t _ => ⟨_, rfl, zeroOfType_hasType t⟩⟩

/-- `Select` on values: the case the selector's value indexes, else the
    default. -/
def selectValue (selector : Bits) (cases : List Value) (default : Option Value) : Option Value :=
  if selector.toNat < cases.length then cases[selector.toNat]? else default

/-- `OneHotSelect` on values: the OR of the cases whose selector bit is set,
    `zero` when none is. -/
def oneHotSelectValue (zero : Value) : Bits → List Value → Value
  | b :: bs, c :: cs => if b then c.or (oneHotSelectValue zero bs cs) else oneHotSelectValue zero bs cs
  | _, _ => zero

/-- `PrioritySelect` on values: the case of the least significant set selector
    bit, `zero` when none is. -/
def prioritySelectValue (zero : Value) : Bits → List Value → Value
  | true :: _, c :: _ => c
  | false :: bs, _ :: cs => prioritySelectValue zero bs cs
  | _, _ => zero

/-- An n-ary bitwise operation folded over its operands. -/
def naryBits (f : Bits → Bits → Bits) (v : Value) (vs : List Value) : Bits :=
  vs.foldl (fun acc w => f acc w.toBits) v.toBits

namespace Op

/-- What a node of type `ty` computes from its operands' values (`none` on
    operands it cannot take). -/
def sem (env : Env) (ty : Ty) : Op → List Value → Option Value
  | .param i, [] => some (env.params i ty)
  | .literal v, [] => some v
  | .select false, s :: cases => selectValue s.toBits cases none
  | .select true, s :: rest => selectValue s.toBits rest.dropLast rest.getLast?
  | .oneHotSel, s :: cases => some (oneHotSelectValue (zeroOfType ty) s.toBits cases)
  | .prioritySel, s :: cases => some (prioritySelectValue (zeroOfType ty) s.toBits cases)
  | .bitSlice start width, [a] => some (.bits (BitsOps.slice a.toBits start width))
  | .concat, vs => some (.bits (BitsOps.concat (vs.map Value.toBits)))
  | .and, v :: vs => some (.bits (naryBits BitsOps.and v vs))
  | .or, v :: vs => some (.bits (naryBits BitsOps.or v vs))
  | .nand, v :: vs => some (.bits (BitsOps.not (naryBits BitsOps.and v vs)))
  | .not, [a] => some (.bits (BitsOps.not a.toBits))
  | .eq, [a, b] => some (.bits [decide (a = b)])
  | .uGe, [a, b] => some (.bits [decide (b.toBits.toNat ≤ a.toBits.toNat)])
  | .signExt n, [a] => some (.bits (BitsOps.signExtend a.toBits n))
  | .orReduce, [a] => some (.bits [a.toBits.any id])
  | .tuple, vs => some (.tuple vs)
  | .tupleIndex i, [a] => a.elements[i]?
  | .oneHot .lsb, [a] => some (.bits (oneHotLsbToMsb a.toBits))
  | .oneHot .msb, [a] => some (.bits (oneHotMsbToLsb a.toBits))
  | .other k, vs => env.interp k ty vs
  | _, _ => none

/-- The type a node's constructor gives it from its operands' types: a select
    takes its first case's (or its default's), an n-ary or unary operation its
    first operand's. -/
def resultType : Op → List Ty → Ty
  | .literal v, _ => v.ty
  | .select _, _ :: t :: _ | .oneHotSel, _ :: t :: _ | .prioritySel, _ :: t :: _ => t
  | .bitSlice _ width, _ => .bits width
  | .concat, ts => .bits (ts.map Ty.bitCount).sum
  | .and, t :: _ | .or, t :: _ | .nand, t :: _ | .not, t :: _ => t
  | .eq, _ | .uGe, _ | .orReduce, _ => .bits 1
  | .signExt n, _ => .bits n
  | .tuple, ts => .tuple ts
  | .tupleIndex i, [t] => t.tupleElements.getD i .token
  | .oneHot _, [t] => .bits (t.bitCount + 1)
  | _, _ => .token

/-- The verifier's check of a node with this operation, operands of types
    `ts` and type `ty`. -/
def verify : Op → List Ty → Ty → Bool
  | .param _, [], _ => true
  | .literal v, [], ty => decide (v.HasType ty) && ty.noEmptyArray
  | .select false, .bits w :: cases, ty => cases.all (· == ty) && cases.length == 2 ^ w
  | .select true, .bits w :: rest, ty =>
    rest.all (· == ty) && !rest.isEmpty && decide (rest.length - 1 < 2 ^ w)
  | .oneHotSel, .bits w :: cases, ty | .prioritySel, .bits w :: cases, ty =>
    !cases.isEmpty && w == cases.length && cases.all (· == ty)
  | .bitSlice start width, [.bits w], ty => decide (start + width ≤ w) && ty == .bits width
  | .concat, ts, ty => ts.all Ty.isBits && ty == .bits (ts.map Ty.bitCount).sum
  | .and, ts, ty | .or, ts, ty | .nand, ts, ty => !ts.isEmpty && ts.all (· == ty) && ty.isBits
  | .not, [t], ty => t == ty && ty.isBits
  | .eq, [a, b], ty => a == b && ty == .bits 1
  | .uGe, [a, b], ty => a == b && a.isBits && ty == .bits 1
  | .signExt n, [.bits w], ty => decide (w ≤ n) && ty == .bits n
  | .orReduce, [.bits _], ty => ty == .bits 1
  | .tuple, ts, ty => ty == .tuple ts
  | .tupleIndex i, [.tuple es], ty => es[i]? == some ty
  | .oneHot _, [.bits w], ty => ty == .bits (w + 1)
  | .other _, _, _ => true
  | _, _, _ => false

end Op

/-! ## Type soundness -/

theorem Value.eq_bits_of_hasType {v : Value} {w : Nat} (h : v.HasType (.bits w)) :
    v = .bits v.toBits ∧ v.toBits.length = w := by
  obtain ⟨b, rfl, hb⟩ := Value.hasType_bits_iff.1 h
  exact ⟨rfl, hb⟩

theorem selectValue_safe {selector : Bits} {cases : List Value} {default : Option Value} {ty : Ty}
    (hc : ∀ c ∈ cases, c.HasType ty) (hd : ∀ d ∈ default, d.HasType ty)
    (hin : selector.toNat < cases.length ∨ default.isSome) :
    ∃ v, selectValue selector cases default = some v ∧ v.HasType ty := by
  unfold selectValue
  split
  · exact ⟨_, List.getElem?_eq_getElem ‹_›, hc _ (List.getElem_mem _)⟩
  · obtain ⟨d, rfl⟩ := Option.isSome_iff_exists.1 (hin.resolve_left ‹_›)
    exact ⟨d, rfl, hd d rfl⟩

theorem oneHotSelectValue_hasType {zero : Value} {ty : Ty} (hz : zero.HasType ty) :
    ∀ (s : Bits) {cases : List Value}, (∀ c ∈ cases, c.HasType ty) →
      (oneHotSelectValue zero s cases).HasType ty
  | [], _, _ => by cases ‹List Value› <;> exact hz
  | _ :: _, [], _ => hz
  | b :: s, c :: cs, hc => by
    have ih := oneHotSelectValue_hasType hz s fun c' h => hc c' (.tail _ h)
    cases b
    · exact ih
    · exact Value.or_hasType ty (hc c (.head _)) ih

theorem prioritySelectValue_hasType {zero : Value} {ty : Ty} (hz : zero.HasType ty) :
    ∀ (s : Bits) {cases : List Value}, (∀ c ∈ cases, c.HasType ty) →
      (prioritySelectValue zero s cases).HasType ty
  | [], _, _ => by cases ‹List Value› <;> exact hz
  | b :: _, [], _ => by cases b <;> exact hz
  | true :: _, c :: _, hc => hc c (.head _)
  | false :: s, _ :: _, hc => prioritySelectValue_hasType hz s fun c' h => hc c' (.tail _ h)

theorem length_naryBits {f : Bits → Bits → Bits} {w : Nat}
    (hf : ∀ a b, a.length = w → b.length = w → (f a b).length = w) {v : Value} {vs : List Value}
    (hv : v.toBits.length = w) (hvs : ∀ u ∈ vs, u.toBits.length = w) :
    (naryBits f v vs).length = w := by
  induction vs generalizing v with
  | nil => exact hv
  | cons u vs ih =>
    exact @ih (.bits (f v.toBits u.toBits)) (hf _ _ hv (hvs u (.head _)))
      fun u' h => hvs u' (.tail _ h)

theorem length_oneHotLsbToMsb (b : Bits) : (oneHotLsbToMsb b).length = b.length + 1 := by
  simp [oneHotLsbToMsb]

theorem length_oneHotMsbToLsb (b : Bits) : (oneHotMsbToLsb b).length = b.length + 1 := by
  simp [oneHotMsbToLsb]

theorem sum_toBits_length {vs : List Value} {ts : List Ty} (h : List.Forall₂ Value.HasType vs ts)
    (hb : ∀ t ∈ ts, t.isBits) :
    ((vs.map Value.toBits).map List.length).sum = (ts.map Ty.bitCount).sum := by
  induction h with
  | nil => rfl
  | @cons v t vs ts hvt _ ih =>
    have hvt' := (Value.eq_bits_of_hasType ((Ty.isBits_iff.1 (hb t (.head _))) ▸ hvt)).2
    simp only [List.map_cons, List.sum_cons, hvt', ih fun t' h => hb t' (.tail _ h)]

theorem forall₂_all_eq {vs : List Value} {ts : List Ty} {ty : Ty} (h : List.Forall₂ Value.HasType vs ts)
    (hts : ∀ t ∈ ts, t = ty) : ∀ v ∈ vs, v.HasType ty := by
  induction h with
  | nil => simp
  | cons hvt _ ih =>
    rintro v (_ | ⟨_, hv⟩)
    · exact hts _ (.head _) ▸ hvt
    · exact ih (fun t h => hts t (.tail _ h)) v hv

theorem length_and_of (a b : Bits) (w : Nat) (ha : a.length = w) (hb : b.length = w) :
    (BitsOps.and a b).length = w := by simp [ha, hb]

theorem length_or_of (a b : Bits) (w : Nat) (ha : a.length = w) (hb : b.length = w) :
    (BitsOps.or a b).length = w := by simp [ha, hb]

namespace Op

variable {env : Env} {ty : Ty}

theorem select_safe {d : Bool} {w : Nat} {rest : List Ty} {s : Value} {vs : List Value}
    (hop : (select d).verify (.bits w :: rest) ty) (hs : s.HasType (.bits w))
    (hvs : List.Forall₂ Value.HasType vs rest) :
    ∃ v, (select d).sem env ty (s :: vs) = some v ∧ v.HasType ty := by
  have hlt := Bits.toNat_lt s.toBits
  rw [(Value.eq_bits_of_hasType hs).2] at hlt
  cases d with
  | false =>
    replace hop : (rest.all (· == ty) && rest.length == 2 ^ w) = true := hop
    simp only [Bool.and_eq_true, List.all_eq_true, beq_iff_eq] at hop
    exact selectValue_safe (forall₂_all_eq hvs hop.1) (by simp) (.inl (by rw [hvs.length_eq, hop.2]; exact hlt))
  | true =>
    replace hop : (rest.all (· == ty) && !rest.isEmpty && decide (rest.length - 1 < 2 ^ w)) = true := hop
    simp only [Bool.and_eq_true, List.all_eq_true, beq_iff_eq, Bool.not_eq_true',
      List.isEmpty_eq_false, decide_eq_true_eq] at hop
    have hall := forall₂_all_eq hvs hop.1.1
    have hne : vs ≠ [] := by rintro rfl; cases hvs; exact hop.1.2 rfl
    refine selectValue_safe (fun c hc => hall c (List.dropLast_subset _ hc))
      (fun d hd => hall d (List.mem_of_mem_getLast? hd)) ?_
    by_cases hlt : s.toBits.toNat < vs.dropLast.length
    · exact .inl hlt
    · exact .inr (List.getLast?_isSome.2 hne)

theorem nary_safe {op : Op} {f : Bits → Bits → Bits} (hf : ∀ a b w, a.length = w → b.length = w → (f a b).length = w)
    {v : Value} {vs : List Value} {t : Ty} {ts : List Ty}
    (hop : op.verify (t :: ts) ty) (hopv : op = .and ∨ op = .or ∨ op = .nand)
    (h : List.Forall₂ Value.HasType (v :: vs) (t :: ts)) :
    ∃ w, ty = .bits w ∧ (naryBits f v vs).length = w := by
  have hv : op.verify (t :: ts) ty = (!(t :: ts).isEmpty && (t :: ts).all (· == ty) && ty.isBits) := by
    rcases hopv with rfl | rfl | rfl <;> rfl
  simp only [hv, Bool.and_eq_true, List.all_eq_true, beq_iff_eq] at hop
  have hall := forall₂_all_eq h hop.1.2
  refine ⟨ty.bitCount, Ty.isBits_iff.1 hop.2, length_naryBits (hf · · _) ?_ fun u hu => ?_⟩
  · exact (Value.eq_bits_of_hasType ((Ty.isBits_iff.1 hop.2) ▸ hall v (.head _))).2
  · exact (Value.eq_bits_of_hasType ((Ty.isBits_iff.1 hop.2) ▸ hall u (.tail _ hu))).2

/-- Type soundness of one node: on operands of the types the verifier checked,
    a node computes a value, and the value has the node's type. -/
theorem sem_safe : ∀ {op : Op} {ts : List Ty} {vs : List Value},
    op.verify ts ty → env.Typed → List.Forall₂ Value.HasType vs ts →
    ∃ v, op.sem env ty vs = some v ∧ v.HasType ty
  | .param i, [], [], _, henv, _ => ⟨_, rfl, henv.1 i ty⟩
  | .literal _, [], [], hop, _, _ => by
    simp only [verify, Bool.and_eq_true, decide_eq_true_eq] at hop
    exact ⟨_, rfl, hop.1⟩
  | .other k, _, vs, _, henv, _ => henv.2 k ty vs
  | .select _, .bits _ :: _, _ :: _, hop, _, .cons hs hvs => select_safe hop hs hvs
  | .oneHotSel, .bits _ :: _, _ :: _, hop, _, .cons _ hvs => by
    simp only [verify, Bool.and_eq_true, List.all_eq_true, beq_iff_eq] at hop
    exact ⟨_, rfl, oneHotSelectValue_hasType (zeroOfType_hasType ty) _ (forall₂_all_eq hvs hop.2)⟩
  | .prioritySel, .bits _ :: _, _ :: _, hop, _, .cons _ hvs => by
    simp only [verify, Bool.and_eq_true, List.all_eq_true, beq_iff_eq] at hop
    exact ⟨_, rfl, prioritySelectValue_hasType (zeroOfType_hasType ty) _ (forall₂_all_eq hvs hop.2)⟩
  | .bitSlice _ _, [.bits _], [_], hop, _, .cons ha .nil => by
    simp only [verify, Bool.and_eq_true, decide_eq_true_eq, beq_iff_eq] at hop
    obtain ⟨h, rfl⟩ := hop
    exact ⟨_, rfl, Value.hasType_bits.2 (BitsOps.length_slice ((Value.eq_bits_of_hasType ha).2 ▸ h))⟩
  | .concat, _, _, hop, _, hvs => by
    simp only [verify, Bool.and_eq_true, List.all_eq_true, beq_iff_eq] at hop
    obtain ⟨hb, rfl⟩ := hop
    exact ⟨_, rfl, Value.hasType_bits.2 (by rw [BitsOps.length_concat, sum_toBits_length hvs hb])⟩
  | .and, _ :: _, _ :: _, hop, _, hvs => by
    obtain ⟨w, rfl, h⟩ := nary_safe length_and_of hop (.inl rfl) hvs
    exact ⟨_, rfl, Value.hasType_bits.2 h⟩
  | .or, _ :: _, _ :: _, hop, _, hvs => by
    obtain ⟨w, rfl, h⟩ := nary_safe length_or_of hop (.inr (.inl rfl)) hvs
    exact ⟨_, rfl, Value.hasType_bits.2 h⟩
  | .nand, _ :: _, _ :: _, hop, _, hvs => by
    obtain ⟨w, rfl, h⟩ := nary_safe length_and_of hop (.inr (.inr rfl)) hvs
    exact ⟨_, rfl, Value.hasType_bits.2 (by simpa using h)⟩
  | .not, [_], [_], hop, _, .cons ha .nil => by
    simp only [verify, Bool.and_eq_true, beq_iff_eq] at hop
    obtain ⟨rfl, hb⟩ := hop
    rw [Ty.isBits_iff.1 hb] at ha ⊢
    exact ⟨_, rfl, by simpa using (Value.eq_bits_of_hasType ha).2⟩
  | .eq, [_, _], [_, _], hop, _, _ => by
    simp only [verify, Bool.and_eq_true, beq_iff_eq] at hop
    exact ⟨_, rfl, by simp [hop.2]⟩
  | .uGe, [_, _], [_, _], hop, _, _ => by
    simp only [verify, Bool.and_eq_true, beq_iff_eq] at hop
    exact ⟨_, rfl, by simp [hop.2]⟩
  | .signExt _, [.bits _], [_], hop, _, .cons ha .nil => by
    simp only [verify, Bool.and_eq_true, decide_eq_true_eq, beq_iff_eq] at hop
    obtain ⟨h, rfl⟩ := hop
    exact ⟨_, rfl, Value.hasType_bits.2 (BitsOps.length_signExtend ((Value.eq_bits_of_hasType ha).2 ▸ h))⟩
  | .orReduce, [.bits _], [_], hop, _, _ => by
    simp only [verify, beq_iff_eq] at hop
    exact ⟨_, rfl, by simp [hop]⟩
  | .tuple, _, _, hop, _, hvs => by
    simp only [verify, beq_iff_eq] at hop
    exact ⟨_, rfl, hop ▸ Value.hasType_tuple.2 hvs⟩
  | .tupleIndex i, [.tuple _], [_], hop, _, .cons ha .nil => by
    simp only [verify, beq_iff_eq] at hop
    obtain ⟨as, rfl, has⟩ := Value.hasType_tuple_iff.1 ha
    obtain ⟨hi, rfl⟩ := List.getElem?_eq_some_iff.1 hop
    exact ⟨as.get ⟨i, has.length_eq ▸ hi⟩, by simp [sem, Value.elements], has.get (has.length_eq ▸ hi) hi⟩
  | .oneHot .lsb, [.bits _], [_], hop, _, .cons ha .nil => by
    simp only [verify, beq_iff_eq] at hop
    exact ⟨_, rfl, by simp [hop, length_oneHotLsbToMsb, (Value.eq_bits_of_hasType ha).2]⟩
  | .oneHot .msb, [.bits _], [_], hop, _, .cons ha .nil => by
    simp only [verify, beq_iff_eq] at hop
    exact ⟨_, rfl, by simp [hop, length_oneHotMsbToLsb, (Value.eq_bits_of_hasType ha).2]⟩
  | .select d, [], _, hop, _, _ | .select d, .tuple _ :: _, _, hop, _, _
  | .select d, .array _ _ :: _, _, hop, _, _ | .select d, .token :: _, _, hop, _, _ => by
    cases d <;> simp [verify] at hop

/-- A node the verifier accepts, over operands whose types hold no empty array,
    has no empty array in its type either: a literal's type is checked, a select
    or an n-ary operation takes an operand's type, a tuple index an element of
    an operand's type, and the rest are bits. -/
theorem noEmptyArray_resultType {op : Op} {ts : List Ty} (hts : ∀ t ∈ ts, t.noEmptyArray)
    (hv : op.verify ts (op.resultType ts)) : (op.resultType ts).noEmptyArray := by
  have hsnd : ∀ {s t : Ty} {ts' : List Ty}, ts = s :: t :: ts' → t.noEmptyArray :=
    fun h => hts _ (h ▸ .tail _ (.head _))
  have hfst : ∀ {t : Ty} {ts' : List Ty}, ts = t :: ts' → t.noEmptyArray := fun h => hts _ (h ▸ .head _)
  unfold resultType
  split <;> first
    | rfl
    | exact hsnd rfl
    | exact hfst rfl
    | exact Ty.noEmptyArrayList_iff.2 hts
    | skip
  · cases ts <;> simp_all [verify, resultType]
  · rename_i t
    rw [List.getD_eq_getElem?_getD]
    cases he : t.tupleElements[‹Nat›]? with
    | none => rfl
    | some e => exact Ty.noEmptyArray_of_mem_tupleElements (hfst rfl) (List.getElem?_mem he)

end Op

end Xls
