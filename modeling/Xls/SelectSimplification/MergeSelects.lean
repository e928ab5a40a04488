import Xls.SelectSimplification.DeadCases

/-!
# Merging consecutive selects

The rule of `SimplifyNode` (narrowing enabled) that flattens into a one-hot
(priority) select the cases that are themselves single-use one-hot (priority)
selects. The loop over the cases keeps each run of other cases with a
`BitSlice` of the selector over the run; a case `select(Sᵢ, Cᵢ)` at position
`i` gives the cases `Cᵢ`, selected by `sign_ext(sel[i]) & Sᵢ`, and, for a
priority select, a zero case selected by `sel[i] & (Sᵢ == 0)`, so that an
inner selector of zero still gives zero. The pieces, least significant first,
are concatenated into the new selector.

* `caseFold_merged`: the cases a merged case gives, under the bits it gives
  them, select in front of any value what the case selects where its bit is
  set, and pass the value through where it is not;
* `MergeInv`: what holds before each step of the loop, kept by each kind of
  step (`MergeInv.unhandled`, `MergeInv.addUnhandled`, `MergeInv.merge`) and
  over the whole loop (`mergeLoop_spec`); at the end of the cases it makes the
  select over the new cases a rewrite (`MergeInv.rewrites`);
* `mergeConsecutiveSelects_rewrites`: the rule is a rewrite of the select that
  keeps the function well typed, whatever `HasSingleUse` answers.
-/

namespace Xls

namespace SelectSimplification

open FunctionBase

/-- The state of the merging loop: the function, `new_cases`,
    `new_selector_parts`, `unhandled_selector_bits` and `zero`. -/
structure MergeState where
  f : FunctionBase
  newCases : List Nat
  newSelectorParts : List Nat
  unhandledSelectorBits : Nat
  zero : Option Nat

section Definitions

/-- `add_unhandled_selector_bits(index)`: the run of cases kept as they are
    before case `index` becomes a `BitSlice` of the selector over the run, and
    the run's cases. -/
def addUnhandledSelectorBits (selector : Nat) (cases : List Nat) (st : MergeState) (index : Nat) : MergeState :=
  if st.unhandledSelectorBits ≠ 0 then
    let (f, selectorPart) :=
      st.f.makeNode (.bitSlice (index - st.unhandledSelectorBits) st.unhandledSelectorBits) [selector]
    { st with
      f := f
      newSelectorParts := st.newSelectorParts ++ [selectorPart]
      newCases := st.newCases ++ (cases.drop (index - st.unhandledSelectorBits)).take st.unhandledSelectorBits
      unhandledSelectorBits := 0 }
  else { st with unhandledSelectorBits := 0 }

@[simp] theorem addUnhandledSelectorBits_unhandledSelectorBits (selector : Nat) (cases : List Nat) (st : MergeState)
    (index : Nat) : (addUnhandledSelectorBits selector cases st index).unhandledSelectorBits = 0 := by
  unfold addUnhandledSelectorBits
  split <;> rfl

/-- `operand_selector_is_zero`: the inner selector's `Not` when it is a single
    bit, else its comparison with a zero literal. -/
def operandSelectorIsZero (f : FunctionBase) (operandSelector : Nat) : FunctionBase × Nat :=
  if (f.tyOf operandSelector).bitCount = 1 then f.makeNode .not [operandSelector]
  else
    let (f, operandSelectorZero) := f.makeNode (.literal (zeroOfType (f.tyOf operandSelector))) []
    f.makeNode .eq [operandSelector, operandSelectorZero]

/-- The nodes a case `c` at position `i`, a select with selector
    `operandSelector` and cases `operandCases`, gives: `sign_ext(sel[i]) &
    operandSelector` over the cases `operandCases`, then for a priority select
    `sel[i] & (operandSelector == 0)` over a zero case. -/
def mergeOperandSelect (isPriority : Bool) (selector : Nat) (st : MergeState) (i c operandSelector : Nat)
    (operandCases : List Nat) : MergeState :=
  let (f, selectorBit) := st.f.makeNode (.bitSlice i 1) [selector]
  let (f, selectorBitMask) := f.makeNode (.signExt operandCases.length) [selectorBit]
  let (f, maskedSelector) := f.makeNode .and [selectorBitMask, operandSelector]
  let st := { st with
    f := f
    newSelectorParts := st.newSelectorParts ++ [maskedSelector]
    newCases := st.newCases ++ operandCases }
  if isPriority then
    let (f, isZero) := operandSelectorIsZero st.f operandSelector
    let (f, maskedOperandSelectorIsZero) := f.makeNode .and [selectorBit, isZero]
    let (f, zeroCase) := match st.zero with
      | some z => (f, z)
      | none => f.makeNode (.literal (zeroOfType (f.tyOf c))) []
    { st with
      f := f
      zero := some zeroCase
      newSelectorParts := st.newSelectorParts ++ [maskedOperandSelectorIsZero]
      newCases := st.newCases ++ [zeroCase] }
  else st

/-- The loop over the cases from case `i`, merging the single-use matching
    selects (`isSingleUserMatchingSelect`) and counting the others as
    unhandled. -/
def mergeLoop (isPriority : Bool) (isSingleUserMatchingSelect : Nat → Bool) (selector : Nat) (cases : List Nat) :
    MergeState → Nat → List Nat → MergeState
  | st, _, [] => st
  | st, i, c :: rest =>
    if isSingleUserMatchingSelect c then
      let operands := ((st.f.node c).map Node.operands).getD []
      mergeLoop isPriority isSingleUserMatchingSelect selector cases
        (mergeOperandSelect isPriority selector (addUnhandledSelectorBits selector cases st i) i c (operands.headD 0)
          operands.tail) (i + 1) rest
    else
      mergeLoop isPriority isSingleUserMatchingSelect selector cases
        { st with unhandledSelectorBits := st.unhandledSelectorBits + 1 } (i + 1) rest

variable (f : FunctionBase)

/-- The merging rule of `SimplifyNode` (narrowing enabled) on a one-hot or
    priority select with a case that is a select of the same kind with a single
    use; `hasSingleUse` is `HasSingleUse` (node_util is not in the sources), on
    which nothing proved here depends. -/
def mergeConsecutiveSelects (hasSingleUse : Nat → Bool) (narrowingEnabled : Bool) (node : Nat) :
    Except String (Option FunctionBase) :=
  match f.node node with
  | some ⟨op, selector :: cases, _⟩ =>
    if narrowingEnabled && (op == .oneHotSel || op == .prioritySel) then
      let isSingleUserMatchingSelect := fun n => (f.node n).any (·.op == op) && hasSingleUse n
      if cases.any isSingleUserMatchingSelect then
        let st := mergeLoop (op == .prioritySel) isSingleUserMatchingSelect selector cases ⟨f, [], [], 0, none⟩ 0 cases
        let st := addUnhandledSelectorBits selector cases st cases.length
        let (f, newSelector) := st.f.makeNode .concat st.newSelectorParts.reverse
        some <$> f.replaceUsesWithNew node op (newSelector :: st.newCases)
      else pure none
    else pure none
  | _ => pure none

end Definitions

/-! ## The values the merged cases select -/

section Values

variable {t : Ty} {k : Value} {sv : Bits} {cs : List Value}

/-- The step of the fold a one-hot or priority select is (`caseFold`). -/
def selectStep (isPriority : Bool) : Bool → Value → Value → Value :=
  if isPriority then priorityStep else oneHotStep

theorem sem_eq_caseFold {op : Op} (hop : op = .oneHotSel ∨ op = .prioritySel) (env : Env) (ty : Ty) (sb : Bits)
    (cvs : List Value) :
    op.sem env ty (.bits sb :: cvs) = some (caseFold (selectStep (op == .prioritySel)) sb cvs (zeroOfType ty)) := by
  rcases hop with rfl | rfl
  · exact congrArg some (oneHotSelectValue_eq_caseFold _ sb cvs)
  · exact congrArg some (prioritySelectValue_eq_caseFold _ sb cvs)

theorem selectStep_false (isPriority : Bool) (c k : Value) : selectStep isPriority false c k = k := by
  cases isPriority <;> rfl

theorem selectStep_hasType (isPriority b : Bool) {c : Value} (hc : c.HasType t) (hk : k.HasType t) :
    (selectStep isPriority b c k).HasType t := by
  cases isPriority
  · exact oneHotStep_hasType b hc hk
  · exact priorityStep_hasType b hc hk

/-- The bits a merged case gives its cases: the inner selector masked by the
    case's bit and, for a priority select, the bit and the inner selector
    being zero. -/
def mergedBits (isPriority : Bool) (b : Bool) (sv : Bits) : Bits :=
  BitsOps.and (BitsOps.signExtend [b] sv.length) sv ++ if isPriority then [b && !sv.any id] else []

/-- The cases a merged case gives: the inner cases and, for a priority select,
    zero. -/
def mergedCases (isPriority : Bool) (cs : List Value) (z : Value) : List Value :=
  cs ++ if isPriority then [z] else []

theorem mask_eq (b : Bool) (sv : Bits) :
    BitsOps.and (BitsOps.signExtend [b] sv.length) sv = if b then sv else Bits.zero sv.length := by
  rw [BitsOps.and_comm, BitsOps.and_signExtend_single]

theorem length_mergedBits (isPriority b : Bool) (hlen : sv.length = cs.length) (z : Value) :
    (mergedBits isPriority b sv).length = (mergedCases isPriority cs z).length := by
  rw [mergedBits, mask_eq, mergedCases]
  cases b <;> cases isPriority <;> simp [hlen]

/-- A merged case's cases under its bits select, in front of `k`, what the case
    selects where its bit is set, and pass `k` through where it is not. -/
theorem caseFold_merged (isPriority : Bool) (hlen : sv.length = cs.length) (hcs : ∀ c ∈ cs, c.HasType t)
    (hk : k.HasType t) (b : Bool) :
    caseFold (selectStep isPriority) (mergedBits isPriority b sv) (mergedCases isPriority cs (zeroOfType t)) k =
      selectStep isPriority b (caseFold (selectStep isPriority) sv cs (zeroOfType t)) k := by
  cases b with
  | false =>
    rw [selectStep_false, mergedBits, mask_eq, if_neg Bool.false_ne_true]
    have : Bits.zero sv.length ++ (if isPriority then [false && !sv.any id] else []) =
        List.replicate (sv.length + if isPriority then 1 else 0) false := by
      cases isPriority <;> simp [Bits.zero, List.replicate_succ']
    rw [this]
    exact caseFold_zeros (selectStep_false isPriority) _ _ k
  | true =>
    rw [mergedBits, mask_eq, if_pos rfl, mergedCases]
    cases isPriority with
    | false =>
      simp only [selectStep, if_false, List.append_nil, Bool.false_eq_true]
      rw [caseFold_oneHot hk sv hcs, oneHotSelectValue_eq_caseFold]
      rfl
    | true =>
      simp only [selectStep, if_true, Bool.true_and]
      rw [caseFold_append _ hlen, caseFold_priority (zeroOfType t) _ sv cs hlen,
        caseFold_priority (zeroOfType t) _ sv cs hlen]
      cases sv.any id <;> rfl

/-- Case `i` alone, under its bit. -/
theorem caseFold_drop_take_one (step : Bool → Value → Value → Value) {sb : Bits} {cvs : List Value} {i : Nat}
    {b : Bool} {cv : Value} (hb : sb[i]? = some b) (hcv : cvs[i]? = some cv) (k : Value) :
    caseFold step ((sb.drop i).take 1) ((cvs.drop i).take 1) k = step b cv k := by
  obtain ⟨hlt, rfl⟩ := List.getElem?_eq_some_iff.1 hb
  obtain ⟨hlt', rfl⟩ := List.getElem?_eq_some_iff.1 hcv
  rw [List.drop_eq_getElem_cons hlt, List.drop_eq_getElem_cons hlt']
  rfl

/-- A vector equals the zero of its width exactly when no bit is set. -/
theorem decide_bits_eq_zeroOfType {sb : Bits} {n : Nat} (h : sb.length = n) :
    decide (Value.bits sb = zeroOfType (.bits n)) = !sb.any id := by
  subst h
  induction sb <;> simp_all [zeroOfType, Bits.zero, List.replicate_succ]

end Values

/-! ## The loop -/

/-- What holds before the loop's step on case `i`: the pieces of the new
    selector and the new cases are built over what `node` depends on, with as
    many selector bits as cases, the cases of the select's type and the zero
    case a zero of it; and the new cases under the pieces' bits select, in
    front of any `k`, what the cases before the pending run select in front of
    `k`. -/
structure MergeInv (f : FunctionBase) (node s : Nat) (cases : List Nat) (ty : Ty) (isPriority : Bool)
    (st : MergeState) (i : Nat) : Prop where
  slices : SlicesState f node st.f st.newSelectorParts st.newCases.length
  newCases : ∀ c ∈ st.newCases, Usable f node st.f c ∧ st.f.tyOf c = ty
  unhandled_le : st.unhandledSelectorBits ≤ i
  le_length : i ≤ cases.length
  length_le : i - st.unhandledSelectorBits ≤ st.newCases.length
  zero : ∀ z ∈ st.zero, Usable f node st.f z ∧ st.f.tyOf z = ty ∧ ∀ env, st.f.Eval env z (zeroOfType ty)
  eval : ∀ env : Env, env.Typed → ∀ sb cvs, f.Eval env s (.bits sb) → sb.length = cases.length →
    List.Forall₂ (f.Eval env) cases cvs → ∃ bs ncvs, SlicesBits st.f env st.newSelectorParts bs ∧ List.Forall₂ (st.f.Eval env) st.newCases ncvs ∧
      bs.length = ncvs.length ∧ ∀ k : Value, k.HasType ty →
        caseFold (selectStep isPriority) bs ncvs k = caseFold (selectStep isPriority)
          (sb.take (i - st.unhandledSelectorBits)) (cvs.take (i - st.unhandledSelectorBits)) k

section IsZero

variable {f g g' : FunctionBase} {node S n : Nat}

theorem extends_makeNode {op : Op} {ops : List Nat} (h : Extends g (fun _ => True) g') :
    Extends g (fun _ => True) (g'.makeNode op ops).1 :=
  h.makeNode fun _ _ => .inr trivial

/-- `operandSelectorIsZero` over an inner selector of width `n`: a new bit,
    set exactly where the inner selector is zero. -/
theorem operandSelectorIsZero_spec (hf : f.OperandsExist) (hb : Builds f node g) (hS : Usable f node g S)
    (hSty : g.tyOf S = .bits n) :
    Builds f node (operandSelectorIsZero g S).1 ∧ Extends g (fun _ => True) (operandSelectorIsZero g S).1 ∧
      Fresh f (operandSelectorIsZero g S).1 (operandSelectorIsZero g S).2 ∧
      (operandSelectorIsZero g S).1.tyOf (operandSelectorIsZero g S).2 = .bits 1 ∧
      ∀ env sb, g.Eval env S (.bits sb) → sb.length = n →
        (operandSelectorIsZero g S).1.Eval env (operandSelectorIsZero g S).2 (.bits [!sb.any id]) := by
  simp only [operandSelectorIsZero, hSty, makeNode_snd]
  split
  · -- a single bit: its `Not`
    rename_i hn
    replace hn : n = 1 := hn
    subst hn
    refine ⟨hb.makeNode hf (List.forall_mem_singleton.2 hS) (by simp [Op.verify, Op.resultType, hSty, Ty.isBits]),
      extends_makeNode .refl, fresh_makeNode_self hb.ext.size_le, by simp [Op.resultType, hSty],
      fun env sb hS' hsb => eval_makeNode_self (.cons hS' .nil) ?_⟩
    obtain ⟨x, rfl⟩ := List.length_eq_one.1 hsb
    show some (Value.bits (BitsOps.not [x])) = _
    simp [BitsOps.not]
  · -- else its comparison with a zero literal
    have hb₁ : Builds f node (g.makeNode (.literal (zeroOfType (.bits n))) []).1 := hb.makeNode hf (by simp)
      (by simp [Op.verify, Op.resultType, zeroOfType_hasType, Value.ty, zeroOfType, Bits.zero, Ty.noEmptyArray])
    have hS₁ : (g.makeNode (.literal (zeroOfType (.bits n))) []).1.tyOf S = .bits n :=
      (tyOf_makeNode_of_lt (hS.lt_size hf hb)).trans hSty
    refine ⟨hb₁.makeNode hf (fun o ho => ?_) (by
        simp only [List.map, hS₁, tyOf_makeNode_self]
        simp [Op.verify, Op.resultType, Value.ty, zeroOfType, Bits.zero]),
      extends_makeNode (extends_makeNode .refl), fresh_makeNode_self hb₁.ext.size_le, by rw [makeNode_snd, tyOf_makeNode_self]; rfl,
      fun env sb hS' hsb => eval_makeNode_self (.cons (eval_makeNode hS') (.cons (eval_makeNode_self .nil rfl) .nil)) ?_⟩
    · simp only [List.mem_cons, List.mem_singleton, List.not_mem_nil, or_false] at ho
      rcases ho with rfl | rfl
      exacts [hS.makeNode, hb.usable_self]
    · show some (Value.bits [decide (Value.bits sb = zeroOfType (.bits n))]) = _
      rw [decide_bits_eq_zeroOfType hsb]

end IsZero

namespace MergeInv

variable {f : FunctionBase} {node s : Nat} {cases : List Nat} {ty : Ty} {isPriority : Bool} {st : MergeState}
  {i : Nat}

theorem init (hf : f.WellTyped) : MergeInv f node s cases ty isPriority ⟨f, [], [], 0, none⟩ 0 :=
  ⟨SlicesState.init hf, by simp, le_rfl, Nat.zero_le _, le_rfl, by simp,
    fun _ _ _ _ _ _ _ => ⟨[], [], ⟨[], .nil, rfl⟩, .nil, rfl, fun _ _ => rfl⟩⟩

/-- A case left as it is lengthens the pending run. -/
theorem unhandled (h : MergeInv f node s cases ty isPriority st i) (hi : i < cases.length) :
    MergeInv f node s cases ty isPriority { st with unhandledSelectorBits := st.unhandledSelectorBits + 1 } (i + 1) := by
  have hu := h.unhandled_le
  have hsub : i + 1 - (st.unhandledSelectorBits + 1) = i - st.unhandledSelectorBits := by omega
  exact ⟨h.slices, h.newCases, by dsimp only; omega, hi, by dsimp only; rw [hsub]; exact h.length_le, h.zero,
    by dsimp only; rw [hsub]; exact h.eval⟩

/-- Nodes appended to the function over nodes `node` depends on keep what
    holds. -/
theorem grow (hf : f.WellTyped) (h : MergeInv f node s cases ty isPriority st i) {g : FunctionBase}
    (hb : Builds f node g) (hg : Extends st.f (fun _ => True) g) :
    MergeInv f node s cases ty isPriority { st with f := g } i := by
  have hb₀ : Builds f node st.f := ⟨h.slices.ext, h.slices.wellTyped⟩
  have hU : ∀ {o}, Usable f node st.f o → Usable f node g o ∧ g.tyOf o = st.f.tyOf o := fun ho =>
    ⟨ho.imp (fun hx => ⟨hx.1, lt_of_lt_of_le hx.2 hg.size_le⟩) id,
      hg.tyOf_of_lt (ho.lt_size (operandsExist_of_wellTyped hf) hb₀)⟩
  refine ⟨⟨hb.ext, hb.wellTyped, fun x hx => ?_, ?_⟩, fun c hc => ?_, h.unhandled_le, h.le_length, h.length_le,
    fun z hz => ?_, fun env henv sb cvs hs hsb hcs => ?_⟩
  · obtain ⟨hx, hbits⟩ := h.slices.fresh x hx
    obtain ⟨hx', hty⟩ := hU (.inl hx)
    exact ⟨hx'.resolve_right fun hr => absurd (lt_size_of_reachPlus (operandsExist_of_wellTyped hf) hr)
      (not_lt.2 hx.1), hty ▸ hbits⟩
  · rw [← h.slices.width_eq]
    exact congrArg List.sum (List.map_congr_left fun x hx => congrArg Ty.bitCount (hU (.inl (h.slices.fresh x hx).1)).2)
  · obtain ⟨hu, ht⟩ := h.newCases c hc
    exact ⟨(hU hu).1, (hU hu).2.trans ht⟩
  · obtain ⟨hu, ht, he⟩ := h.zero z hz
    exact ⟨(hU hu).1, (hU hu).2.trans ht, fun env => hg.eval (he env)⟩
  · obtain ⟨bs, ncvs, ⟨vals, hvals, hflat⟩, hncvs, hlen, hfold⟩ := h.eval env henv sb cvs hs hsb hcs
    exact ⟨bs, ncvs, ⟨vals, hvals.imp fun _ _ => hg.eval, hflat⟩, hncvs.imp fun _ _ => hg.eval, hlen, hfold⟩

/-- New pieces `xs` over new cases `cs` that select, in front of any `k`, what
    the original cases from the end of the last run to the new one select,
    keep what holds. -/
theorem append (h : MergeInv f node s cases ty isPriority st i) (xs cs : List Nat) {i' u' : Nat} {z' : Option Nat}
    (hxs : ∀ x ∈ xs, Fresh f st.f x ∧ (st.f.tyOf x).isBits)
    (hxw : (xs.map fun x => (st.f.tyOf x).bitCount).sum = cs.length)
    (hcs : ∀ c ∈ cs, Usable f node st.f c ∧ st.f.tyOf c = ty)
    (hz : ∀ z ∈ z', Usable f node st.f z ∧ st.f.tyOf z = ty ∧ ∀ env, st.f.Eval env z (zeroOfType ty))
    (hi' : i' ≤ cases.length) (hu' : u' ≤ i') (hle : i - st.unhandledSelectorBits ≤ i' - u')
    (hlen : i' - u' ≤ st.newCases.length + cs.length)
    (hval : ∀ env : Env, env.Typed → ∀ sb cvs, f.Eval env s (.bits sb) → sb.length = cases.length →
      List.Forall₂ (f.Eval env) cases cvs → ∃ xb xcs, SlicesBits st.f env xs xb ∧ List.Forall₂ (st.f.Eval env) cs xcs ∧ xb.length = xcs.length ∧
        ∀ k : Value, k.HasType ty → caseFold (selectStep isPriority) xb xcs k =
          caseFold (selectStep isPriority)
            ((sb.drop (i - st.unhandledSelectorBits)).take (i' - u' - (i - st.unhandledSelectorBits)))
            ((cvs.drop (i - st.unhandledSelectorBits)).take (i' - u' - (i - st.unhandledSelectorBits))) k) :
    MergeInv f node s cases ty isPriority ⟨st.f, st.newCases ++ cs, st.newSelectorParts ++ xs, u', z'⟩ i' := by
  refine ⟨⟨h.slices.ext, h.slices.wellTyped, fun x hx => (List.mem_append.1 hx).elim (h.slices.fresh x) (hxs x),
    by simp [h.slices.width_eq, hxw]⟩, fun c hc => (List.mem_append.1 hc).elim (h.newCases c) (hcs c), hu', hi',
    by simpa using hlen, hz, fun env henv sb cvs hs hsb hcases => ?_⟩
  obtain ⟨bs, ncvs, ⟨vals, hvals, hflat⟩, hncvs, hlen, hfold⟩ := h.eval env henv sb cvs hs hsb hcases
  obtain ⟨xb, xcs, ⟨xvals, hxvals, hxflat⟩, hxcs, hxlen, hxfold⟩ := hval env henv sb cvs hs hsb hcases
  refine ⟨bs ++ xb, ncvs ++ xcs, ⟨vals ++ xvals, List.rel_append hvals hxvals, by simp [hflat, hxflat]⟩,
    List.rel_append hncvs hxcs, by simp [hlen, hxlen], fun k hk => ?_⟩
  have hxk : (caseFold (selectStep isPriority) xb xcs k).HasType ty :=
    caseFold_hasType (fun b _ _ hc hk => selectStep_hasType isPriority b hc hk) xb (fun c hc => by
      obtain ⟨n, hn, he⟩ := forall₂_exists_of_mem_right hxcs hc
      exact (hcs n hn).2 ▸ hasType_of_eval h.slices.wellTyped henv he) hk
  have htake : (sb.take (i - st.unhandledSelectorBits)).length = (cvs.take (i - st.unhandledSelectorBits)).length := by
    simp [hsb, hcases.length_eq]
  rw [caseFold_append _ hlen, hfold _ hxk, hxfold k hk, ← caseFold_append _ htake, ← List.take_add, ← List.take_add,
    Nat.add_sub_cancel' hle]

/-- The value of case `i`, a select of the same kind with selector `S` and
    cases `Cs`: in front of any `k`, what its cases select under the merged
    bits. -/
theorem caseFold_mergedCase (hf : f.WellTyped) {env : Env} (henv : env.Typed) {c S : Nat} {Cs : List Nat} {op : Op}
    (hc : cases[i]? = some c) (hop : op = .oneHotSel ∨ op = .prioritySel) (hpri : isPriority = (op == .prioritySel))
    (hnd : f.node c = some ⟨op, S :: Cs, ty⟩) {sb : Bits} {cvs : List Value} (hsb : sb.length = cases.length)
    (hcs : List.Forall₂ (f.Eval env) cases cvs) :
    ∃ b sb' vs', sb[i]? = some b ∧ f.Eval env S (.bits sb') ∧ List.Forall₂ (f.Eval env) Cs vs' ∧
      sb'.length = Cs.length ∧ ∀ k : Value, k.HasType ty →
        caseFold (selectStep isPriority) (mergedBits isPriority b sb') (mergedCases isPriority vs' (zeroOfType ty)) k =
        caseFold (selectStep isPriority) ((sb.drop i).take 1) ((cvs.drop i).take 1) k := by
  obtain ⟨cv, hcv, hcve⟩ := forall₂_getElem?_left hcs hc
  obtain ⟨sb', vs', hS, hvs, hsem⟩ := oneHotSel_operands hop hf hnd henv hcve
  obtain ⟨hSty, -, hCsty⟩ := verify_oneHotSel hop hf hnd
  have hsb' := length_of_eval hf hSty henv hS
  have hi : i < sb.length := hsb ▸ (List.getElem?_eq_some_iff.1 hc).1
  refine ⟨sb[i], sb', vs', List.getElem?_eq_getElem hi, hS, hvs, hsb', fun k hk => ?_⟩
  rw [sem_eq_caseFold hop, ← hpri, Option.some.injEq] at hsem
  rw [caseFold_merged isPriority (hsb'.trans hvs.length_eq) (fun v hv => ?_) hk,
    caseFold_drop_take_one _ (List.getElem?_eq_getElem hi) hcv, hsem]
  obtain ⟨o, ho, he⟩ := forall₂_exists_of_mem_right hvs hv
  exact hCsty o ho ▸ hasType_of_eval hf henv he

section Steps

variable (hf : f.WellTyped) (hs : f.ReachPlus node s) (hsw : f.tyOf s = .bits cases.length)
  (hcases : ∀ c ∈ cases, f.ReachPlus node c ∧ f.tyOf c = ty)
include hf hs hsw hcases

/-- `add_unhandled_selector_bits` ends the pending run: the `BitSlice` of the
    selector over it and its cases are appended. -/
theorem addUnhandled (h : MergeInv f node s cases ty isPriority st i) :
    MergeInv f node s cases ty isPriority (addUnhandledSelectorBits s cases st i) i := by
  unfold addUnhandledSelectorBits
  split
  · have hu := h.unhandled_le
    have hi := h.le_length
    have hb : Builds f node st.f := ⟨h.slices.ext, h.slices.wellTyped⟩
    have h₁ := h.grow hf (hb.makeNode (operandsExist_of_wellTyped hf) (List.forall_mem_singleton.2 (Or.inr hs))
      (verify_selectorSlice hf hs hsw h.slices (show i - st.unhandledSelectorBits + st.unhandledSelectorBits ≤
        cases.length by omega))) (Extends.refl.makeNode fun _ _ => .inr trivial)
    have hl := h.length_le
    refine h₁.append [st.f.size] ((cases.drop (i - st.unhandledSelectorBits)).take st.unhandledSelectorBits)
      (List.forall_mem_singleton.2 ⟨fresh_makeNode_self h.slices.ext.size_le, by simp [Op.resultType, Ty.isBits]⟩)
      (by simp [Op.resultType, Ty.bitCount]; omega) (fun c hc => ?_) h₁.zero hi (Nat.zero_le _) (by omega)
      (by simp; omega) fun env henv sb cvs hs' hsb hcs => ⟨(sb.drop (i - st.unhandledSelectorBits)).take
        st.unhandledSelectorBits, _, ⟨[.bits _], .cons (eval_makeNode_self
        (.cons (h.slices.ext.eval hs') .nil) rfl) .nil, by simp [BitsOps.slice]⟩,
        List.forall₂_take _ (List.forall₂_drop _ (hcs.imp fun _ _ => h₁.slices.ext.eval)),
        by simp [BitsOps.slice, hsb, hcs.length_eq], fun k _ => by dsimp only; rw [Nat.sub_zero, Nat.sub_sub_self hu]⟩
    have hc' := (hcases c (List.mem_of_mem_drop (List.mem_of_mem_take hc)))
    exact ⟨.inr hc'.1, (h₁.slices.ext.tyOf_of_lt (lt_size_of_reachPlus (operandsExist_of_wellTyped hf) hc'.1)).trans
      hc'.2⟩
  · rename_i hu
    obtain ⟨g, nc, np, u, z⟩ := st
    obtain rfl : u = 0 := not_not.1 hu
    exact h

/-- The first nodes a case `c` at position `i` gives, a select of the same
    kind with selector `S` and cases `Cs`: the bit `sel[i]` at `st.f.size`,
    its sign extension, and `sign_ext(sel[i]) & S` at `g₂.size`, appended over
    what `node` depends on. Where `sel[i]` is `b` and `S` is `sb'`, the masked
    selector is `sign_ext([b]) & sb'`, and the inner cases under the merged
    bits select what the case selects. -/
theorem maskedSelector (h : MergeInv f node s cases ty isPriority st i) (hi : i < cases.length) {c S : Nat}
    {Cs : List Nat} {op : Op} (hc : cases[i]? = some c) (hop : op = .oneHotSel ∨ op = .prioritySel)
    (hpri : isPriority = (op == .prioritySel)) (hnd : f.node c = some ⟨op, S :: Cs, ty⟩) :
    let g₁ := (st.f.makeNode (.bitSlice i 1) [s]).1
    let g₂ := (g₁.makeNode (.signExt Cs.length) [st.f.size]).1
    let g₃ := (g₂.makeNode .and [g₁.size, S]).1
    Builds f node g₃ ∧ Extends st.f (fun _ => True) g₃ ∧ Fresh f g₃ g₂.size ∧ g₃.tyOf g₂.size = .bits Cs.length ∧
      g₃.tyOf st.f.size = .bits 1 ∧ f.ReachPlus node S ∧ g₃.tyOf S = .bits Cs.length ∧
      (∀ o ∈ Cs, Usable f node g₃ o ∧ g₃.tyOf o = ty) ∧
      ∀ env : Env, env.Typed → ∀ sb cvs, f.Eval env s (.bits sb) → sb.length = cases.length →
        List.Forall₂ (f.Eval env) cases cvs → ∃ b sb' vs', f.Eval env S (.bits sb') ∧
          List.Forall₂ (g₃.Eval env) Cs vs' ∧ sb'.length = Cs.length ∧ g₃.Eval env st.f.size (.bits [b]) ∧
          g₃.Eval env g₂.size (.bits (BitsOps.and (BitsOps.signExtend [b] Cs.length) sb')) ∧
          ∀ k : Value, k.HasType ty → caseFold (selectStep isPriority) (mergedBits isPriority b sb')
            (mergedCases isPriority vs' (zeroOfType ty)) k =
            caseFold (selectStep isPriority) ((sb.drop i).take 1) ((cvs.drop i).take 1) k := by
  intro g₁ g₂ g₃
  obtain ⟨hSty, hCs, hCsty⟩ := verify_oneHotSel hop hf hnd
  have hn : 1 ≤ Cs.length := List.length_pos.2 hCs
  have hoe := operandsExist_of_wellTyped hf
  have hcR := (hcases c (List.getElem?_mem hc)).1
  have hSR : f.ReachPlus node S := hcR.trans_reach (.step hnd (.head _) (.refl _))
  have hb₀ : Builds f node st.f := ⟨h.slices.ext, h.slices.wellTyped⟩
  have hl := h.length_le
  have hb₁ : Builds f node g₁ := hb₀.makeNode hoe (List.forall_mem_singleton.2 (Or.inr hs))
    (verify_selectorSlice hf hs hsw h.slices (show i + 1 ≤ cases.length by omega))
  have hb₂ : Builds f node g₂ := hb₁.makeNode hoe (List.forall_mem_singleton.2 hb₀.usable_self)
    (by simp [g₁, Op.verify, Op.resultType]; omega)
  have hSty₂ : g₂.tyOf S = .bits Cs.length := (hb₂.ext.tyOf_of_lt (lt_size_of_reachPlus hoe hSR)).trans hSty
  have hmask : g₂.tyOf g₁.size = .bits Cs.length := by simp [g₂, Op.resultType]
  have hb₃ : Builds f node g₃ := hb₂.makeNode hoe
    (fun o ho => by
      simp only [List.mem_cons, List.mem_singleton, List.not_mem_nil, or_false] at ho
      rcases ho with rfl | rfl
      exacts [hb₁.usable_self, .inr hSR])
    (by simp [hmask, hSty₂, Op.verify, Op.resultType, Ty.isBits])
  have e₀₃ : Extends st.f (fun _ => True) g₃ := extends_makeNode (extends_makeNode (extends_makeNode .refl))
  have e₁₃ : Extends g₁ (fun _ => True) g₃ := extends_makeNode (extends_makeNode .refl)
  refine ⟨hb₃, e₀₃, fresh_makeNode_self hb₂.ext.size_le, by simp [g₃, Op.resultType, hmask],
    (e₁₃.tyOf_of_lt (by simp [g₁])).trans (by simp [g₁, Op.resultType]), hSR,
    (hb₃.ext.tyOf_of_lt (lt_size_of_reachPlus hoe hSR)).trans hSty, fun o ho => ?_,
    fun env henv sb cvs hs' hsb hcs => ?_⟩
  · have hoR : f.ReachPlus node o := hcR.trans_reach (.step hnd (.tail _ ho) (.refl _))
    exact ⟨.inr hoR, (hb₃.ext.tyOf_of_lt (lt_size_of_reachPlus hoe hoR)).trans (hCsty o ho)⟩
  obtain ⟨b, sb', vs', hb, hS', hvs, hsb', hfold⟩ := caseFold_mergedCase hf henv hc hop hpri hnd hsb hcs
  obtain ⟨hlt, rfl⟩ := List.getElem?_eq_some_iff.1 hb
  have e₁ : g₁.Eval env st.f.size (.bits [sb[i]]) := eval_makeNode_self (.cons (h.slices.ext.eval hs') .nil)
    (by show some (Value.bits (BitsOps.slice sb i 1)) = _; rw [BitsOps.slice_one hlt])
  exact ⟨_, sb', vs', hS', hvs.imp fun _ _ => hb₃.ext.eval, hsb', e₁₃.eval e₁,
    eval_makeNode_self (.cons (eval_makeNode_self (.cons e₁ .nil) rfl) (.cons (hb₂.ext.eval hS') .nil)) rfl, hfold⟩

/-- A case that is a one-hot select, with selector `S` and cases `Cs`, gives
    the cases `Cs` under `S` masked by the case's bit. -/
theorem mergeOneHot (h : MergeInv f node s cases ty false st i) (hu : st.unhandledSelectorBits = 0)
    (hi : i < cases.length) {c S : Nat} {Cs : List Nat} (hc : cases[i]? = some c)
    (hnd : f.node c = some ⟨.oneHotSel, S :: Cs, ty⟩) :
    MergeInv f node s cases ty false (mergeOperandSelect false s st i c S Cs) (i + 1) := by
  obtain ⟨hb₃, e₀₃, hfresh, hmasked, -, -, -, hCs, hval⟩ :=
    h.maskedSelector hf hs hsw hcases hi hc (.inl rfl) rfl hnd
  have hn : 1 ≤ Cs.length := List.length_pos.2 (verify_oneHotSel (.inl rfl) hf hnd).2.1
  have hl := h.length_le
  simp only [mergeOperandSelect, makeNode_snd]
  rw [if_neg Bool.false_ne_true]
  have h₃ := h.grow hf hb₃ e₀₃
  refine h₃.append [_] Cs (List.forall_mem_singleton.2 ⟨hfresh, by rw [hmasked]; rfl⟩)
    (by rw [List.map_singleton, hmasked, List.sum_singleton]; rfl) hCs h₃.zero hi (by omega) (by dsimp only; omega) (by dsimp only; omega)
    fun env henv sb cvs hs' hsb hcs => ?_
  obtain ⟨b, sb', vs', -, hvs, hsb', -, e₃, hfold⟩ := hval env henv sb cvs hs' hsb hcs
  refine ⟨mergedBits false b sb', mergedCases false vs' (zeroOfType ty), ⟨[_], .cons e₃ .nil, by
    simp [mergedBits, hsb']⟩, by simpa [mergedCases] using hvs, length_mergedBits false b (hsb'.trans hvs.length_eq) _,
    fun k hk => ?_⟩
  dsimp only
  rw [hu, Nat.sub_zero, Nat.sub_zero, Nat.add_sub_cancel_left, hfold k hk]

/-- A case that is a priority select, with selector `S` and cases `Cs`, gives
    the cases `Cs` under `S` masked by the case's bit, and the zero case under
    the bit and `S` being zero (the one made for an earlier case, or a new
    zero literal). -/
theorem mergePriority (h : MergeInv f node s cases ty true st i) (hu : st.unhandledSelectorBits = 0)
    (hi : i < cases.length) {c S : Nat} {Cs : List Nat} (hc : cases[i]? = some c)
    (hnd : f.node c = some ⟨.prioritySel, S :: Cs, ty⟩) :
    MergeInv f node s cases ty true (mergeOperandSelect true s st i c S Cs) (i + 1) := by
  obtain ⟨hb₃, e₀₃, hfresh, hmasked, hbit₃, hSR, hSty₃, hCs, hval⟩ :=
    h.maskedSelector hf hs hsw hcases hi hc (.inr rfl) rfl hnd
  have hoe := operandsExist_of_wellTyped hf
  have hl := h.length_le
  simp only [mergeOperandSelect, makeNode_snd, if_true]
  set g₁ := (st.f.makeNode (.bitSlice i 1) [s]).1 with hg₁
  set g₂ := (g₁.makeNode (.signExt Cs.length) [st.f.size]).1 with hg₂
  set g₃ := (g₂.makeNode .and [g₁.size, S]).1 with hg₃
  obtain ⟨hb₄, e₃₄, hzF, hzty, hzval⟩ := operandSelectorIsZero_spec hoe hb₃ (.inr hSR) hSty₃
  -- `sel[i] & (operandSelector == 0)`
  set g₄ := (operandSelectorIsZero g₃ S).1 with hg₄
  set g₅ := (g₄.makeNode .and [st.f.size, (operandSelectorIsZero g₃ S).2]).1 with hg₅
  have hlt₃ : st.f.size < g₃.size := by simp [g₁, g₂, g₃]; omega
  have hbit : g₄.tyOf st.f.size = .bits 1 := (e₃₄.tyOf_of_lt hlt₃).trans hbit₃
  have hb₅ : Builds f node g₅ := hb₄.makeNode hoe
    (fun o ho => by
      simp only [List.mem_cons, List.mem_singleton, List.not_mem_nil, or_false] at ho
      rcases ho with rfl | rfl
      exacts [.inl ⟨h.slices.ext.size_le, lt_of_lt_of_le hlt₃ e₃₄.size_le⟩, .inl hzF])
    (by simp [hbit, hzty, Op.verify, Op.resultType, Ty.isBits])
  have hbz : g₅.tyOf g₄.size = .bits 1 := by simp [g₅, Op.resultType, hbit]
  have e₀₅ : Extends st.f (fun _ => True) g₅ := extends_makeNode (e₀₃.trans e₃₄)
  -- the zero case, made once
  suffices key : ∀ g₆ z, Builds f node g₆ → Extends g₅ (fun _ => True) g₆ → Usable f node g₆ z → g₆.tyOf z = ty →
      (∀ env, g₆.Eval env z (zeroOfType ty)) →
      MergeInv f node s cases ty true ⟨g₆, st.newCases ++ Cs ++ [z], st.newSelectorParts ++ [g₂.size] ++ [g₄.size],
        st.unhandledSelectorBits, some z⟩ (i + 1) by
    cases hz : st.zero with
    | some z =>
      obtain ⟨hzu, hzt, hze⟩ := (h.grow hf hb₅ e₀₅).zero z hz
      exact key g₅ z hb₅ .refl hzu hzt hze
    | none =>
      have hc₅ : g₅.tyOf c = ty := (hb₅.ext.tyOf_of_lt (lt_size_of_node hnd)).trans (hcases c (List.getElem?_mem hc)).2
      have hne : ty.noEmptyArray := (hcases c (List.getElem?_mem hc)).2 ▸ noEmptyArray_tyOf hf c
      exact key _ _ (hb₅.makeNode hoe (by simp)
          (by simp [hc₅, Op.verify, Op.resultType, ty_zeroOfType hne, zeroOfType_hasType, hne]))
        (extends_makeNode .refl) hb₅.usable_self (by simp [hc₅, Op.resultType, ty_zeroOfType hne])
        fun env => by rw [← hc₅]; exact eval_makeNode_self .nil rfl
  intro g₆ z hb₆ e₅₆ hzU hzt hze
  rw [List.append_assoc, List.append_assoc]
  have h₆ := h.grow hf hb₆ (e₀₅.trans e₅₆)
  have e₃₆ : Extends g₃ (fun _ => True) g₆ := (extends_makeNode e₃₄).trans e₅₆
  have hty₂ : g₆.tyOf g₂.size = .bits Cs.length := (e₃₆.tyOf_of_lt (by simp [g₃])).trans hmasked
  have hty₄ : g₆.tyOf g₄.size = .bits 1 := (e₅₆.tyOf_of_lt (by simp [g₅])).trans hbz
  refine h₆.append [g₂.size, g₄.size] (Cs ++ [z]) (fun x hx => ?_) (by simp [hty₂, hty₄, Ty.bitCount])
    (fun o ho => ?_) (fun z' hz' => ?_) hi (by omega) (by dsimp only; omega) (by simp; omega)
    fun env henv sb cvs hs' hsb hcs => ?_
  · simp only [List.mem_cons, List.mem_singleton, List.not_mem_nil, or_false] at hx
    rcases hx with rfl | rfl
    · exact ⟨⟨hfresh.1, lt_of_lt_of_le hfresh.2 e₃₆.size_le⟩, by simp [hty₂, Ty.isBits]⟩
    · exact ⟨⟨hb₄.ext.size_le, lt_of_lt_of_le (by simp [g₅]) e₅₆.size_le⟩, by simp [hty₄, Ty.isBits]⟩
  · rcases List.mem_append.1 ho with ho | ho
    · exact ⟨(hCs o ho).1.imp (fun hx => ⟨hx.1, lt_of_lt_of_le hx.2 (e₃₆.size_le)⟩) id,
        (e₃₆.tyOf_of_lt ((hCs o ho).1.lt_size hoe hb₃)).trans (hCs o ho).2⟩
    · obtain rfl := List.mem_singleton.1 ho
      exact ⟨hzU, hzt⟩
  · obtain rfl := Option.some.inj (Option.mem_def.1 hz')
    exact ⟨hzU, hzt, hze⟩
  · obtain ⟨b, sb', vs', hS', hvs, hsb', e₁, e₃, hfold⟩ := hval env henv sb cvs hs' hsb hcs
    have e₅ : g₅.Eval env g₄.size (.bits [b && !sb'.any id]) :=
      eval_makeNode_self (.cons (e₃₄.eval e₁) (.cons (hzval env sb' (hb₃.ext.eval hS') hsb') .nil)) rfl
    refine ⟨mergedBits true b sb', mergedCases true vs' (zeroOfType ty),
      ⟨[_, _], .cons (e₃₆.eval e₃) (.cons (e₅₆.eval e₅) .nil), by simp [mergedBits, hsb']⟩,
      by simpa [mergedCases] using List.rel_append (hvs.imp fun _ _ => e₃₆.eval) (.cons (hze env) .nil),
      length_mergedBits true b (hsb'.trans hvs.length_eq) _, fun k hk => ?_⟩
    dsimp only
    rw [hu, Nat.sub_zero, Nat.sub_zero, Nat.add_sub_cancel_left, hfold k hk]

/-- A case that is a select of the same kind, with selector `S` and cases
    `Cs`, gives the cases `Cs` under `S` masked by the case's bit and, for a
    priority select, the zero case under the bit and `S` being zero. -/
theorem merge (h : MergeInv f node s cases ty isPriority st i) (hu : st.unhandledSelectorBits = 0)
    (hi : i < cases.length) {c S : Nat} {Cs : List Nat} {op : Op} (hc : cases[i]? = some c)
    (hop : op = .oneHotSel ∨ op = .prioritySel) (hpri : isPriority = (op == .prioritySel))
    (hnd : f.node c = some ⟨op, S :: Cs, ty⟩) :
    MergeInv f node s cases ty isPriority (mergeOperandSelect isPriority s st i c S Cs) (i + 1) := by
  rcases hop with rfl | rfl <;> subst hpri
  · exact h.mergeOneHot hf hs hsw hcases hu hi hc hnd
  · exact h.mergePriority hf hs hsw hcases hu hi hc hnd

end Steps

end MergeInv

/-! ## The rule -/

section Rule

variable {f f' : FunctionBase} {node s : Nat} {cases : List Nat} {ty : Ty}

/-- From any step, the loop keeps what holds to the end of the cases, merging
    the cases `isSingleUserMatchingSelect` picks among the selects of the
    select's kind. -/
theorem mergeLoop_spec (hf : f.WellTyped) (hs : f.ReachPlus node s) (hsw : f.tyOf s = .bits cases.length)
    (hcases : ∀ c ∈ cases, f.ReachPlus node c ∧ f.tyOf c = ty) {op : Op} (hop : op = .oneHotSel ∨ op = .prioritySel)
    {M : Nat → Bool} (hM : ∀ c, M c = true → (f.node c).any (·.op == op) = true) :
    ∀ (rest : List Nat) (st : MergeState) (i : Nat), MergeInv f node s cases ty (op == .prioritySel) st i →
      cases.drop i = rest →
      MergeInv f node s cases ty (op == .prioritySel) (mergeLoop (op == .prioritySel) M s cases st i rest)
        cases.length
  | [], st, i, h, hrest => by
    obtain rfl : i = cases.length := le_antisymm h.le_length (List.drop_eq_nil_iff.1 hrest)
    exact h
  | c :: rest, st, i, h, hrest => by
    have hc : cases[i]? = some c := by rw [← List.head?_drop, hrest]; rfl
    have hi : i < cases.length := (List.getElem?_eq_some_iff.1 hc).1
    have hrest' : cases.drop (i + 1) = rest := by
      rw [List.drop_eq_getElem_cons hi, List.getElem?_eq_getElem hi, Option.some.injEq] at *
      exact (List.cons.inj hrest).2
    unfold mergeLoop
    split
    · rename_i hm
      have hany := hM c hm
      cases hnd : f.node c with
      | none => simp [hnd] at hany
      | some nd =>
        obtain ⟨op', ops, tyc⟩ := nd
        obtain rfl : op' = op := by simpa [hnd] using hany
        have htyc : tyc = ty := (tyOf_of_node hnd).symm.trans (hcases c (List.getElem?_mem hc)).2
        rw [htyc] at hnd
        cases ops with
        | nil =>
          have hv := (verifyNode_iff.1 (verifyNode_of_wellTyped hf hnd)).2.1
          rcases hop with rfl | rfl <;> simp [Op.verify] at hv
        | cons S Cs =>
          rw [h.slices.ext.node_of_lt (lt_size_of_node hnd), hnd]
          exact mergeLoop_spec hf hs hsw hcases hop hM rest _ (i + 1)
            (MergeInv.merge hf hs hsw hcases (MergeInv.addUnhandled hf hs hsw hcases h)
              (addUnhandledSelectorBits_unhandledSelectorBits _ _ _ _) hi hc hop rfl hnd) hrest'
    · exact mergeLoop_spec hf hs hsw hcases hop hM rest _ (i + 1) (h.unhandled hi) hrest'


/-- At the end of the cases, the select over the new cases, selected by the
    `Concat` of the pieces, computes the select's value: replacing the select
    by it is a rewrite. -/
theorem MergeInv.rewrites {st : MergeState} {op : Op} (hf : f.WellTyped) (hop : op = .oneHotSel ∨ op = .prioritySel)
    (hnd : f.node node = some ⟨op, s :: cases, ty⟩)
    (h : MergeInv f node s cases ty (op == .prioritySel) st cases.length) (hu : st.unhandledSelectorBits = 0) :
    ∃ f', (st.f.makeNode .concat st.newSelectorParts.reverse).1.replaceUsesWithNew node op
      (st.f.size :: st.newCases) = .ok f' ∧ Rewrites f node f' ∧ f'.WellTyped := by
  obtain ⟨hsw, hne, -⟩ := verify_oneHotSel hop hf hnd
  have hoe := operandsExist_of_wellTyped hf
  have hb₀ : Builds f node st.f := ⟨h.slices.ext, h.slices.wellTyped⟩
  obtain ⟨hb, hsel, hselty, hselval⟩ := h.slices.concat hf
  set g := (st.f.makeNode .concat st.newSelectorParts.reverse).1
  have hgcs : ∀ c ∈ st.newCases, Usable f node g c ∧ g.tyOf c = ty := fun c hc =>
    ⟨(h.newCases c hc).1.makeNode, (tyOf_makeNode_of_lt ((h.newCases c hc).1.lt_size hoe hb₀)).trans (h.newCases c hc).2⟩
  have hlen := h.length_le
  rw [hu, Nat.sub_zero] at hlen
  obtain ⟨c₀, cs, hcs₀⟩ : ∃ c₀ cs, st.newCases = c₀ :: cs := List.exists_cons_of_ne_nil fun hn =>
    hne (List.eq_nil_of_length_eq_zero (by rw [hn] at hlen; simpa using hlen))
  rw [hcs₀] at hgcs hselty ⊢
  have hty : op.resultType ((st.f.size :: c₀ :: cs).map g.tyOf) = ty := by
    rcases hop with rfl | rfl <;> exact (hgcs c₀ (.head _)).2
  refine hb.rewrites op (st.f.size :: c₀ :: cs) hoe (lt_size_of_node hnd)
    (by rintro o (_ | ⟨_, ho⟩); exacts [hsel, (hgcs o ho).1])
    (by
      rw [hty]
      have hall : ∀ c ∈ c₀ :: cs, (g.tyOf c == ty) = true := fun c hc => beq_iff_eq.2 (hgcs c hc).2
      rcases hop with rfl | rfl <;> simp_all [Op.verify, List.all_eq_true])
    (by rw [hty, tyOf_of_node hnd]) fun env henv v hv => ?_
  obtain ⟨sb, cvs, hs', hcs, hsv⟩ := oneHotSel_operands hop hf hnd henv hv
  have hsb := length_of_eval hf hsw henv hs'
  obtain ⟨bs, ncvs, hbs, hncvs, -, hfold⟩ := h.eval env henv sb cvs hs' hsb hcs
  refine ⟨.bits bs :: ncvs, .cons (hselval env bs hbs) (hcs₀ ▸ hncvs.imp fun _ _ => eval_makeNode), ?_⟩
  rw [hty, sem_eq_caseFold hop, hfold _ (zeroOfType_hasType ty), hu, Nat.sub_zero, List.take_of_length_le hsb.le,
    List.take_of_length_le (hcs.length_eq ▸ le_rfl), ← sem_eq_caseFold hop]
  exact hsv

/-- The merging rule is a rewrite of the select that keeps the function well
    typed, whatever `hasSingleUse` answers. -/
theorem mergeConsecutiveSelects_rewrites (hf : f.WellTyped) {hasSingleUse : Nat → Bool} {narrowingEnabled : Bool}
    (h : mergeConsecutiveSelects f hasSingleUse narrowingEnabled node = .ok (some f')) :
    Rewrites f node f' ∧ f'.WellTyped := by
  unfold mergeConsecutiveSelects at h
  split at h
  · rename_i op s cases ty hnd
    split at h
    · rename_i hg
      have hop : op = .oneHotSel ∨ op = .prioritySel := by
        simp only [Bool.and_eq_true, Bool.or_eq_true, beq_iff_eq] at hg
        exact hg.2
      dsimp only at h
      split at h
      · obtain ⟨hsw, -, hcty⟩ := verify_oneHotSel hop hf hnd
        have hs : f.ReachPlus node s := ReachPlus.of_mem hnd (.head _)
        have hcases : ∀ c ∈ cases, f.ReachPlus node c ∧ f.tyOf c = ty := fun c hc =>
          ⟨ReachPlus.of_mem hnd (.tail _ hc), hcty c hc⟩
        generalize hst : addUnhandledSelectorBits s cases _ cases.length = st at h
        have hinv : MergeInv f node s cases ty (op == .prioritySel) st cases.length :=
          hst ▸ MergeInv.addUnhandled hf hs hsw hcases (mergeLoop_spec hf hs hsw hcases hop
            (fun c hc => (Bool.and_eq_true_iff.1 hc).1) cases _ 0 (MergeInv.init hf) rfl)
        obtain ⟨f'', h'', hr⟩ := hinv.rewrites hf hop hnd (hst ▸ addUnhandledSelectorBits_unhandledSelectorBits _ _ _ _)
        simp only [makeNode_snd] at h
        cases (map_some_eq_ok.1 h).symm.trans h''
        exact hr
      · cases h
    · cases h
  · cases h

end Rule

end SelectSimplification

end Xls
