import Xls.SelectSimplification.Basic

/-!
# Selects with one arm that may be non-zero

`MaybeConvertSelectToMask`: a `Select`, `OneHotSelect` or `PrioritySelect`
whose arms are all known to be zero but one is that arm's value masked by the
condition under which the select takes it: `value AND sign_ext(condition)` on
bits, `select(condition, [0], default=value)` on other types. With no such arm
it is a zero literal.

* `scanArms_spec`: what the loop over the arms finds;
* `replaceWithMask_rewrites`: the mask is a rewrite when its condition is set
  exactly where the select takes the arm and the select is zero elsewhere
  (`MaskedBy`);
* `maybeConvertSelectToMask_rewrites`: every rewrite of the rule keeps the
  node's value, under every typed environment;
* `maybeConvertSelectToMask_outcome`: what the rule leaves whenever it fires
  (`MaskOutcome`), from which
* `rewrites_of_maybeConvertSelectToMask`: it keeps the function well typed,
  where the engine knows every node of no bits to be all zeros (the condition
  is one bit, `OneBitCondition`; the mask as wide as the select);
* `maybeConvertSelectToMask_of_allZeros`: a one-hot select whose cases are all
  known zero is replaced by a zero literal.
-/

namespace Xls

namespace SelectSimplification

open FunctionBase

variable (q : QueryEngine)

/-- The loop of `MaybeConvertSelectToMask` over the arms from index `arm`, with
    `found` the arm not known to be all zeros so far: `none` on a second one
    (the rule does not apply), else the only one and its value. -/
def scanArms (arm : Nat) : List Nat → Option (Int × Nat) → Option (Option (Int × Nat))
  | [], found => some found
  | c :: cs, found =>
    if q.isAllZeros c then scanArms (arm + 1) cs found
    else if found.isSome then none
    else scanArms (arm + 1) cs (some (arm, c))

/-- The condition under which a `Select` over `numCases` cases takes arm `arm`
    (`-1`: the default). -/
def selectArmCondition (f : FunctionBase) (selector numCases : Nat) (arm : Int) :
    Except String (FunctionBase × Nat) :=
  let w := (f.tyOf selector).bitCount
  if arm = -1 then
    let (f, numCasesLiteral) := f.makeNode (.literal (.bits (uBits numCases w))) []
    pure (f.makeNode .uGe [selector, numCasesLiteral])
  else if w = 1 then
    if arm = 0 then pure (f.makeNode .not [selector])
    else if arm = 1 then pure (f, selector)
    else .error "RET_CHECK failure: *nonzero_arm == 1"
  else
    let (f, armNumber) := f.makeNode (.literal (.bits (uBits arm.toNat w))) []
    pure (f.makeNode .eq [selector, armNumber])

/-- The condition under which a `OneHotSelect` takes arm `arm`: its selector
    bit. -/
def oneHotSelectArmCondition (f : FunctionBase) (selector : Nat) (arm : Int) :
    Except String (FunctionBase × Nat) :=
  if (f.tyOf selector).bitCount = 1 then
    if arm = 0 then pure (f, selector) else .error "RET_CHECK failure: *nonzero_arm == 0"
  else pure (f.makeNode (.bitSlice arm.toNat 1) [selector])

/-- The condition under which a `PrioritySelect` takes arm `arm`: the selector
    bits up to `arm` are `PowerOfTwo(arm, arm + 1)`. -/
def prioritySelectArmCondition (f : FunctionBase) (selector : Nat) (arm : Int) : FunctionBase × Nat :=
  let (f, truncatedSelector) :=
    if (f.tyOf selector).bitCount = 1 then (f, selector)
    else f.makeNode (.bitSlice 0 (arm.toNat + 1)) [selector]
  if arm = 0 then (f, truncatedSelector)
  else
    let (f, matchingValue) := f.makeNode (.literal (.bits (powerOfTwo arm.toNat (arm.toNat + 1)))) []
    f.makeNode .eq [truncatedSelector, matchingValue]

/-- The mask: the condition sign-extended to the node's width. -/
def makeMask (f : FunctionBase) (condition bitCount : Nat) : FunctionBase × Nat :=
  if bitCount = 1 then (f, condition) else f.makeNode (.signExt bitCount) [condition]

/-- The end of `MaybeConvertSelectToMask`: the uses of `node`, of type `ty`, go
    to `value` masked by `condition`. -/
def replaceWithMask (f : FunctionBase) (node condition value : Nat) (ty : Ty) : Except String FunctionBase :=
  if ty.isBits then
    let (f, mask) := makeMask f condition ty.bitCount
    f.replaceUsesWithNew node .and [value, mask]
  else
    let (f, literalZero) := f.makeNode (.literal (zeroOfType ty)) []
    f.replaceUsesWithNew node (.select true) [condition, literalZero, value]

/-- After the loop over the arms: a zero literal when no arm may be non-zero,
    the masked arm when one may. -/
def convertArms (f : FunctionBase) (node : Nat) (ty : Ty) (scan : Option (Option (Int × Nat)))
    (condition : FunctionBase → Int → Except String (FunctionBase × Nat)) : Except String (Bool × FunctionBase) :=
  match scan with
  | none => pure (false, f)
  | some none => (true, ·) <$> f.replaceUsesWithNew node (.literal (zeroOfType ty)) []
  | some (some (arm, value)) => do
    let (g, cond) ← condition f arm
    (true, ·) <$> replaceWithMask g node cond value ty

/-- `MaybeConvertSelectToMask`: whether `node` was rewritten, and the function
    after. -/
def maybeConvertSelectToMask (f : FunctionBase) (node : Nat) : Except String (Bool × FunctionBase) :=
  match f.node node with
  | none => pure (false, f)
  | some nd =>
    if !(nd.op matches .select _ | .oneHotSel | .prioritySel) then pure (false, f)
    else if !nd.ty.isBits && nd.operands.length ≤ 3 then pure (false, f)
    else match nd.op, nd.operands with
      | .select d, s :: rest =>
        let found := (selectDefault d rest).bind fun dv => if q.isAllZeros dv then none else some (-1, dv)
        convertArms f node nd.ty (scanArms q 0 (selectCases d rest) found)
          (selectArmCondition · s (selectCases d rest).length)
      | .oneHotSel, s :: cases =>
        convertArms f node nd.ty (scanArms q 0 cases none) (oneHotSelectArmCondition · s)
      | .prioritySel, s :: cases =>
        convertArms f node nd.ty (scanArms q 0 cases none) (fun f arm => pure (prioritySelectArmCondition f s arm))
      | _, _ => pure (false, f)

/-! ## The loop over the arms -/

variable {q}

/-- The loop ends with the arm it was given, every later arm all zeros, or it
    was given none and finds exactly one arm not known to be all zeros. -/
theorem scanArms_spec : ∀ {arm : Nat} {cs : List Nat} {found res : Option (Int × Nat)},
    scanArms q arm cs found = some res →
    (res = found ∧ ∀ c ∈ cs, q.isAllZeros c) ∨
    (found = none ∧ ∃ i c, res = some (((arm + i : Nat) : Int), c) ∧ cs[i]? = some c ∧
      ∀ j c', j ≠ i → cs[j]? = some c' → q.isAllZeros c')
  | _, [], _, _, h => .inl ⟨(Option.some.inj h).symm, by simp⟩
  | arm, c :: cs, found, res, h => by
    unfold scanArms at h
    split at h
    · rename_i hz
      rcases scanArms_spec h with ⟨rfl, hall⟩ | ⟨rfl, i, c', rfl, hi, hj⟩
      · exact .inl ⟨rfl, List.forall_mem_cons.2 ⟨hz, hall⟩⟩
      · refine .inr ⟨rfl, i + 1, c', by simp; omega, by simpa using hi, fun j c'' hne hc => ?_⟩
        cases j with
        | zero => rw [List.getElem?_cons_zero, Option.some.injEq] at hc; exact hc ▸ hz
        | succ j => exact hj j c'' (by omega) (by simpa using hc)
    · split at h
      · cases h
      · rcases scanArms_spec h with ⟨rfl, hall⟩ | ⟨hnone, -⟩
        · refine .inr ⟨by simpa using ‹¬found.isSome = true›, 0, c, by simp, by simp, fun j c' hne hc => ?_⟩
          cases j with
          | zero => exact absurd rfl hne
          | succ j => exact hall c' (List.getElem?_mem (by simpa using hc))
        · cases hnone

/-- With every arm known to be all zeros the loop keeps the arm it was given. -/
theorem scanArms_of_allZeros : ∀ {arm : Nat} {cs : List Nat} {found : Option (Int × Nat)},
    (∀ c ∈ cs, q.isAllZeros c) → scanArms q arm cs found = some found
  | _, [], _, _ => rfl
  | _, c :: cs, _, h => by
    rw [scanArms, if_pos (h c (.head _))]
    exact scanArms_of_allZeros fun c' hc' => h c' (.tail _ hc')

/-! ## The mask -/

/-- `cond`, a node of `g`, is the bit `p sb` of the bits `sb` of the selector
    `s`. -/
structure Condition (f : FunctionBase) (node s : Nat) (p : Bits → Bool) (g : FunctionBase) (cond : Nat) :
    Prop where
  ext : Extends f (f.ReachPlus node) g
  mem : Fresh f g cond ∨ f.ReachPlus node cond
  eval : ∀ env : Env, env.Typed → ∀ sb, f.Eval env s (.bits sb) → g.Eval env cond (.bits [p sb])

/-- Under every typed environment `node` is the value of `value` where `p`
    holds of the bits of its selector `s`, and zero elsewhere. -/
def MaskedBy (f : FunctionBase) (node s value : Nat) (p : Bits → Bool) : Prop :=
  ∀ env : Env, env.Typed → ∀ v, f.Eval env node v →
    ∃ sb w, f.Eval env s (.bits sb) ∧ f.Eval env value w ∧ v = if p sb then w else zeroOfType (f.tyOf node)

variable {f g g₁ f' : FunctionBase} {node s cond value mask : Nat} {p : Bits → Bool}

theorem makeMask_spec {w : Nat} (hc : Condition f node s p g cond) (h : makeMask g cond w = (g₁, mask)) :
    Extends f (f.ReachPlus node) g₁ ∧ (Fresh f g₁ mask ∨ f.ReachPlus node mask) ∧
      ∀ env : Env, env.Typed → ∀ sb, f.Eval env s (.bits sb) →
        g₁.Eval env mask (.bits (BitsOps.signExtend [p sb] w)) := by
  unfold makeMask at h
  split at h <;> cases h
  · subst w
    exact ⟨hc.ext, hc.mem, fun env henv sb hs => by simpa [BitsOps.signExtend] using hc.eval env henv sb hs⟩
  · refine ⟨hc.ext.makeNode (by simpa using hc.mem), .inl ⟨hc.ext.size_le, by simp⟩, fun env henv sb hs => ?_⟩
    exact eval_makeNode_self (.cons (hc.eval env henv sb hs) .nil) rfl

/-- The mask is a rewrite: where the condition is set the select is the arm's
    value, which the mask keeps; elsewhere both are zero. -/
theorem replaceWithMask_rewrites (hf : f.WellTyped) (hn : node < f.size) (hc : Condition f node s p g cond)
    (hm : MaskedBy f node s value p) (hv : f.ReachPlus node value) (hty : f.tyOf value = f.tyOf node)
    (h : replaceWithMask g node cond value (f.tyOf node) = .ok f') : Rewrites f node f' := by
  unfold replaceWithMask at h
  split at h
  · rename_i hbits
    generalize hw : (f.tyOf node).bitCount = w at h
    generalize hgm : makeMask g cond w = gm at h
    obtain ⟨g₁, mask⟩ := gm
    obtain ⟨hext, hmem, hmask⟩ := makeMask_spec hc hgm
    refine rewrites_of_replaceUsesWithNew hn hext (by simp only [List.forall_mem_cons]; exact ⟨.inr hv, hmem, by simp⟩)
      (fun env henv v hv' => ?_) h
    obtain ⟨sb, x, hs, hx, rfl⟩ := hm env henv v hv'
    have htx := hasType_of_eval hf henv hx
    rw [hty, Ty.isBits_iff.1 hbits, hw] at htx
    obtain ⟨xb, rfl, rfl⟩ := Value.hasType_bits_iff.1 htx
    refine ⟨_, .cons (hext.eval hx) (.cons (hmask env henv sb hs) .nil), ?_⟩
    rw [Ty.isBits_iff.1 hbits, hw]
    show some (Value.bits (BitsOps.and xb (BitsOps.signExtend [p sb] xb.length))) = _
    rw [BitsOps.and_signExtend_single]
    cases p sb <;> rfl
  · refine rewrites_of_replaceUsesWithNew hn (hc.ext.makeNode (by simp))
      (by simp only [List.forall_mem_cons]
          exact ⟨hc.mem.imp_left Fresh.makeNode, .inl (fresh_makeNode_self hc.ext.size_le), .inr hv, by simp⟩)
      (fun env henv v hv' => ?_) h
    obtain ⟨sb, x, hs, hx, rfl⟩ := hm env henv v hv'
    refine ⟨_, .cons (eval_makeNode (hc.eval env henv sb hs))
      (.cons (eval_makeNode_self .nil rfl) (.cons (eval_makeNode (hc.ext.eval hx)) .nil)), ?_⟩
    cases p sb <;> simp [Op.sem_select, selectCases, selectDefault, selectValue]

/-! ## The conditions -/

theorem selectArmCondition_default {n w : Nat} (hsw : f.tyOf s = .bits w) (hn : n < 2 ^ w)
    (hs : f.ReachPlus node s) (h : selectArmCondition f s n (-1) = .ok (g, cond)) :
    Condition f node s (fun sb => decide (n ≤ sb.toNat)) g cond := by
  simp only [selectArmCondition, hsw, Ty.bitCount_bits, makeNode, ite_true, pure, Except.pure,
    Except.ok.injEq, Prod.mk.injEq] at h
  obtain ⟨rfl, rfl⟩ := h
  refine ⟨(Extends.refl.push (by simp)).push (by simp [hs]), .inl ⟨by simp, by simp⟩, fun env _ sb hs' => ?_⟩
  exact eval_push_self (.cons (eval_push _ hs') (.cons (eval_push_self .nil rfl) .nil))
    (by simp [Op.sem, toNat_uBits, Nat.mod_eq_of_lt hn])

theorem selectArmCondition_arm (hf : f.WellTyped) {n w i : Nat} (hsw : f.tyOf s = .bits w) (hi : i < 2 ^ w)
    (hs : f.ReachPlus node s) (h : selectArmCondition f s n i = .ok (g, cond)) :
    Condition f node s (fun sb => decide (sb.toNat = i)) g cond := by
  have h1 : (i : Int) ≠ -1 := by omega
  simp only [selectArmCondition, hsw, Ty.bitCount_bits, h1, ite_false] at h
  by_cases hw : w = 1
  · subst hw
    obtain rfl | rfl : i = 0 ∨ i = 1 := by omega
    · simp only [ite_true, Nat.cast_zero, makeNode, pure, Except.pure, Except.ok.injEq, Prod.mk.injEq] at h
      obtain ⟨rfl, rfl⟩ := h
      refine ⟨Extends.refl.push (by simp [hs]), .inl ⟨le_rfl, by simp⟩, fun env henv sb hs' => ?_⟩
      obtain ⟨b, rfl⟩ := List.length_eq_one.1 (length_of_eval hf hsw henv hs')
      exact eval_push_self (.cons hs' .nil) (by cases b <;> rfl)
    · simp only [ite_true, Nat.cast_one, one_ne_zero, ite_false, pure, Except.pure, Except.ok.injEq,
        Prod.mk.injEq] at h
      obtain ⟨rfl, rfl⟩ := h
      refine ⟨.refl, .inr hs, fun env henv sb hs' => ?_⟩
      obtain ⟨b, rfl⟩ := List.length_eq_one.1 (length_of_eval hf hsw henv hs')
      cases b <;> exact hs'
  · simp only [hw, ite_false, makeNode, Int.toNat_ofNat, pure, Except.pure, Except.ok.injEq,
      Prod.mk.injEq] at h
    obtain ⟨rfl, rfl⟩ := h
    refine ⟨(Extends.refl.push (by simp)).push (by simp [hs]), .inl ⟨by simp, by simp⟩, fun env henv sb hs' => ?_⟩
    refine eval_push_self (.cons (eval_push _ hs') (.cons (eval_push_self .nil rfl) .nil)) ?_
    show some (Value.bits [decide (Value.bits sb = .bits (uBits i w))]) = _
    simp only [Value.bits.injEq, eq_uBits_iff (length_of_eval hf hsw henv hs') hi]

theorem oneHotSelectArmCondition_spec (hf : f.WellTyped) {w i : Nat} (hsw : f.tyOf s = .bits w) (hi : i < w)
    (hs : f.ReachPlus node s) (h : oneHotSelectArmCondition f s i = .ok (g, cond)) :
    Condition f node s (fun sb => decide (sb[i]? = some true)) g cond := by
  simp only [oneHotSelectArmCondition, hsw, Ty.bitCount_bits] at h
  by_cases hw : w = 1
  · subst hw
    obtain rfl : i = 0 := by omega
    simp only [ite_true, Nat.cast_zero, pure, Except.pure, Except.ok.injEq, Prod.mk.injEq] at h
    obtain ⟨rfl, rfl⟩ := h
    refine ⟨.refl, .inr hs, fun env henv sb hs' => ?_⟩
    obtain ⟨b, rfl⟩ := List.length_eq_one.1 (length_of_eval hf hsw henv hs')
    cases b <;> exact hs'
  · simp only [hw, ite_false, makeNode, Int.toNat_ofNat, pure, Except.pure, Except.ok.injEq,
      Prod.mk.injEq] at h
    obtain ⟨rfl, rfl⟩ := h
    refine ⟨Extends.refl.push (by simp [hs]), .inl ⟨le_rfl, by simp⟩, fun env henv sb hs' => ?_⟩
    have hl := length_of_eval hf hsw henv hs'
    have hsl : BitsOps.slice sb i 1 = [decide (sb[i]? = some true)] := by
      have hi' : i < sb.length := by omega
      rw [BitsOps.slice, List.drop_eq_getElem_cons hi', List.getElem?_eq_getElem hi']
      simp [-List.getElem_cons_drop]
    exact eval_push_self (.cons hs' .nil) (by simp [Op.sem, hsl])

theorem prioritySelectArmCondition_spec (hf : f.WellTyped) {w i : Nat} (hsw : f.tyOf s = .bits w)
    (hi : i < w) (hs : f.ReachPlus node s) (h : prioritySelectArmCondition f s i = (g, cond)) :
    Condition f node s (fun sb => decide (Bits.firstSet sb = some i)) g cond := by
  simp only [prioritySelectArmCondition, hsw, Ty.bitCount_bits] at h
  by_cases hw : w = 1
  · subst hw
    obtain rfl : i = 0 := by omega
    simp only [ite_true, Nat.cast_zero, Prod.mk.injEq] at h
    obtain ⟨rfl, rfl⟩ := h
    refine ⟨.refl, .inr hs, fun env henv sb hs' => ?_⟩
    obtain ⟨b, rfl⟩ := List.length_eq_one.1 (length_of_eval hf hsw henv hs')
    cases b <;> exact hs'
  · simp only [hw, ite_false, makeNode, Int.toNat_ofNat] at h
    by_cases hi0 : i = 0
    · subst hi0
      simp only [Nat.cast_zero, ite_true, Prod.mk.injEq] at h
      obtain ⟨rfl, rfl⟩ := h
      refine ⟨Extends.refl.push (by simp [hs]), .inl ⟨le_rfl, by simp⟩, fun env henv sb hs' => ?_⟩
      have hl := length_of_eval hf hsw henv hs'
      obtain ⟨b, sb, rfl⟩ : ∃ b sb', sb = b :: sb' := List.exists_cons_of_ne_nil (by rintro rfl; simp at hl; omega)
      refine eval_push_self (.cons hs' .nil) ?_
      cases b <;> simp [Op.sem, BitsOps.slice, Bits.firstSet]
    · have : (i : Int) ≠ 0 := by omega
      simp only [this, ite_false, Prod.mk.injEq] at h
      obtain ⟨rfl, rfl⟩ := h
      refine ⟨((Extends.refl.push (by simp [hs])).push (by simp)).push
        (by simp only [List.forall_mem_cons, size_push]; exact ⟨.inl ⟨le_rfl, by omega⟩, .inl ⟨by omega, by omega⟩,
          by simp⟩), .inl ⟨by simp only [size_push]; omega, by simp⟩, fun env henv sb hs' => ?_⟩
      have hl := length_of_eval hf hsw henv hs'
      refine eval_push_self (.cons (eval_push _ (eval_push_self (.cons hs' .nil) rfl))
        (.cons (eval_push_self .nil rfl) .nil)) ?_
      simp [Op.sem, BitsOps.slice, ← take_eq_powerOfTwo_iff (show i < sb.length by omega)]

/-! ## `Select` -/

section Select

variable {d : Bool} {rest : List Nat} {ty : Ty}

/-- The selector's bits and the operands' values of a `Select` with a value. -/
theorem select_operands (hf : f.WellTyped) (hnd : f.node node = some ⟨.select d, s :: rest, ty⟩)
    {env : Env} (henv : env.Typed) {v : Value} (hv : f.Eval env node v) :
    ∃ sb vs, f.Eval env s (.bits sb) ∧ List.Forall₂ (f.Eval env) rest vs ∧
      selectValue sb (selectCases d vs) (selectDefault d vs) = some v := by
  obtain ⟨sv, vs, hs, hvs, hsem⟩ := exists_operands hnd hv
  obtain ⟨w, hsw, -⟩ := verify_select hf hnd
  obtain ⟨sb, rfl, -⟩ := Value.hasType_bits_iff.1 (hsw ▸ hasType_of_eval hf henv hs)
  exact ⟨sb, vs, hs, hvs, by rwa [Op.sem_select] at hsem⟩

variable (hf : f.WellTyped) (hq : q.AllZerosSound f) (hnd : f.node node = some ⟨.select d, s :: rest, ty⟩)
include hf hq hnd

theorem select_maskedBy_arm {i c : Nat} (hi : (selectCases d rest)[i]? = some c)
    (hothers : ∀ j c', j ≠ i → (selectCases d rest)[j]? = some c' → q.isAllZeros c' = true)
    (hdef : ∀ n ∈ selectDefault d rest, q.isAllZeros n = true) :
    MaskedBy f node s c (fun sb => decide (sb.toNat = i)) := by
  intro env henv v hv
  obtain ⟨sb, vs, hs, hvs, hsel⟩ := select_operands hf hnd henv hv
  obtain ⟨w, -, hrest, -, -⟩ := verify_select hf hnd
  have hcs := forall₂_selectCases (d := d) hvs
  obtain ⟨x, hx, hcx⟩ := forall₂_getElem?_left hcs hi
  refine ⟨sb, x, hs, hcx, ?_⟩
  rw [tyOf_of_node hnd, selectValue_single hx (fun j y hj hy => hq.values_eq_zero hf henv hcs
    (fun n hn => hrest n (mem_of_mem_selectCases hn)) (fun n hn => hothers j n hj hn) hy)
    (hq.selectDefault_eq_zero hf henv hvs hrest hdef) hsel]
  simp

theorem select_maskedBy_default {dn : Nat} (hall : ∀ c ∈ selectCases d rest, q.isAllZeros c = true)
    (hdn : selectDefault d rest = some dn) :
    MaskedBy f node s dn (fun sb => decide ((selectCases d rest).length ≤ sb.toNat)) := by
  intro env henv v hv
  obtain ⟨sb, vs, hs, hvs, hsel⟩ := select_operands hf hnd henv hv
  obtain ⟨w, -, hrest, -, -⟩ := verify_select hf hnd
  have hcs := forall₂_selectCases (d := d) hvs
  obtain ⟨x, hx, hdx⟩ := selectDefault_rel hvs hdn
  refine ⟨sb, x, hs, hdx, ?_⟩
  rw [hx] at hsel
  rw [tyOf_of_node hnd, selectValue_default (mem_of_forall_getElem? fun j y hy => hq.values_eq_zero hf henv hcs
    (fun n hn => hrest n (mem_of_mem_selectCases hn)) (fun n hn => hall n (List.getElem?_mem hn)) hy) hsel,
    hcs.length_eq]
  simp

theorem select_eq_zero (hall : ∀ c ∈ selectCases d rest, q.isAllZeros c = true)
    (hdef : ∀ n ∈ selectDefault d rest, q.isAllZeros n = true) :
    ∀ env : Env, env.Typed → ∀ v, f.Eval env node v → v = zeroOfType (f.tyOf node) := by
  intro env henv v hv
  obtain ⟨sb, vs, hs, hvs, hsel⟩ := select_operands hf hnd henv hv
  obtain ⟨w, -, hrest, -, -⟩ := verify_select hf hnd
  have hcs := forall₂_selectCases (d := d) hvs
  rw [tyOf_of_node hnd]
  exact selectValue_zeros (mem_of_forall_getElem? fun j y hy => hq.values_eq_zero hf henv hcs
    (fun n hn => hrest n (mem_of_mem_selectCases hn)) (fun n hn => hall n (List.getElem?_mem hn)) hy)
    (hq.selectDefault_eq_zero hf henv hvs hrest hdef) hsel

end Select

/-! ## `OneHotSelect` and `PrioritySelect` -/

section OneHot

variable {op : Op} {cases : List Nat} {ty : Ty}

variable (hf : f.WellTyped) (hq : q.AllZerosSound f)
include hf hq

theorem oneHotSel_maskedBy (hnd : f.node node = some ⟨.oneHotSel, s :: cases, ty⟩) {i c : Nat}
    (hi : cases[i]? = some c) (hothers : ∀ j c', j ≠ i → cases[j]? = some c' → q.isAllZeros c' = true) :
    MaskedBy f node s c (fun sb => decide (sb[i]? = some true)) := by
  intro env henv v hv
  obtain ⟨sb, vs, hs, hvs, hsem⟩ := oneHotSel_operands (.inl rfl) hf hnd henv hv
  obtain ⟨-, -, hty⟩ := verify_oneHotSel (.inl rfl) hf hnd
  obtain ⟨x, hx, hcx⟩ := forall₂_getElem?_left hvs hi
  have htx : x.HasType ty := hty c (List.getElem?_mem hi) ▸ hasType_of_eval hf henv hcx
  refine ⟨sb, x, hs, hcx, ?_⟩
  simp only [Op.sem, Value.toBits_bits, Option.some.injEq] at hsem
  rw [tyOf_of_node hnd, ← hsem, oneHotSelectValue_single htx sb hx
    fun j y hj hy => hq.values_eq_zero hf henv hvs hty (fun n hn => hothers j n hj hn) hy]
  simp

theorem prioritySel_maskedBy (hnd : f.node node = some ⟨.prioritySel, s :: cases, ty⟩) {i c : Nat}
    (hi : cases[i]? = some c) (hothers : ∀ j c', j ≠ i → cases[j]? = some c' → q.isAllZeros c' = true) :
    MaskedBy f node s c (fun sb => decide (Bits.firstSet sb = some i)) := by
  intro env henv v hv
  obtain ⟨sb, vs, hs, hvs, hsem⟩ := oneHotSel_operands (.inr rfl) hf hnd henv hv
  obtain ⟨-, -, hty⟩ := verify_oneHotSel (.inr rfl) hf hnd
  obtain ⟨x, hx, hcx⟩ := forall₂_getElem?_left hvs hi
  refine ⟨sb, x, hs, hcx, ?_⟩
  simp only [Op.sem, Value.toBits_bits, Option.some.injEq] at hsem
  rw [tyOf_of_node hnd, ← hsem, prioritySelectValue_single hx
    fun j y hj hy => hq.values_eq_zero hf henv hvs hty (fun n hn => hothers j n hj hn) hy]
  simp

/-- A one-hot or priority select whose cases are all zeros is zero. -/
theorem oneHotSel_eq_zero (hop : op = .oneHotSel ∨ op = .prioritySel) (hnd : f.node node = some ⟨op, s :: cases, ty⟩)
    (hall : ∀ c ∈ cases, q.isAllZeros c = true) :
    ∀ env : Env, env.Typed → ∀ v, f.Eval env node v → v = zeroOfType (f.tyOf node) := by
  intro env henv v hv
  obtain ⟨sb, vs, hs, hvs, hsem⟩ := oneHotSel_operands hop hf hnd henv hv
  obtain ⟨-, -, hty⟩ := verify_oneHotSel hop hf hnd
  have hz := mem_of_forall_getElem? fun j y hy =>
    hq.values_eq_zero hf henv hvs hty (fun n hn => hall n (List.getElem?_mem hn)) hy
  rw [tyOf_of_node hnd]
  rcases hop with rfl | rfl <;> simp only [Op.sem, Value.toBits_bits, Option.some.injEq] at hsem <;>
    rw [← hsem]
  · exact oneHotSelectValue_zeros sb hz
  · exact prioritySelectValue_zeros hz

end OneHot

/-! ## The rule -/

theorem convertArms_eq_ok {ty : Ty} {scan : Option (Option (Int × Nat))}
    {condition : FunctionBase → Int → Except String (FunctionBase × Nat)}
    (h : convertArms f node ty scan condition = .ok (true, f')) :
    (scan = some none ∧ f.replaceUsesWithNew node (.literal (zeroOfType ty)) [] = .ok f') ∨
    ∃ arm value g cond, scan = some (some (arm, value)) ∧ condition f arm = .ok (g, cond) ∧
      replaceWithMask g node cond value ty = .ok f' := by
  unfold convertArms at h
  split at h
  · simp [pure, Except.pure] at h
  · exact .inl ⟨rfl, (map_pair_eq_ok.1 h).2⟩
  · rename_i arm value
    cases hc : condition f arm with
    | error e => simp [hc, bind, Except.bind] at h
    | ok p =>
      simp only [hc, bind, Except.bind] at h
      exact .inr ⟨arm, value, p.1, p.2, rfl, hc, (map_pair_eq_ok.1 h).2⟩

section Rule

variable (hf : f.WellTyped) (hq : q.AllZerosSound f)
include hf hq

theorem select_rewrites {d : Bool} {rest : List Nat} {ty : Ty} (hnd : f.node node = some ⟨.select d, s :: rest, ty⟩)
    (h : convertArms f node ty (scanArms q 0 (selectCases d rest)
      ((selectDefault d rest).bind fun dv => if q.isAllZeros dv then none else some (-1, dv)))
      (selectArmCondition · s (selectCases d rest).length) = .ok (true, f')) : Rewrites f node f' := by
  have hn : node < f.size := lt_size_of_node hnd
  have hty : f.tyOf node = ty := tyOf_of_node hnd
  obtain ⟨w, hsw, hrest, hle, hdef⟩ := verify_select hf hnd
  have hs : f.ReachPlus node s := .of_mem hnd (.head _)
  rcases convertArms_eq_ok h with ⟨hscan, h⟩ | ⟨arm, value, g, cond, hscan, hcond, h⟩
  · rcases scanArms_spec hscan with ⟨hfound, hall⟩ | ⟨-, i, c, hc, -⟩
    · refine rewrites_literal hn (fun env henv v hv => hty ▸ select_eq_zero hf hq hnd hall ?_ env henv v hv) h
      intro n hn'
      rw [Option.mem_def.1 hn', Option.some_bind] at hfound
      by_contra hz
      simp [hz] at hfound
    · cases hc
  · rw [← hty] at h
    rcases scanArms_spec hscan with ⟨hfound, hall⟩ | ⟨hfound, i, c, hc, hi, hothers⟩
    · obtain ⟨hdn, rfl⟩ : selectDefault d rest = some value ∧ arm = -1 := by
        cases hd : selectDefault d rest <;> simp only [hd, Option.some_bind, Option.none_bind] at hfound
        · cases hfound
        · split at hfound <;> cases hfound
          exact ⟨rfl, rfl⟩
      exact replaceWithMask_rewrites hf hn (selectArmCondition_default hsw (hdef.1 (by simp [hdn])) hs hcond)
        (select_maskedBy_default hf hq hnd hall hdn) (.of_mem hnd (.tail _ (mem_of_selectDefault hdn)))
        (by rw [hty, hrest value (mem_of_selectDefault hdn)]) h
    · simp only [Nat.zero_add, Option.some.injEq, Prod.mk.injEq] at hc
      obtain ⟨rfl, rfl⟩ := hc
      have hlt : i < (selectCases d rest).length := (List.getElem?_eq_some_iff.1 hi).1
      have hmem := mem_of_mem_selectCases (List.getElem?_mem hi)
      refine replaceWithMask_rewrites hf hn (selectArmCondition_arm hf hsw (by omega) hs hcond)
        (select_maskedBy_arm hf hq hnd hi hothers fun n hn' => ?_) (.of_mem hnd (.tail _ hmem))
        (by rw [hty, hrest value hmem]) h
      rw [Option.mem_def.1 hn', Option.some_bind] at hfound
      by_contra hz
      simp [hz] at hfound

theorem oneHotSel_rewrites {cases : List Nat} {ty : Ty} (hnd : f.node node = some ⟨.oneHotSel, s :: cases, ty⟩)
    (h : convertArms f node ty (scanArms q 0 cases none) (oneHotSelectArmCondition · s) = .ok (true, f')) :
    Rewrites f node f' := by
  have hn : node < f.size := lt_size_of_node hnd
  have hty : f.tyOf node = ty := tyOf_of_node hnd
  obtain ⟨hsw, -, hcases⟩ := verify_oneHotSel (.inl rfl) hf hnd
  have hs : f.ReachPlus node s := .of_mem hnd (.head _)
  rcases convertArms_eq_ok h with ⟨hscan, h⟩ | ⟨arm, value, g, cond, hscan, hcond, h⟩
  · rcases scanArms_spec hscan with ⟨-, hall⟩ | ⟨-, i, c, hc, -⟩
    · exact rewrites_literal hn (fun env henv v hv => hty ▸ oneHotSel_eq_zero hf hq (.inl rfl) hnd hall env henv v hv) h
    · cases hc
  · rw [← hty] at h
    rcases scanArms_spec hscan with ⟨hfound, -⟩ | ⟨-, i, c, hc, hi, hothers⟩
    · cases hfound
    · simp only [Nat.zero_add, Option.some.injEq, Prod.mk.injEq] at hc
      obtain ⟨rfl, rfl⟩ := hc
      have hmem := List.getElem?_mem hi
      exact replaceWithMask_rewrites hf hn
        (oneHotSelectArmCondition_spec hf hsw (List.getElem?_eq_some_iff.1 hi).1 hs hcond)
        (oneHotSel_maskedBy hf hq hnd hi hothers) (.of_mem hnd (.tail _ hmem)) (by rw [hty, hcases value hmem]) h

theorem prioritySel_rewrites {cases : List Nat} {ty : Ty} (hnd : f.node node = some ⟨.prioritySel, s :: cases, ty⟩)
    (h : convertArms f node ty (scanArms q 0 cases none)
      (fun f arm => pure (prioritySelectArmCondition f s arm)) = .ok (true, f')) :
    Rewrites f node f' := by
  have hn : node < f.size := lt_size_of_node hnd
  have hty : f.tyOf node = ty := tyOf_of_node hnd
  obtain ⟨hsw, -, hcases⟩ := verify_oneHotSel (.inr rfl) hf hnd
  have hs : f.ReachPlus node s := .of_mem hnd (.head _)
  rcases convertArms_eq_ok h with ⟨hscan, h⟩ | ⟨arm, value, g, cond, hscan, hcond, h⟩
  · rcases scanArms_spec hscan with ⟨-, hall⟩ | ⟨-, i, c, hc, -⟩
    · exact rewrites_literal hn (fun env henv v hv => hty ▸ oneHotSel_eq_zero hf hq (.inr rfl) hnd hall env henv v hv) h
    · cases hc
  · rw [← hty] at h
    rcases scanArms_spec hscan with ⟨hfound, -⟩ | ⟨-, i, c, hc, hi, hothers⟩
    · cases hfound
    · simp only [Nat.zero_add, Option.some.injEq, Prod.mk.injEq] at hc
      obtain ⟨rfl, rfl⟩ := hc
      have hmem := List.getElem?_mem hi
      exact replaceWithMask_rewrites hf hn
        (prioritySelectArmCondition_spec hf hsw (List.getElem?_eq_some_iff.1 hi).1 hs (Except.ok.inj hcond))
        (prioritySel_maskedBy hf hq hnd hi hothers) (.of_mem hnd (.tail _ hmem)) (by rw [hty, hcases value hmem]) h

end Rule

variable {w : Nat}

/-- The loop ends with the arm it was given, or with an arm of the list not
    known to be all zeros. -/
theorem scanArms_found : ∀ {arm : Nat} {cs : List Nat} {found : Option (Int × Nat)} {a : Int} {c : Nat},
    scanArms q arm cs found = some (some (a, c)) →
    found = some (a, c) ∨ ∃ i, a = ((arm + i : Nat) : Int) ∧ cs[i]? = some c ∧ q.isAllZeros c = false
  | _, [], _, _, _, h => .inl (Option.some.inj h)
  | arm, c' :: cs, found, a, c, h => by
    unfold scanArms at h
    split at h
    · rcases scanArms_found h with hf | ⟨i, rfl, hi, hz⟩
      · exact .inl hf
      · exact .inr ⟨i + 1, by omega, by simpa using hi, hz⟩
    · split at h
      · cases h
      · rcases scanArms_found h with hf | ⟨i, rfl, hi, hz⟩
        · cases hf
          exact .inr ⟨0, by simp, by simp, by simpa using ‹¬q.isAllZeros c' = true›⟩
        · exact .inr ⟨i + 1, by omega, by simpa using hi, hz⟩

/-- `cond` is a one-bit node of `g`, a well-typed function that appends nodes
    to `f`: what the mask's condition is. -/
structure OneBitCondition (f g : FunctionBase) (cond : Nat) : Prop where
  ext : Extends f (fun _ => True) g
  wellTyped : g.WellTyped
  lt_size : cond < g.size
  tyOf_cond : g.tyOf cond = .bits 1

/-- A one-bit node the verifier accepts, appended. -/
theorem oneBitCondition_makeNode (hext : Extends f (fun _ => True) g) (hg : g.WellTyped) {op : Op} {ops : List Nat}
    (hops : ∀ o ∈ ops, o < g.size) (hv : op.verify (ops.map g.tyOf) (op.resultType (ops.map g.tyOf)))
    (hty : op.resultType (ops.map g.tyOf) = .bits 1) :
    OneBitCondition f (g.makeNode op ops).1 (g.makeNode op ops).2 :=
  ⟨hext.makeNode fun _ _ => .inr trivial, hg.makeNode hops hv, by simp, by rw [makeNode_snd, tyOf_makeNode_self, hty]⟩

/-- A comparison of a bits node with a literal of its width is one bit. -/
theorem oneBitCondition_compare (hext : Extends f (fun _ => True) g) (hg : g.WellTyped) (hs : s < g.size)
    (hsw : g.tyOf s = .bits w) {op : Op} (hop : op = .eq ∨ op = .uGe) {b : Bits} (hb : b.length = w) :
    OneBitCondition f ((g.makeNode (.literal (.bits b)) []).1.makeNode op [s, g.size]).1
      ((g.makeNode (.literal (.bits b)) []).1.makeNode op [s, g.size]).2 := by
  have htys : [s, g.size].map (g.makeNode (.literal (.bits b)) []).1.tyOf = [.bits w, .bits w] := by
    simp [tyOf_makeNode_of_lt hs, hsw, Op.resultType, Value.ty, hb]
  refine oneBitCondition_makeNode (hext.makeNode fun _ _ => .inr trivial)
    (hg.makeNode (by simp) (by simp [Op.verify, Op.resultType, Value.ty])) (by simp; omega) ?_ ?_ <;>
    rw [htys] <;> rcases hop with rfl | rfl <;> simp [Op.verify, Op.resultType, Ty.isBits]

section Conditions

variable (hf : f.WellTyped) (hs : s < f.size) (hsw : f.tyOf s = .bits w)
include hf hs hsw

theorem selectArmCondition_oneBit {n : Nat} {arm : Int} (h : selectArmCondition f s n arm = .ok (g, cond)) :
    OneBitCondition f g cond := by
  simp only [selectArmCondition, hsw, Ty.bitCount_bits, makeNode_snd] at h
  split_ifs at h with h₁ hw h₀ <;> obtain ⟨rfl, rfl⟩ := Prod.ext_iff.1 (Except.ok.inj h)
  · exact oneBitCondition_compare .refl hf hs hsw (.inr rfl) (length_uBits _ _)
  · subst hw
    exact oneBitCondition_makeNode .refl hf (by simpa using hs) (by simp [hsw, Op.verify, Op.resultType, Ty.isBits])
      (by simp [hsw, Op.resultType])
  · exact ⟨.refl, hf, hs, hw ▸ hsw⟩
  · exact oneBitCondition_compare .refl hf hs hsw (.inl rfl) (length_uBits _ _)

theorem oneHotSelectArmCondition_oneBit {i : Nat} (hi : i < w) (h : oneHotSelectArmCondition f s i = .ok (g, cond)) :
    OneBitCondition f g cond := by
  simp only [oneHotSelectArmCondition, hsw, Ty.bitCount_bits] at h
  split_ifs at h with hw <;> obtain ⟨rfl, rfl⟩ := Prod.ext_iff.1 (Except.ok.inj h)
  · exact ⟨.refl, hf, hs, hw ▸ hsw⟩
  · exact oneBitCondition_makeNode .refl hf (by simpa using hs) (by simp [hsw, Op.verify, Op.resultType]; omega)
      (by simp [Op.resultType])

theorem prioritySelectArmCondition_oneBit {i : Nat} (hi : i < w) (h : prioritySelectArmCondition f s i = (g, cond)) :
    OneBitCondition f g cond := by
  -- the selector's bits up to the arm
  obtain ⟨f₁, t, ht, hext, hf₁, hts, htw⟩ : ∃ f₁ t,
      (if w = 1 then (f, s) else f.makeNode (.bitSlice 0 (i + 1)) [s]) = (f₁, t) ∧
      Extends f (fun _ => True) f₁ ∧ f₁.WellTyped ∧ t < f₁.size ∧ f₁.tyOf t = .bits (i + 1) := by
    split_ifs with hw
    · exact ⟨f, s, rfl, .refl, hf, hs, hsw.trans (by congr 1; omega)⟩
    · exact ⟨(f.makeNode (.bitSlice 0 (i + 1)) [s]).1, f.size, rfl, Extends.refl.makeNode fun _ _ => .inr trivial,
        hf.makeNode (by simpa using hs) (by simp [hsw, Op.verify, Op.resultType]; omega), by simp,
        by simp [Op.resultType]⟩
  simp only [prioritySelectArmCondition, hsw, Ty.bitCount_bits, Int.toNat_ofNat, ht, makeNode_snd] at h
  split_ifs at h with h₀ <;> obtain ⟨rfl, rfl⟩ := Prod.ext_iff.1 h
  · exact ⟨hext, hf₁, hts, htw.trans (by congr 1; omega)⟩
  · exact oneBitCondition_compare hext hf₁ hts htw (.inl rfl) (by simp [powerOfTwo])

end Conditions

/-- The mask, the condition sign-extended to a width of at least one bit, is a
    node of that width. -/
theorem makeMask_typed (hc : OneBitCondition f g cond) (hw : 0 < w) (h : makeMask g cond w = (g₁, mask)) :
    Extends f (fun _ => True) g₁ ∧ g₁.WellTyped ∧ mask < g₁.size ∧ g₁.tyOf mask = .bits w := by
  unfold makeMask at h
  split_ifs at h with h1 <;> obtain ⟨rfl, rfl⟩ := Prod.ext_iff.1 h
  · exact ⟨hc.ext, hc.wellTyped, hc.lt_size, by rw [h1]; exact hc.tyOf_cond⟩
  · exact ⟨hc.ext.makeNode fun _ _ => .inr trivial, hc.wellTyped.makeNode (by simpa using hc.lt_size)
      (by simp [hc.tyOf_cond, Op.verify, Op.resultType]; omega), by simp, by simp [Op.resultType]⟩

/-- The masked arm keeps the function well typed: on bits of at least one bit
    the AND of the arm with the mask, on other types a select between a zero
    literal and the arm, each of the arm's type. -/
theorem replaceWithMask_wellTyped (hc : OneBitCondition f g cond) (hv : value < f.size) {ty : Ty}
    (hty : f.tyOf value = ty) (hne : ty ≠ .bits 0) (h : replaceWithMask g node cond value ty = .ok f') :
    f'.WellTyped := by
  have hvg : g.tyOf value = ty := (hc.ext.tyOf_of_lt hv).trans hty
  have hvl : value < g.size := lt_of_lt_of_le hv hc.ext.size_le
  unfold replaceWithMask at h
  split at h
  · rename_i hbits
    generalize hgm : makeMask g cond ty.bitCount = gm at h
    obtain ⟨g₁, mask⟩ := gm
    obtain ⟨hext, hwt, hm, hmty⟩ := makeMask_typed hc (Nat.pos_of_ne_zero fun h0 => hne (by rw [Ty.isBits_iff.1 hbits, h0])) hgm
    have htys : [value, mask].map g₁.tyOf = [ty, ty] := by
      simp [hext.tyOf_of_lt hv, hty, hmty, ← Ty.isBits_iff.1 hbits]
    exact hwt.replaceUsesWithNew (by simp [lt_of_lt_of_le hv hext.size_le, hm])
      (by rw [htys]; simp [Op.verify, Op.resultType, hbits]) h
  · have hne' := hvg ▸ noEmptyArray_tyOf hc.wellTyped value
    have htys : [cond, g.size, value].map (g.makeNode (.literal (zeroOfType ty)) []).1.tyOf = [.bits 1, ty, ty] := by
      simp [tyOf_makeNode_of_lt hc.lt_size, tyOf_makeNode_of_lt hvl, hc.tyOf_cond, hvg, Op.resultType,
        ty_zeroOfType hne']
    have := hc.lt_size
    exact (hc.wellTyped.makeNode (by simp)
      (by simp [Op.verify, Op.resultType, zeroOfType_hasType, ty_zeroOfType hne', hne'])).replaceUsesWithNew
      (by simp; omega) (by rw [htys]; simp [Op.verify, Op.resultType]) h

/-- The zero literal in a node's place keeps the function well typed. -/
theorem wellTyped_replaceWithZero (hf : f.WellTyped)
    (h : f.replaceUsesWithNew node (.literal (zeroOfType (f.tyOf node))) [] = .ok f') : f'.WellTyped :=
  hf.replaceUsesWithNew (by simp) (by simp [Op.verify, Op.resultType, zeroOfType_hasType,
    ty_zeroOfType (noEmptyArray_tyOf hf node), noEmptyArray_tyOf hf node]) h

/-- An operand of a select after the selector is a case or the default. -/
theorem mem_selectCases_or_default {d : Bool} {rest : List Nat} {c : Nat} (hc : c ∈ rest) :
    c ∈ selectCases d rest ∨ selectDefault d rest = some c := by
  cases d
  · exact .inl hc
  · have hne : rest ≠ [] := List.ne_nil_of_mem hc
    rw [← List.dropLast_append_getLast hne, List.mem_append, List.mem_singleton] at hc
    simpa [selectCases, selectDefault, List.getLast?_eq_getLast rest hne, eq_comm] using hc

/-- What `MaybeConvertSelectToMask` leaves when it fires on `node`, whose arms
    (cases and default) are `arms`: a zero literal in its place, every arm
    known to be all zeros; or an arm of the node's type that the engine does
    not know to be all zeros, masked by a one-bit condition. -/
def MaskOutcome (q : QueryEngine) (f : FunctionBase) (node : Nat) (arms : List Nat) (f' : FunctionBase) : Prop :=
  ((∀ c ∈ arms, q.isAllZeros c = true) ∧
    f.replaceUsesWithNew node (.literal (zeroOfType (f.tyOf node))) [] = .ok f') ∨
  ∃ g cond value, OneBitCondition f g cond ∧ value ∈ arms ∧ f.tyOf value = f.tyOf node ∧
    q.isAllZeros value = false ∧ replaceWithMask g node cond value (f.tyOf node) = .ok f'

/-- The loop over the cases of a one-hot or priority select, whose condition
    for each case is one bit, leaves what `MaskOutcome` says. -/
theorem cases_maskOutcome {cases : List Nat} {condition : FunctionBase → Int → Except String (FunctionBase × Nat)}
    (hcases : ∀ c ∈ cases, f.tyOf c = f.tyOf node)
    (hcond : ∀ i < cases.length, ∀ g cond, condition f (i : Int) = .ok (g, cond) → OneBitCondition f g cond)
    (h : convertArms f node (f.tyOf node) (scanArms q 0 cases none) condition = .ok (true, f')) :
    MaskOutcome q f node cases f' := by
  rcases convertArms_eq_ok h with ⟨hscan, h⟩ | ⟨arm, value, g, cond, hscan, hc, h⟩
  · obtain ⟨-, hall⟩ | ⟨-, i, c, hc, -⟩ := scanArms_spec hscan
    · exact .inl ⟨hall, h⟩
    · cases hc
  obtain hfound | ⟨i, rfl, hi, hz⟩ := scanArms_found hscan
  · cases hfound
  rw [Nat.zero_add] at hc
  exact .inr ⟨g, cond, value, hcond i (List.getElem?_eq_some_iff.1 hi).1 g cond hc, List.getElem?_mem hi,
    hcases value (List.getElem?_mem hi), hz, h⟩

section Outcome

variable (hf : f.WellTyped)
include hf

theorem select_maskOutcome {d : Bool} {rest : List Nat} {ty : Ty} (hnd : f.node node = some ⟨.select d, s :: rest, ty⟩)
    (h : convertArms f node ty (scanArms q 0 (selectCases d rest)
      ((selectDefault d rest).bind fun dv => if q.isAllZeros dv then none else some (-1, dv)))
      (selectArmCondition · s (selectCases d rest).length) = .ok (true, f')) : MaskOutcome q f node rest f' := by
  have hty : f.tyOf node = ty := tyOf_of_node hnd
  rw [← hty] at h
  obtain ⟨w, hsw, hrest, -, -⟩ := verify_select hf hnd
  have hlt := operandsExist_of_wellTyped hf _ _ hnd
  rcases convertArms_eq_ok h with ⟨hscan, h⟩ | ⟨arm, value, g, cond, hscan, hcond, h⟩
  · -- every case and the default known all zeros
    obtain ⟨hfound, hall⟩ | ⟨-, i, c, hc, -⟩ := scanArms_spec hscan
    · refine .inl ⟨fun c hc => (mem_selectCases_or_default hc).elim (hall c) fun hd => ?_, h⟩
      rw [hd, Option.some_bind] at hfound
      by_contra hz
      simp [hz] at hfound
    · cases hc
  -- the arm found: the default or a case, not known to be all zeros
  obtain ⟨hmem, hz⟩ : value ∈ rest ∧ q.isAllZeros value = false := by
    rcases scanArms_found hscan with hfound | ⟨i, -, hi, hz⟩
    · cases hd : selectDefault d rest <;> rw [hd] at hfound
      · cases hfound
      · simp only [Option.some_bind] at hfound
        split at hfound <;> cases hfound
        exact ⟨mem_of_selectDefault hd, by simpa using ‹¬q.isAllZeros value = true›⟩
    · exact ⟨mem_of_mem_selectCases (List.getElem?_mem hi), hz⟩
  exact .inr ⟨g, cond, value, selectArmCondition_oneBit hf (hlt s (.head _)) hsw hcond, hmem,
    by rw [hrest value hmem, hty], hz, h⟩

theorem oneHotSel_maskOutcome {cases : List Nat} {ty : Ty} (hnd : f.node node = some ⟨.oneHotSel, s :: cases, ty⟩)
    (h : convertArms f node ty (scanArms q 0 cases none) (oneHotSelectArmCondition · s) = .ok (true, f')) :
    MaskOutcome q f node cases f' := by
  have hty : f.tyOf node = ty := tyOf_of_node hnd
  obtain ⟨hsw, -, hcases⟩ := verify_oneHotSel (.inl rfl) hf hnd
  exact cases_maskOutcome (fun c hc => (hcases c hc).trans hty.symm)
    (fun _ hi _ _ => oneHotSelectArmCondition_oneBit hf (operandsExist_of_wellTyped hf _ _ hnd s (.head _)) hsw hi)
    (hty ▸ h)

theorem prioritySel_maskOutcome {cases : List Nat} {ty : Ty} (hnd : f.node node = some ⟨.prioritySel, s :: cases, ty⟩)
    (h : convertArms f node ty (scanArms q 0 cases none)
      (fun f arm => pure (prioritySelectArmCondition f s arm)) = .ok (true, f')) : MaskOutcome q f node cases f' := by
  have hty : f.tyOf node = ty := tyOf_of_node hnd
  obtain ⟨hsw, -, hcases⟩ := verify_oneHotSel (.inr rfl) hf hnd
  exact cases_maskOutcome (fun c hc => (hcases c hc).trans hty.symm)
    (fun _ hi _ _ hc => prioritySelectArmCondition_oneBit hf (operandsExist_of_wellTyped hf _ _ hnd s (.head _)) hsw hi
      (Except.ok.inj hc)) (hty ▸ h)

/-- What `MaybeConvertSelectToMask` leaves whenever it fires: the node is a
    select of one of the three kinds, the function is as `MaskOutcome` says,
    and, where the engine's all-zeros answers are sound, a rewrite of the
    node. -/
theorem maybeConvertSelectToMask_outcome (h : maybeConvertSelectToMask q f node = .ok (true, f')) :
    ∃ nd, f.node node = some nd ∧ MaskOutcome q f node nd.operands.tail f' ∧
      (q.AllZerosSound f → Rewrites f node f') := by
  unfold maybeConvertSelectToMask at h
  split at h
  · simp [pure, Except.pure] at h
  · rename_i nd hnd
    obtain ⟨op, ops, ty⟩ := nd
    split at h
    · simp [pure, Except.pure] at h
    split at h
    · simp [pure, Except.pure] at h
    split at h
    · rename_i d s rest hop hops
      simp only at hop hops
      subst hop hops
      exact ⟨_, hnd, select_maskOutcome hf hnd h, fun hq => select_rewrites hf hq hnd h⟩
    · rename_i s cases hop hops
      simp only at hop hops
      subst hop hops
      exact ⟨_, hnd, oneHotSel_maskOutcome hf hnd h, fun hq => oneHotSel_rewrites hf hq hnd h⟩
    · rename_i s cases hop hops
      simp only at hop hops
      subst hop hops
      exact ⟨_, hnd, prioritySel_maskOutcome hf hnd h, fun hq => prioritySel_rewrites hf hq hnd h⟩
    · simp [pure, Except.pure] at h

end Outcome

/-- The rule's outcome is well typed where the engine knows every node of no
    bits to be all zeros: an arm it does not know to be all zeros then has some
    bits, as wide as its mask. -/
theorem MaskOutcome.wellTyped (hf : f.WellTyped) (hzero : ∀ n < f.size, f.tyOf n = .bits 0 → q.isAllZeros n = true)
    {arms : List Nat} (harms : ∀ c ∈ arms, c < f.size) (ho : MaskOutcome q f node arms f') : f'.WellTyped := by
  rcases ho with ⟨-, h⟩ | ⟨g, cond, value, hc, hmem, hty, hz, h⟩
  · exact wellTyped_replaceWithZero hf h
  · exact replaceWithMask_wellTyped hc (harms value hmem) hty
      (hty ▸ fun h0 => by simp [hzero value (harms value hmem) h0] at hz) h

/-- Whenever `MaybeConvertSelectToMask` fires on a well-typed function whose
    engine's all-zeros answers are sound and that knows every node of no bits
    to be all zeros, it is a rewrite of the node that keeps the function well
    typed. -/
theorem rewrites_of_maybeConvertSelectToMask (hf : f.WellTyped)
    (hzero : ∀ n < f.size, f.tyOf n = .bits 0 → q.isAllZeros n = true) (hq : q.AllZerosSound f)
    (h : maybeConvertSelectToMask q f node = .ok (true, f')) : Rewrites f node f' ∧ f'.WellTyped :=
  let ⟨_, hnd, ho, hr⟩ := maybeConvertSelectToMask_outcome hf h
  ⟨hr hq, ho.wellTyped hf hzero fun c hc => operandsExist_of_wellTyped hf _ _ hnd c (List.mem_of_mem_tail hc)⟩

/-- On a one-hot select of bits whose cases the engine all knows to be all
    zeros the rule fires: a zero literal takes the select's place. -/
theorem maybeConvertSelectToMask_of_allZeros {s w : Nat} {cases : List Nat}
    (hnd : f.node node = some ⟨.oneHotSel, s :: cases, .bits w⟩) (hz : ∀ c ∈ cases, q.isAllZeros c) :
    ∃ f', maybeConvertSelectToMask q f node = .ok (true, f') := by
  have hr : f.replaceUsesWithNew node (.literal (zeroOfType (.bits w))) [] =
      .ok ((f.makeNode (.literal (zeroOfType (.bits w))) []).1.rewire node f.size) :=
    (replaceUsesWithNew_eq_ok (lt_size_of_node hnd)).2
      ⟨by simp only [tyOf_makeNode_self, Op.resultType, ty_zeroOfType (t := .bits w) rfl, tyOf_of_node hnd], rfl⟩
  rw [zeroOfType_bits] at hr
  exact ⟨_, by simp [maybeConvertSelectToMask, hnd, Ty.isBits, scanArms_of_allZeros hz, convertArms, hr]; rfl⟩

end SelectSimplification

end Xls
