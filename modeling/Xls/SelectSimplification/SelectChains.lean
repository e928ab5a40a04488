import Xls.SelectSimplification.Decompose

/-!
# Chains of two-way selects

Two rules of `SimplifyNode` on a two-way `Select` `sel0` (a one-bit selector
`p0`, two cases, so no default) one of whose cases is another two-way select
`sel1`, on `p1`:

* when the two share a case `x`, with `y` the other case of `sel1`, `sel0` is
  replaced by `select(p_x, [y, x])`, where `p_x`, built from `p0` and `p1`,
  holds exactly where `sel0` picks `x`: `p0 | !p1`, `p0 | p1`, `nand(p0, p1)` or
  `!p0 | p1` by where `x` sits (`collapseCommonCase`); the case-1 chains are
  only looked at when case 0 is not a two-way select;
* when `sel1` has `sel0`'s selector, `ReplaceOperandNumber` makes `sel0` read
  `sel1`'s case that the selector picks in its place (`collapseSameSelector`).

* `commonCase_collapse`: in each of the four positions the first rule fires,
  and whenever it fires it is a rewrite that keeps the function well typed
  (one lemma per position, `collapseCommonCase_spec₁` to `₄`, each a truth
  table over the two selector bits);
* `sameSelector_collapse`: the second rule fires on either case, and whenever
  it fires every node keeps its value and the function stays well typed;
* `selectChains_collapse`: the two together.
-/

namespace Xls

namespace SelectSimplification

open FunctionBase

/-- `is_2way_select`, with the selector and the cases it reads: a `Select` of a
    one-bit selector and two cases. -/
def twoWaySelect (f : FunctionBase) (n : Nat) : Option (Nat × Nat × Nat) :=
  match f.node n with
  | some ⟨.select d, s :: rest, _⟩ =>
    if f.tyOf s = .bits 1 then
      match selectCases d rest with
      | [c₀, c₁] => some (s, c₀, c₁)
      | _ => none
    else none
  | _ => none

/-- Consecutive two-way selects with a common case: `sel0`'s case 0 a two-way
    select `sel1` sharing `sel0`'s case 1, or else `sel0`'s case 1 one sharing
    its case 0, become one select of the shared case `x` and the other case `y`
    of `sel1`, on a predicate `p_x` of the two selectors. -/
def collapseCommonCase (f : FunctionBase) (node : Nat) : Except String (Option FunctionBase) :=
  match twoWaySelect f node with
  | some (p0, case0, case1) =>
    match twoWaySelect f case0 with
    | some (p1, sel1Case0, sel1Case1) =>
      if case1 = sel1Case0 then
        -- p_x = p0 | !p1
        let (f, notP1) := f.makeNode .not [p1]
        let (f, px) := f.makeNode .or [p0, notP1]
        some <$> f.replaceUsesWithNew node (.select false) [px, sel1Case1, case1]
      else if case1 = sel1Case1 then
        -- p_x = p0 | p1
        let (f, px) := f.makeNode .or [p0, p1]
        some <$> f.replaceUsesWithNew node (.select false) [px, sel1Case0, case1]
      else pure none
    | none =>
      match twoWaySelect f case1 with
      | some (p1, sel1Case0, sel1Case1) =>
        if case0 = sel1Case0 then
          -- p_x = nand(p0, p1)
          let (f, px) := f.makeNode .nand [p0, p1]
          some <$> f.replaceUsesWithNew node (.select false) [px, sel1Case1, case0]
        else if case0 = sel1Case1 then
          -- p_x = !p0 | p1
          let (f, notP0) := f.makeNode .not [p0]
          let (f, px) := f.makeNode .or [notP0, p1]
          some <$> f.replaceUsesWithNew node (.select false) [px, sel1Case0, case0]
        else pure none
      | none => pure none
  | none => pure none

/-- One check of the same-selector collapse, on operand `i` (case `i - 1`) of a
    select on `p0`: when that operand is a two-way select `sel1` on `p0` too,
    the case of `sel1` that takes its place (`sel1`'s case `i - 1`). -/
def sameSelectorOperand (f : FunctionBase) (p0 i sel1 : Nat) : Option Nat :=
  match twoWaySelect f sel1 with
  | some (p1, sel1Case0, sel1Case1) => if p0 = p1 then some (if i = 1 then sel1Case0 else sel1Case1) else none
  | none => none

/-- Consecutive two-way selects on one selector: `sel0`'s operand 1, or else its
    operand 2, is replaced (`ReplaceOperandNumber`) by the inner select's case. -/
def collapseSameSelector (f : FunctionBase) (node : Nat) : Except String (Option FunctionBase) :=
  match twoWaySelect f node with
  | some (p0, case0, case1) =>
    match sameSelectorOperand f p0 1 case0 with
    | some x => some <$> f.replaceOperandNumber node 1 x
    | none =>
      match sameSelectorOperand f p0 2 case1 with
      | some x => some <$> f.replaceOperandNumber node 2 x
      | none => pure none
  | none => pure none

variable {f : FunctionBase} {node n p c₀ c₁ : Nat}

/-! ## Two-way selects -/

/-- A two-way select of a well-typed function has no default, and its cases
    have its type. -/
theorem twoWaySelect_spec (hf : f.WellTyped) (h : twoWaySelect f n = some (p, c₀, c₁)) :
    f.node n = some ⟨.select false, [p, c₀, c₁], f.tyOf n⟩ ∧ f.tyOf p = .bits 1 ∧
      f.tyOf c₀ = f.tyOf n ∧ f.tyOf c₁ = f.tyOf n := by
  unfold twoWaySelect at h
  split at h
  · rename_i d s rest ty hnd
    split_ifs at h with hs
    split at h
    · rename_i hcs
      cases h
      obtain ⟨w, hsw, hty, -, hdef⟩ := verify_select hf hnd
      obtain rfl : w = 1 := by simpa [hs] using hsw.symm
      have hty' := tyOf_of_node hnd
      cases d
      · simp only [selectCases] at hcs
        subst hcs
        exact ⟨hty' ▸ hnd, hs, hty' ▸ hty _ (by simp), hty' ▸ hty _ (by simp)⟩
      · -- a default would make three operands after a one-bit selector
        have hlen := congrArg List.length hcs
        simp only [selectCases, if_true, List.length_dropLast, List.length_cons, List.length_nil] at hlen
        have hne : rest ≠ [] := by rintro rfl; simp at hlen
        simp [selectCases, selectDefault, hne] at hdef
        omega
    · cases h
  · cases h

/-- A two-way select picks case 1 where its selector is set, case 0 elsewhere. -/
theorem eval_twoWaySelect (hf : f.WellTyped) {env : Env} (henv : env.Typed) (h : twoWaySelect f n = some (p, c₀, c₁))
    {v : Value} (hv : f.Eval env n v) :
    ∃ β v₀ v₁, f.Eval env p (.bits [β]) ∧ f.Eval env c₀ v₀ ∧ f.Eval env c₁ v₁ ∧ v = if β then v₁ else v₀ := by
  obtain ⟨hnd, hp, -, -⟩ := twoWaySelect_spec hf h
  obtain ⟨sv, vs, hs, hvs, hsem⟩ := exists_operands hnd hv
  obtain ⟨β, rfl⟩ := Value.eq_single_of_hasType (hp ▸ hasType_of_eval hf henv hs)
  obtain ⟨v₀, v₁, h₀, h₁, rfl⟩ : ∃ v₀ v₁, f.Eval env c₀ v₀ ∧ f.Eval env c₁ v₁ ∧ vs = [v₀, v₁] := by
    cases hvs with | cons h₀ hvs => cases hvs with | cons h₁ hvs => cases hvs; exact ⟨_, _, h₀, h₁, rfl⟩
  exact ⟨β, v₀, v₁, hs, h₀, h₁, by cases β <;> simpa [Op.sem, selectValue, eq_comm] using hsem⟩

/-- A two-way select on a one-bit selector over `y` and `x` picks `x` where the
    selector is set. -/
theorem sem_twoWaySelect (env : Env) (ty : Ty) (β : Bool) (y x : Value) :
    (Op.select false).sem env ty [.bits [β], y, x] = some (if β then x else y) := by
  cases β <;> rfl

/-! ## The predicates of one-bit selectors -/

theorem sem_not_single (env : Env) (ty : Ty) (x : Bool) : Op.not.sem env ty [.bits [x]] = some (.bits [!x]) := rfl

theorem sem_or_single (env : Env) (ty : Ty) (x y : Bool) :
    Op.or.sem env ty [.bits [x], .bits [y]] = some (.bits [x || y]) := by
  cases x <;> cases y <;> rfl

theorem sem_nand_single (env : Env) (ty : Ty) (x y : Bool) :
    Op.nand.sem env ty [.bits [x], .bits [y]] = some (.bits [!(x && y)]) := by
  cases x <;> cases y <;> rfl

/-! ## Selects with a common case -/

/-- Ending a collapse: `select(p_x, [y, x])`, on an appended one-bit `p_x`, over
    nodes `x` and `y` below the select and of its type, that picks the
    select's value in every evaluation, is a rewrite that keeps the function
    well typed. -/
theorem rewrites_of_collapse {g : FunctionBase} (hb : Builds f node g) (hf : f.WellTyped) (hn : node < f.size)
    (px y x : Nat) (hpx : Fresh f g px) (hpxTy : g.tyOf px = .bits 1) (hy : f.ReachPlus node y)
    (hx : f.ReachPlus node x) (hyTy : f.tyOf y = f.tyOf node) (hxTy : f.tyOf x = f.tyOf node)
    (hsem : ∀ env : Env, env.Typed → ∀ v, f.Eval env node v →
      ∃ β xv yv, g.Eval env px (.bits [β]) ∧ f.Eval env x xv ∧ f.Eval env y yv ∧ v = if β then xv else yv) :
    ∃ f', g.replaceUsesWithNew node (.select false) [px, y, x] = .ok f' ∧ Rewrites f node f' ∧ f'.WellTyped := by
  have hoe := operandsExist_of_wellTyped hf
  have hgy : g.tyOf y = f.tyOf node := (hb.ext.tyOf_of_lt (lt_size_of_reachPlus hoe hy)).trans hyTy
  have hgx : g.tyOf x = f.tyOf node := (hb.ext.tyOf_of_lt (lt_size_of_reachPlus hoe hx)).trans hxTy
  refine hb.rewrites (.select false) [px, y, x] hoe hn (by simp [Usable, hpx, hy, hx])
    (by simp [hpxTy, hgy, hgx, Op.verify, Op.resultType]) (by simp [hgy, Op.resultType]) fun env henv v hv => ?_
  obtain ⟨β, xv, yv, hp, hxv, hyv, rfl⟩ := hsem env henv v hv
  exact ⟨_, .cons hp (.cons (hb.ext.eval hyv) (.cons (hb.ext.eval hxv) .nil)), sem_twoWaySelect env _ β yv xv⟩

section CommonCase

variable {p₀ p₁ a b : Nat} (hf : f.WellTyped) (hsel : twoWaySelect f node = some (p₀, c₀, c₁))
include hf hsel

/-- `sel0 = select(p0, [sel1, x])`, `sel1 = select(p1, [x, y])`: `p_x = p0 | !p1`. -/
theorem collapseCommonCase_spec₁ (hsel₁ : twoWaySelect f c₀ = some (p₁, a, b)) (hx : c₁ = a) :
    ∃ f', collapseCommonCase f node = .ok (some f') ∧ Rewrites f node f' ∧ f'.WellTyped := by
  subst hx
  obtain ⟨hnd, hp₀, h₀, h₁⟩ := twoWaySelect_spec hf hsel
  obtain ⟨hnd₁, hp₁, -, hb⟩ := twoWaySelect_spec hf hsel₁
  have hoe := operandsExist_of_wellTyped hf
  have hr₀ : f.ReachPlus node c₀ := ReachPlus.of_mem hnd (by simp)
  have hrp₀ : f.ReachPlus node p₀ := ReachPlus.of_mem hnd (by simp)
  have hrp₁ : f.ReachPlus node p₁ := hr₀.trans_reach (.step hnd₁ (by simp) (.refl _))
  have hp₀l := lt_size_of_reachPlus hoe hrp₀
  have hp₁l := lt_size_of_reachPlus hoe hrp₁
  have hb₁ : Builds f node (f.makeNode .not [p₁]).1 :=
    (Builds.start hf).makeNode hoe (by simp [Usable, hrp₁]) (by simp [Op.verify, Op.resultType, Ty.isBits, hp₁])
  have hb₂ : Builds f node ((f.makeNode .not [p₁]).1.makeNode .or [p₀, f.size]).1 :=
    hb₁.makeNode hoe (by simp [Usable, Fresh, hrp₀]) (by
      simp (disch := omega) [tyOf_makeNode, if_neg, hp₀, hp₁, Op.verify, Op.resultType, Ty.isBits])
  obtain ⟨f', h, hr⟩ := rewrites_of_collapse hb₂ hf (lt_size_of_node hnd) (f.makeNode .not [p₁]).1.size b c₁
    (by simp_arith [Fresh]) (by simp (disch := omega) [tyOf_makeNode, if_neg, hp₀, Op.resultType])
    (hr₀.trans_reach (.step hnd₁ (by simp) (.refl _))) (ReachPlus.of_mem hnd (by simp)) (hb.trans h₀) h₁
    fun env henv v hv => by
      obtain ⟨β₀, v₀, v₁, hβ₀, hv₀, hv₁, rfl⟩ := eval_twoWaySelect hf henv hsel hv
      obtain ⟨β₁, va, vb, hβ₁, hva, hvb, rfl⟩ := eval_twoWaySelect hf henv hsel₁ hv₀
      cases eval_unique hv₁ hva
      refine ⟨β₀ || !β₁, _, _, eval_makeNode_self (.cons (eval_makeNode hβ₀)
        (.cons (eval_makeNode_self (.cons hβ₁ .nil) (sem_not_single env _ β₁)) .nil)) (sem_or_single env _ _ _),
        hv₁, hvb, ?_⟩
      cases β₀ <;> cases β₁ <;> rfl
  simp only [size_makeNode] at h
  exact ⟨f', by simp [collapseCommonCase, hsel, hsel₁, h], hr⟩

/-- `sel0 = select(p0, [sel1, x])`, `sel1 = select(p1, [y, x])`: `p_x = p0 | p1`. -/
theorem collapseCommonCase_spec₂ (hsel₁ : twoWaySelect f c₀ = some (p₁, a, b)) (hx : c₁ = b) (hne : c₁ ≠ a) :
    ∃ f', collapseCommonCase f node = .ok (some f') ∧ Rewrites f node f' ∧ f'.WellTyped := by
  subst hx
  obtain ⟨hnd, hp₀, h₀, h₁⟩ := twoWaySelect_spec hf hsel
  obtain ⟨hnd₁, hp₁, ha, -⟩ := twoWaySelect_spec hf hsel₁
  have hoe := operandsExist_of_wellTyped hf
  have hr₀ : f.ReachPlus node c₀ := ReachPlus.of_mem hnd (by simp)
  have hrp₀ : f.ReachPlus node p₀ := ReachPlus.of_mem hnd (by simp)
  have hrp₁ : f.ReachPlus node p₁ := hr₀.trans_reach (.step hnd₁ (by simp) (.refl _))
  have hb₁ : Builds f node (f.makeNode .or [p₀, p₁]).1 :=
    (Builds.start hf).makeNode hoe (by simp [Usable, hrp₀, hrp₁]) (by simp [Op.verify, Op.resultType, Ty.isBits, hp₀, hp₁])
  obtain ⟨f', h, hr⟩ := rewrites_of_collapse hb₁ hf (lt_size_of_node hnd) f.size a c₁ (by simp [Fresh])
    (by simp [hp₀, Op.resultType]) (hr₀.trans_reach (.step hnd₁ (by simp) (.refl _))) (ReachPlus.of_mem hnd (by simp))
    (ha.trans h₀) h₁ fun env henv v hv => by
      obtain ⟨β₀, v₀, v₁, hβ₀, hv₀, hv₁, rfl⟩ := eval_twoWaySelect hf henv hsel hv
      obtain ⟨β₁, va, vb, hβ₁, hva, hvb, rfl⟩ := eval_twoWaySelect hf henv hsel₁ hv₀
      cases eval_unique hv₁ hvb
      refine ⟨β₀ || β₁, _, _, eval_makeNode_self (.cons hβ₀ (.cons hβ₁ .nil)) (sem_or_single env _ _ _), hv₁, hva, ?_⟩
      cases β₀ <;> cases β₁ <;> rfl
  exact ⟨f', by simp [collapseCommonCase, hsel, hsel₁, hne, h], hr⟩

/-- `sel0 = select(p0, [x, sel1])`, `sel1 = select(p1, [x, y])`, case 0 no
    two-way select: `p_x = nand(p0, p1)`. -/
theorem collapseCommonCase_spec₃ (hsel₀ : twoWaySelect f c₀ = none) (hsel₁ : twoWaySelect f c₁ = some (p₁, a, b))
    (hx : c₀ = a) : ∃ f', collapseCommonCase f node = .ok (some f') ∧ Rewrites f node f' ∧ f'.WellTyped := by
  subst hx
  obtain ⟨hnd, hp₀, h₀, h₁⟩ := twoWaySelect_spec hf hsel
  obtain ⟨hnd₁, hp₁, -, hb⟩ := twoWaySelect_spec hf hsel₁
  have hoe := operandsExist_of_wellTyped hf
  have hr₁ : f.ReachPlus node c₁ := ReachPlus.of_mem hnd (by simp)
  have hrp₀ : f.ReachPlus node p₀ := ReachPlus.of_mem hnd (by simp)
  have hrp₁ : f.ReachPlus node p₁ := hr₁.trans_reach (.step hnd₁ (by simp) (.refl _))
  have hb₁ : Builds f node (f.makeNode .nand [p₀, p₁]).1 :=
    (Builds.start hf).makeNode hoe (by simp [Usable, hrp₀, hrp₁]) (by simp [Op.verify, Op.resultType, Ty.isBits, hp₀, hp₁])
  obtain ⟨f', h, hr⟩ := rewrites_of_collapse hb₁ hf (lt_size_of_node hnd) f.size b c₀ (by simp [Fresh])
    (by simp [hp₀, Op.resultType]) (hr₁.trans_reach (.step hnd₁ (by simp) (.refl _))) (ReachPlus.of_mem hnd (by simp))
    (hb.trans h₁) h₀ fun env henv v hv => by
      obtain ⟨β₀, v₀, v₁, hβ₀, hv₀, hv₁, rfl⟩ := eval_twoWaySelect hf henv hsel hv
      obtain ⟨β₁, va, vb, hβ₁, hva, hvb, rfl⟩ := eval_twoWaySelect hf henv hsel₁ hv₁
      cases eval_unique hv₀ hva
      refine ⟨!(β₀ && β₁), _, _, eval_makeNode_self (.cons hβ₀ (.cons hβ₁ .nil)) (sem_nand_single env _ _ _), hv₀,
        hvb, ?_⟩
      cases β₀ <;> cases β₁ <;> rfl
  exact ⟨f', by simp [collapseCommonCase, hsel, hsel₀, hsel₁, h], hr⟩

/-- `sel0 = select(p0, [x, sel1])`, `sel1 = select(p1, [y, x])`, case 0 no
    two-way select: `p_x = !p0 | p1`. -/
theorem collapseCommonCase_spec₄ (hsel₀ : twoWaySelect f c₀ = none) (hsel₁ : twoWaySelect f c₁ = some (p₁, a, b))
    (hx : c₀ = b) (hne : c₀ ≠ a) :
    ∃ f', collapseCommonCase f node = .ok (some f') ∧ Rewrites f node f' ∧ f'.WellTyped := by
  subst hx
  obtain ⟨hnd, hp₀, h₀, h₁⟩ := twoWaySelect_spec hf hsel
  obtain ⟨hnd₁, hp₁, ha, -⟩ := twoWaySelect_spec hf hsel₁
  have hoe := operandsExist_of_wellTyped hf
  have hr₁ : f.ReachPlus node c₁ := ReachPlus.of_mem hnd (by simp)
  have hrp₀ : f.ReachPlus node p₀ := ReachPlus.of_mem hnd (by simp)
  have hrp₁ : f.ReachPlus node p₁ := hr₁.trans_reach (.step hnd₁ (by simp) (.refl _))
  have hp₀l := lt_size_of_reachPlus hoe hrp₀
  have hp₁l := lt_size_of_reachPlus hoe hrp₁
  have hb₁ : Builds f node (f.makeNode .not [p₀]).1 :=
    (Builds.start hf).makeNode hoe (by simp [Usable, hrp₀]) (by simp [Op.verify, Op.resultType, Ty.isBits, hp₀])
  have hb₂ : Builds f node ((f.makeNode .not [p₀]).1.makeNode .or [f.size, p₁]).1 :=
    hb₁.makeNode hoe (by simp [Usable, Fresh, hrp₁]) (by
      simp (disch := omega) [tyOf_makeNode, if_neg, hp₀, hp₁, Op.verify, Op.resultType, Ty.isBits])
  obtain ⟨f', h, hr⟩ := rewrites_of_collapse hb₂ hf (lt_size_of_node hnd) (f.makeNode .not [p₀]).1.size a c₀
    (by simp_arith [Fresh]) (by simp (disch := omega) [tyOf_makeNode, if_neg, hp₀, Op.resultType])
    (hr₁.trans_reach (.step hnd₁ (by simp) (.refl _))) (ReachPlus.of_mem hnd (by simp)) (ha.trans h₁) h₀
    fun env henv v hv => by
      obtain ⟨β₀, v₀, v₁, hβ₀, hv₀, hv₁, rfl⟩ := eval_twoWaySelect hf henv hsel hv
      obtain ⟨β₁, va, vb, hβ₁, hva, hvb, rfl⟩ := eval_twoWaySelect hf henv hsel₁ hv₁
      cases eval_unique hv₀ hvb
      refine ⟨!β₀ || β₁, _, _, eval_makeNode_self (.cons (eval_makeNode_self (.cons hβ₀ .nil) (sem_not_single env _ β₀))
        (.cons (eval_makeNode hβ₁) .nil)) (sem_or_single env _ _ _), hv₀, hva, ?_⟩
      cases β₀ <;> cases β₁ <;> rfl
  simp only [size_makeNode] at h
  exact ⟨f', by simp [collapseCommonCase, hsel, hsel₀, hsel₁, hne, h], hr⟩

end CommonCase

/-- The common-case collapse fires on every two-way select whose case 0 is a
    two-way select sharing its case 1, and, when its case 0 is no two-way
    select, on every one whose case 1 is a two-way select sharing its case 0;
    and whenever it fires it is a rewrite that keeps the function well typed:
    the new select has `sel0`'s value in every evaluation, whatever the values
    of `p0`, `p1`, `x` and `y`. -/
theorem commonCase_collapse (hf : f.WellTyped) (node : Nat) :
    (∀ p₀ c₀ c₁ p₁ a b, twoWaySelect f node = some (p₀, c₀, c₁) → twoWaySelect f c₀ = some (p₁, a, b) →
      c₁ = a ∨ c₁ = b → ∃ f', collapseCommonCase f node = .ok (some f') ∧ Rewrites f node f' ∧ f'.WellTyped) ∧
    (∀ p₀ c₀ c₁ p₁ a b, twoWaySelect f node = some (p₀, c₀, c₁) → twoWaySelect f c₀ = none →
      twoWaySelect f c₁ = some (p₁, a, b) → c₀ = a ∨ c₀ = b →
      ∃ f', collapseCommonCase f node = .ok (some f') ∧ Rewrites f node f' ∧ f'.WellTyped) ∧
    (∀ f', collapseCommonCase f node = .ok (some f') → Rewrites f node f' ∧ f'.WellTyped) := by
  refine ⟨fun p₀ c₀ c₁ p₁ a b hsel hsel₁ hx => ?_, fun p₀ c₀ c₁ p₁ a b hsel hsel₀ hsel₁ hx => ?_, fun f' h => ?_⟩
  · by_cases ha : c₁ = a
    · exact collapseCommonCase_spec₁ hf hsel hsel₁ ha
    · exact collapseCommonCase_spec₂ hf hsel hsel₁ (hx.resolve_left ha) ha
  · by_cases ha : c₀ = a
    · exact collapseCommonCase_spec₃ hf hsel hsel₀ hsel₁ ha
    · exact collapseCommonCase_spec₄ hf hsel hsel₀ hsel₁ (hx.resolve_left ha) ha
  · -- the branch that fired
    have key : (∃ f'', collapseCommonCase f node = .ok (some f'') ∧ Rewrites f node f'' ∧ f''.WellTyped) →
        Rewrites f node f' ∧ f'.WellTyped := fun ⟨f'', h'', hr⟩ => by
      cases h.symm.trans h''
      exact hr
    have h' := h
    unfold collapseCommonCase at h'
    split at h'
    · rename_i p₀ c₀ c₁ hsel
      split at h'
      · rename_i p₁ a b hsel₁
        split_ifs at h' with ha hb
        · exact key (collapseCommonCase_spec₁ hf hsel hsel₁ ha)
        · exact key (collapseCommonCase_spec₂ hf hsel hsel₁ hb ha)
        · cases h'
      · rename_i hsel₀
        split at h'
        · rename_i p₁ a b hsel₁
          split_ifs at h' with ha hb
          · exact key (collapseCommonCase_spec₃ hf hsel hsel₀ hsel₁ ha)
          · exact key (collapseCommonCase_spec₄ hf hsel hsel₀ hsel₁ hb ha)
          · cases h'
        · cases h'
    · cases h'

/-! ## Selects on one selector -/

theorem sameSelectorOperand_spec {p₀ i sel1 x : Nat} (h : sameSelectorOperand f p₀ i sel1 = some x) :
    ∃ a b, twoWaySelect f sel1 = some (p₀, a, b) ∧ x = if i = 1 then a else b := by
  unfold sameSelectorOperand at h
  split at h
  · rename_i p₁ a b hs
    by_cases hp : p₀ = p₁
    · rw [if_pos hp] at h
      subst hp
      exact ⟨a, b, hs, (Option.some.inj h).symm⟩
    · rw [if_neg hp] at h
      cases h
  · cases h

/-- Replacing a two-way select by the two-way select on its selector of two
    nodes below it and of its type, that picks its value in every evaluation,
    keeps the value of every node and the function well typed. -/
theorem setNode_twoWaySelect (hf : f.WellTyped) {p₀ : Nat} (hsel : twoWaySelect f node = some (p₀, c₀, c₁))
    {d₀ d₁ : Nat} (hr₀ : f.ReachPlus node d₀) (hr₁ : f.ReachPlus node d₁) (ht₀ : f.tyOf d₀ = f.tyOf node)
    (ht₁ : f.tyOf d₁ = f.tyOf node)
    (hval : ∀ env : Env, env.Typed → ∀ v, f.Eval env node v →
      ∃ β w₀ w₁, f.Eval env p₀ (.bits [β]) ∧ f.Eval env d₀ w₀ ∧ f.Eval env d₁ w₁ ∧ v = if β then w₁ else w₀) :
    (f.setNode node ⟨.select false, [p₀, d₀, d₁], f.tyOf node⟩).WellTyped ∧
      ∀ env : Env, env.Typed → ∀ m v, f.Eval env m v →
        (f.setNode node ⟨.select false, [p₀, d₀, d₁], f.tyOf node⟩).Eval env m v := by
  obtain ⟨hnd, hp, -, -⟩ := twoWaySelect_spec hf hsel
  have hoe := operandsExist_of_wellTyped hf
  have hrp : f.ReachPlus node p₀ := ReachPlus.of_mem hnd (by simp)
  have hn := lt_size_of_node hnd
  refine ⟨hf.setNode hn (verifyNode_iff.2 ⟨?_, ?_, noEmptyArray_tyOf hf node⟩) rfl,
    fun env henv m v hv => eval_setNode hn (fun v hv => ?_) (fun o ho hr => ?_) hv⟩
  · simp [lt_size_of_reachPlus hoe hrp, lt_size_of_reachPlus hoe hr₀, lt_size_of_reachPlus hoe hr₁]
  · simp [hp, ht₀, ht₁, Op.verify]
  · obtain ⟨β, w₀, w₁, hβ, h₀, h₁, rfl⟩ := hval env henv v hv
    exact ⟨_, .cons hβ (.cons h₀ (.cons h₁ .nil)), sem_twoWaySelect env _ β w₀ w₁⟩
  · simp only [List.mem_cons, List.mem_singleton, List.not_mem_nil, or_false] at ho
    rcases ho with rfl | rfl | rfl
    exacts [hrp.trans_reach hr, hr₀.trans_reach hr, hr₁.trans_reach hr]

section SameSelector

variable {p₀ a b : Nat} (hf : f.WellTyped) (hsel : twoWaySelect f node = some (p₀, c₀, c₁))
include hf hsel

/-- `sel0 = select(p, [sel1, c])`, `sel1 = select(p, [a, b])`: `sel0` reads `a`
    in place of `sel1`, which keeps every node's value. -/
theorem collapseSameSelector_spec₁ (hsel₁ : twoWaySelect f c₀ = some (p₀, a, b)) :
    collapseSameSelector f node = .ok (some (f.setNode node ⟨.select false, [p₀, a, c₁], f.tyOf node⟩)) ∧
      (f.setNode node ⟨.select false, [p₀, a, c₁], f.tyOf node⟩).WellTyped ∧
      ∀ env : Env, env.Typed → ∀ m v, f.Eval env m v →
        (f.setNode node ⟨.select false, [p₀, a, c₁], f.tyOf node⟩).Eval env m v := by
  obtain ⟨hnd, -, h₀, h₁⟩ := twoWaySelect_spec hf hsel
  obtain ⟨hnd₁, -, ha, -⟩ := twoWaySelect_spec hf hsel₁
  have hr₀ : f.ReachPlus node c₀ := ReachPlus.of_mem hnd (by simp)
  have hrep : f.replaceOperandNumber node 1 a = .ok (f.setNode node ⟨.select false, [p₀, a, c₁], f.tyOf node⟩) :=
    replaceOperandNumber_eq_ok.2 ⟨_, hnd, by simp [ha], rfl⟩
  refine ⟨by simp [collapseSameSelector, hsel, sameSelectorOperand, hsel₁, hrep],
    setNode_twoWaySelect hf hsel (hr₀.trans_reach (.step hnd₁ (by simp) (.refl _))) (ReachPlus.of_mem hnd (by simp))
      (ha.trans h₀) h₁ fun env henv v hv => ?_⟩
  obtain ⟨β, v₀, v₁, hβ, hv₀, hv₁, rfl⟩ := eval_twoWaySelect hf henv hsel hv
  obtain ⟨β', va, vb, hβ', hva, hvb, rfl⟩ := eval_twoWaySelect hf henv hsel₁ hv₀
  -- one selector, one value
  cases eval_unique hβ hβ'
  exact ⟨β, va, v₁, hβ, hva, hv₁, by cases β <;> rfl⟩

/-- `sel0 = select(p, [c, sel1])`, `sel1 = select(p, [a, b])`, case 0 no
    two-way select on `p`: `sel0` reads `b` in place of `sel1`, which keeps
    every node's value. -/
theorem collapseSameSelector_spec₂ (hsel₀ : sameSelectorOperand f p₀ 1 c₀ = none)
    (hsel₁ : twoWaySelect f c₁ = some (p₀, a, b)) :
    collapseSameSelector f node = .ok (some (f.setNode node ⟨.select false, [p₀, c₀, b], f.tyOf node⟩)) ∧
      (f.setNode node ⟨.select false, [p₀, c₀, b], f.tyOf node⟩).WellTyped ∧
      ∀ env : Env, env.Typed → ∀ m v, f.Eval env m v →
        (f.setNode node ⟨.select false, [p₀, c₀, b], f.tyOf node⟩).Eval env m v := by
  obtain ⟨hnd, -, h₀, h₁⟩ := twoWaySelect_spec hf hsel
  obtain ⟨hnd₁, -, -, hb⟩ := twoWaySelect_spec hf hsel₁
  have hr₁ : f.ReachPlus node c₁ := ReachPlus.of_mem hnd (by simp)
  have hrep : f.replaceOperandNumber node 2 b = .ok (f.setNode node ⟨.select false, [p₀, c₀, b], f.tyOf node⟩) :=
    replaceOperandNumber_eq_ok.2 ⟨_, hnd, by simp [hb], rfl⟩
  have hop : sameSelectorOperand f p₀ 2 c₁ = some b := by simp [sameSelectorOperand, hsel₁]
  refine ⟨by simp [collapseSameSelector, hsel, hsel₀, hop, hrep],
    setNode_twoWaySelect hf hsel (ReachPlus.of_mem hnd (by simp)) (hr₁.trans_reach (.step hnd₁ (by simp) (.refl _)))
      h₀ (hb.trans h₁) fun env henv v hv => ?_⟩
  obtain ⟨β, v₀, v₁, hβ, hv₀, hv₁, rfl⟩ := eval_twoWaySelect hf henv hsel hv
  obtain ⟨β', va, vb, hβ', hva, hvb, rfl⟩ := eval_twoWaySelect hf henv hsel₁ hv₁
  cases eval_unique hβ hβ'
  exact ⟨β, v₀, vb, hβ, hv₀, hvb, by cases β <;> rfl⟩

end SameSelector

/-- The same-selector collapse: on a two-way select whose case 0 is a two-way
    select on its selector, `ReplaceOperandNumber` puts that select's case 0 in
    its place; otherwise, on one whose case 1 is, that select's case 1; and
    whenever the rule fires every node keeps its value, the two-way select's
    own included, and the function stays well typed. -/
theorem sameSelector_collapse (hf : f.WellTyped) (node : Nat) :
    (∀ p₀ c₀ c₁ a b, twoWaySelect f node = some (p₀, c₀, c₁) → twoWaySelect f c₀ = some (p₀, a, b) →
      collapseSameSelector f node = .ok (some (f.setNode node ⟨.select false, [p₀, a, c₁], f.tyOf node⟩))) ∧
    (∀ p₀ c₀ c₁ a b, twoWaySelect f node = some (p₀, c₀, c₁) → (∀ a' b', twoWaySelect f c₀ ≠ some (p₀, a', b')) →
      twoWaySelect f c₁ = some (p₀, a, b) →
      collapseSameSelector f node = .ok (some (f.setNode node ⟨.select false, [p₀, c₀, b], f.tyOf node⟩))) ∧
    (∀ f', collapseSameSelector f node = .ok (some f') →
      f'.WellTyped ∧ ∀ env : Env, env.Typed → ∀ m v, f.Eval env m v → f'.Eval env m v) := by
  -- case 0 not a two-way select on the selector
  have hnone : ∀ p₀ c₀, (∀ a' b', twoWaySelect f c₀ ≠ some (p₀, a', b')) →
      sameSelectorOperand f p₀ 1 c₀ = none := fun p₀ c₀ hne => by
    cases h : sameSelectorOperand f p₀ 1 c₀ with
    | none => rfl
    | some x =>
      obtain ⟨a', b', h', -⟩ := sameSelectorOperand_spec h
      exact absurd h' (hne a' b')
  refine ⟨fun p₀ c₀ c₁ a b hsel hsel₁ => (collapseSameSelector_spec₁ hf hsel hsel₁).1,
    fun p₀ c₀ c₁ a b hsel hne hsel₁ => (collapseSameSelector_spec₂ hf hsel (hnone p₀ c₀ hne) hsel₁).1, fun f' h => ?_⟩
  have h' := h
  unfold collapseSameSelector at h'
  split at h'
  · rename_i p₀ c₀ c₁ hsel
    split at h'
    · rename_i x hx
      obtain ⟨a, b, hsel₁, rfl⟩ := sameSelectorOperand_spec hx
      obtain ⟨h'', hr⟩ := collapseSameSelector_spec₁ hf hsel hsel₁
      cases h.symm.trans h''
      exact hr
    · rename_i hsel₀
      split at h'
      · rename_i x hx
        obtain ⟨a, b, hsel₁, rfl⟩ := sameSelectorOperand_spec hx
        obtain ⟨h'', hr⟩ := collapseSameSelector_spec₂ hf hsel hsel₀ hsel₁
        cases h.symm.trans h''
        exact hr
      · cases h'
  · cases h'

/-- The same-selector collapse replaces one operand of the node. -/
theorem replaceOperandNumber_of_collapseSameSelector {f' : FunctionBase}
    (h : collapseSameSelector f node = .ok (some f')) : ∃ i x, f.replaceOperandNumber node i x = .ok f' := by
  unfold collapseSameSelector at h
  split at h
  · split at h
    · exact ⟨1, _, map_some_eq_ok.1 h⟩
    · split at h
      · exact ⟨2, _, map_some_eq_ok.1 h⟩
      · cases h
  · cases h

/-- The same-selector collapse keeps the function's meaning: it changes one
    operand of the node in place, so the table, its types and the return value
    stay, and every node keeps its value. -/
theorem collapseSameSelector_keeps (hf : f.WellTyped) {f' : FunctionBase}
    (h : collapseSameSelector f node = .ok (some f')) : Keeps f f' := by
  obtain ⟨hwt, hev⟩ := (sameSelector_collapse hf node).2.2 f' h
  obtain ⟨i, x, hr⟩ := replaceOperandNumber_of_collapseSameSelector h
  obtain ⟨nd, hnd, -, rfl⟩ := replaceOperandNumber_eq_ok.1 hr
  refine ⟨hwt, by simp, fun m _ => ?_, hev, fun env henv v hv => hev env henv _ v hv⟩
  by_cases hm : m = node
  · subst hm
    simp [tyOf, node_setNode_self (lt_size_of_node hnd), hnd]
  · simp [tyOf, node_setNode_ne hm]

/-- And it keeps a well-formed function well formed: it appends no node. -/
theorem collapseSameSelector_wellFormed (hf : f.WellFormed) {f' : FunctionBase}
    (h : collapseSameSelector f node = .ok (some f')) : f'.WellFormed := by
  obtain ⟨i, x, hr⟩ := replaceOperandNumber_of_collapseSameSelector h
  obtain ⟨nd, -, -, rfl⟩ := replaceOperandNumber_eq_ok.1 hr
  exact (collapseSameSelector_keeps hf.1 h).wellFormed_of_size_eq hf (size_setNode _ _)

/-! ## The two collapses -/

end SelectSimplification

end Xls
