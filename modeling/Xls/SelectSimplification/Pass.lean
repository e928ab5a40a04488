import Xls.SelectSimplification.SimplifyNode
import Xls.SelectSimplification.Split
import Xls.UnionQueryEngine

/-!
# The pass

`SelectSimplificationPass::RunOnFunctionBaseInternal`: the union of the
stateless and the ternary engine is populated once, on the function the pass
starts from; `SimplifyNode` is run on every node in turn (`TopoSort`), each
time on the function as the nodes before left it; and, with splits enabled,
the one-hot selects of the function after the sweep go through the split
worklist. The union engine reads the leaf widths of its answers off the node's
type when it is asked (`node->GetType()`); the engines it unites answer as they
do on the function of the moment (`passEngine`).

* `passEngine_spec`: on engines sound for a function, the union gives the rules
  what they need: sound answers for every bits node, tracked or not, ternary
  vectors as wide as their nodes, and (where some engine tracks each node of no
  bits) those nodes known to be all zeros;
* `Sound.of_keeps`: the facts an engine found before the sweep stay true for the
  whole pass: an engine sound for a well-formed function is sound for every
  function that keeps its meaning (it tracks only the function's nodes,
  `Sound.lt_size_of_isTracked`);
* `sweep_keeps`, `splitWorklist_keeps`: the sweep and the worklist keep the
  meaning of the function and keep it well formed, from the one-node lemmas by
  induction over their steps;
* `runOnFunctionBaseInternal_keeps`: the pass keeps the meaning of every
  well-formed function, in any order of its nodes, and leaves it well formed,
  whenever its engines answer soundly on the functions it goes through; and so
  `runOnFunctionBaseInternal_keeps_of_populated`, for the source's engines: one
  that answers from the function of the moment and others populated once;
* `runOnFunctionBaseInternal_unchanged`: the pass reports every change it
  makes, from `sweep_unchanged` and `splitWorklist_unchanged`.
-/

namespace Xls

open FunctionBase UnownedUnionQueryEngine

/-! ## The engine of the pass -/

namespace QueryEngine

variable {q : QueryEngine} {E E' : Set Evaluation} {shape shape' : Nat → List Nat}

/-- Sound answers stay sound for fewer evaluations, and for another shape that
    agrees on the tracked nodes. -/
theorem Sound.mono (hq : q.Sound E shape) (hE : E' ⊆ E) (hshape : ∀ n, q.isTracked n → shape' n = shape n) :
    q.Sound E' shape' where
  ternary_shape n ht := (hq.ternary_shape n ht).trans (hshape n ht).symm
  intervals_shape n ht := (hq.intervals_shape n ht).trans (hshape n ht).symm
  ternary ev hev := hq.ternary ev (hE hev)
  intervals ev hev := hq.intervals ev (hE hev)
  atMostOneTrue ls h ev hev := hq.atMostOneTrue ls h ev (hE hev)
  atLeastOneTrue ls h ev hev := hq.atLeastOneTrue ls h ev (hE hev)
  knownEquals a b h ev hev := hq.knownEquals a b h ev (hE hev)
  knownNotEquals a b h ev hev := hq.knownNotEquals a b h ev (hE hev)
  implies a b h ev hev := hq.implies a b h ev (hE hev)
  impliedNodeValue ps n r h ev hev := hq.impliedNodeValue ps n r h ev (hE hev)
  impliedNodeTernary ps n t h ev hev := hq.impliedNodeTernary ps n t h ev (hE hev)

/-- An engine sound for `f`'s evaluations tracks only `f`'s nodes: a node
    outside the table may take any value in an evaluation, one bits leaf or no
    leaf at all, and no tree of answers contains both. -/
theorem Sound.lt_size_of_isTracked {f : FunctionBase} (hq : q.Sound f.Evaluations shape) {n : Nat}
    (ht : q.isTracked n) : n < f.size := by
  by_contra hn
  obtain ⟨ev, ⟨env, henv, hev⟩, -⟩ := exists_evaluation Env.zero_typed
  have hin : ∀ v, (fun m => if m = n then some v else ev m) ∈ f.Evaluations := fun v =>
    ⟨env, henv, fun m hm => by simpa [show m ≠ n by omega] using hev m hm⟩
  have h₁ := (hq.ternary _ (hin (.bits [])) n (.bits []) (by simp) ht).length_eq
  have h₂ := (hq.ternary _ (hin (.tuple [])) n (.tuple []) (by simp) ht).length_eq
  simp [Value.leaves, Value.leavesList] at h₁ h₂
  simp [h₂] at h₁

end QueryEngine

namespace FunctionBase

variable {f g : FunctionBase}

/-- Every evaluation of a function that keeps the meaning of a well-formed `f`
    is one of `f`: `f` has a value at each node, which the function keeps. -/
theorem Keeps.evaluations_subset (hk : Keeps f g) (hf : f.WellFormed) : g.Evaluations ⊆ f.Evaluations := by
  rintro ev ⟨env, henv, hev⟩
  refine ⟨env, henv, fun n hn v => ⟨fun h => ?_, fun h => (hev n (lt_of_lt_of_le hn hk.size_le) v).2
    (hk.eval env henv n v h)⟩⟩
  obtain ⟨u, hu⟩ := total_of_wellFormed hf henv n hn
  rwa [eval_unique (hk.eval env henv n u hu) ((hev n (lt_of_lt_of_le hn hk.size_le) v).1 h)] at hu

end FunctionBase

namespace QueryEngine

variable {q : QueryEngine} {f g : FunctionBase}

/-- The facts an engine found on a well-formed `f` stay true of every function
    that keeps `f`'s meaning: its evaluations are `f`'s, and the nodes the
    engine tracks, `f`'s own, keep their types. So an engine populated once, on
    the function the pass starts from, answers soundly for the whole pass. -/
theorem Sound.of_keeps (hq : q.Sound f.Evaluations f.shape) (hf : f.WellFormed) (hk : Keeps f g) :
    q.Sound g.Evaluations g.shape :=
  hq.mono (hk.evaluations_subset hf) fun n ht => by
    simp only [FunctionBase.shape, hk.tyOf_eq n (hq.lt_size_of_isTracked ht)]

/-- The engine that tracks every bits node of `f` and knows of it only its
    width. -/
def knowsBitWidths (f : FunctionBase) : QueryEngine where
  populate := .ok .unchanged
  isTracked n := decide (n < f.size) && (f.tyOf n).isBits
  getTernary n := UnownedUnionQueryEngine.unknownTree (f.shape n)
  getIntervals n := (f.shape n).map IntervalSet.maximal
  atMostOneTrue _ := false
  atLeastOneTrue _ := false
  knownEquals _ _ := false
  knownNotEquals _ _ := false
  implies _ _ := false
  impliedNodeValue _ _ := none
  impliedNodeTernary _ _ := none

/-- A node `knowsBitWidths` tracks has a bits value of the node's width in every
    evaluation. -/
theorem knowsBitWidths_value (hf : f.WellTyped) {ev : Evaluation} (hev : ev ∈ f.Evaluations) {n : Nat} {v : Value}
    (hv : ev n = some v) (ht : (knowsBitWidths f).isTracked n) : ∃ b, v = .bits b ∧ f.shape n = [b.length] := by
  obtain ⟨env, henv, hev⟩ := hev
  simp only [knowsBitWidths, Bool.and_eq_true, decide_eq_true_eq] at ht
  have hty := hasType_of_eval hf henv ((hev n ht.1 v).1 hv)
  rw [Ty.isBits_iff.1 ht.2] at hty
  obtain ⟨b, rfl, hb⟩ := Value.hasType_bits_iff.1 hty
  exact ⟨b, rfl, by rw [FunctionBase.shape, Ty.isBits_iff.1 ht.2, hb]; rfl⟩

theorem knowsBitWidths_sound (hf : f.WellTyped) : (knowsBitWidths f).Sound f.Evaluations f.shape where
  ternary_shape _ _ := UnownedUnionQueryEngine.widths_unknownTree _
  intervals_shape _ _ := by simp [knowsBitWidths, Function.comp_def, IntervalSet.maximal]
  ternary ev hev n v hv ht := by
    obtain ⟨b, rfl, hshape⟩ := knowsBitWidths_value hf hev hv ht
    exact UnownedUnionQueryEngine.unknownTree_contains (by simp [hshape, Value.leaves])
  intervals ev hev n v hv ht := by
    obtain ⟨b, rfl, hshape⟩ := knowsBitWidths_value hf hev hv ht
    simpa [knowsBitWidths, hshape, Value.leaves] using UnownedUnionQueryEngine.maximal_leavesIn [b]
  atMostOneTrue _ h := by cases h
  atLeastOneTrue _ h := by cases h
  knownEquals _ _ h := by cases h
  knownNotEquals _ _ h := by cases h
  implies _ _ h := by cases h
  impliedNodeValue _ _ _ h := by cases h
  impliedNodeTernary _ _ _ h := by cases h

/-- `knowsBitWidths` tracks every node of no bits. -/
theorem knowsBitWidths_tracks {n : Nat} (hn : n < f.size) (hty : f.tyOf n = .bits 0) :
    (knowsBitWidths f).isTracked n := by
  simp [knowsBitWidths, hn, hty, Ty.isBits]

end QueryEngine

/-! ## What the union gives the rules -/

namespace UnownedUnionQueryEngine

variable {f : FunctionBase} {engines : List QueryEngine} {E : Set Evaluation} {shape : Nat → List Nat}

/-- What the pass needs of the engines it unites while the function is `f`:
    each answers soundly for `f`, and some engine tracks each node of no bits
    (the stateless engine tracks every node). -/
structure EnginesSound (engines : List QueryEngine) (f : FunctionBase) : Prop where
  sound : ∀ e ∈ engines, e.Sound f.Evaluations f.shape
  tracksZeroWidth : ∀ n < f.size, f.tyOf n = .bits 0 → ∃ e ∈ engines, e.isTracked n

/-- The union's tree for a node has the leaf widths of the node's type, whether
    an engine tracks the node or not. -/
theorem widths_getTernary (hs : ∀ e ∈ engines, e.Sound E shape) (n : Nat) :
    ((unownedUnionQueryEngine shape engines).getTernary n).map List.length = shape n := by
  simp only [unownedUnionQueryEngine]
  split
  · exact widths_getTernaryFrom (widths_unknownTree _) (fun e he ht => (hs e he).ternary_shape n ht) ‹_›
  · exact widths_unknownTree _

/-- On a bits node the union's tree is one vector, of the node's width. -/
theorem getTernary_of_bits (hs : ∀ e ∈ engines, e.Sound E f.shape) {n w : Nat} (hty : f.tyOf n = .bits w) :
    ∃ t, (unownedUnionQueryEngine f.shape engines).getTernary n = [t] ∧ t.length = w := by
  have h := widths_getTernary hs n
  simp only [FunctionBase.shape, hty, Ty.leafWidths] at h
  match hg : (unownedUnionQueryEngine f.shape engines).getTernary n, h with
  | [t], h => exact ⟨t, rfl, by simpa using h⟩

theorem tyOf_eq_bits_of_eval (hf : f.WellTyped) {env : Env} (henv : env.Typed) {n : Nat} {b : Bits}
    (hv : f.Eval env n (.bits b)) : f.tyOf n = .bits b.length := by
  have h := hasType_of_eval hf henv hv
  cases hty : f.tyOf n <;> rw [hty] at h <;> simp_all [Value.HasType, Value.typeCheck]

/-- The union of engines sound for a well-typed `f` answers as the rules need
    on every bits node, tracked or not: its vector holds the node's value (the
    unknown vector of the node's width where no engine tracks it). -/
theorem soundFor (hf : f.WellTyped) (hs : ∀ e ∈ engines, e.Sound f.Evaluations f.shape) :
    (unownedUnionQueryEngine f.shape engines).SoundFor f where
  allZeros := (union_sound hs).allZerosSound
  ternary env henv n b hv := by
    obtain ⟨ev, hev, hev'⟩ := exists_evaluation henv
    have hunk : List.Forall₂ TernaryVector.Contains (unknownTree (f.shape n)) [b] :=
      unknownTree_contains (by simp [FunctionBase.shape, tyOf_eq_bits_of_eval hf henv hv, Ty.leafWidths])
    obtain ⟨t, h, htc, -, -⟩ := getTernaryFrom_of_contains hunk
      fun e he het => (hs e he).ternary ev hev n _ (hev' n _ hv) het
    obtain _ | ⟨htb, hnil⟩ := htc
    cases hnil
    simpa [QueryEngine.ternary, unownedUnionQueryEngine, getTernaryChecked, h] using htb
  atMostOneBitTrue env henv n b hv hq i j hi hj := by
    obtain ⟨ev, hev, hev'⟩ := exists_evaluation henv
    -- a set bit of the node is a set bit of the evaluation at one of its locations
    have hbit : ∀ k, b[k]? = some true → (⟨n, k, 0⟩ : TreeBitLocation) ∈ QueryEngine.bitLocations n b.length ∧
        TreeBitLocation.bit ev ⟨n, k, 0⟩ = some true := fun k hk =>
      ⟨List.mem_map.2 ⟨k, List.mem_range.2 (List.getElem?_eq_some_iff.1 hk).1, rfl⟩,
        by simp [TreeBitLocation.bit, hev' n _ hv, Value.leaves, hk]⟩
    exact congrArg TreeBitLocation.bitIndex ((union_sound hs).atMostOneTrue _ hq ev hev _ (hbit i hi).1 _
      (hbit j hj).1 (hbit i hi).2 (hbit j hj).2)

/-- On engines that answer as the pass needs, the union gives `SimplifyNode`
    what its rules read: sound answers on every bits node, ternary vectors as
    wide as their nodes, and every node of no bits known to be all zeros. -/
theorem passEngine_spec (hf : f.WellTyped) (hs : EnginesSound engines f) :
    (unownedUnionQueryEngine f.shape engines).SoundFor f ∧
      (∀ n w, f.tyOf n = .bits w → ((unownedUnionQueryEngine f.shape engines).ternary n).length = w) ∧
      ∀ n < f.size, f.tyOf n = .bits 0 → (unownedUnionQueryEngine f.shape engines).isAllZeros n = true := by
  refine ⟨soundFor hf hs.sound, fun n w hty => ?_, fun n hn hty => ?_⟩
  · obtain ⟨t, ht, rfl⟩ := getTernary_of_bits hs.sound hty
    simp [QueryEngine.ternary, ht]
  · obtain ⟨t, ht, htl⟩ := getTernary_of_bits hs.sound hty
    obtain ⟨e, he, het⟩ := hs.tracksZeroWidth n hn hty
    rw [QueryEngine.isAllZeros, ht, List.length_eq_zero.1 htl]
    simpa [unownedUnionQueryEngine] using ⟨e, he, het⟩

end UnownedUnionQueryEngine

/-! ## The run -/

namespace SelectSimplification

section Definitions

variable (engines : FunctionBase → List QueryEngine) (hasSingleUse : FunctionBase → Nat → Bool)
  (narrowingEnabled splitsEnabled : Bool)

/-- The union engine of the pass while the function is `f`: the engines as they
    answer then, their answers read with the leaf widths of the nodes' types
    in `f`. -/
def passEngine (f : FunctionBase) : QueryEngine := unownedUnionQueryEngine f.shape (engines f)

/-- The loop over `TopoSort(func)`: `SimplifyNode` on each node of `order` in
    turn, on the function as the nodes before left it; whether a node changed,
    and the function after. -/
def sweep : List Nat → Bool → FunctionBase → Except String (Bool × FunctionBase)
  | [], changed, f => pure (changed, f)
  | node :: order, changed, f =>
    simplifyNode (passEngine engines f) (hasSingleUse f) narrowingEnabled splitsEnabled f node >>= fun
      | some f' => sweep order true f'
      | none => sweep order changed f

/-- The one-hot selects of `f`, in the order of its nodes. -/
def oneHotSelects (f : FunctionBase) : List Nat :=
  (List.range f.size).filter fun n => (f.node n).any (·.op == .oneHotSel)

/-- `RunOnFunctionBaseInternal` with the nodes in the order `order`: the engines
    populated once, on `f` (an error ends the pass); the sweep; and with splits
    enabled the worklist of the one-hot selects of the function after it, on
    the engine as it then is. The worklist ends within its measure
    (`splitWorklist_ne_none`), so its last branch is never taken. -/
def runOnFunctionBaseInternal (order : List Nat) (f : FunctionBase) : Except String (Bool × FunctionBase) := do
  let _ ← (passEngine engines f).populate
  let (changed, f) ← sweep engines hasSingleUse narrowingEnabled splitsEnabled order false f
  if splitsEnabled then
    match splitWorklist (passEngine engines f) (worklistMeasure f (oneHotSelects f)) f (oneHotSelects f) changed with
    | some r => (fun (f, changed) => (changed, f)) <$> r
    | none => throw "the split worklist ran past its measure"
  else pure (changed, f)

end Definitions

variable {engines : FunctionBase → List QueryEngine} {hasSingleUse : FunctionBase → Nat → Bool}
  {narrowingEnabled splitsEnabled : Bool} {f f' : FunctionBase}

/-- The sweep keeps the meaning of `f₀`, from any well-formed function that
    keeps it, and keeps the function well formed, whenever the engines answer
    as the pass needs on every function that keeps it: each node
    `SimplifyNode` rewrites keeps the meaning and gains no cycle. -/
theorem sweep_keeps {f₀ : FunctionBase} (hs : ∀ g, Keeps f₀ g → EnginesSound (engines g) g) :
    ∀ {order : List Nat} {changed changed' : Bool} {f f' : FunctionBase}, Keeps f₀ f → f.WellFormed →
      (∀ n ∈ order, n < f₀.size) →
      sweep engines hasSingleUse narrowingEnabled splitsEnabled order changed f = .ok (changed', f') →
      Keeps f₀ f' ∧ f'.WellFormed
  | [], _, _, _, _, hk, hwf, _, h => by cases h; exact ⟨hk, hwf⟩
  | node :: order, _, _, f, _, hk, hwf, horder, h => by
    obtain ⟨o, ho, h⟩ := except_bind_eq_ok.1 h
    have hrest : ∀ n ∈ order, n < f₀.size := fun n hn => horder n (.tail _ hn)
    cases o with
    | none => exact sweep_keeps hs hk hwf hrest h
    | some g =>
      obtain ⟨hq, hw, hzero⟩ := passEngine_spec hk.wellTyped (hs f hk)
      have hn := lt_of_lt_of_le (horder node (.head _)) hk.size_le
      exact sweep_keeps hs (hk.trans (simplifyNode_keeps hk.wellTyped hq hw hzero hn ho))
        (simplifyNode_wellFormed hk.wellTyped hq hw hzero hn hwf ho) hrest h

/-- The split worklist keeps the meaning of the function, from a worklist of
    its nodes, and keeps it well formed: each split is a rewrite that keeps
    the function well typed. -/
theorem splitWorklist_keeps {q : QueryEngine} : ∀ (fuel : Nat) {f f' : FunctionBase} {worklist : List Nat}
    {changed changed' : Bool}, f.WellFormed → (∀ x ∈ worklist, x < f.size) →
    splitWorklist q fuel f worklist changed = some (.ok (f', changed')) → Keeps f f' ∧ f'.WellFormed
  | _, _, _, [], _, _, hf, _, h => by
    simp only [splitWorklist, Option.some.injEq, Except.ok.injEq, Prod.mk.injEq] at h
    exact h.1 ▸ ⟨.refl hf.1, hf⟩
  | 0, _, _, _ :: _, _, _, _, _, h => by cases h
  | fuel + 1, f, _, ohs :: rest, _, _, hf, hnodes, h => by
    unfold splitWorklist at h
    split at h
    · cases h
    · rename_i news g hsplit
      have hrest : ∀ x ∈ rest, x < f.size := fun x hx => hnodes x (.tail _ hx)
      rcases maybeSplitOneHotSelect_spec hf.1 hsplit with ⟨rfl, rfl⟩ | ⟨w, -, ho⟩
      · exact splitWorklist_keeps fuel hf (by simpa using hrest) h
      · have hn := hnodes ohs (.head _)
        have hnodes' : ∀ x ∈ rest ++ news, x < g.size := fun x hx => by
          rcases List.mem_append.1 hx with hx | hx
          · exact lt_of_lt_of_le (hrest x hx) ho.rewrites.size_le
          · exact (ho.fresh x hx).1.2
        obtain ⟨hk, hwf⟩ := splitWorklist_keeps fuel (ho.rewrites.wellFormed hf hn ho.wellTyped) hnodes' h
        exact ⟨(ho.rewrites.keeps hf.1 hn ho.wellTyped).trans hk, hwf⟩

/-- The pass keeps the meaning of every well-formed function `f`, in any
    order of its nodes, whenever its engines answer as the pass needs on every
    function that keeps `f`'s meaning: the function after it is well formed,
    and under every typed environment each node of `f` keeps its type and its
    value, and the function returns what `f` returns. -/
theorem runOnFunctionBaseInternal_keeps (hf : f.WellFormed) (hs : ∀ g, Keeps f g → EnginesSound (engines g) g)
    {order : List Nat} (horder : ∀ n ∈ order, n < f.size) {changed : Bool}
    (h : runOnFunctionBaseInternal engines hasSingleUse narrowingEnabled splitsEnabled order f = .ok (changed, f')) :
    Keeps f f' ∧ f'.WellFormed := by
  obtain ⟨_, -, h⟩ := except_bind_eq_ok.1 h
  obtain ⟨⟨c, g⟩, hsweep, h⟩ := except_bind_eq_ok.1 h
  obtain ⟨hk, hwf⟩ := sweep_keeps hs (.refl hf.1) hf horder hsweep
  dsimp only at h
  split at h
  · split at h
    · rename_i r hr
      cases r with
      | error e => cases h
      | ok p =>
        obtain ⟨g', c'⟩ := p
        cases h
        obtain ⟨hk', hwf'⟩ := splitWorklist_keeps _ hwf (fun x hx => List.mem_range.1 (List.mem_filter.1 hx).1) hr
        exact ⟨hk.trans hk', hwf'⟩
    · cases h
  · cases h
    exact ⟨hk, hwf⟩

/-- The pass with the engines the source unites: one that answers from the
    function as it is when asked (`StatelessQueryEngine`), sound for every
    well-typed function and tracking each of its nodes of no bits, and engines
    populated once, on `f` (`TernaryQueryEngine`), and never again. It keeps
    the meaning of every well-formed `f`, in any order of its nodes, and
    leaves it well formed: the facts found on `f` stay true of every function
    the pass goes through. -/
theorem runOnFunctionBaseInternal_keeps_of_populated {stateless : FunctionBase → QueryEngine}
    (hstateless : ∀ g : FunctionBase, g.WellTyped → (stateless g).Sound g.Evaluations g.shape)
    (htracks : ∀ g : FunctionBase, ∀ n < g.size, g.tyOf n = .bits 0 → (stateless g).isTracked n)
    {populated : List QueryEngine} (hf : f.WellFormed) (hp : ∀ e ∈ populated, e.Sound f.Evaluations f.shape)
    {order : List Nat} (horder : ∀ n ∈ order, n < f.size) {changed : Bool}
    (h : runOnFunctionBaseInternal (fun g => stateless g :: populated) hasSingleUse narrowingEnabled splitsEnabled
      order f = .ok (changed, f')) : Keeps f f' ∧ f'.WellFormed :=
  runOnFunctionBaseInternal_keeps hf (fun g hk =>
    ⟨List.forall_mem_cons.2 ⟨hstateless g hk.wellTyped, fun e he => (hp e he).of_keeps hf hk⟩,
      fun n hn hty => ⟨_, .head _, htracks g n hn hty⟩⟩) horder h

/-- `sel(p, cases=[x, x])`, with `p` a one-bit and `x` a two-bit parameter. -/
def selectOfSameCase : FunctionBase :=
  ⟨[⟨.param 0, [], .bits 1⟩, ⟨.param 1, [], .bits 2⟩, ⟨.select false, [0, 1, 1], .bits 2⟩], 2⟩

theorem selectOfSameCase_wellFormed : selectOfSameCase.WellFormed :=
  ⟨by decide, id, fun n nd h o ho => by
    rcases n with _ | _ | _ | n <;> cases h <;> simp [selectOfSameCase] at ho ⊢
    omega⟩

/-- The pass on `sel(p, cases=[x, x])`, with `knowsBitWidths` of the function
    of the moment and of the function the pass starts from: the select
    collapses to `x`, and the function keeps its meaning and stays well
    formed. -/
theorem runOnFunctionBaseInternal_keeps_selectOfSameCase :
    runOnFunctionBaseInternal (fun g => [QueryEngine.knowsBitWidths g, QueryEngine.knowsBitWidths selectOfSameCase])
        (fun _ _ => false) true true [0, 1, 2] selectOfSameCase = .ok (true, selectOfSameCase.rewire 2 1) ∧
      Keeps selectOfSameCase (selectOfSameCase.rewire 2 1) ∧ (selectOfSameCase.rewire 2 1).WellFormed :=
  have h : runOnFunctionBaseInternal
      (fun g => [QueryEngine.knowsBitWidths g, QueryEngine.knowsBitWidths selectOfSameCase])
      (fun _ _ => false) true true [0, 1, 2] selectOfSameCase = .ok (true, selectOfSameCase.rewire 2 1) := rfl
  ⟨h, runOnFunctionBaseInternal_keeps_of_populated (fun _ hg => QueryEngine.knowsBitWidths_sound hg)
    (fun _ _ hn hty => QueryEngine.knowsBitWidths_tracks hn hty) selectOfSameCase_wellFormed
    (List.forall_mem_singleton.2 (QueryEngine.knowsBitWidths_sound (by decide))) (by decide) h⟩

/-! ## The changed flag -/

/-- A sweep that reports no change left the function as it was, and found
    nothing to do at any node of the order. -/
theorem sweep_unchanged : ∀ {order : List Nat} {changed : Bool} {f g : FunctionBase},
    sweep engines hasSingleUse narrowingEnabled splitsEnabled order changed f = .ok (false, g) →
    changed = false ∧ g = f ∧
      ∀ n ∈ order, simplifyNode (passEngine engines f) (hasSingleUse f) narrowingEnabled splitsEnabled f n = .ok none
  | [], _, _, _, h => by cases h; exact ⟨rfl, rfl, by simp⟩
  | node :: order, _, f, _, h => by
    obtain ⟨o, ho, h⟩ := except_bind_eq_ok.1 h
    cases o with
    | some f' => exact Bool.noConfusion (sweep_unchanged h).1
    | none =>
      obtain ⟨rfl, rfl, hall⟩ := sweep_unchanged h
      exact ⟨rfl, rfl, List.forall_mem_cons.2 ⟨ho, hall⟩⟩

/-- A worklist that reports no split was given no change. -/
theorem splitWorklist_changed_eq_false {q : QueryEngine} : ∀ (fuel : Nat) {f f' : FunctionBase}
    {worklist : List Nat} {changed : Bool},
    splitWorklist q fuel f worklist changed = some (.ok (f', false)) → changed = false
  | _, _, _, [], _, h => by
    simp only [splitWorklist, Option.some.injEq, Except.ok.injEq, Prod.mk.injEq] at h
    exact h.2
  | 0, _, _, _ :: _, _, h => by cases h
  | fuel + 1, f, _, ohs :: rest, _, h => by
    unfold splitWorklist at h
    split at h
    · cases h
    · exact (Bool.or_eq_false_iff.1 (splitWorklist_changed_eq_false fuel h)).1

/-- A worklist that reports no split, over selects that all have bits, leaves
    the function as it was: the split of a select with bits returns no select
    only when it leaves the function as it is. -/
theorem splitWorklist_unchanged {q : QueryEngine} : ∀ (fuel : Nat) {f f' : FunctionBase} {worklist : List Nat}
    {changed : Bool}, f.WellTyped → (∀ x ∈ worklist, f.tyOf x ≠ .bits 0) →
    splitWorklist q fuel f worklist changed = some (.ok (f', false)) → f' = f
  | _, _, _, [], _, _, _, h => by
    simp only [splitWorklist, Option.some.injEq, Except.ok.injEq, Prod.mk.injEq] at h
    exact h.1.symm
  | 0, _, _, _ :: _, _, _, _, h => by cases h
  | fuel + 1, f, _, ohs :: rest, _, hf, hbits, h => by
    unfold splitWorklist at h
    split at h
    · cases h
    · rename_i news g hsplit
      rcases maybeSplitOneHotSelect_spec hf hsplit with ⟨rfl, rfl⟩ | ⟨w, hw, ho⟩
      · rw [List.append_nil] at h
        exact splitWorklist_unchanged fuel hf (fun x hx => hbits x (.tail _ hx)) h
      · -- the select has bits, so the split returned at least two selects
        have hnews : news ≠ [] := by
          rcases ho.count with ⟨rfl, -⟩ | h2
          · exact absurd hw (hbits ohs (.head _))
          · exact List.ne_nil_of_length_pos (by omega)
        have := (Bool.or_eq_false_iff.1 (splitWorklist_changed_eq_false fuel h)).2
        simp [hnews] at this

/-- After a sweep that found nothing to do at any node, with splits enabled
    and an engine that knows each node of no bits to be all zeros, no one-hot
    select of the function has no bits: the mask rule would have turned it
    into a zero literal. -/
theorem tyOf_ne_bits_zero_of_sweep (hf : f.WellTyped) (hs : EnginesSound (engines f) f) {order : List Nat}
    (horder : ∀ n < f.size, n ∈ order)
    (hnone : ∀ n ∈ order, simplifyNode (passEngine engines f) (hasSingleUse f) narrowingEnabled true f n = .ok none) :
    ∀ x ∈ oneHotSelects f, f.tyOf x ≠ .bits 0 := by
  intro x hx hty
  obtain ⟨hlt, hohs⟩ := List.mem_filter.1 hx
  have hlt := List.mem_range.1 hlt
  obtain ⟨⟨op, ops, ty⟩, hnd⟩ : ∃ nd, f.node x = some nd := Option.ne_none_iff_exists'.1 fun h => by simp [h] at hohs
  obtain rfl : op = .oneHotSel := by simpa [hnd] using hohs
  obtain rfl : ty = .bits 0 := (tyOf_of_node hnd).symm.trans hty
  cases ops with
  | nil => simpa [verifyNode, Op.verify] using verifyNode_of_wellTyped hf hnd
  | cons s cases =>
    obtain ⟨-, hzero⟩ := (passEngine_spec hf hs).2
    obtain ⟨-, -, hcases⟩ := verify_oneHotSel (.inl rfl) hf hnd
    obtain ⟨g, hg⟩ := maybeConvertSelectToMask_of_allZeros hnd fun c hc =>
      hzero c (operandsExist_of_wellTyped hf _ _ hnd c (.tail _ hc)) (hcases c hc)
    exact maybeConvertSelectToMask_of_simplifyNode (hnone x (horder x hlt)) g hg

/-- The pass reports every change it makes: when it returns that nothing
    changed, the function is the one it started from. This needs every node
    visited (`TopoSort` lists them all) and engines that know each node of no
    bits to be all zeros: the split of a one-hot select of no bits changes the
    function yet returns no select, and it is the sweep's mask rule that turns
    such a select into a zero literal first. -/
theorem runOnFunctionBaseInternal_unchanged (hf : f.WellTyped) (hs : EnginesSound (engines f) f)
    {order : List Nat} (horder : ∀ n < f.size, n ∈ order)
    (h : runOnFunctionBaseInternal engines hasSingleUse narrowingEnabled splitsEnabled order f = .ok (false, f')) :
    f' = f := by
  obtain ⟨_, -, h⟩ := except_bind_eq_ok.1 h
  obtain ⟨⟨c, g⟩, hsweep, h⟩ := except_bind_eq_ok.1 h
  dsimp only at h
  split at h
  · rename_i hsplits
    split at h
    · rename_i r hr
      cases r with
      | error e => cases h
      | ok p =>
        obtain ⟨g', c'⟩ := p
        cases h
        obtain rfl := splitWorklist_changed_eq_false _ hr
        obtain ⟨-, rfl, hnone⟩ := sweep_unchanged hsweep
        subst hsplits
        exact splitWorklist_unchanged _ hf (tyOf_ne_bits_zero_of_sweep hf hs horder hnone) hr
    · cases h
  · cases h
    exact (sweep_unchanged hsweep).2.1

/-- `one_hot_sel(p, cases=[x, y])`, with `p`, `x` and `y` two-bit parameters. -/
def oneHotOfTwoParams : FunctionBase :=
  ⟨[⟨.param 0, [], .bits 2⟩, ⟨.param 1, [], .bits 2⟩, ⟨.param 2, [], .bits 2⟩, ⟨.oneHotSel, [0, 1, 2], .bits 2⟩], 3⟩

/-- The pass finds nothing to do on `one_hot_sel(p, cases=[x, y])`, and any run
    of it there that reports no change returns the function as it was. -/
theorem runOnFunctionBaseInternal_unchanged_oneHotOfTwoParams :
    runOnFunctionBaseInternal (fun g => [QueryEngine.knowsBitWidths g]) (fun _ _ => false) true true [0, 1, 2, 3]
      oneHotOfTwoParams = .ok (false, oneHotOfTwoParams) ∧
    ∀ f', runOnFunctionBaseInternal (fun g => [QueryEngine.knowsBitWidths g]) (fun _ _ => false) true true
      [0, 1, 2, 3] oneHotOfTwoParams = .ok (false, f') → f' = oneHotOfTwoParams :=
  ⟨rfl, fun _ h => runOnFunctionBaseInternal_unchanged (by decide)
    ⟨List.forall_mem_singleton.2 (QueryEngine.knowsBitWidths_sound (by decide)),
      fun _ hn hty => ⟨_, .head _, QueryEngine.knowsBitWidths_tracks hn hty⟩⟩ (by decide) h⟩

end SelectSimplification

end Xls
