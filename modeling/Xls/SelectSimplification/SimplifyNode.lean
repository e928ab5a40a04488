import Xls.SelectSimplification.MergeSelects
import Xls.SelectSimplification.Mask
import Xls.SelectSimplification.IdenticalCases
import Xls.SelectSimplification.Squeeze
import Xls.SelectSimplification.SelectChains

/-!
# `SimplifyNode`

The rules of the pass, tried on one node in the order of the source: the first
that fires rewrites the node, and `SimplifyNode` returns; when none fires the
function is left as it is, and an error of a rule is the pass's.

* `firstRewrite_eq_some`, `firstRewrite_eq_none`: what the dispatcher returns
  is what one of its rules returns, and it finds nothing to do only when no
  rule does;
* `simplifyNode_fires`: whenever `SimplifyNode` changes a well-typed function,
  on an engine that answers soundly for it, with ternary vectors as wide as
  their nodes and every node of no bits known to be all zeros, the rule that
  fired is a rewrite of the node or the same-selector collapse; so
* `simplifyNode_keeps`, `simplifyNode_wellFormed`: the function keeps its
  meaning (`Keeps`): it stays well typed, and every node keeps its type and
  its value under every typed environment, the return value too; and it gains
  no cycle.
-/

namespace Xls

namespace SelectSimplification

open FunctionBase

/-- The first of the rules that fires: its function, `none` when none fires,
    the error of the first rule that fails before one fires. -/
def firstRewrite : List (Except String (Option FunctionBase)) → Except String (Option FunctionBase)
  | [] => pure none
  | r :: rs => r >>= fun
    | some f => pure (some f)
    | none => firstRewrite rs

/-- The mask rule of `SimplifyNode` (splits enabled): the function
    `MaybeConvertSelectToMask` leaves when it converts the node. -/
def convertToMask (q : QueryEngine) (f : FunctionBase) (splitsEnabled : Bool) (node : Nat) :
    Except String (Option FunctionBase) :=
  if splitsEnabled then
    (fun (convertedToMask, f) => if convertedToMask then some f else none) <$> maybeConvertSelectToMask q f node
  else pure none

/-- `SimplifyNode`: the rules in the order the source tries them. -/
def simplifyNode (q : QueryEngine) (hasSingleUse : Nat → Bool) (narrowingEnabled splitsEnabled : Bool)
    (f : FunctionBase) (node : Nat) : Except String (Option FunctionBase) :=
  firstRewrite
    [selectWithKnownSelector q f node,
     prioritySelectWithKnownSelector q f node,
     oneHotSelectWithKnownSelector q f node,
     selectWithIdenticalCases f node,
     oneHotOrPrioritySelectWithIdenticalCases f node,
     decomposeTupleSelect f node,
     commonOutOneHotCases f narrowingEnabled node,
     mergeAdjacentPriorityCases f splitsEnabled node,
     explodeSingleBitMux q f narrowingEnabled node,
     mergeConsecutiveSelects f hasSingleUse narrowingEnabled node,
     convertToMask q f splitsEnabled node,
     removeDeadCases q f narrowingEnabled splitsEnabled node,
     squeezeMux q f splitsEnabled node,
     collapseCommonCase f node,
     collapseSameSelector f node,
     decomposeSingleBitOneHotSelect f splitsEnabled node,
     oneHotOfSingleBitInput f narrowingEnabled node,
     oneHotOfMutuallyExclusiveInput q f node,
     oneHotWithOneUnknownBit q f node]

/-- What the dispatcher returns is what one of its rules returns. -/
theorem firstRewrite_eq_some : ∀ {rs : List (Except String (Option FunctionBase))} {f' : FunctionBase},
    firstRewrite rs = .ok (some f') → ∃ r ∈ rs, r = .ok (some f')
  | [], _, h => by cases h
  | r :: rs, f', h => by
    unfold firstRewrite at h
    obtain ⟨o, hr, h⟩ := except_bind_eq_ok.1 h
    cases o with
    | some g => exact ⟨r, .head _, by cases h; exact hr⟩
    | none =>
      obtain ⟨r', hr', h'⟩ := firstRewrite_eq_some h
      exact ⟨r', .tail _ hr', h'⟩

/-- When no rule fires, every rule found nothing to do. -/
theorem firstRewrite_eq_none : ∀ {rs : List (Except String (Option FunctionBase))},
    firstRewrite rs = .ok none → ∀ r ∈ rs, r = .ok none
  | [], _ => by simp
  | r :: rs, h => by
    unfold firstRewrite at h
    obtain ⟨o, hr, h⟩ := except_bind_eq_ok.1 h
    cases o with
    | some g => cases h
    | none => exact List.forall_mem_cons.2 ⟨hr, firstRewrite_eq_none h⟩

variable {q : QueryEngine} {f f' : FunctionBase} {node : Nat}

/-- With splits enabled, a node on which `SimplifyNode` finds nothing to do is
    one the mask rule leaves as it is. -/
theorem maybeConvertSelectToMask_of_simplifyNode {hasSingleUse : Nat → Bool} {narrowingEnabled : Bool}
    (h : simplifyNode q hasSingleUse narrowingEnabled true f node = .ok none) :
    ∀ g, maybeConvertSelectToMask q f node ≠ .ok (true, g) := fun g hg => by
  have hm := firstRewrite_eq_none h (convertToMask q f true node) (by simp)
  simp [convertToMask, hg, Functor.map, Except.map] at hm

theorem maybeConvertSelectToMask_of_convertToMask {splitsEnabled : Bool}
    (h : convertToMask q f splitsEnabled node = .ok (some f')) : maybeConvertSelectToMask q f node = .ok (true, f') := by
  unfold convertToMask at h
  split at h
  · cases hm : maybeConvertSelectToMask q f node with
    | error e => simp [hm, Functor.map, Except.map] at h
    | ok r =>
      obtain ⟨b, g⟩ := r
      cases b <;> simp [hm, Functor.map, Except.map] at h
      rw [h]
  · cases h

section Fires

variable (hf : f.WellTyped) (hq : q.SoundFor f) (hw : ∀ n w, f.tyOf n = .bits w → (q.ternary n).length = w)
  (hzero : ∀ n < f.size, f.tyOf n = .bits 0 → q.isAllZeros n = true)
  {hasSingleUse : Nat → Bool} {narrowingEnabled splitsEnabled : Bool}
include hf hq hw hzero

/-- Whenever `SimplifyNode` fires on a well-typed function, on an engine that
    answers soundly for it, whose ternary vectors are as wide as their nodes
    and which knows every node of no bits to be all zeros, the rule that fired
    is a rewrite of the node that keeps the function well typed, or the
    same-selector collapse, which changes one operand of the node in place. -/
theorem simplifyNode_fires (h : simplifyNode q hasSingleUse narrowingEnabled splitsEnabled f node = .ok (some f')) :
    (Rewrites f node f' ∧ f'.WellTyped) ∨ collapseSameSelector f node = .ok (some f') := by
  obtain ⟨r, hr, h⟩ := firstRewrite_eq_some h
  simp only [List.mem_cons, List.mem_singleton, List.not_mem_nil, or_false] at hr
  rcases hr with rfl | rfl | rfl | rfl | rfl | rfl | rfl | rfl | rfl | rfl | rfl | rfl | rfl | rfl | rfl | rfl |
    rfl | rfl | rfl
  · exact .inl (selectWithKnownSelector_rewrites hf hq h)
  · exact .inl (prioritySelectWithKnownSelector_rewrites hf hq h)
  · exact .inl (oneHotSelectWithKnownSelector_rewrites hf hq h)
  · exact .inl (selectWithIdenticalCases_rewrites hf h)
  · exact .inl (oneHotOrPrioritySelectWithIdenticalCases_rewrites hf h)
  · exact .inl (decomposeTupleSelect_rewrites hf h)
  · exact .inl (commonOutOneHotCases_rewrites hf h)
  · exact .inl (rewrites_of_mergeAdjacentPriorityCases hf h)
  · exact .inl (explodeSingleBitMux_rewrites hf h)
  · exact .inl (mergeConsecutiveSelects_rewrites hf h)
  · exact .inl (rewrites_of_maybeConvertSelectToMask hf hzero hq.allZeros (maybeConvertSelectToMask_of_convertToMask h))
  · exact .inl (removeDeadCases_rewrites hf hq h)
  · exact .inl (squeezeMux_rewrites_of_sound hf hq hw h)
  · exact .inl ((commonCase_collapse hf node).2.2 f' h)
  · exact .inr h
  · exact .inl (decomposeSingleBitOneHotSelect_rewrites hf h)
  · exact .inl (oneHotOfSingleBitInput_rewrites hf h)
  · exact .inl (oneHotOfMutuallyExclusiveInput_rewrites hf hq h)
  · exact .inl (oneHotWithOneUnknownBit_rewrites hf hq h)

variable (hn : node < f.size)
include hn

/-- So the function keeps its meaning (`Keeps`): it stays well typed, and
    every node keeps its type and its value under every typed environment, the
    return value too. -/
theorem simplifyNode_keeps (h : simplifyNode q hasSingleUse narrowingEnabled splitsEnabled f node = .ok (some f')) :
    Keeps f f' :=
  (simplifyNode_fires hf hq hw hzero h).elim (fun hr => hr.1.keeps hf hn hr.2) (collapseSameSelector_keeps hf)

/-- And a well-formed function stays well formed: no rule makes a cycle. -/
theorem simplifyNode_wellFormed (hwf : f.WellFormed)
    (h : simplifyNode q hasSingleUse narrowingEnabled splitsEnabled f node = .ok (some f')) : f'.WellFormed :=
  (simplifyNode_fires hf hq hw hzero h).elim (fun hr => hr.1.wellFormed hwf hn hr.2)
    (collapseSameSelector_wellFormed hwf)

end Fires

end SelectSimplification

end Xls
