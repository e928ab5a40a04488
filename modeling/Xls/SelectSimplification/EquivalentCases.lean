import Xls.SelectSimplification.Basic
import Mathlib.Algebra.BigOperators.Group.List
import Mathlib.Data.List.Destutter

/-!
# Selects with equal cases

Two rules common out cases that are one node. A `PrioritySelect` (splits
enabled) merges each run of adjacent equal cases into one case, selected by the
OR of the run's selector bits: the new selector is built from `BitSlice`s of
the old one, one over each stretch of consecutive runs of a single case, and
the `or_reduce` of one over each longer run. A `OneHotSelect` (narrowing
enabled) keeps each case node once, selected by the OR of the selector bits of
its copies.

* `groupAdjacentCases_spec`: the runs tile the selector bits, and each run's
  case repeated over its bits gives back the cases;
* `groupAdjacentCases_snd`: the cases kept are the cases with each run of
  adjacent equal ones collapsed (`destutter'`), so a run of two or more leaves
  fewer cases (`length_groupAdjacentCases_lt`);
* `prioritySelectValue_runCases`: the priority select over the runs, each
  selected by the OR of its bits, is the priority select over the cases;
* `selectorSlices_spec`: the pieces of the new selector, least significant
  first, are the OR of each run's bits;
* `commonOutCasesLoop_spec`: the one-hot select over the cases kept, each
  selected by the OR of the bits of its copies, is the one over the cases seen;
* `mergeAdjacentPriorityCases_rewrites`: the adjacent-case rule fires on every
  priority select (splits enabled) with a run of adjacent equal cases, and
  whenever it fires it is a rewrite of the node that keeps the function well
  typed (`mergeAdjacentPriorityCases_spec`, `rewrites_of_mergeAdjacentPriorityCases`);
* `commonOutOneHotCases_rewrites`: the one-hot rule is a rewrite of the node
  that keeps the function well typed;
* `commonOutOneHotCases_dedups`: every one-hot select with a repeated case node
  is rewritten, into one over its case nodes in the order of first occurrence
  (`eraseDups`) with one selector bit each.
-/

namespace Xls

namespace SelectSimplification

open FunctionBase

/-- `SelectorRange`: the selector bits `[start, start + width)`. -/
structure SelectorRange where
  start : Nat
  width : Nat
  deriving DecidableEq, Repr

section Definitions

variable (f : FunctionBase)

/-- The loop over the cases from case `i`, grouping adjacent identical cases:
    the range of selector bits of each run, and the run's case. -/
def groupAdjacentCases : List SelectorRange → List Nat → Nat → List Nat → List SelectorRange × List Nat
  | ranges, newCases, _, [] => (ranges, newCases)
  | ranges, newCases, i, oldCase :: cases =>
    if newCases.getLast? = some oldCase then
      groupAdjacentCases (ranges.modifyLast fun r => ⟨r.start, r.width + 1⟩) newCases (i + 1) cases
    else groupAdjacentCases (ranges ++ [⟨i, 1⟩]) (newCases ++ [oldCase]) (i + 1) cases

/-- `commit_original_slice`: the `BitSlice` of the selector over the pending
    ranges of one case each. -/
def commitOriginalSlice (selector : Nat) (f : FunctionBase) (slices : List Nat) :
    Option SelectorRange → FunctionBase × List Nat
  | none => (f, slices)
  | some r =>
    let (f, selectorSlice) := f.makeNode (.bitSlice r.start r.width) [selector]
    (f, slices ++ [selectorSlice])

/-- The loop over the ranges building the pieces of the new selector, least
    significant first: consecutive ranges of one bit share a `BitSlice`, a
    wider range is the `or_reduce` of its own. -/
def selectorSlices (selector : Nat) :
    FunctionBase → List Nat → Option SelectorRange → List SelectorRange → FunctionBase × List Nat
  | f, slices, current, [] => commitOriginalSlice selector f slices current
  | f, slices, current, range :: ranges =>
    if range.width = 1 ∧ current.isSome then
      selectorSlices selector f slices (current.map fun r => ⟨r.start, r.width + 1⟩) ranges
    else
      let (f, slices) := commitOriginalSlice selector f slices current
      if range.width = 1 then selectorSlices selector f slices (some ⟨range.start, 1⟩) ranges
      else
        let (f, selectorSlice) := f.makeNode (.bitSlice range.start range.width) [selector]
        let (f, selectorBit) := f.makeNode .orReduce [selectorSlice]
        selectorSlices selector f (slices ++ [selectorBit]) none ranges

/-- A `PrioritySelect` (splits enabled) with adjacent identical cases is
    replaced by one over a case per run, selected by the OR of the run's
    selector bits. -/
def mergeAdjacentPriorityCases (splitsEnabled : Bool) (node : Nat) : Except String (Option FunctionBase) :=
  match f.node node with
  | some ⟨.prioritySel, selector :: c :: cases, _⟩ =>
    if splitsEnabled then
      let (ranges, newCases) := groupAdjacentCases [⟨0, 1⟩] [c] 1 cases
      if newCases.length < (c :: cases).length then
        let (f, slices) := selectorSlices selector f [] none ranges
        let (f, newSelector) := f.makeNode .concat slices.reverse
        some <$> f.replaceUsesWithNew node .prioritySel (newSelector :: newCases)
      else pure none
    else pure none
  | _ => pure none

/-- The loop over the cases from case `i`: each case gets the `BitSlice` of its
    selector bit, and is kept as a new case the first time it is seen, its bit
    ORed into the selector bit of its first copy after. -/
def commonOutCasesLoop (selector : Nat) :
    FunctionBase → List Nat → List Nat → Nat → List Nat → FunctionBase × List Nat × List Nat
  | f, newSelectors, newCases, _, [] => (f, newSelectors, newCases)
  | f, newSelectors, newCases, i, oldCase :: cases =>
    let (f, oldSelector) := f.makeNode (.bitSlice i 1) [selector]
    match newCases.indexOf? oldCase with
    | none => commonOutCasesLoop selector f (newSelectors ++ [oldSelector]) (newCases ++ [oldCase]) (i + 1) cases
    | some index =>
      let (f, merged) := f.makeNode .or [newSelectors.getD index 0, oldSelector]
      commonOutCasesLoop selector f (newSelectors.set index merged) newCases (i + 1) cases

/-- A `OneHotSelect` (narrowing enabled) with a case node more than once is
    replaced by one over each case node once, selected by the OR of the
    selector bits of its copies. -/
def commonOutOneHotCases (narrowingEnabled : Bool) (node : Nat) : Except String (Option FunctionBase) :=
  match f.node node with
  | some ⟨.oneHotSel, selector :: cases, _⟩ =>
    if narrowingEnabled && !cases.isEmpty && !decide cases.Nodup then
      let (f, newSelectors, newCases) := commonOutCasesLoop selector f [] [] 0 cases
      let (f, newSelector) := f.makeNode .concat newSelectors.reverse
      some <$> f.replaceUsesWithNew node .oneHotSel (newSelector :: newCases)
    else pure none
  | _ => pure none

end Definitions

/-! ## Runs of cases -/

/-- The ranges tile the selector bits `[p, q)` in order, none empty. -/
def Tiles : Nat → List SelectorRange → Nat → Prop
  | p, [], q => p = q
  | p, r :: rs, q => r.start = p ∧ 0 < r.width ∧ Tiles (p + r.width) rs q

/-- The cases the runs stand for: each run's case once per bit of its range. -/
def runCases {α : Type} : List SelectorRange → List α → List α
  | r :: rs, x :: xs => List.replicate r.width x ++ runCases rs xs
  | _, _ => []

/-- The OR of the selector bits of a range. -/
def rangeOr (sb : Bits) (r : SelectorRange) : Bool := (BitsOps.slice sb r.start r.width).any id

theorem tiles_append {rs rs' : List SelectorRange} :
    ∀ {p q : Nat}, Tiles p (rs ++ rs') q ↔ ∃ m, Tiles p rs m ∧ Tiles m rs' q := by
  induction rs with
  | nil => simp [Tiles]
  | cons r rs ih =>
    intro p q
    rw [List.cons_append]
    simp only [Tiles, ih]
    constructor
    · rintro ⟨h₁, h₂, m, h₃, h₄⟩; exact ⟨m, ⟨h₁, h₂, h₃⟩, h₄⟩
    · rintro ⟨m, ⟨h₁, h₂, h₃⟩, h₄⟩; exact ⟨h₁, h₂, m, h₃, h₄⟩

theorem tiles_le : ∀ {p q : Nat} {rs : List SelectorRange}, Tiles p rs q → p ≤ q
  | _, _, [], h => le_of_eq h
  | _, _, _ :: _, ⟨_, _, h⟩ => le_trans (Nat.le_add_right _ _) (tiles_le h)

theorem runCases_append {α : Type} (rs' : List SelectorRange) (xs' : List α) :
    ∀ {rs : List SelectorRange} {xs : List α}, rs.length = xs.length →
      runCases (rs ++ rs') (xs ++ xs') = runCases rs xs ++ runCases rs' xs'
  | [], [], _ => rfl
  | _ :: _, _ :: _, h => by simp [runCases, runCases_append rs' xs' (by simpa using h)]
  | [], _ :: _, h | _ :: _, [], h => by simp at h

theorem mem_runCases {α : Type} {x : α} : ∀ {p q : Nat} {rs : List SelectorRange} {xs : List α},
    Tiles p rs q → rs.length = xs.length → x ∈ xs → x ∈ runCases rs xs
  | _, _, r :: _, _ :: _, ⟨_, hw, ht⟩, hl, .head _ =>
    List.mem_append_left _ (List.mem_replicate.2 ⟨by omega, rfl⟩)
  | _, _, _ :: _, _ :: _, ⟨_, _, ht⟩, hl, .tail _ hx =>
    List.mem_append_right _ (mem_runCases ht (by simpa using hl) hx)
  | _, _, [], [], _, _, hx => nomatch hx
  | _, _, [], _ :: _, _, hl, _ | _, _, _ :: _, [], _, hl, _ => by simp at hl

theorem forall₂_replicate {α β : Type} {R : α → β → Prop} {a : α} {b : β} (h : R a b) :
    ∀ n, List.Forall₂ R (List.replicate n a) (List.replicate n b)
  | 0 => .nil
  | n + 1 => .cons h (forall₂_replicate h n)

theorem forall₂_runCases {α β : Type} {R : α → β → Prop} :
    ∀ (rs : List SelectorRange) {xs : List α} {ys : List β}, List.Forall₂ R xs ys →
      List.Forall₂ R (runCases rs xs) (runCases rs ys)
  | [], _, _, _ => by simp [runCases]
  | _ :: _, _, _, .nil => by simp [runCases]
  | r :: rs, _, _, .cons h hs => List.rel_append (forall₂_replicate h r.width) (forall₂_runCases rs hs)

/-- Grouping the cases from case `i` extends the runs so far by the cases:
    the runs tile one more bit per case. -/
theorem groupAdjacentCases_spec : ∀ {cases : List Nat} {ranges ranges' : List SelectorRange}
    {newCases newCases' : List Nat} {i : Nat},
    Tiles 0 ranges i → ranges.length = newCases.length → newCases ≠ [] →
    groupAdjacentCases ranges newCases i cases = (ranges', newCases') →
    Tiles 0 ranges' (i + cases.length) ∧ ranges'.length = newCases'.length ∧
      runCases ranges' newCases' = runCases ranges newCases ++ cases
  | [], _, _, _, _, _, ht, hl, _, h => by
    cases h
    exact ⟨ht, hl, by simp⟩
  | c :: cases, ranges, _, newCases, _, i, ht, hl, hne, h => by
    have hlen : i + (c :: cases).length = i + 1 + cases.length := by simp only [List.length_cons]; omega
    unfold groupAdjacentCases at h
    split at h
    · -- the case of the last run: the run grows by a bit
      rename_i hlast
      obtain ⟨ncs, rfl⟩ := List.getLast?_eq_some_iff.1 hlast
      obtain ⟨rs, r, rfl⟩ : ∃ rs r, ranges = rs ++ [r] := by
        rcases List.eq_nil_or_concat ranges with rfl | ⟨rs, r, rfl⟩
        · simp at hl
        · exact ⟨rs, r, List.concat_eq_append ..⟩
      simp only [List.length_append, List.length_singleton, Nat.add_right_cancel_iff] at hl
      obtain ⟨m, hrs, hr⟩ := tiles_append.1 ht
      simp only [Tiles] at hr
      rw [List.modifyLast_append_one] at h
      obtain ⟨ht', hl', hrun⟩ := groupAdjacentCases_spec
        (tiles_append.2 ⟨m, hrs, by simp only [Tiles]; omega⟩) (by simp [hl]) (by simp) h
      refine ⟨hlen ▸ ht', hl', ?_⟩
      rw [hrun, runCases_append _ _ hl, runCases_append _ _ hl]
      simp [runCases, List.replicate_succ']
    · -- another case: a new run
      obtain ⟨ht', hl', hrun⟩ := groupAdjacentCases_spec
        (tiles_append.2 ⟨i, ht, by simp [Tiles]⟩) (by simp [hl]) (by simp) h
      refine ⟨hlen ▸ ht', hl', ?_⟩
      rw [hrun, runCases_append _ _ hl]
      simp [runCases]

section Values

variable (z v : Value)

theorem prioritySelectValue_nil_right : ∀ s : Bits, prioritySelectValue z s [] = z
  | [] => rfl
  | true :: _ => rfl
  | false :: _ => rfl

/-- A run of copies of `v`, one per selector bit of `bs`: `v` when a bit of
    `bs` is set, else the priority select over what follows. -/
theorem prioritySelectValue_append_replicate : ∀ (bs bs' : Bits) (cs : List Value),
    prioritySelectValue z (bs ++ bs') (List.replicate bs.length v ++ cs) =
      if bs.any id then v else prioritySelectValue z bs' cs
  | [], _, _ => rfl
  | true :: _, _, _ => rfl
  | false :: bs, bs', cs => prioritySelectValue_append_replicate bs bs' cs

theorem slice_eq_rangeOr {sb : Bits} {r : SelectorRange} (hw : r.width = 1) (hs : r.start < sb.length) :
    BitsOps.slice sb r.start 1 = [rangeOr sb r] := by
  simp [rangeOr, hw, BitsOps.slice_one hs]

/-- The priority select over the cases is the priority select over the runs,
    each selected by the OR of its selector bits. -/
theorem prioritySelectValue_runCases (sb : Bits) : ∀ {p q : Nat} {rs : List SelectorRange} {vs : List Value},
    Tiles p rs q → q ≤ sb.length → rs.length = vs.length →
      prioritySelectValue z (sb.drop p) (runCases rs vs) = prioritySelectValue z (rs.map (rangeOr sb)) vs
  | _, _, [], [], _, _, _ => prioritySelectValue_nil_right z _
  | p, q, r :: rs, v :: vs, ⟨hs, hw, ht⟩, hq, hl => by
    have hpq := tiles_le ht
    have hsplit : sb.drop p = BitsOps.slice sb p r.width ++ sb.drop (p + r.width) := by
      rw [BitsOps.slice, ← List.drop_drop, List.take_append_drop]
    have hrun := prioritySelectValue_append_replicate z v (BitsOps.slice sb p r.width) (sb.drop (p + r.width))
      (runCases rs vs)
    rw [BitsOps.length_slice (by omega)] at hrun
    simp only [runCases, List.map_cons]
    rw [hsplit, hrun, prioritySelectValue_runCases sb ht hq (by simpa using hl), rangeOr, hs]
    cases (BitsOps.slice sb p r.width).any id <;> rfl
  | _, _, [], _ :: _, _, _, hl | _, _, _ :: _, [], _, _, hl => by simp at hl

end Values

/-! ## The new selector -/

/-- The selector bits of the pending range of one-bit runs. -/
def pendingBits (sb : Bits) : Option SelectorRange → Bits
  | none => []
  | some r => BitsOps.slice sb r.start r.width

/-- The width of the pending range. -/
def pendingWidth : Option SelectorRange → Nat
  | none => 0
  | some r => r.width

/-- The pieces of the new selector built so far: new nodes of bits type,
    `width` bits in all. -/
structure SlicesState (f : FunctionBase) (node : Nat) (g : FunctionBase) (slices : List Nat) (width : Nat) :
    Prop where
  ext : Extends f (f.ReachPlus node) g
  wellTyped : g.WellTyped
  fresh : ∀ x ∈ slices, Fresh f g x ∧ (g.tyOf x).isBits
  width_eq : (slices.map fun x => (g.tyOf x).bitCount).sum = width

/-- Under `env` the pieces have values whose bits, least significant first,
    are `bs`. -/
def SlicesBits (g : FunctionBase) (env : Env) (slices : List Nat) (bs : Bits) : Prop :=
  ∃ vals, List.Forall₂ (g.Eval env) slices vals ∧ (vals.map Value.toBits).flatten = bs

namespace SlicesState

variable {f g : FunctionBase} {node k : Nat} {slices : List Nat} {op : Op} {ops : List Nat}

theorem init (hf : f.WellTyped) : SlicesState f node f [] 0 := ⟨.refl, hf, by simp, rfl⟩

/-- A new node over new nodes and nodes below `node` keeps the pieces. -/
theorem extend (hf : f.WellTyped) (hst : SlicesState f node g slices k)
    (hops : ∀ o ∈ ops, Fresh f g o ∨ f.ReachPlus node o)
    (hv : op.verify (ops.map g.tyOf) (op.resultType (ops.map g.tyOf))) :
    SlicesState f node (g.makeNode op ops).1 slices k where
  ext := hst.ext.makeNode hops
  wellTyped := hst.wellTyped.makeNode (fun o ho => (hops o ho).elim (·.2) fun h =>
    lt_of_lt_of_le (lt_size_of_reachPlus (operandsExist_of_wellTyped hf) h) hst.ext.size_le) hv
  fresh x hx := ⟨(hst.fresh x hx).1.makeNode, by rw [tyOf_makeNode_of_lt (hst.fresh x hx).1.2]; exact (hst.fresh x hx).2⟩
  width_eq := by
    rw [← hst.width_eq]
    exact congrArg List.sum (List.map_congr_left fun x hx => by rw [tyOf_makeNode_of_lt (hst.fresh x hx).1.2])

/-- A new node of bits type is a new piece. -/
theorem push (hf : f.WellTyped) (hst : SlicesState f node g slices k)
    (hops : ∀ o ∈ ops, Fresh f g o ∨ f.ReachPlus node o)
    (hv : op.verify (ops.map g.tyOf) (op.resultType (ops.map g.tyOf))) (hb : (op.resultType (ops.map g.tyOf)).isBits) :
    SlicesState f node (g.makeNode op ops).1 (slices ++ [g.size]) (k + (op.resultType (ops.map g.tyOf)).bitCount) := by
  have h := hst.extend hf hops hv
  refine ⟨h.ext, h.wellTyped, fun x hx => ?_, ?_⟩
  · rcases List.mem_append.1 hx with hx | hx
    · exact h.fresh x hx
    · rw [List.mem_singleton.1 hx, tyOf_makeNode_self]
      exact ⟨fresh_makeNode_self hst.ext.size_le, hb⟩
  · rw [List.map_append, List.sum_append, h.width_eq]
    simp

end SlicesState

theorem SlicesBits.makeNode {g : FunctionBase} {env : Env} {slices : List Nat} {bs : Bits} {op : Op}
    {ops : List Nat} (h : SlicesBits g env slices bs) : SlicesBits (g.makeNode op ops).1 env slices bs :=
  let ⟨vals, hvals, hbs⟩ := h
  ⟨vals, hvals.imp fun _ _ => eval_makeNode, hbs⟩

theorem SlicesBits.push {g : FunctionBase} {env : Env} {slices : List Nat} {bs : Bits}
    (h : SlicesBits g env slices bs) {x : Nat} {b : Bits} (hx : g.Eval env x (.bits b)) :
    SlicesBits g env (slices ++ [x]) (bs ++ b) :=
  let ⟨vals, hvals, hbs⟩ := h
  ⟨vals ++ [.bits b], List.rel_append hvals (.cons hx .nil), by simp [hbs]⟩

/-- The `Concat` of the pieces, most significant first: a new node, as wide as
    the pieces, of their bits. -/
theorem SlicesState.concat {f g : FunctionBase} {node k : Nat} {slices : List Nat} (hf : f.WellTyped)
    (hst : SlicesState f node g slices k) :
    Builds f node (g.makeNode .concat slices.reverse).1 ∧ Usable f node (g.makeNode .concat slices.reverse).1 g.size ∧
      (g.makeNode .concat slices.reverse).1.tyOf g.size = .bits k ∧
      ∀ env bs, SlicesBits g env slices bs → (g.makeNode .concat slices.reverse).1.Eval env g.size (.bits bs) := by
  have hb : Builds f node g := ⟨hst.ext, hst.wellTyped⟩
  have hwidth : (slices.reverse.map g.tyOf).map Ty.bitCount = (slices.map fun x => (g.tyOf x).bitCount).reverse := by
    simp [List.map_reverse]
  refine ⟨hb.makeNode (operandsExist_of_wellTyped hf) (fun o ho => .inl (hst.fresh o (List.mem_reverse.1 ho)).1) ?_,
    hb.usable_self, ?_, fun env bs ⟨vals, hvals, hflat⟩ => ?_⟩
  · simp only [Op.verify, Op.resultType, beq_self_eq_true, Bool.and_true, List.all_eq_true]
    intro t ht
    obtain ⟨x, hx, rfl⟩ := List.mem_map.1 ht
    exact (hst.fresh x (List.mem_reverse.1 hx)).2
  · rw [tyOf_makeNode_self, Op.resultType, hwidth, List.sum_reverse, hst.width_eq]
  · refine eval_makeNode_self (List.forall₂_reverse_iff.2 hvals) ?_
    show some (Value.bits (BitsOps.concat (vals.reverse.map Value.toBits))) = _
    rw [List.map_reverse, BitsOps.concat_reverse, hflat]

section Loop

variable {f g g' : FunctionBase} {node s w k : Nat} {slices slices' : List Nat} (hf : f.WellTyped)
  (hs : f.ReachPlus node s) (hsw : f.tyOf s = .bits w)
include hf hs hsw

/-- A `BitSlice` of the selector inside it is well typed. -/
theorem verify_selectorSlice (hst : SlicesState f node g slices k) {start width : Nat} (h : start + width ≤ w) :
    (Op.bitSlice start width).verify ([s].map g.tyOf) ((Op.bitSlice start width).resultType ([s].map g.tyOf)) := by
  have : g.tyOf s = .bits w := (hst.ext.tyOf_of_lt (lt_size_of_reachPlus (operandsExist_of_wellTyped hf) hs)).trans hsw
  simp [this, Op.verify, Op.resultType, h]

/-- Committing the pending range adds its `BitSlice`, with its bits. -/
theorem commitOriginalSlice_spec {current : Option SelectorRange} (hst : SlicesState f node g slices k)
    (hcur : ∀ r ∈ current, r.start + r.width ≤ w) (h : commitOriginalSlice s g slices current = (g', slices')) :
    SlicesState f node g' slices' (k + pendingWidth current) ∧
      ∀ env : Env, ∀ sb, f.Eval env s (.bits sb) → ∀ bs, SlicesBits g env slices bs →
        SlicesBits g' env slices' (bs ++ pendingBits sb current) := by
  cases current with
  | none =>
    cases h
    exact ⟨hst, fun _ _ _ _ h => by simpa [pendingBits] using h⟩
  | some r =>
    have h' : ((g.makeNode (.bitSlice r.start r.width) [s]).1, slices ++ [g.size]) = (g', slices') := h
    obtain ⟨rfl, rfl⟩ := Prod.mk.inj h'
    refine ⟨hst.push hf (by simp [hs]) (verify_selectorSlice hf hs hsw hst (hcur r rfl)) rfl,
      fun env sb hsb bs hbs => ?_⟩
    exact hbs.makeNode.push (eval_makeNode_self (.cons (hst.ext.eval hsb) .nil) rfl)

/-- The loop over the ranges from bit `p` adds pieces whose bits are the
    pending range's, then the OR of each range. -/
theorem selectorSlices_spec : ∀ {ranges : List SelectorRange} {g g' : FunctionBase} {slices slices' : List Nat}
    {current : Option SelectorRange} {k p q : Nat},
    selectorSlices s g slices current ranges = (g', slices') →
    SlicesState f node g slices k → Tiles p ranges q → q ≤ w → (∀ r ∈ current, r.start + r.width = p) →
    SlicesState f node g' slices' (k + pendingWidth current + ranges.length) ∧
      ∀ env : Env, ∀ sb, f.Eval env s (.bits sb) → sb.length = w → ∀ bs, SlicesBits g env slices bs →
        SlicesBits g' env slices' (bs ++ pendingBits sb current ++ ranges.map (rangeOr sb))
  | [], _, _, _, _, _, _, p, q, h, hst, ht, hq, hcur => by
    obtain ⟨hst', hb⟩ := commitOriginalSlice_spec hf hs hsw hst
      (fun r hr => by rw [hcur r hr, show p = q from ht]; exact hq) h
    exact ⟨by simpa using hst', fun env sb hsb _ bs hbs => by simpa using hb env sb hsb bs hbs⟩
  | range :: ranges, g, g', slices, slices', current, k, p, q, h, hst, ⟨hstart, hpos, ht⟩, hq, hcur => by
    have hpq := tiles_le ht
    unfold selectorSlices at h
    split at h
    · -- a range of one bit after one: the pending range grows
      rename_i hc
      obtain ⟨hw1, hcs⟩ := hc
      obtain ⟨cur, rfl⟩ := Option.isSome_iff_exists.1 hcs
      have hcur' := hcur cur rfl
      obtain ⟨hst', hb⟩ := selectorSlices_spec h hst ht hq (by simp; omega)
      refine ⟨by convert hst' using 1; simp [pendingWidth]; omega, fun env sb hsb hl bs hbs => ?_⟩
      convert hb env sb hsb hl bs hbs using 1
      simp only [pendingBits, Option.map_some', BitsOps.slice_add, List.map_cons, List.append_assoc,
        List.cons_append, List.singleton_append]
      rw [hcur', ← hstart, slice_eq_rangeOr hw1 (by omega)]
      rfl
    · -- otherwise the pending range is committed first
      generalize hcm : commitOriginalSlice s g slices current = cm at h
      obtain ⟨g₁, slices₁⟩ := cm
      obtain ⟨hst₁, hb₁⟩ := commitOriginalSlice_spec hf hs hsw hst
        (fun r hr => by rw [hcur r hr]; omega) hcm
      dsimp only at h
      split at h
      · -- a range of one bit starts a pending range
        rename_i hw1
        obtain ⟨hst', hb⟩ := selectorSlices_spec h hst₁ ht hq (by simp [hstart, hw1])
        refine ⟨by convert hst' using 1; simp [pendingWidth]; omega, fun env sb hsb hl bs hbs => ?_⟩
        convert hb env sb hsb hl _ (hb₁ env sb hsb bs hbs) using 1
        have hbit : BitsOps.slice sb range.start 1 = [rangeOr sb range] := slice_eq_rangeOr hw1 (by omega)
        simp only [pendingBits, hbit, List.map_cons, List.append_assoc, List.singleton_append]
      · -- a wider range: the `or_reduce` of its slice
        rename_i hw1
        set g₂ := (g₁.makeNode (.bitSlice range.start range.width) [s]).1 with hg₂
        have h' : selectorSlices s (g₂.makeNode .orReduce [g₁.size]).1 (slices₁ ++ [g₂.size]) none ranges =
          (g', slices') := h
        have hst₂ := hst₁.extend hf (by simp [hs])
          (verify_selectorSlice hf hs hsw hst₁ (show range.start + range.width ≤ w by omega))
        have hst₃ : SlicesState f node (g₂.makeNode .orReduce [g₁.size]).1 (slices₁ ++ [g₂.size])
            (k + pendingWidth current + 1) :=
          hst₂.push hf (by simpa using .inl (fresh_makeNode_self hst₁.ext.size_le))
            (by simp [hg₂, Op.verify, Op.resultType]) rfl
        obtain ⟨hst', hb⟩ := selectorSlices_spec h' hst₃ ht hq (by simp)
        refine ⟨by convert hst' using 1; simp [pendingWidth, Op.resultType]; omega, fun env sb hsb hl bs hbs => ?_⟩
        have hbit : g₂.Eval env g₁.size (.bits (BitsOps.slice sb range.start range.width)) :=
          eval_makeNode_self (.cons (hst₁.ext.eval hsb) .nil) rfl
        convert hb env sb hsb hl _ ((hb₁ env sb hsb bs hbs).makeNode.makeNode.push
          (eval_makeNode_self (.cons hbit .nil) rfl)) using 1
        simp [pendingBits, rangeOr, hstart]

end Loop

/-- A priority select whose grouping leaves fewer cases is rewritten into one
    over a case per run, the new selector read through `SlicesState.concat`: a
    rewrite of the node that keeps the function well typed. -/
theorem mergeAdjacentPriorityCases_spec {f : FunctionBase} {node s c : Nat} {cases : List Nat} {ty : Ty}
    (hf : f.WellTyped) (hnd : f.node node = some ⟨.prioritySel, s :: c :: cases, ty⟩)
    (hlt : (groupAdjacentCases [⟨0, 1⟩] [c] 1 cases).2.length < (c :: cases).length) :
    ∃ f', mergeAdjacentPriorityCases f true node = .ok (some f') ∧ Rewrites f node f' ∧ f'.WellTyped := by
  generalize hgr : groupAdjacentCases [⟨0, 1⟩] [c] 1 cases = gr at hlt
  obtain ⟨ranges, newCases⟩ := gr
  obtain ⟨ht, hl, hrun⟩ := groupAdjacentCases_spec (by simp [Tiles]) rfl (by simp) hgr
  simp only [runCases, List.replicate_one, List.singleton_append, List.append_nil] at hrun
  simp only [mergeAdjacentPriorityCases, hnd, ↓reduceIte, hgr, hlt, makeNode_snd]
  generalize hsl : selectorSlices s f [] none ranges = sl
  obtain ⟨g, slices⟩ := sl
  have hoe := operandsExist_of_wellTyped hf
  obtain ⟨hsw, -, hcty⟩ := verify_oneHotSel (.inr rfl) hf hnd
  obtain ⟨hst, hbits⟩ := selectorSlices_spec hf (.of_mem hnd (.head _)) hsw hsl (SlicesState.init hf) ht
    (by simp only [List.length_cons]; omega) (by simp)
  obtain ⟨hb, hu, hty, hval⟩ := hst.concat hf
  have hmem : ∀ x ∈ newCases, x ∈ c :: cases := fun x hx => hrun ▸ mem_runCases ht hl hx
  -- the new selector, one bit per run, over the first case of each run
  have htys : (g.size :: newCases).map (g.makeNode .concat slices.reverse).1.tyOf =
      .bits newCases.length :: newCases.map fun _ => ty := by
    rw [List.map_cons, hty]
    simp only [pendingWidth, Nat.zero_add, hl]
    exact congrArg _ (List.map_congr_left fun x hx => by
      rw [hb.ext.tyOf_of_lt (hoe _ _ hnd x (.tail _ (hmem x hx))), hcty x (hmem x hx)])
  obtain ⟨nc, ncs, hnc⟩ : ∃ nc ncs, newCases = nc :: ncs := by
    cases newCases with
    | nil => cases ranges <;> simp [runCases] at hrun
    | cons nc ncs => exact ⟨nc, ncs, rfl⟩
  obtain ⟨f', h', hr⟩ := hb.rewrites .prioritySel (g.size :: newCases) hoe (lt_size_of_node hnd)
    (List.forall_mem_cons.2 ⟨hu, fun o ho => .inr (.of_mem hnd (.tail _ (hmem o ho)))⟩)
    (by rw [htys, hnc]; simp [Op.verify, Op.resultType]) (by rw [htys, hnc, tyOf_of_node hnd]; rfl)
    fun env henv v hv => by
      obtain ⟨sb, cvs, hs', hcs, hsem⟩ := oneHotSel_operands (.inr rfl) hf hnd henv hv
      have hsbl : sb.length = (c :: cases).length := length_of_eval hf hsw henv hs'
      obtain ⟨ncvs, hncvs⟩ := exists_forall₂_of_forall fun x hx =>
        let ⟨b, _, hb⟩ := forall₂_exists_of_mem_left hcs (hmem x hx); ⟨b, hb⟩
      have hcvs : cvs = runCases ranges ncvs := forall₂_eval_unique hcs (hrun ▸ forall₂_runCases ranges hncvs)
      have hrun' := prioritySelectValue_runCases (zeroOfType ty) sb ht (by simp [hsbl]; omega)
        (hl.trans hncvs.length_eq)
      rw [List.drop_zero] at hrun'
      refine ⟨_, .cons (hval env _ (by simpa [pendingBits] using hbits env sb hs' hsbl [] ⟨[], .nil, rfl⟩))
        (hncvs.imp fun _ _ => hb.ext.eval), ?_⟩
      rw [htys, hnc, ← Option.some.inj hsem, hcvs, Value.toBits_bits, hrun']
      rfl
  exact ⟨f', map_some_eq_ok.2 h', hr⟩

/-- The rule fires only on a priority select, splits enabled, whose grouping
    leaves fewer cases. -/
theorem mergeAdjacentPriorityCases_eq_some {f f' : FunctionBase} {splitsEnabled : Bool} {node : Nat}
    (h : mergeAdjacentPriorityCases f splitsEnabled node = .ok (some f')) :
    splitsEnabled = true ∧ ∃ s c cases ty, f.node node = some ⟨.prioritySel, s :: c :: cases, ty⟩ ∧
      (groupAdjacentCases [⟨0, 1⟩] [c] 1 cases).2.length < (c :: cases).length := by
  unfold mergeAdjacentPriorityCases at h
  split at h
  · rename_i s c cases ty hnd
    split at h
    · rename_i hse
      refine ⟨hse, s, c, cases, ty, hnd, ?_⟩
      split at h
      · split at h
        · rename_i ranges newCases hgr hlt
          simpa [hgr] using hlt
        · cases h
    · cases h
  · cases h

/-- The adjacent-case rule whenever it fires: a rewrite of the node that keeps
    the function well typed. -/
theorem rewrites_of_mergeAdjacentPriorityCases {f f' : FunctionBase} {splitsEnabled : Bool} {node : Nat}
    (hf : f.WellTyped) (h : mergeAdjacentPriorityCases f splitsEnabled node = .ok (some f')) :
    Rewrites f node f' ∧ f'.WellTyped := by
  obtain ⟨rfl, s, c, cases, ty, hnd, hlt⟩ := mergeAdjacentPriorityCases_eq_some h
  obtain ⟨f'', h'', hr⟩ := mergeAdjacentPriorityCases_spec hf hnd hlt
  cases h.symm.trans h''
  exact hr

section Values

variable {t : Ty}

/-- A last case ORs its value in where its bit is set. -/
theorem oneHotSelectValue_append_single {b : Bool} {c : Value} (hc : c.HasType t) :
    ∀ (bs : Bits) (cs : List Value), bs.length = cs.length → (∀ x ∈ cs, x.HasType t) →
      oneHotSelectValue (zeroOfType t) (bs ++ [b]) (cs ++ [c]) =
        (oneHotSelectValue (zeroOfType t) bs cs).or (if b then c else zeroOfType t)
  | [], [], _, _ => by
    cases b <;> simp [oneHotSelectValue, Value.or_zero t hc, Value.zero_or hc, Value.zero_or (zeroOfType_hasType t)]
  | x :: bs, y :: cs, hl, hcs => by
    have hR := oneHotSelectValue_hasType (zeroOfType_hasType t) bs fun x hx => hcs x (.tail _ hx)
    have he : (if b then c else zeroOfType t).HasType t := by split <;> simp [hc, zeroOfType_hasType]
    show (if x then y.or (oneHotSelectValue _ (bs ++ [b]) (cs ++ [c])) else oneHotSelectValue _ (bs ++ [b]) (cs ++ [c])) =
      (if x then y.or (oneHotSelectValue _ bs cs) else oneHotSelectValue _ bs cs).or _
    rw [oneHotSelectValue_append_single hc bs cs (by simpa using hl) fun x hx => hcs x (.tail _ hx)]
    cases x
    · rfl
    · exact (Value.or_assoc_of_hasType t (hcs y (.head _)) hR he).symm
  | [], _ :: _, hl, _ | _ :: _, [], hl, _ => by simp at hl

/-- Setting bit `j` of the selector ORs case `j` in. -/
theorem oneHotSelectValue_set_or {s : Bool} : ∀ (bs : Bits) (cs : List Value) (j : Nat) {b : Bool} {c : Value},
    (∀ x ∈ cs, x.HasType t) → bs[j]? = some b → cs[j]? = some c →
      oneHotSelectValue (zeroOfType t) (bs.set j (b || s)) cs =
        (oneHotSelectValue (zeroOfType t) bs cs).or (if s then c else zeroOfType t)
  | b :: bs, c :: cs, 0, b', c', hcs, hb, hc => by
    simp only [List.getElem?_cons_zero, Option.some.injEq] at hb hc
    subst hb hc
    have hR := oneHotSelectValue_hasType (zeroOfType_hasType t) bs fun x hx => hcs x (.tail _ hx)
    have hc := hcs c (.head _)
    have hcR := Value.or_hasType t hc hR
    simp only [List.set_cons_zero, oneHotSelectValue]
    cases b <;> cases s <;> simp only [Bool.or_true, Bool.or_false, ite_true, ite_false, Bool.false_eq_true,
      Value.or_zero t hR, Value.or_zero t hcR, Value.or_comm_of_hasType t hR hc]
    -- the case already in: ORing it again changes nothing
    calc c.or (oneHotSelectValue (zeroOfType t) bs cs)
        = (c.or c).or (oneHotSelectValue (zeroOfType t) bs cs) := by rw [Value.or_self]
      _ = c.or (c.or (oneHotSelectValue (zeroOfType t) bs cs)) := Value.or_assoc_of_hasType t hc hc hR
      _ = c.or ((oneHotSelectValue (zeroOfType t) bs cs).or c) := by rw [Value.or_comm_of_hasType t hc hR]
      _ = (c.or (oneHotSelectValue (zeroOfType t) bs cs)).or c := (Value.or_assoc_of_hasType t hc hR hc).symm
  | b' :: bs, c' :: cs, j + 1, b, c, hcs, hb, hc => by
    have hR := oneHotSelectValue_hasType (zeroOfType_hasType t) bs fun x hx => hcs x (.tail _ hx)
    have he : (if s then c else zeroOfType t).HasType t := by
      split
      · exact hcs c (.tail _ (List.getElem?_mem (by simpa using hc)))
      · exact zeroOfType_hasType t
    simp only [List.set_cons_succ, oneHotSelectValue,
      oneHotSelectValue_set_or bs cs j (fun x hx => hcs x (.tail _ hx)) (by simpa using hb) (by simpa using hc)]
    cases b'
    · rfl
    · exact (Value.or_assoc_of_hasType t (hcs c' (.head _)) hR he).symm
  | [], _, _, _, _, _, hb, _ => by simp at hb
  | _ :: _, [], _, _, _, _, _, hc => by simp at hc

/-- The selector and cases up to `i + 1`: those up to `i`, and case `i`
    ORed in where its bit is set. -/
theorem oneHotSelectValue_take_succ {sb : Bits} {cvs : List Value} {i : Nat} {b : Bool} {c : Value}
    (hlen : sb.length = cvs.length) (hcs : ∀ x ∈ cvs, x.HasType t) (hb : sb[i]? = some b) (hc : cvs[i]? = some c) :
    oneHotSelectValue (zeroOfType t) (sb.take (i + 1)) (cvs.take (i + 1)) =
      (oneHotSelectValue (zeroOfType t) (sb.take i) (cvs.take i)).or (if b then c else zeroOfType t) := by
  rw [List.take_succ, List.take_succ, hb, hc, Option.toList_some, Option.toList_some,
    oneHotSelectValue_append_single (hcs c (List.getElem?_mem hc)) _ _ (by simp [hlen])
      fun x hx => hcs x (List.mem_of_mem_take hx)]

end Values

theorem forall₂_set {α β : Type} {R : α → β → Prop} {a : α} {b : β} (h : R a b) :
    ∀ {l₁ : List α} {l₂ : List β} (j : Nat), List.Forall₂ R l₁ l₂ → List.Forall₂ R (l₁.set j a) (l₂.set j b)
  | _, _, _, .nil => .nil
  | _, _, 0, .cons _ hs => .cons h hs
  | _, _, j + 1, .cons hx hs => .cons hx (forall₂_set h j hs)

/-- The loop's state after the cases before `i`: one new selector per new
    case, each a new one-bit node, each new case a case of the select. -/
structure CommonOutState (f : FunctionBase) (node : Nat) (allCases : List Nat) (g : FunctionBase)
    (newSelectors newCases : List Nat) (i : Nat) : Prop where
  ext : Extends f (f.ReachPlus node) g
  wellTyped : g.WellTyped
  length_eq : newSelectors.length = newCases.length
  fresh : ∀ x ∈ newSelectors, Fresh f g x ∧ g.tyOf x = .bits 1
  mem : ∀ x ∈ newCases, x ∈ allCases
  nonempty : newCases = [] → i = 0

/-- Under `env`, the new selectors are the bits `bs`, the new cases have values,
    and the one-hot select over them is the one over the cases before `i`. -/
def CommonOutValue (f g : FunctionBase) (env : Env) (t : Ty) (newSelectors newCases : List Nat) (sb : Bits)
    (cvs : List Value) (i : Nat) : Prop :=
  ∃ bs ncvs, List.Forall₂ (fun x b => g.Eval env x (.bits [b])) newSelectors bs ∧
    List.Forall₂ (f.Eval env) newCases ncvs ∧
    oneHotSelectValue (zeroOfType t) bs ncvs = oneHotSelectValue (zeroOfType t) (sb.take i) (cvs.take i)

section CommonOut

variable {f : FunctionBase} {node s : Nat} {allCases : List Nat} {ty : Ty} (hf : f.WellTyped)
  (hnd : f.node node = some ⟨.oneHotSel, s :: allCases, ty⟩)
include hf hnd

/-- Case `i` put after the cases before it: the one-hot select over the cases
    up to `i + 1` is the one up to `i`, ORed with case `i` where its bit is set. -/
theorem commonOut_take_succ {env : Env} (henv : env.Typed) {sb : Bits} {cvs : List Value} {i oldCase : Nat}
    {cv : Value} (hsb : f.Eval env s (.bits sb)) (hcs : List.Forall₂ (f.Eval env) allCases cvs)
    (hi : allCases[i]? = some oldCase) (hcv : f.Eval env oldCase cv) :
    oneHotSelectValue (zeroOfType ty) (sb.take (i + 1)) (cvs.take (i + 1)) =
      (oneHotSelectValue (zeroOfType ty) (sb.take i) (cvs.take i)).or
        (if sb[i]?.getD false then cv else zeroOfType ty) := by
  obtain ⟨hsw, -, hcty⟩ := verify_oneHotSel (.inl rfl) hf hnd
  have hsbl : sb.length = allCases.length := length_of_eval hf hsw henv hsb
  have hil : i < allCases.length := (List.getElem?_eq_some_iff.1 hi).1
  obtain ⟨cv', hcv', hev⟩ := forall₂_getElem?_left hcs hi
  obtain rfl := eval_unique hev hcv
  rw [oneHotSelectValue_take_succ (hsbl.trans hcs.length_eq)
    (fun x hx => let ⟨c, hc, hcx⟩ := forall₂_exists_of_mem_right hcs hx; hcty c hc ▸ hasType_of_eval hf henv hcx)
    (List.getElem?_eq_getElem (by omega)) hcv']
  simp [List.getElem?_eq_getElem (show i < sb.length by omega)]

/-- The `BitSlice` of selector bit `i`, appended to the loop's function: a new
    one-bit node of that bit, the new selectors so far still new one-bit nodes. -/
theorem CommonOutState.bitSlice {g : FunctionBase} {sels ncs : List Nat} {i : Nat}
    (hst : CommonOutState f node allCases g sels ncs i) (hil : i < allCases.length) :
    Builds f node (g.makeNode (.bitSlice i 1) [s]).1 ∧ (g.makeNode (.bitSlice i 1) [s]).1.tyOf g.size = .bits 1 ∧
      (∀ x ∈ sels, Fresh f (g.makeNode (.bitSlice i 1) [s]).1 x ∧ (g.makeNode (.bitSlice i 1) [s]).1.tyOf x = .bits 1) ∧
      ∀ env sb, f.Eval env s (.bits sb) → i < sb.length →
        (g.makeNode (.bitSlice i 1) [s]).1.Eval env g.size (.bits [sb[i]?.getD false]) := by
  obtain ⟨hsw, -, -⟩ := verify_oneHotSel (.inl rfl) hf hnd
  have hs := ReachPlus.of_mem hnd (.head _)
  have hoe := operandsExist_of_wellTyped hf
  refine ⟨(⟨hst.ext, hst.wellTyped⟩ : Builds f node g).makeNode hoe (by simp [Usable, hs]) ?_,
    by simp [Op.resultType], fun x hx => ⟨(hst.fresh x hx).1.makeNode, ?_⟩, fun env sb hsb hisb => ?_⟩
  · rw [List.map_singleton, hst.ext.tyOf_of_lt (lt_size_of_reachPlus hoe hs), hsw]
    simp [Op.verify, Op.resultType]; omega
  · rw [tyOf_makeNode_of_lt (hst.fresh x hx).1.2, (hst.fresh x hx).2]
  · exact eval_makeNode_self (.cons (hst.ext.eval hsb) .nil)
      (by simp [Op.sem, BitsOps.slice_one hisb, List.getElem?_eq_getElem hisb])

/-- A case not seen before is kept as a new case, its selector bit as a new
    selector. -/
theorem CommonOutState.newCase {g : FunctionBase} {sels ncs : List Nat} {i oldCase : Nat}
    (hst : CommonOutState f node allCases g sels ncs i) (hi : allCases[i]? = some oldCase) :
    CommonOutState f node allCases (g.makeNode (.bitSlice i 1) [s]).1 (sels ++ [g.size]) (ncs ++ [oldCase])
        (i + 1) ∧
      ∀ env : Env, env.Typed → ∀ sb cvs, f.Eval env s (.bits sb) → List.Forall₂ (f.Eval env) allCases cvs →
        CommonOutValue f g env ty sels ncs sb cvs i →
        CommonOutValue f (g.makeNode (.bitSlice i 1) [s]).1 env ty (sels ++ [g.size]) (ncs ++ [oldCase]) sb cvs
          (i + 1) := by
  obtain ⟨hsw, -, hcty⟩ := verify_oneHotSel (.inl rfl) hf hnd
  have hil : i < allCases.length := (List.getElem?_eq_some_iff.1 hi).1
  obtain ⟨hb₁, hty₁, hfresh₁, hbit⟩ := hst.bitSlice hf hnd hil
  refine ⟨⟨hb₁.ext, hb₁.wellTyped, by simp [hst.length_eq], fun x hx => ?_, fun x hx => ?_, by simp⟩,
    fun env henv sb cvs hsb hcs ⟨bs, ncvs, hbs, hncvs, heq⟩ => ?_⟩
  · rcases List.mem_append.1 hx with hx | hx
    · exact hfresh₁ x hx
    · rw [List.mem_singleton.1 hx]
      exact ⟨fresh_makeNode_self hst.ext.size_le, hty₁⟩
  · rcases List.mem_append.1 hx with hx | hx
    · exact hst.mem x hx
    · rw [List.mem_singleton.1 hx]; exact List.getElem?_mem hi
  · have hsbl : sb.length = allCases.length := length_of_eval hf hsw henv hsb
    obtain ⟨cv, -, hcv⟩ := forall₂_getElem?_left hcs hi
    refine ⟨bs ++ [sb[i]?.getD false], ncvs ++ [cv], List.rel_append (hbs.imp fun _ _ => eval_makeNode)
      (.cons (hbit env sb hsb (by omega)) .nil), List.rel_append hncvs (.cons hcv .nil), ?_⟩
    rw [commonOut_take_succ hf hnd henv hsb hcs hi hcv, ← heq]
    exact oneHotSelectValue_append_single (hcty oldCase (List.getElem?_mem hi) ▸ hasType_of_eval hf henv hcv) _ _
      (hbs.length_eq.symm.trans (hst.length_eq.trans hncvs.length_eq))
      fun x hx => let ⟨c, hc, hcx⟩ := forall₂_exists_of_mem_right hncvs hx; hcty c (hst.mem c hc) ▸
        hasType_of_eval hf henv hcx

/-- A case seen before, as new case `index`: the selector of that case becomes
    the OR of it and this case's selector bit. -/
theorem CommonOutState.seenCase {g : FunctionBase} {sels ncs : List Nat} {i oldCase index : Nat}
    (hst : CommonOutState f node allCases g sels ncs i) (hi : allCases[i]? = some oldCase)
    (hncs : ncs[index]? = some oldCase) :
    CommonOutState f node allCases ((g.makeNode (.bitSlice i 1) [s]).1.makeNode .or [sels.getD index 0, g.size]).1
        (sels.set index (g.makeNode (.bitSlice i 1) [s]).1.size) ncs (i + 1) ∧
      ∀ env : Env, env.Typed → ∀ sb cvs, f.Eval env s (.bits sb) → List.Forall₂ (f.Eval env) allCases cvs →
        CommonOutValue f g env ty sels ncs sb cvs i →
        CommonOutValue f ((g.makeNode (.bitSlice i 1) [s]).1.makeNode .or [sels.getD index 0, g.size]).1 env ty
          (sels.set index (g.makeNode (.bitSlice i 1) [s]).1.size) ncs sb cvs (i + 1) := by
  obtain ⟨hsw, -, hcty⟩ := verify_oneHotSel (.inl rfl) hf hnd
  have hil : i < allCases.length := (List.getElem?_eq_some_iff.1 hi).1
  obtain ⟨hb₁, hty₁, hfresh₁, hbit⟩ := hst.bitSlice hf hnd hil
  have hidx : index < ncs.length := (List.getElem?_eq_some_iff.1 hncs).1
  have hsl : index < sels.length := hst.length_eq ▸ hidx
  have hget : sels.getD index 0 = sels[index] := by simp [List.getElem?_eq_getElem hsl]
  have hselty := hfresh₁ _ (List.getElem_mem hsl)
  set g₁ := (g.makeNode (.bitSlice i 1) [s]).1
  have hb₂ : Builds f node (g₁.makeNode .or [sels.getD index 0, g.size]).1 :=
    hb₁.makeNode (operandsExist_of_wellTyped hf) (by
      simp only [List.mem_cons, List.mem_singleton, forall_eq_or_imp, forall_eq, List.not_mem_nil]
      exact ⟨.inl (hget ▸ hselty.1), .inl (fresh_makeNode_self hst.ext.size_le), fun _ h => h.elim⟩) (by
      rw [hget, List.map_cons, List.map_singleton, hselty.2, hty₁]
      rfl)
  refine ⟨⟨hb₂.ext, hb₂.wellTyped, by simp [hst.length_eq], fun x hx => ?_, hst.mem, fun h => absurd hidx (by simp [h])⟩,
    fun env henv sb cvs hsb hcs ⟨bs, ncvs, hbs, hncvs, heq⟩ => ?_⟩
  · rcases List.mem_or_eq_of_mem_set hx with hx | rfl
    · exact ⟨(hfresh₁ x hx).1.makeNode, by rw [tyOf_makeNode_of_lt (hfresh₁ x hx).1.2, (hfresh₁ x hx).2]⟩
    · refine ⟨fresh_makeNode_self hb₁.ext.size_le, ?_⟩
      rw [tyOf_makeNode_self, List.map_cons, hget]
      exact hselty.2
  · have hsbl : sb.length = allCases.length := length_of_eval hf hsw henv hsb
    obtain ⟨cv, -, hcv⟩ := forall₂_getElem?_left hcs hi
    obtain ⟨b, hb, hbv⟩ := forall₂_getElem?_left hbs (List.getElem?_eq_getElem hsl)
    obtain ⟨ncv, hncv, hncvv⟩ := forall₂_getElem?_left hncvs hncs
    obtain rfl := eval_unique hncvv hcv
    have hmerged : (g₁.makeNode .or [sels.getD index 0, g.size]).1.Eval env g₁.size (.bits [b || sb[i]?.getD false]) :=
      eval_makeNode_self (.cons (by rw [hget]; exact eval_makeNode hbv) (.cons (hbit env sb hsb (by omega)) .nil))
        (by simp [Op.sem, naryBits, BitsOps.or])
    refine ⟨bs.set index (b || sb[i]?.getD false), ncvs,
      forall₂_set (R := fun x b => (g₁.makeNode .or [sels.getD index 0, g.size]).1.Eval env x (.bits [b]))
        hmerged index (hbs.imp fun _ _ h => eval_makeNode (eval_makeNode h)), hncvs, ?_⟩
    rw [commonOut_take_succ hf hnd henv hsb hcs hi hcv, ← heq]
    exact oneHotSelectValue_set_or bs ncvs index
      (fun x hx => let ⟨c, hc, hcx⟩ := forall₂_exists_of_mem_right hncvs hx; hcty c (hst.mem c hc) ▸
        hasType_of_eval hf henv hcx) hb hncv

/-- The loop keeps its state, the one-hot select over the new cases following
    the one over the cases seen. -/
theorem commonOutCasesLoop_spec : ∀ {cases : List Nat} {g g' : FunctionBase} {sels sels' ncs ncs' : List Nat}
    {i : Nat}, commonOutCasesLoop s g sels ncs i cases = (g', sels', ncs') → allCases.drop i = cases →
    CommonOutState f node allCases g sels ncs i →
    CommonOutState f node allCases g' sels' ncs' (i + cases.length) ∧
      ∀ env : Env, env.Typed → ∀ sb cvs, f.Eval env s (.bits sb) → List.Forall₂ (f.Eval env) allCases cvs →
        CommonOutValue f g env ty sels ncs sb cvs i → CommonOutValue f g' env ty sels' ncs' sb cvs (i + cases.length)
  | [], _, _, _, _, _, _, _, h, _, hst => by
    cases h
    exact ⟨hst, fun _ _ _ _ _ _ h => h⟩
  | oldCase :: cases, g, g', sels, sels', ncs, ncs', i, h, hdrop, hst => by
    have hi : allCases[i]? = some oldCase := by
      rw [← Nat.add_zero i, ← List.getElem?_drop, hdrop, List.getElem?_cons_zero]
    have hlen : i + (oldCase :: cases).length = i + 1 + cases.length := by simp only [List.length_cons]; omega
    have hdrop' : allCases.drop (i + 1) = cases := by
      rw [← List.drop_drop, hdrop]; rfl
    unfold commonOutCasesLoop at h
    generalize hmk : g.makeNode (.bitSlice i 1) [s] = mk at h
    obtain ⟨g₁, x⟩ := mk
    obtain ⟨rfl, rfl⟩ := Prod.ext_iff.1 hmk
    simp only [makeNode_snd] at h
    split at h
    · -- a case not seen before: a new case
      obtain ⟨hst₁, hval₁⟩ := hst.newCase hf hnd hi
      obtain ⟨hst', hval⟩ := commonOutCasesLoop_spec h hdrop' hst₁
      exact ⟨hlen ▸ hst', fun env henv sb cvs hsb hcs hv => hlen ▸ hval env henv sb cvs hsb hcs
        (hval₁ env henv sb cvs hsb hcs hv)⟩
    · -- a case seen before, at `index`: its selector gains this one's bit
      rename_i index hindex
      obtain ⟨hidx, hidxeq, -⟩ := List.findIdx?_eq_some_iff_getElem.1 hindex
      obtain ⟨hst₂, hval₂⟩ := hst.seenCase hf hnd hi
        (show ncs[index]? = some oldCase by rw [List.getElem?_eq_getElem hidx, beq_iff_eq.1 hidxeq])
      have h' : commonOutCasesLoop s ((g.makeNode (.bitSlice i 1) [s]).1.makeNode .or [sels.getD index 0, g.size]).1
          (sels.set index (g.makeNode (.bitSlice i 1) [s]).1.size) ncs (i + 1) cases = (g', sels', ncs') := h
      obtain ⟨hst', hval⟩ := commonOutCasesLoop_spec h' hdrop' hst₂
      exact ⟨hlen ▸ hst', fun env henv sb cvs hsb hcs hv => hlen ▸ hval env henv sb cvs hsb hcs
        (hval₂ env henv sb cvs hsb hcs hv)⟩

end CommonOut

/-- The types after the loop: the concatenation of the new selectors has one
    bit per new case, and the new cases, nodes of `f`, have the select's type. -/
theorem CommonOutState.types {f g : FunctionBase} {node s : Nat} {allCases sels ncs : List Nat} {i : Nat}
    {ty : Ty} (hf : f.WellTyped) (hnd : f.node node = some ⟨.oneHotSel, s :: allCases, ty⟩)
    (hst : CommonOutState f node allCases g sels ncs i) :
    (∀ x ∈ ncs, x < g.size) ∧
      (g.size :: ncs).map (g.makeNode .concat sels.reverse).1.tyOf = .bits ncs.length :: ncs.map fun _ => ty := by
  have hcty := (verify_oneHotSel (.inl rfl) hf hnd).2.2
  have hlt : ∀ x ∈ ncs, x < g.size := fun x hx =>
    lt_of_lt_of_le (operandsExist_of_wellTyped hf _ _ hnd x (.tail _ (hst.mem x hx))) hst.ext.size_le
  have hwidth : ((sels.reverse.map g.tyOf).map Ty.bitCount).sum = ncs.length := by
    rw [List.map_map, List.map_reverse, List.sum_reverse, ← hst.length_eq,
      List.map_congr_left (g := fun _ => 1) fun x hx => by simp [(hst.fresh x hx).2], List.map_const',
      List.sum_replicate, smul_eq_mul, mul_one]
  refine ⟨hlt, ?_⟩
  simp only [List.map_cons, tyOf_makeNode_self, Op.resultType, hwidth, List.cons.injEq, true_and]
  exact List.map_congr_left fun x hx => by
    rw [tyOf_makeNode_of_lt (hlt x hx), hst.ext.tyOf_of_lt (operandsExist_of_wellTyped hf _ _ hnd x
      (.tail _ (hst.mem x hx))), hcty x (hst.mem x hx)]

/-- The loop keeps each case node at its first occurrence: its new cases are
    `eraseDups`'s. -/
theorem commonOutCasesLoop_newCases (s : Nat) : ∀ (cases : List Nat) (g : FunctionBase) (sels ncs : List Nat)
    (i : Nat), (commonOutCasesLoop s g sels ncs i cases).2.2 = List.eraseDups.loop cases ncs.reverse
  | [], _, _, _, _ => by simp [commonOutCasesLoop, List.eraseDups.loop]
  | c :: cases, g, sels, ncs, i => by
    unfold commonOutCasesLoop
    generalize g.makeNode (.bitSlice i 1) [s] = mk
    obtain ⟨g₁, x⟩ := mk
    dsimp only
    cases hidx : ncs.indexOf? c with
    | none =>
      have hc : c ∉ ncs := fun hm => by
        simp only [List.indexOf?, List.findIdx?_eq_none_iff, beq_eq_false_iff_ne] at hidx
        exact hidx c hm rfl
      rw [commonOutCasesLoop_newCases s cases, List.reverse_append]
      simp [List.eraseDups.loop, hc]
    | some index =>
      obtain ⟨hlt, heq, -⟩ := List.findIdx?_eq_some_iff_getElem.1 hidx
      have hc : c ∈ ncs := beq_iff_eq.1 heq ▸ List.getElem_mem hlt
      rw [commonOutCasesLoop_newCases s cases]
      simp [List.eraseDups.loop, hc]

/-- A one-hot select with a case node more than once, each case node kept once
    and selected by the OR of the selector bits of its copies: a rewrite of the
    node that keeps the function well typed. -/
theorem commonOutOneHotCases_rewrites {f f' : FunctionBase} {narrowingEnabled : Bool} {node : Nat}
    (hf : f.WellTyped) (h : commonOutOneHotCases f narrowingEnabled node = .ok (some f')) :
    Rewrites f node f' ∧ f'.WellTyped := by
  unfold commonOutOneHotCases at h
  split at h
  · rename_i s cases ty hnd
    split at h
    · generalize hlp : commonOutCasesLoop s f [] [] 0 cases = lp at h
      obtain ⟨g, sels, ncs⟩ := lp
      simp only [makeNode_snd] at h
      obtain ⟨hsw, hne, hcty⟩ := verify_oneHotSel (.inl rfl) hf hnd
      obtain ⟨hst, hval⟩ := commonOutCasesLoop_spec hf hnd hlp (List.drop_zero _)
        ⟨.refl, hf, rfl, by simp, by simp, fun _ => rfl⟩
      obtain ⟨nc, ncs₀, hnc⟩ : ∃ nc ncs₀, ncs = nc :: ncs₀ := by
        cases ncs with
        | nil => exact absurd (hst.nonempty rfl) (by simpa [List.length_eq_zero] using hne)
        | cons nc ncs₀ => exact ⟨nc, ncs₀, rfl⟩
      -- the new selector has one bit per new case
      obtain ⟨hlt, htys⟩ := hst.types hf hnd
      have hoe := operandsExist_of_wellTyped hf
      have hb₀ : Builds f node g := ⟨hst.ext, hst.wellTyped⟩
      have hb : Builds f node (g.makeNode .concat sels.reverse).1 :=
        hb₀.makeNode hoe (fun o ho => .inl (hst.fresh o (List.mem_reverse.1 ho)).1) (by
          simp only [Op.verify, Op.resultType, beq_self_eq_true, Bool.and_true, List.all_eq_true]
          exact fun t ht' => by
            obtain ⟨x, hx, rfl⟩ := List.mem_map.1 ht'
            simp [(hst.fresh x (List.mem_reverse.1 hx)).2, Ty.isBits])
      obtain ⟨f'', h'', hr⟩ := hb.rewrites .oneHotSel (g.size :: ncs) hoe (lt_size_of_node hnd)
        (by
          rintro o (_ | ⟨_, ho⟩)
          · exact hb₀.usable_self
          · exact .inr (ReachPlus.of_mem hnd (.tail _ (hst.mem o ho))))
        (by rw [htys, hnc]; simp [Op.verify, Op.resultType]) (by rw [htys, hnc, tyOf_of_node hnd]; rfl)
        fun env henv v hv => by
          obtain ⟨sb, cvs, hs', hcs, hsem⟩ := oneHotSel_operands (.inl rfl) hf hnd henv hv
          have hsbl : sb.length = cases.length := length_of_eval hf hsw henv hs'
          obtain ⟨bs, ncvs, hbs, hncvs, heq⟩ := hval env henv sb cvs hs' hcs ⟨[], [], .nil, .nil, by simp⟩
          rw [Nat.zero_add, List.take_of_length_le (by omega), List.take_of_length_le (by rw [← hcs.length_eq])] at heq
          have hflat : ∀ l : Bits, (l.map fun b => [b]).flatten = l := fun l => by induction l <;> simp [*]
          have hsel : (g.makeNode .concat sels.reverse).1.Eval env g.size (.bits bs) :=
            eval_makeNode_self (List.forall₂_reverse_iff.2 (List.forall₂_map_right_iff.2 hbs)) (by
              show some (Value.bits (BitsOps.concat ((bs.map fun b => Value.bits [b]).reverse.map Value.toBits))) = _
              simp [List.map_reverse, BitsOps.concat_reverse, Function.comp_def, hflat])
          refine ⟨_, .cons hsel (hncvs.imp fun _ _ => hb.ext.eval), ?_⟩
          rw [htys, hnc, ← Option.some.inj hsem, Value.toBits_bits, ← heq]
          rfl
      cases (map_some_eq_ok.1 h).symm.trans h''
      exact hr
    · cases h
  · cases h

/-- Every one-hot select (narrowing enabled) with a case node more than once is
    rewritten: it is replaced by a one-hot select over the case nodes in the
    order of their first occurrence (`eraseDups`), each once, whose selector has
    one bit per case node, and every node keeps its value. -/
theorem commonOutOneHotCases_dedups {f : FunctionBase} {node s : Nat} {cases : List Nat} {ty : Ty}
    (hf : f.WellTyped) (hnd : f.node node = some ⟨.oneHotSel, s :: cases, ty⟩) (hdup : ¬cases.Nodup) :
    ∃ f', commonOutOneHotCases f true node = .ok (some f') ∧ Rewrites f node f' ∧ f'.WellTyped ∧
      ∃ (g : FunctionBase) (r sel : Nat), f' = g.rewire node r ∧
        g.node r = some ⟨.oneHotSel, sel :: cases.eraseDups, ty⟩ ∧
        g.tyOf sel = .bits cases.eraseDups.length := by
  have hne : cases ≠ [] := by rintro rfl; exact hdup List.nodup_nil
  generalize hlp : commonOutCasesLoop s f [] [] 0 cases = lp
  obtain ⟨g, sels, ncs⟩ := lp
  obtain ⟨hst, -⟩ := commonOutCasesLoop_spec hf hnd hlp (List.drop_zero _)
    ⟨.refl, hf, rfl, by simp, by simp, fun _ => rfl⟩
  have hncs : ncs = cases.eraseDups := by
    simpa [hlp] using commonOutCasesLoop_newCases s cases f [] [] 0
  obtain ⟨nc, ncs₀, rfl⟩ : ∃ nc ncs₀, ncs = nc :: ncs₀ := by
    cases ncs with
    | nil => exact absurd (hst.nonempty rfl) (by simpa [List.length_eq_zero] using hne)
    | cons nc ncs₀ => exact ⟨nc, ncs₀, rfl⟩
  obtain ⟨hlt, htys⟩ := hst.types hf hnd
  set g₁ := (g.makeNode .concat sels.reverse).1 with hg₁
  have hnode : node < g.size := lt_of_lt_of_le (lt_size_of_node hnd) hst.ext.size_le
  have hty : Op.oneHotSel.resultType ((g.size :: nc :: ncs₀).map g₁.tyOf) = ty := by
    rw [htys]; rfl
  have hok : g₁.replaceUsesWithNew node .oneHotSel (g.size :: nc :: ncs₀) =
      .ok ((g₁.makeNode .oneHotSel (g.size :: nc :: ncs₀)).1.rewire node g₁.size) :=
    (replaceUsesWithNew_eq_ok (lt_of_lt_of_le hnode (by simp [hg₁]))).2
      ⟨by rw [hty, hg₁, tyOf_makeNode_of_lt hnode, hst.ext.tyOf_of_lt (lt_size_of_node hnd), tyOf_of_node hnd], rfl⟩
  have h : commonOutOneHotCases f true node =
      .ok (some ((g₁.makeNode .oneHotSel (g.size :: nc :: ncs₀)).1.rewire node g₁.size)) := by
    unfold commonOutOneHotCases
    rw [hnd]
    simp only [hne, hdup, List.isEmpty_eq_false.2 hne, hlp, decide_False, Bool.not_false, Bool.and_self,
      if_true, makeNode_snd]
    rw [← hg₁, hok]
    rfl
  obtain ⟨hrw, hwt⟩ := commonOutOneHotCases_rewrites hf h
  refine ⟨_, h, hrw, hwt, _, g₁.size, g.size, rfl, ?_, ?_⟩
  · rw [makeNode, node_push_size, hty, ← hncs]
  · rw [tyOf_makeNode_of_lt (by simp [hg₁]), ← hncs]
    exact (List.cons.inj htys).1

/-- A one-hot select whose second case is its first again. -/
def duplicatedCases : FunctionBase :=
  ⟨[⟨.param 0, [], .bits 3⟩, ⟨.param 1, [], .bits 4⟩, ⟨.param 2, [], .bits 4⟩,
    ⟨.oneHotSel, [0, 1, 2, 1], .bits 4⟩], 3⟩

theorem commonOutOneHotCases_dedups_duplicatedCases :
    ∃ f', commonOutOneHotCases duplicatedCases true 3 = .ok (some f') ∧ Rewrites duplicatedCases 3 f' :=
  let ⟨f', h, hr, _⟩ := @commonOutOneHotCases_dedups duplicatedCases 3 0 [1, 2, 1] (.bits 4) (by decide) rfl
    (by decide)
  ⟨f', h, hr⟩

end SelectSimplification

end Xls
