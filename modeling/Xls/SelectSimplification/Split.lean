import Xls.SelectSimplification.Basic
import Mathlib.Algebra.Order.BigOperators.Group.List

/-!
# Splitting one-hot selects

`MaybeSplitOneHotSelect` cuts the bits of a one-hot select into runs, each a
run of bit indices where the cases' bits have pairwise distinct sources
(`RunOfDistinctCaseBits`) or where a pair of cases shares its sources
(`RunOfNonDistinctCaseBits`), and replaces the select by the concatenation of
one narrower one-hot select per run, over the matching slices of the cases.
A bit's source is found by tracing it through bit slices and concats
(`GetBitSource`).

* `oneHotSelectValue_slice`: a slice of a one-hot select of bits is the one-hot
  select of the slices of its cases;
* `SplitState`: what holds before each run of the loop, kept by each run
  (`SplitState.step`); at the end the concat of the slices has the select's
  value (`SplitState.finish`);
* `splitLoop_spec`, `maybeSplitOneHotSelect_spec`: the function is left as it
  is with no new select, or the select is rewritten (`SplitOutcome`), with at
  least two new selects unless it has no bits, each at least one bit wide and
  together as wide as the select;
* `splitWorklist_terminates`: the worklist of `RunOnFunctionBaseInternal`
  terminates, as each split lowers the squares of the widths in it;
* `maybeSplitOneHotSelect_zero_width`: on a select of width zero the loop does
  not run, and the select is still replaced, by an empty concat, while no new
  select is returned.
-/

namespace Xls

namespace SelectSimplification

open FunctionBase

/-- `BitSource`: a constant bit, or bit `index` of node `node`. -/
inductive BitSource where
  | const (value : Bool)
  | bit (node index : Nat)
  deriving DecidableEq

section Definitions

variable (q : QueryEngine) (f : FunctionBase)

/-- The loop of `GetBitSource` over the operands of a `Concat`, least
    significant first, `offset` the width of those before. -/
def concatBitSource (source : Nat → Nat → Except String BitSource) (bitIndex : Nat) :
    Nat → List Nat → Except String BitSource
  | _, [] => .error "LOG(FATAL): Bit index too large for concat"
  | offset, o :: os =>
    if bitIndex - offset < (f.tyOf o).bitCount then source o (bitIndex - offset)
    else concatBitSource source bitIndex (offset + (f.tyOf o).bitCount) os

/-- `GetBitSource`: the bit traced back through bit slices and concats to a
    literal, a bit the engine knows, or a bit of another node. `fuel` bounds the
    chain, which in a function without cycles is shorter than the function. -/
def getBitSource : Nat → Nat → Nat → Except String BitSource
  | 0, node, bitIndex => .ok (.bit node bitIndex)
  | fuel + 1, node, bitIndex =>
    match f.node node with
    | some ⟨.bitSlice start _, operand :: _, _⟩ => getBitSource fuel operand (bitIndex + start)
    | some ⟨.concat, operands, _⟩ => concatBitSource f (getBitSource fuel) bitIndex 0 operands.reverse
    | some ⟨.literal v, _, _⟩ => .ok (.const (v.toBits.getD bitIndex false))
    | some nd =>
      if nd.ty.isBits && q.isKnown ⟨node, bitIndex, 0⟩ then .ok (.const (q.isOne ⟨node, bitIndex, 0⟩))
      else .ok (.bit node bitIndex)
    | none => .ok (.bit node bitIndex)

/-- The pairs `(i, j)`, `i < j`, of positions with the same source, in the order
    of the loops of `PairsOfBitsWithSameSource`. -/
def matchingPairs (sources : List BitSource) : List (Nat × Nat) :=
  (List.range sources.length).flatMap fun i =>
    ((List.range sources.length).filter fun j => i < j && sources[i]? == sources[j]?).map (i, ·)

/-- `PairsOfBitsWithSameSource`. -/
def pairsOfBitsWithSameSource (nodes : List Nat) (bitIndex : Nat) : Except String (List (Nat × Nat)) :=
  matchingPairs <$> nodes.mapM fun n => getBitSource q f f.size n bitIndex

/-- `cases.front()->BitCountOrDie()`. -/
def frontBitCount (cases : List Nat) : Nat :=
  match cases with
  | c :: _ => (f.tyOf c).bitCount
  | [] => 0

/-- The loop of `RunOfNonDistinctCaseBits` at bit `i`, with `k` bits left:
    the pairs matching at every bit of the run so far are intersected with
    those matching at `i`, and the run ends when none is left. -/
def runOfNonDistinctLoop (cases : List Nat) (start : Nat) :
    Nat → Nat → List (Nat × Nat) → Except String Nat
  | 0, i, _ => pure (i - start)
  | k + 1, i, matched => do
    let pairs ← pairsOfBitsWithSameSource q f cases i
    let matched := if i = start then pairs else pairs.filter (· ∈ matched)
    if matched.isEmpty then pure (i - start) else runOfNonDistinctLoop cases start k (i + 1) matched

/-- `RunOfNonDistinctCaseBits`. -/
def runOfNonDistinctCaseBits (cases : List Nat) (start : Nat) : Except String Nat :=
  runOfNonDistinctLoop q f cases start (frontBitCount f cases - start) start []

/-- The loop of `RunOfDistinctCaseBits` at bit `i`, with `k` bits left. -/
def runOfDistinctLoop (cases : List Nat) (start : Nat) : Nat → Nat → Except String Nat
  | 0, i => pure (i - start)
  | k + 1, i => do
    let pairs ← pairsOfBitsWithSameSource q f cases i
    if pairs.isEmpty then runOfDistinctLoop cases start k (i + 1) else pure (i - start)

/-- `RunOfDistinctCaseBits`. -/
def runOfDistinctCaseBits (cases : List Nat) (start : Nat) : Except String Nat :=
  runOfDistinctLoop q f cases start (frontBitCount f cases - start) start

/-- The run from bit `start`: `RunOfDistinctCaseBits`, or where that is empty
    `RunOfNonDistinctCaseBits`. -/
def runAt (cases : List Nat) (start : Nat) : Except String Nat := do
  let run ← runOfDistinctCaseBits q f cases start
  if run = 0 then runOfNonDistinctCaseBits q f cases start else pure run

/-- A `BitSlice` of each case, in order. -/
def makeBitSlices (start width : Nat) : FunctionBase → List Nat → FunctionBase × List Nat :=
  makeNodes (.bitSlice start width)

/-- `SliceOneHotSelect`: the one-hot select over the slices of the cases. -/
def sliceOneHotSelect (selector : Nat) (cases : List Nat) (start width : Nat) : FunctionBase × Nat :=
  let (f, caseSlices) := makeBitSlices start width f cases
  f.makeNode .oneHotSel (selector :: caseSlices)

/-- The loop of `MaybeSplitOneHotSelect` from bit `start`, with the selects
    over the runs so far; `fuel` bounds the runs, each at least one bit long,
    so that the width is enough. -/
def splitLoop (ohs selector : Nat) (cases : List Nat) (w : Nat) :
    Nat → FunctionBase → Nat → List Nat → Except String (List Nat × FunctionBase)
  | fuel + 1, f, start, slices =>
    if start < w then do
      let run ← runAt q f cases start
      if run = 0 then throw "RET_CHECK failure: run > 0"
      if run = w then return ([], f)
      let (f, slice) := sliceOneHotSelect f selector cases start run
      splitLoop ohs selector cases w fuel f (start + run) (slices ++ [slice])
    else do
      let f ← f.replaceUsesWithNew ohs .concat slices.reverse
      pure (slices, f)
  | 0, f, _, slices => do
    let f ← f.replaceUsesWithNew ohs .concat slices.reverse
    pure (slices, f)

/-- `MaybeSplitOneHotSelect`: the new one-hot selects, none when the select is
    left as it is, and the function after. -/
def maybeSplitOneHotSelect (ohs : Nat) : Except String (List Nat × FunctionBase) :=
  match f.node ohs with
  | some ⟨.oneHotSel, selector :: cases, ty⟩ =>
    if !ty.isBits || ty.bitCount > 64 then pure ([], f)
    else splitLoop q ohs selector cases ty.bitCount ty.bitCount f 0 []
  | _ => pure ([], f)

end Definitions

/-! ## Slices of a one-hot select -/

/-- A slice of a one-hot select of bits is the one-hot select, by the same
    selector, of the same slices of its cases. -/
theorem oneHotSelectValue_slice {w start width : Nat} (hw : start + width ≤ w) (s : Bits) {cs : List Value}
    (hc : ∀ c ∈ cs, c.HasType (.bits w)) :
    oneHotSelectValue (zeroOfType (.bits width)) s (cs.map fun c => .bits (BitsOps.slice c.toBits start width)) =
      .bits (BitsOps.slice (oneHotSelectValue (zeroOfType (.bits w)) s cs).toBits start width) := by
  induction s generalizing cs with
  | nil => cases cs <;> simp [oneHotSelectValue, BitsOps.slice_zero hw]
  | cons b s ih =>
    cases cs with
    | nil => simp [oneHotSelectValue, BitsOps.slice_zero hw]
    | cons c cs =>
      have ih := ih fun c' h => hc c' (.tail _ h)
      obtain ⟨r, hr, -⟩ := Value.hasType_bits_iff.1
        (oneHotSelectValue_hasType (zeroOfType_hasType _) s fun c' h => hc c' (.tail _ h))
      obtain ⟨x, rfl, -⟩ := Value.hasType_bits_iff.1 (hc c (.head _))
      rw [hr] at ih
      cases b <;> simp only [oneHotSelectValue, List.map_cons, Bool.false_eq_true, ↓reduceIte, ih, hr,
        Value.or_bits, Value.toBits_bits, BitsOps.slice_or]

/-! ## The runs -/

section Runs

variable {q : QueryEngine} {f : FunctionBase} {cases : List Nat} {start : Nat}

theorem runOfDistinctLoop_le : ∀ {k i r : Nat}, runOfDistinctLoop q f cases start k i = .ok r → r ≤ i + k - start
  | 0, i, r, h => by simp only [runOfDistinctLoop, pure, Except.pure, Except.ok.injEq] at h; omega
  | k + 1, i, r, h => by
    obtain ⟨pairs, -, h⟩ := except_bind_eq_ok.1 h
    split at h
    · have := runOfDistinctLoop_le h; omega
    · cases h; omega

theorem runOfNonDistinctLoop_le : ∀ {k i r : Nat} {matched : List (Nat × Nat)},
    runOfNonDistinctLoop q f cases start k i matched = .ok r → r ≤ i + k - start
  | 0, i, r, _, h => by simp only [runOfNonDistinctLoop, pure, Except.pure, Except.ok.injEq] at h; omega
  | k + 1, i, r, matched, h => by
    obtain ⟨pairs, -, h⟩ := except_bind_eq_ok.1 h
    generalize (if i = start then pairs else pairs.filter (· ∈ matched)) = m at h
    dsimp only at h
    split at h
    · cases h; omega
    · have := runOfNonDistinctLoop_le h; omega

/-- A run ends at the cases' width at the latest. -/
theorem runAt_le {run : Nat} (h : runAt q f cases start = .ok run) : run ≤ frontBitCount f cases - start := by
  obtain ⟨r, hr, h⟩ := except_bind_eq_ok.1 h
  split at h
  · simpa using runOfNonDistinctLoop_le h
  · cases h; simpa using runOfDistinctLoop_le hr

end Runs

/-! ## The split loop -/

section Loop

variable {q : QueryEngine} {f g g' : FunctionBase} {S : Nat → Prop}

/-- The select over one run is a new node whose bits are those of the select
    from `start` on, `run` of them. -/
theorem sliceOneHotSelect_spec (hf : f.WellTyped) {ohs s w start run x : Nat} {cases : List Nat}
    (hnd : f.node ohs = some ⟨.oneHotSel, s :: cases, .bits w⟩) (hg : Extends f (f.ReachPlus ohs) g)
    (hrun : start + run ≤ w) (h : sliceOneHotSelect g s cases start run = (g', x)) :
    Extends g (f.ReachPlus ohs) g' ∧ Fresh g g' x ∧
      ∀ env : Env, env.Typed → ∀ vb, f.Eval env ohs (.bits vb) → g'.Eval env x (.bits (BitsOps.slice vb start run)) := by
  generalize hr : makeBitSlices start run g cases = r at h
  obtain ⟨g₁, xs⟩ := r
  simp only [sliceOneHotSelect, hr, Prod.mk.injEq] at h
  obtain ⟨rfl, rfl⟩ := h
  obtain ⟨hext, hxs⟩ := makeNodes_spec (fun c hc => ⟨ReachPlus.of_mem hnd (.tail _ hc),
    lt_of_lt_of_le (operandsExist_of_wellTyped hf _ _ hnd c (.tail _ hc)) hg.size_le⟩) hr
  obtain ⟨-, hne, hcty⟩ := verify_oneHotSel (.inl rfl) hf hnd
  refine ⟨hext.makeNode ?_, ⟨hext.size_le, by simp⟩, fun env henv vb hv => ?_⟩
  · simp only [List.forall_mem_cons]
    exact ⟨.inr (ReachPlus.of_mem hnd (.head _)), fun x hx =>
      .inl (forall₂_exists_of_mem_right hxs hx).choose_spec.2.1⟩
  obtain ⟨sb, cvs, hs, hcs, hsem⟩ := oneHotSel_operands (.inl rfl) hf hnd henv hv
  obtain ⟨c₁, cs, rfl⟩ := List.exists_cons_of_ne_nil hne
  obtain ⟨x₁, xs, hx₁, -, rfl⟩ := List.forall₂_cons_left_iff.1 hxs
  have hcvs : ∀ c ∈ cvs, c.HasType (.bits w) := fun c hc => by
    obtain ⟨a, ha, hac⟩ := forall₂_exists_of_mem_right hcs hc
    simpa [hcty a ha] using hasType_of_eval hf henv hac
  have hv' : oneHotSelectValue (zeroOfType (.bits w)) sb cvs = .bits vb := by simpa [Op.sem] using hsem
  refine eval_makeNode_self (.cons (hext.eval (hg.eval hs))
    (eval_makeNodes hext (F := fun c => .bits (BitsOps.slice c.toBits start run)) hxs
      (hcs.imp fun _ _ h => ⟨hg.eval h, rfl⟩))) ?_
  simp only [List.map_cons, Op.resultType, tyOf_of_node hx₁.2, Op.sem, Value.toBits_bits,
    oneHotSelectValue_slice hrun sb hcvs, hv']

/-- The select over one run keeps the function well typed and is `run` bits
    wide. -/
theorem sliceOneHotSelect_typed (hf : f.WellTyped) {ohs s w start run x : Nat} {cases : List Nat}
    (hnd : f.node ohs = some ⟨.oneHotSel, s :: cases, .bits w⟩) (hg : Extends f (f.ReachPlus ohs) g)
    (hgt : g.WellTyped) (hrun : start + run ≤ w) (h : sliceOneHotSelect g s cases start run = (g', x)) :
    g'.WellTyped ∧ g'.tyOf x = .bits run := by
  generalize hr : makeBitSlices start run g cases = r at h
  obtain ⟨g₁, xs⟩ := r
  simp only [sliceOneHotSelect, hr, Prod.mk.injEq] at h
  obtain ⟨rfl, rfl⟩ := h
  obtain ⟨hsw, hne, hcty⟩ := verify_oneHotSel (.inl rfl) hf hnd
  have hs := operandsExist_of_wellTyped hf _ _ hnd s (.head _)
  have hcases : ∀ c ∈ cases, c < g.size ∧ g.tyOf c = .bits w := fun c hc =>
    have hc' := operandsExist_of_wellTyped hf _ _ hnd c (.tail _ hc)
    ⟨lt_of_lt_of_le hc' hg.size_le, by rw [hg.tyOf_of_lt hc', hcty c hc]⟩
  obtain ⟨hext, hxs⟩ := makeNodes_spec (S := fun _ => True) (fun c hc => ⟨trivial, (hcases c hc).1⟩) hr
  have hgt₁ : g₁.WellTyped := wellTyped_makeNodes hgt (fun c hc => ⟨(hcases c hc).1, by
    rw [(hcases c hc).2]; simp [Op.verify, Op.resultType]; omega⟩) hr
  -- every slice is `run` bits wide
  have hxty : ∀ y ∈ xs, g₁.tyOf y = .bits run := fun y hy => by
    obtain ⟨c, -, hcy⟩ := forall₂_exists_of_mem_right hxs hy
    rw [tyOf_of_node hcy.2]; rfl
  have hsty : g₁.tyOf s = .bits cases.length := by
    rw [hext.tyOf_of_lt (lt_of_lt_of_le hs hg.size_le), hg.tyOf_of_lt hs, hsw]
  obtain ⟨c₁, cs, rfl⟩ := List.exists_cons_of_ne_nil hne
  obtain ⟨x₁, xs', hx₁, hxs', rfl⟩ := List.forall₂_cons_left_iff.1 hxs
  have hty : Op.oneHotSel.resultType ((s :: x₁ :: xs').map g₁.tyOf) = .bits run := by
    simp [Op.resultType, hxty x₁ (.head _)]
  refine ⟨hgt₁.makeNode (fun o ho => ?_) ?_, by rw [← hty]; exact tyOf_makeNode_self⟩
  · rcases List.mem_cons.1 ho with rfl | ho
    · exact lt_of_lt_of_le (lt_of_lt_of_le hs hg.size_le) hext.size_le
    · obtain ⟨c, -, hcy⟩ := forall₂_exists_of_mem_right hxs ho
      exact hcy.1.2
  · rw [hty]
    simp only [List.map_cons, hsty, Op.verify, List.isEmpty_cons, Bool.not_false, List.length_cons,
      List.length_map, hxs'.length_eq, beq_self_eq_true, Bool.true_and, List.all_cons, hxty x₁ (.head _),
      List.all_eq_true, List.mem_map]
    simp only [Bool.and_eq_true, beq_iff_eq, true_and]
    rintro _ ⟨y, hy, rfl⟩
    exact hxty y (.tail _ hy)

/-- What holds before each run of the loop over the select `ohs` of width `w`:
    `g` extends `f` by the selects over the runs so far, `slices`, whose bits
    are the select's below `start`, each at least one bit wide; before the
    first run `g` is `f`, and one run alone never covers the select. -/
structure SplitState (f : FunctionBase) (ohs w : Nat) (g : FunctionBase) (start : Nat) (slices : List Nat) :
    Prop where
  ext : Extends f (f.ReachPlus ohs) g
  wellTyped : g.WellTyped
  fresh : ∀ x ∈ slices, Fresh f g x ∧ ∃ r, 0 < r ∧ g.tyOf x = .bits r
  widths : (slices.map fun x => (g.tyOf x).bitCount).sum = start
  le : start ≤ w
  eval : ∀ env : Env, env.Typed → ∀ vb, f.Eval env ohs (.bits vb) →
    ∃ vals : List Bits, List.Forall₂ (fun x v => g.Eval env x (.bits v)) slices vals ∧ vals.flatten = vb.take start
  init : start = 0 → g = f
  empty : slices = [] → start = 0
  single : slices.length = 1 → start < w

theorem SplitState.start (hf : f.WellTyped) {ohs w : Nat} : SplitState f ohs w f 0 [] :=
  ⟨.refl, hf, by simp, rfl, Nat.zero_le _, fun _ _ _ _ => ⟨[], .nil, rfl⟩, fun _ => rfl, fun _ => rfl, by simp⟩

/-- One run: the select over it joins the slices. -/
theorem SplitState.step (hf : f.WellTyped) {ohs s w start run x : Nat} {cases slices : List Nat}
    (hnd : f.node ohs = some ⟨.oneHotSel, s :: cases, .bits w⟩) (hst : SplitState f ohs w g start slices)
    (hpos : 0 < run) (hrun : start + run ≤ w) (hw : run ≠ w) (h : sliceOneHotSelect g s cases start run = (g', x)) :
    SplitState f ohs w g' (start + run) (slices ++ [x]) := by
  obtain ⟨hext, hfresh, hx⟩ := sliceOneHotSelect_spec hf hnd hst.ext hrun h
  obtain ⟨hwt, hxty⟩ := sliceOneHotSelect_typed hf hnd hst.ext hst.wellTyped hrun h
  have hold : ∀ y ∈ slices, g'.tyOf y = g.tyOf y := fun y hy => hext.tyOf_of_lt (hst.fresh y hy).1.2
  refine ⟨hst.ext.trans hext, hwt, ?_, ?_, hrun, fun env henv vb hv => ?_, by omega, by simp, fun h1 => ?_⟩
  · simp only [List.mem_append, List.mem_singleton]
    rintro y (hy | rfl)
    · exact ⟨⟨(hst.fresh y hy).1.1, lt_of_lt_of_le (hst.fresh y hy).1.2 hext.size_le⟩, hold y hy ▸ (hst.fresh y hy).2⟩
    · exact ⟨⟨le_trans hst.ext.size_le hfresh.1, hfresh.2⟩, run, hpos, hxty⟩
  · rw [List.map_append, List.sum_append, List.map_congr_left fun y hy => congrArg Ty.bitCount (hold y hy),
      hst.widths, List.map_singleton, List.sum_singleton, hxty]
    rfl
  · obtain ⟨vals, hvals, hflat⟩ := hst.eval env henv vb hv
    refine ⟨vals ++ [BitsOps.slice vb start run], List.rel_append (hvals.imp fun _ _ => hext.eval) (.cons (hx env henv vb hv) .nil), ?_⟩
    rw [List.flatten_append, hflat, List.take_add]
    simp [BitsOps.slice]
  · have : slices = [] := by simpa using h1
    have := hst.empty this
    omega

/-- What a split leaves: the select rewritten into the concat of the new
    selects, the function well typed with the types of its nodes kept, and the
    new selects appended, at least two unless the select has no bits, each at
    least one bit wide, their widths summing to the select's. -/
structure SplitOutcome (f : FunctionBase) (ohs w : Nat) (news : List Nat) (f' : FunctionBase) : Prop where
  rewrites : Rewrites f ohs f'
  wellTyped : f'.WellTyped
  tyOf_old : ∀ x < f.size, f'.tyOf x = f.tyOf x
  count : w = 0 ∧ news = [] ∨ 2 ≤ news.length
  fresh : ∀ x ∈ news, Fresh f f' x ∧ ∃ r, 0 < r ∧ f'.tyOf x = .bits r
  widths : (news.map fun x => (f'.tyOf x).bitCount).sum = w

/-- The last step: the concat of the slices, most significant first, takes the
    select's uses, and has its value. -/
theorem SplitState.finish (hf : f.WellTyped) {ohs s w start : Nat} {cases slices : List Nat} {f' : FunctionBase}
    (hnd : f.node ohs = some ⟨.oneHotSel, s :: cases, .bits w⟩) (hst : SplitState f ohs w g start slices)
    (hw : w ≤ start) (h : g.replaceUsesWithNew ohs .concat slices.reverse = .ok f') :
    SplitOutcome f ohs w slices f' := by
  have hstart : start = w := le_antisymm hst.le hw
  obtain ⟨hty, rfl⟩ := (replaceUsesWithNew_eq_ok (lt_of_lt_of_le (lt_size_of_node hnd) hst.ext.size_le)).1 h
  have hkeep : ∀ x < g.size, ((g.makeNode .concat slices.reverse).1.rewire ohs g.size).tyOf x = g.tyOf x :=
    fun x hx => by rw [tyOf_rewire, tyOf_makeNode_of_lt hx]
  refine ⟨rewrites_of_replaceUsesWithNew (lt_size_of_node hnd) hst.ext
    (fun o ho => .inl (hst.fresh o (List.mem_reverse.1 ho)).1) (fun env henv v hv => ?_) h, ?_,
    fun x hx => (hkeep x (lt_of_lt_of_le hx hst.ext.size_le)).trans (hst.ext.tyOf_of_lt hx), ?_, fun x hx => ?_, ?_⟩
  · have htv := hasType_of_eval hf henv hv
    rw [tyOf_of_node hnd] at htv
    obtain ⟨vb, rfl, hvb⟩ := Value.hasType_bits_iff.1 htv
    obtain ⟨vals, hvals, hflat⟩ := hst.eval env henv vb hv
    refine ⟨(vals.map Value.bits).reverse, List.forall₂_reverse_iff.2 (by simpa [List.forall₂_map_right_iff] using hvals), ?_⟩
    simp [Op.sem, ← List.map_reverse, Function.comp_def, BitsOps.concat_reverse, hflat, hstart, ← hvb]
  · refine hst.wellTyped.replaceUsesWithNew (fun o ho => (hst.fresh o (List.mem_reverse.1 ho)).1.2) ?_ h
    simp only [Op.verify, Op.resultType, beq_self_eq_true, Bool.and_true, List.all_eq_true, List.mem_map,
      List.mem_reverse]
    rintro _ ⟨x, hx, rfl⟩
    obtain ⟨r, -, hr⟩ := (hst.fresh x hx).2
    simp [hr, Ty.isBits]
  · match slices, hst.empty, hst.single with
    | [], he, _ => have := he rfl; exact .inl ⟨by omega, rfl⟩
    | [_], _, h1 => have := h1 rfl; omega
    | _ :: _ :: _, _, _ => exact .inr (by simp)
  · obtain ⟨hfr, r, hr, hxr⟩ := hst.fresh x hx
    exact ⟨⟨hfr.1, by simpa using Nat.lt_succ_of_lt hfr.2⟩, r, hr, (hkeep x hfr.2).trans hxr⟩
  · rw [List.map_congr_left fun x hx => congrArg Ty.bitCount (hkeep x (hst.fresh x hx).1.2), hst.widths, hstart]

/-- The cases' width, in a function extending `f`, is the select's. -/
theorem frontBitCount_eq (hf : f.WellTyped) {ohs s w : Nat} {cases : List Nat}
    (hnd : f.node ohs = some ⟨.oneHotSel, s :: cases, .bits w⟩) (hg : Extends f S g) : frontBitCount g cases = w := by
  obtain ⟨-, hne, hcty⟩ := verify_oneHotSel (.inl rfl) hf hnd
  obtain ⟨c, cs, rfl⟩ := List.exists_cons_of_ne_nil hne
  have hc : c < f.size := operandsExist_of_wellTyped hf _ _ hnd c (by simp)
  simp [frontBitCount, hg.tyOf_of_lt hc, hcty c (.head _)]

/-- The loop ends in one of two ways: with no new select and `f` unchanged,
    or with the select split into the selects over its runs. -/
theorem splitLoop_spec (hf : f.WellTyped) {ohs s w : Nat} {cases : List Nat}
    (hnd : f.node ohs = some ⟨.oneHotSel, s :: cases, .bits w⟩) :
    ∀ {fuel : Nat} {g : FunctionBase} {start : Nat} {slices news : List Nat} {f' : FunctionBase},
      SplitState f ohs w g start slices → w ≤ start + fuel →
      splitLoop q ohs s cases w fuel g start slices = .ok (news, f') →
      news = [] ∧ f' = f ∨ SplitOutcome f ohs w news f' := by
  intro fuel
  induction fuel with
  | zero =>
    intro g start slices news f' hst hfuel h
    obtain ⟨f'', hr, h⟩ := except_bind_eq_ok.1 h
    cases h
    exact .inr (hst.finish hf hnd hfuel hr)
  | succ fuel ih =>
    intro g start slices news f' hst hfuel h
    unfold splitLoop at h
    split at h
    · obtain ⟨run, hrun, h⟩ := except_bind_eq_ok.1 h
      have hle := runAt_le hrun
      rw [frontBitCount_eq hf hnd hst.ext] at hle
      split at h
      rename_i g₁ x hsl
      dsimp only at h
      split at h
      · exact nomatch h
      simp only [pure_bind] at h
      split at h
      · cases h
        exact .inl ⟨rfl, hst.init (by omega)⟩
      · exact ih (hst.step hf hnd (by omega) (by omega) ‹_› hsl) (by omega) h
    · obtain ⟨f'', hr, h⟩ := except_bind_eq_ok.1 h
      cases h
      exact .inr (hst.finish hf hnd (by omega) hr)

/-- `MaybeSplitOneHotSelect` leaves `f` as it is and returns no select, or
    splits the select, a bits one, into the new selects it returns. -/
theorem maybeSplitOneHotSelect_spec (hf : f.WellTyped) {ohs : Nat} {news : List Nat} {f' : FunctionBase}
    (h : maybeSplitOneHotSelect q f ohs = .ok (news, f')) :
    news = [] ∧ f' = f ∨ ∃ w, f.tyOf ohs = .bits w ∧ SplitOutcome f ohs w news f' := by
  unfold maybeSplitOneHotSelect at h
  split at h
  · rename_i s cases ty hnd
    split at h
    · cases h
      exact .inl ⟨rfl, rfl⟩
    · rename_i hty
      have hb : ty.isBits := by revert hty; cases ty.isBits <;> simp
      rw [Ty.isBits_iff.1 hb] at hnd
      rw [tyOf_of_node hnd]
      exact (splitLoop_spec hf hnd (.start hf) (by omega) h).imp_right fun ho => ⟨_, rfl, ho⟩
  · cases h
    exact .inl ⟨rfl, rfl⟩

/-- On a select of width zero the loop does not run, yet the select's uses go to
    a new, empty concat: the function changes and no new select is returned. -/
theorem maybeSplitOneHotSelect_zero_width {ohs s : Nat} {cases : List Nat}
    (hnd : f.node ohs = some ⟨.oneHotSel, s :: cases, .bits 0⟩) :
    maybeSplitOneHotSelect q f ohs = .ok ([], (f.makeNode .concat []).1.rewire ohs f.size) := by
  have hr : f.replaceUsesWithNew ohs .concat [] = .ok ((f.makeNode .concat []).1.rewire ohs f.size) :=
    (replaceUsesWithNew_eq_ok (lt_size_of_node hnd)).2 ⟨by simp [Op.resultType, tyOf_of_node hnd], rfl⟩
  simp [maybeSplitOneHotSelect, hnd, splitLoop, hr, Ty.isBits]

end Loop

/-! ## The split worklist -/

/-- The split worklist of `RunOnFunctionBaseInternal`, with at most `fuel`
    iterations (`none` when they run out): the front select is split, and the
    new selects go to the back. The function after it, and whether a select
    was split. -/
def splitWorklist (q : QueryEngine) : Nat → FunctionBase → List Nat → Bool →
    Option (Except String (FunctionBase × Bool))
  | _, f, [], changed => some (.ok (f, changed))
  | 0, _, _ :: _, _ => none
  | fuel + 1, f, ohs :: worklist, changed =>
    match maybeSplitOneHotSelect q f ohs with
    | .error e => some (.error e)
    | .ok (news, f') => splitWorklist q fuel f' (worklist ++ news) (changed || !news.isEmpty)

/-- The worklist's measure: the squares of its selects' widths, one more each. -/
def worklistMeasure (f : FunctionBase) (worklist : List Nat) : Nat :=
  (worklist.map fun x => (f.tyOf x).bitCount ^ 2 + 1).sum

theorem sum_sq_le : ∀ {rs : List Nat}, (∀ r ∈ rs, 0 < r) → rs ≠ [] →
    (rs.map fun r => r ^ 2 + 1).sum ≤ rs.sum ^ 2 + 1
  | [r], _, _ => by simp
  | r :: r' :: rs, hpos, _ => by
    have ih := @sum_sq_le (r' :: rs) (fun x hx => hpos x (.tail _ hx)) (by simp)
    have h := Nat.mul_pos (hpos r (.head _)) (Nat.lt_of_lt_of_le (hpos r' (.tail _ (.head _)))
      (Nat.le_add_right r' rs.sum))
    simp only [List.map_cons, List.sum_cons, add_sq, Nat.mul_assoc] at ih ⊢
    omega

/-- Pieces of a width, two or more and each at least one, have squares summing,
    one more each, to less than the width's square and one. -/
theorem sum_sq_lt {rs : List Nat} (hpos : ∀ r ∈ rs, 0 < r) (h2 : 2 ≤ rs.length) :
    (rs.map fun r => r ^ 2 + 1).sum < rs.sum ^ 2 + 1 := by
  obtain ⟨r, r', rs, rfl⟩ : ∃ r r' rs', rs = r :: r' :: rs' := by
    match rs, h2 with
    | r :: r' :: rs, _ => exact ⟨r, r', rs, rfl⟩
  have ih := @sum_sq_le (r' :: rs) (fun x hx => hpos x (.tail _ hx)) (by simp)
  have h := Nat.mul_pos (hpos r (.head _)) (Nat.lt_of_lt_of_le (hpos r' (.tail _ (.head _)))
    (Nat.le_add_right r' rs.sum))
  simp only [List.map_cons, List.sum_cons, add_sq, Nat.mul_assoc] at ih ⊢
  omega

/-- Each of two or more pieces of a width, each at least one, is less than it. -/
theorem lt_sum_of_mem {rs : List Nat} (hpos : ∀ r ∈ rs, 0 < r) (h2 : 2 ≤ rs.length) {a : Nat} (ha : a ∈ rs) :
    a < rs.sum := by
  obtain ⟨l₁, l₂, rfl⟩ := List.append_of_mem ha
  obtain ⟨b, hb⟩ : ∃ b, b ∈ l₁ ++ l₂ := List.exists_mem_of_ne_nil _ fun h => by simp_all
  have hbpos : 0 < b := hpos b (by simp only [List.mem_append, List.mem_cons] at hb ⊢; tauto)
  have hle : b ≤ (l₁ ++ l₂).sum := List.le_sum_of_mem hb
  simp only [List.sum_append, List.sum_cons] at hle ⊢
  omega

/-- A split lowers the worklist's measure: the select leaves it, and the new
    selects, narrower, weigh less together; the other selects keep their
    widths. -/
theorem worklistMeasure_split {ohs w : Nat} {rest news : List Nat} {f' : FunctionBase}
    (hrest : ∀ x ∈ rest, x < f.size) (hw : f.tyOf ohs = .bits w) (ho : SplitOutcome f ohs w news f') :
    worklistMeasure f' (rest ++ news) < worklistMeasure f (ohs :: rest) := by
  have hold : worklistMeasure f' rest = worklistMeasure f rest := by
    unfold worklistMeasure
    rw [List.map_congr_left fun x hx => by rw [ho.tyOf_old x (hrest x hx)]]
  have hnews : worklistMeasure f' news < w ^ 2 + 1 := by
    rcases ho.count with ⟨-, rfl⟩ | h2
    · simp [worklistMeasure]
    · have hlt := @sum_sq_lt (news.map fun x => (f'.tyOf x).bitCount)
        (fun r hr => by
          obtain ⟨x, hx, rfl⟩ := List.mem_map.1 hr
          obtain ⟨-, r, hr, hxr⟩ := ho.fresh x hx
          simpa [hxr] using hr) (by simpa using h2)
      rw [ho.widths, List.map_map] at hlt
      exact hlt
  unfold worklistMeasure at *
  simp only [List.map_append, List.sum_append, List.map_cons, List.sum_cons, hw, Ty.bitCount] at hold hnews ⊢
  omega

/-- Enough fuel: from a well-typed function, the worklist, of nodes of the
    function, runs to its end (or to an error) within as many iterations as
    its measure. -/
theorem splitWorklist_ne_none : ∀ (fuel : Nat) {f : FunctionBase} {worklist : List Nat} (changed : Bool),
    f.WellTyped → (∀ x ∈ worklist, x < f.size) → worklistMeasure f worklist ≤ fuel →
    splitWorklist q fuel f worklist changed ≠ none
  | _, _, [], _, _, _, _ => by simp [splitWorklist]
  | 0, _, _ :: _, _, _, _, hm => by simp [worklistMeasure] at hm
  | fuel + 1, f, ohs :: rest, changed, hf, hnodes, hm => by
    unfold splitWorklist
    split
    · simp
    · rename_i news f' h
      have hrest : ∀ x ∈ rest, x < f.size := fun x hx => hnodes x (.tail _ hx)
      rcases maybeSplitOneHotSelect_spec hf h with ⟨rfl, rfl⟩ | ⟨w, hw, ho⟩
      · refine splitWorklist_ne_none fuel _ hf (by simpa using hrest) ?_
        simp only [List.append_nil]
        unfold worklistMeasure at hm ⊢
        simp only [List.map_cons, List.sum_cons] at hm
        omega
      · refine splitWorklist_ne_none fuel _ ho.wellTyped (fun x hx => ?_) ?_
        · rcases List.mem_append.1 hx with hx | hx
          · exact lt_of_lt_of_le (hrest x hx) ho.rewrites.size_le
          · exact (ho.fresh x hx).1.2
        · have := worklistMeasure_split hrest hw ho
          omega

/-- The split worklist terminates. Every select a split appends is a new node,
    at least one bit wide and narrower than the select it was split from, their
    widths summing to that select's and their squares to less than its square;
    so each split lowers the worklist's measure, and from any worklist of the
    function's nodes, fuel as large as the measure always gives the
    worklist's result. -/
theorem splitWorklist_terminates {q : QueryEngine} {f : FunctionBase} (hf : f.WellTyped) :
    (∀ ohs news f', maybeSplitOneHotSelect q f ohs = .ok (news, f') → news ≠ [] →
      ∃ w, f.tyOf ohs = .bits w ∧ (∀ x ∈ news, f.size ≤ x ∧ ∃ r, 0 < r ∧ r < w ∧ f'.tyOf x = .bits r) ∧
        (news.map fun x => (f'.tyOf x).bitCount).sum = w ∧ (news.map fun x => (f'.tyOf x).bitCount ^ 2).sum < w ^ 2 ∧
        ∀ worklist, (∀ x ∈ worklist, x < f.size) →
          worklistMeasure f' (worklist ++ news) < worklistMeasure f (ohs :: worklist)) ∧
      ∀ (worklist : List Nat) (changed : Bool), (∀ x ∈ worklist, x < f.size) →
        splitWorklist q (worklistMeasure f worklist) f worklist changed ≠ none := by
  refine ⟨fun ohs news f' h hne => ?_, fun worklist changed hnodes => splitWorklist_ne_none _ changed hf hnodes le_rfl⟩
  rcases maybeSplitOneHotSelect_spec hf h with ⟨rfl, -⟩ | ⟨w, hw, ho⟩
  · exact absurd rfl hne
  have h2 : 2 ≤ news.length := ho.count.resolve_left fun h => hne h.2
  have hpos : ∀ r ∈ news.map fun x => (f'.tyOf x).bitCount, 0 < r := fun r hr => by
    obtain ⟨x, hx, rfl⟩ := List.mem_map.1 hr
    obtain ⟨-, r, hr, hxr⟩ := ho.fresh x hx
    simpa [hxr] using hr
  have hlen : 2 ≤ (news.map fun x => (f'.tyOf x).bitCount).length := by simpa using h2
  refine ⟨w, hw, fun x hx => ?_, ho.widths, ?_, fun worklist hrest => worklistMeasure_split hrest hw ho⟩
  · obtain ⟨hfr, r, hr, hxr⟩ := ho.fresh x hx
    have := lt_sum_of_mem hpos hlen (List.mem_map_of_mem _ hx)
    rw [ho.widths, hxr] at this
    exact ⟨hfr.1, r, hr, this, hxr⟩
  · have := sum_sq_lt hpos hlen
    rw [ho.widths, List.map_map] at this
    have hsum : ((news.map fun x => (f'.tyOf x).bitCount ^ 2 + 1).sum) =
        (news.map fun x => (f'.tyOf x).bitCount ^ 2).sum + news.length := by
      clear this hlen hpos h2 hne ho h
      induction news <;> simp_all; omega
    simp only [Function.comp_def] at this
    omega

/-- `one_hot_sel(p, cases=[concat(a, b), concat(a, c)])`, with `p` a two-bit and
    `a`, `b`, `c` one-bit parameters: the cases differ in their low bit and
    share their high bit, so the select splits in two. -/
def oneHotOfConcats : FunctionBase :=
  ⟨[⟨.param 0, [], .bits 2⟩, ⟨.param 1, [], .bits 1⟩, ⟨.param 2, [], .bits 1⟩, ⟨.param 3, [], .bits 1⟩,
    ⟨.concat, [1, 2], .bits 2⟩, ⟨.concat, [1, 3], .bits 2⟩, ⟨.oneHotSel, [0, 4, 5], .bits 2⟩], 6⟩

theorem splitWorklist_terminates_oneHotOfConcats :
    ∃ f', maybeSplitOneHotSelect (QueryEngine.knowsNothing oneHotOfConcats) oneHotOfConcats 6 = .ok ([9, 12], f') ∧
      worklistMeasure f' [9, 12] < worklistMeasure oneHotOfConcats [6] ∧
      splitWorklist (QueryEngine.knowsNothing oneHotOfConcats) (worklistMeasure oneHotOfConcats [6]) oneHotOfConcats [6]
        false ≠ none := by
  have hterm := splitWorklist_terminates (q := QueryEngine.knowsNothing oneHotOfConcats) (f := oneHotOfConcats)
    (by decide)
  obtain ⟨f', hsplit⟩ : ∃ f', maybeSplitOneHotSelect (QueryEngine.knowsNothing oneHotOfConcats) oneHotOfConcats 6 =
      .ok ([9, 12], f') := ⟨_, rfl⟩
  obtain ⟨-, -, -, -, -, hmeasure⟩ := hterm.1 6 [9, 12] f' hsplit (by simp)
  exact ⟨f', hsplit, hmeasure [] (by simp), hterm.2 [6] false (by decide)⟩

/-- `one_hot_sel(p, cases=[x])` of width zero, with `p` a one-bit and `x` a
    zero-bit parameter. -/
def zeroWidthOneHotSelect : FunctionBase :=
  ⟨[⟨.param 0, [], .bits 1⟩, ⟨.param 1, [], .bits 0⟩, ⟨.oneHotSel, [0, 1], .bits 0⟩], 2⟩

theorem maybeSplitOneHotSelect_changes_zeroWidthOneHotSelect :
    zeroWidthOneHotSelect.WellTyped ∧ ∀ q : QueryEngine,
      ∃ f', maybeSplitOneHotSelect q zeroWidthOneHotSelect 2 = .ok ([], f') ∧ f' ≠ zeroWidthOneHotSelect :=
  ⟨by decide, fun _ => ⟨_, maybeSplitOneHotSelect_zero_width rfl, by decide⟩⟩

end SelectSimplification

end Xls
