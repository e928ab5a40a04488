import Xls.SelectSimplification.Rewrite
import Xls.QueryEngine

/-!
# What the select rules share

The operands of the three selects, the values they compute when all their arms
but one are zero, and what a rule may conclude from the engine's `IsAllZeros`
answers.

* `prioritySelectValue_eq`: a priority select takes the case of the least
  significant set selector bit;
* `selectValue_single`, `oneHotSelectValue_single`, `prioritySelectValue_single`:
  when every other arm is zero, a select is its one arm where the selector picks
  it, and zero elsewhere;
* `AllZerosSound`, `AllZerosSound.eq_zeroOfType`: a node the engine says is all
  zeros has the zero of its type as value.
-/

namespace Xls

/-- `Select::cases()`: the operands after the selector, the default apart. -/
def selectCases {α : Type} (hasDefault : Bool) (rest : List α) : List α := if hasDefault then rest.dropLast else rest

/-- `Select::default_value()`. -/
def selectDefault {α : Type} (hasDefault : Bool) (rest : List α) : Option α :=
  if hasDefault then rest.getLast? else none

theorem Op.sem_select (env : Env) (ty : Ty) (d : Bool) (sv : Value) (vs : List Value) :
    (Op.select d).sem env ty (sv :: vs) = selectValue sv.toBits (selectCases d vs) (selectDefault d vs) := by
  cases d <;> rfl

section Operands

variable {α β : Type} {R : α → β → Prop} {l₁ : List α} {l₂ : List β} {d : Bool}

theorem forall₂_selectCases (h : List.Forall₂ R l₁ l₂) : List.Forall₂ R (selectCases d l₁) (selectCases d l₂) := by
  unfold selectCases
  split
  · rw [List.dropLast_eq_take, List.dropLast_eq_take, h.length_eq]
    exact List.forall₂_take _ h
  · exact h

theorem selectDefault_rel (h : List.Forall₂ R l₁ l₂) {a : α} (ha : selectDefault d l₁ = some a) :
    ∃ b, selectDefault d l₂ = some b ∧ R a b := by
  unfold selectDefault at *
  split at ha
  · rw [List.getLast?_eq_getElem?] at ha
    rw [if_pos ‹_›, List.getLast?_eq_getElem?, ← h.length_eq]
    exact forall₂_getElem?_left h ha
  · cases ha

theorem selectDefault_none (h : List.Forall₂ R l₁ l₂) (ha : selectDefault d l₁ = none) :
    selectDefault d l₂ = none := by
  unfold selectDefault at *
  split at ha
  · rw [if_pos ‹_›, List.getLast?_eq_none_iff, ← List.length_eq_zero, ← h.length_eq, List.length_eq_zero]
    exact List.getLast?_eq_none_iff.1 ha
  · rw [if_neg ‹_›]

theorem mem_of_mem_selectCases {a : α} (ha : a ∈ selectCases d l₁) : a ∈ l₁ := by
  unfold selectCases at ha
  split at ha
  · exact List.dropLast_subset _ ha
  · exact ha

theorem mem_of_selectDefault {a : α} (ha : selectDefault d l₁ = some a) : a ∈ l₁ := by
  unfold selectDefault at ha
  split at ha
  · exact List.mem_of_mem_getLast? ha
  · cases ha

end Operands

/-! ## Selects with one arm that is not zero -/

section Values

variable {z c v : Value} {cs : List Value} {i : Nat}

theorem selectValue_single {s : Bits} {d : Option Value} (hi : cs[i]? = some c)
    (hcs : ∀ j c', j ≠ i → cs[j]? = some c' → c' = z) (hd : ∀ x ∈ d, x = z)
    (h : selectValue s cs d = some v) : v = if s.toNat = i then c else z := by
  unfold selectValue at h
  split at h
  · by_cases hs : s.toNat = i
    · rw [if_pos hs]
      subst hs
      exact Option.some.inj (h.symm.trans hi)
    · rw [if_neg hs, hcs _ _ hs h]
  · have : s.toNat ≠ i := fun hs => ‹¬_› (hs ▸ (List.getElem?_eq_some_iff.1 hi).1)
    rw [if_neg this, hd v h]

/-- A `Select` whose cases are all zero is its default where the selector
    indexes no case. -/
theorem selectValue_default {s : Bits} (hcs : ∀ x ∈ cs, x = z) (h : selectValue s cs (some c) = some v) :
    v = if cs.length ≤ s.toNat then c else z := by
  unfold selectValue at h
  split at h
  · rw [if_neg (by omega), hcs v (List.getElem?_mem h)]
  · rw [if_pos (by omega), Option.some.inj h.symm]

theorem selectValue_zeros {s : Bits} {d : Option Value} (hcs : ∀ x ∈ cs, x = z) (hd : ∀ x ∈ d, x = z)
    (h : selectValue s cs d = some v) : v = z := by
  unfold selectValue at h
  split at h
  · exact hcs v (List.getElem?_mem h)
  · exact hd v h

theorem mem_of_forall_getElem? {p : Value → Prop} (h : ∀ (j : Nat) x, cs[j]? = some x → p x) :
    ∀ x ∈ cs, p x :=
  fun x hx => let ⟨j, hj⟩ := List.getElem?_of_mem hx; h j x hj

variable {t : Ty}

theorem oneHotSelectValue_zeros : ∀ (s : Bits) {cs : List Value}, (∀ x ∈ cs, x = zeroOfType t) →
    oneHotSelectValue (zeroOfType t) s cs = zeroOfType t
  | [], _, _ => by cases ‹List Value› <;> rfl
  | _ :: _, [], _ => rfl
  | b :: s, x :: cs, h => by
    rw [oneHotSelectValue, oneHotSelectValue_zeros s fun y hy => h y (.tail _ hy), h x (.head _)]
    cases b <;> simp

theorem oneHotSelectValue_single (hc : c.HasType t) :
    ∀ (s : Bits) {cs : List Value} {i : Nat}, cs[i]? = some c →
      (∀ j c', j ≠ i → cs[j]? = some c' → c' = zeroOfType t) →
      oneHotSelectValue (zeroOfType t) s cs = if s[i]? = some true then c else zeroOfType t
  | [], _, _, _, _ => by cases ‹List Value› <;> rfl
  | _ :: _, [], _, hi, _ => by simp at hi
  | b :: s, x :: cs, 0, hi, hcs => by
    simp only [List.getElem?_cons_zero, Option.some.injEq] at hi
    subst hi
    rw [oneHotSelectValue, oneHotSelectValue_zeros s (mem_of_forall_getElem? fun (j : Nat) y hy =>
      hcs (j + 1) y (by omega) (by simpa using hy))]
    cases b <;> simp [Value.or_zero t hc]
  | b :: s, x :: cs, i + 1, hi, hcs => by
    have ih := oneHotSelectValue_single hc s (show cs[i]? = some c by simpa using hi)
      fun (j : Nat) y (hj : j ≠ i) hy => hcs (j + 1) y (by omega) (by simpa using hy)
    rw [oneHotSelectValue, ih, hcs 0 x (by omega) (by simp)]
    by_cases hs : s[i]? = some true <;> cases b <;>
      simp [hs, Value.zero_or hc, Value.zero_or (zeroOfType_hasType t)]

/-- A `PrioritySelect` takes the case of the least significant set selector
    bit, and is zero when no bit is set or the bit has no case. -/
theorem prioritySelectValue_eq (z : Value) : ∀ (s : Bits) (cs : List Value),
    prioritySelectValue z s cs = ((Bits.firstSet s).bind (cs[·]?)).getD z
  | [], _ => by cases ‹List Value› <;> rfl
  | true :: _, [] | true :: _, _ :: _ => by simp [prioritySelectValue, Bits.firstSet]
  | false :: s, [] => by simp [prioritySelectValue, Bits.firstSet]
  | false :: s, _ :: cs => by
    simp only [prioritySelectValue, Bits.firstSet, prioritySelectValue_eq z s cs]
    cases Bits.firstSet s <;> simp

theorem prioritySelectValue_single {s : Bits} (hi : cs[i]? = some c)
    (hcs : ∀ j c', j ≠ i → cs[j]? = some c' → c' = z) :
    prioritySelectValue z s cs = if Bits.firstSet s = some i then c else z := by
  rw [prioritySelectValue_eq]
  rcases hs : Bits.firstSet s with _ | j
  · rfl
  · by_cases hj : j = i
    · subst hj; simp [hi]
    · rw [if_neg (by simpa using hj)]
      cases hcj : cs[j]? with
      | none => simp [hcj]
      | some y => simpa [hcj] using hcs j y hj hcj

theorem prioritySelectValue_zeros {s : Bits} (hcs : ∀ x ∈ cs, x = z) : prioritySelectValue z s cs = z := by
  rw [prioritySelectValue_eq]
  cases Bits.firstSet s with
  | none => rfl
  | some j =>
    cases hcj : cs[j]? with
    | none => simp [hcj]
    | some y => simpa [hcj] using hcs y (List.getElem?_mem hcj)

/-! ### Selects as folds over their cases -/

/-- A select over its cases from the first: `step b c k` is the select with
    case `c`, selected by `b`, in front of the select `k` over the rest. -/
def caseFold (step : Bool → Value → Value → Value) : Bits → List Value → Value → Value
  | b :: bs, c :: cs, k => step b c (caseFold step bs cs k)
  | _, _, k => k

/-- The one-hot step: the case ORed in where its bit is set. -/
def oneHotStep (b : Bool) (c k : Value) : Value := if b then c.or k else k

/-- The priority step: the case where its bit is set. -/
def priorityStep (b : Bool) (c k : Value) : Value := if b then c else k

theorem oneHotSelectValue_eq_caseFold (z : Value) :
    ∀ (bs : Bits) (cs : List Value), oneHotSelectValue z bs cs = caseFold oneHotStep bs cs z
  | [], _ => rfl
  | _ :: _, [] => rfl
  | _ :: bs, _ :: cs => by rw [oneHotSelectValue, caseFold, oneHotSelectValue_eq_caseFold z bs cs]; rfl

theorem prioritySelectValue_eq_caseFold (z : Value) :
    ∀ (bs : Bits) (cs : List Value), prioritySelectValue z bs cs = caseFold priorityStep bs cs z
  | [], _ => rfl
  | true :: _, [] | false :: _, [] => rfl
  | true :: _, _ :: _ => rfl
  | false :: bs, _ :: cs => prioritySelectValue_eq_caseFold z bs cs

theorem caseFold_append (step : Bool → Value → Value → Value) :
    ∀ {bs₁ : Bits} {cs₁ : List Value}, bs₁.length = cs₁.length → ∀ (bs₂ : Bits) (cs₂ : List Value) (k : Value),
      caseFold step (bs₁ ++ bs₂) (cs₁ ++ cs₂) k = caseFold step bs₁ cs₁ (caseFold step bs₂ cs₂ k)
  | [], [], _, _, _, _ => rfl
  | _ :: _, _ :: _, h, bs₂, cs₂, k => by
    rw [List.cons_append, List.cons_append, caseFold, caseFold, caseFold_append step (by simpa using h) bs₂ cs₂ k]
  | [], _ :: _, h, _, _, _ | _ :: _, [], h, _, _, _ => by simp at h

/-- Cases whose bits are all zero pass the rest through. -/
theorem caseFold_zeros {step : Bool → Value → Value → Value} (hstep : ∀ c k, step false c k = k) :
    ∀ (n : Nat) (cs : List Value) (k : Value), caseFold step (List.replicate n false) cs k = k
  | 0, _, _ => rfl
  | _ + 1, [], _ => rfl
  | n + 1, _ :: cs, k => by rw [List.replicate_succ, caseFold, caseFold_zeros hstep n cs k, hstep]

theorem caseFold_hasType {step : Bool → Value → Value → Value}
    (hstep : ∀ b c k, c.HasType t → k.HasType t → (step b c k).HasType t) :
    ∀ (bs : Bits) {cs : List Value} {k : Value}, (∀ c ∈ cs, c.HasType t) → k.HasType t →
      (caseFold step bs cs k).HasType t
  | [], _, _, _, hk => by cases ‹List Value› <;> exact hk
  | _ :: _, [], _, _, hk => hk
  | _ :: bs, c :: _, _, hcs, hk =>
    hstep _ _ _ (hcs c (.head _)) (caseFold_hasType hstep bs (fun c' h => hcs c' (.tail _ h)) hk)

theorem oneHotStep_hasType (b : Bool) {c k : Value} (hc : c.HasType t) (hk : k.HasType t) :
    (oneHotStep b c k).HasType t := by
  cases b
  · exact hk
  · exact Value.or_hasType t hc hk

theorem priorityStep_hasType (b : Bool) {c k : Value} (hc : c.HasType t) (hk : k.HasType t) :
    (priorityStep b c k).HasType t := by
  cases b
  · exact hk
  · exact hc

/-- The one-hot fold in front of `k` is the one-hot select ORed with `k`. -/
theorem caseFold_oneHot {k : Value} (hk : k.HasType t) :
    ∀ (bs : Bits) {cs : List Value}, (∀ c ∈ cs, c.HasType t) →
      caseFold oneHotStep bs cs k = (oneHotSelectValue (zeroOfType t) bs cs).or k
  | [], _, _ => by rw [oneHotSelectValue_eq_caseFold]; exact (Value.zero_or hk).symm
  | _ :: _, [], _ => (Value.zero_or hk).symm
  | b :: bs, c :: cs, hcs => by
    have hR := oneHotSelectValue_hasType (zeroOfType_hasType t) bs fun c' h => hcs c' (.tail _ h)
    rw [caseFold, caseFold_oneHot hk bs fun c' h => hcs c' (.tail _ h), oneHotSelectValue]
    cases b
    · rfl
    · exact (Value.or_assoc_of_hasType t (hcs c (.head _)) hR hk).symm

/-- The priority fold in front of `k` is the priority select where a bit is
    set, and `k` where none is. -/
theorem caseFold_priority (z k : Value) :
    ∀ (bs : Bits) (cs : List Value), bs.length = cs.length →
      caseFold priorityStep bs cs k = if bs.any id then prioritySelectValue z bs cs else k
  | [], [], _ => rfl
  | true :: _, _ :: _, _ => rfl
  | false :: bs, _ :: cs, h => caseFold_priority z k bs cs (by simpa using h)
  | [], _ :: _, h | _ :: _, [], h => by simp at h

end Values

/-! ## Select nodes -/

namespace FunctionBase

variable {f : FunctionBase} {env : Env} {node s : Nat} {rest : List Nat} {ty : Ty}

/-- The values of the operands of a node with a value. -/
theorem exists_operands {op : Op} {v : Value} (hnd : f.node node = some ⟨op, s :: rest, ty⟩)
    (hv : f.Eval env node v) :
    ∃ sv vs, f.Eval env s sv ∧ List.Forall₂ (f.Eval env) rest vs ∧ op.sem env ty (sv :: vs) = some v := by
  obtain ⟨_, hvs, hsem⟩ := (eval_node_iff hnd).1 hv
  cases hvs with
  | cons hs hvs => exact ⟨_, _, hs, hvs, hsem⟩

theorem ReachPlus.of_mem {o : Nat} {op : Op} {ops : List Nat} (hnd : f.node node = some ⟨op, ops, ty⟩)
    (ho : o ∈ ops) : f.ReachPlus node o :=
  ⟨_, hnd, o, ho, .refl o⟩

/-- What the verifier checks of a `Select`: a bits selector, cases and default
    of the node's type, a default exactly when the cases are fewer than the
    selector can index. -/
theorem verify_select {d : Bool} (hf : f.WellTyped) (hnd : f.node node = some ⟨.select d, s :: rest, ty⟩) :
    ∃ w, f.tyOf s = .bits w ∧ (∀ c ∈ rest, f.tyOf c = ty) ∧ (selectCases d rest).length ≤ 2 ^ w ∧
      ((selectDefault d rest).isSome ↔ (selectCases d rest).length < 2 ^ w) := by
  have hv := verifyNode_of_wellTyped hf hnd
  simp only [verifyNode, Bool.and_eq_true, List.map_cons] at hv
  generalize hts : f.tyOf s = t at hv
  cases t <;> cases d <;> simp_all [Op.verify, List.all_eq_true, List.isEmpty_iff, selectCases, selectDefault]
  all_goals omega

/-- What the verifier checks of a `OneHotSelect` or a `PrioritySelect`: at
    least one case, one selector bit per case, cases of the node's type. -/
theorem verify_oneHotSel {op : Op} (hop : op = .oneHotSel ∨ op = .prioritySel) (hf : f.WellTyped)
    (hnd : f.node node = some ⟨op, s :: rest, ty⟩) :
    f.tyOf s = .bits rest.length ∧ rest ≠ [] ∧ ∀ c ∈ rest, f.tyOf c = ty := by
  have hv := verifyNode_of_wellTyped hf hnd
  simp only [verifyNode, Bool.and_eq_true, List.map_cons] at hv
  generalize hts : f.tyOf s = t at hv
  rcases hop with rfl | rfl <;> cases t <;>
    simp_all [Op.verify, List.all_eq_true, List.isEmpty_iff]

/-- The bits of a node of width `w` have length `w`. -/
theorem length_of_eval (hf : f.WellTyped) {w : Nat} (hsw : f.tyOf s = .bits w) (henv : env.Typed)
    {sb : Bits} (hs : f.Eval env s (.bits sb)) : sb.length = w := by
  simpa [hsw] using hasType_of_eval hf henv hs

/-- The selector's bits and the cases' values of a one-hot or priority select
    with a value. -/
theorem oneHotSel_operands {op : Op} (hop : op = .oneHotSel ∨ op = .prioritySel) (hf : f.WellTyped)
    (hnd : f.node node = some ⟨op, s :: rest, ty⟩) (henv : env.Typed) {v : Value} (hv : f.Eval env node v) :
    ∃ sb vs, f.Eval env s (.bits sb) ∧ List.Forall₂ (f.Eval env) rest vs ∧ op.sem env ty (.bits sb :: vs) = some v := by
  obtain ⟨sv, vs, hs, hvs, hsem⟩ := exists_operands hnd hv
  obtain ⟨sb, rfl, -⟩ := Value.hasType_bits_iff.1 ((verify_oneHotSel hop hf hnd).1 ▸ hasType_of_eval hf henv hs)
  exact ⟨sb, vs, hs, hvs, hsem⟩

/-- Replacing `node` by a literal of its value is a rewrite. -/
theorem rewrites_literal {f' : FunctionBase} {c : Value} (hn : node < f.size)
    (hc : ∀ env : Env, env.Typed → ∀ v, f.Eval env node v → v = c)
    (h : f.replaceUsesWithNew node (.literal c) [] = .ok f') : Rewrites f node f' :=
  rewrites_of_replaceUsesWithNew hn .refl (by simp)
    (fun env henv v hv => ⟨[], .nil, by rw [hc env henv v hv]; rfl⟩) h

/-- One new node of operation `op` over each of the given nodes, in order: the
    loops that slice or index every case of a select. -/
def makeNodes (op : Op) : FunctionBase → List Nat → FunctionBase × List Nat
  | f, [] => (f, [])
  | f, c :: cs =>
    let (f, x) := f.makeNode op [c]
    let (f, xs) := makeNodes op f cs
    (f, x :: xs)

/-- The new nodes are appended, one over each given node. -/
theorem makeNodes_spec {S : Nat → Prop} {op : Op} : ∀ {g g' : FunctionBase} {cs xs : List Nat},
    (∀ c ∈ cs, S c ∧ c < g.size) → makeNodes op g cs = (g', xs) →
      Extends g S g' ∧
        List.Forall₂ (fun c x => Fresh g g' x ∧ g'.node x = some ⟨op, [c], op.resultType [g.tyOf c]⟩) cs xs
  | _, _, [], _, _, h => by
    cases h
    exact ⟨.refl, .nil⟩
  | g, g', c :: cs, xs, hS, h => by
    generalize hr : makeNodes op (g.makeNode op [c]).1 cs = r at h
    obtain ⟨g₂, ys⟩ := r
    simp only [makeNodes, makeNode_snd, hr, Prod.mk.injEq] at h
    obtain ⟨rfl, rfl⟩ := h
    have hlt : g.size < (g.makeNode op [c]).1.size := by simp
    obtain ⟨hext, hys⟩ := makeNodes_spec (fun c' h => ⟨(hS c' (.tail _ h)).1,
      lt_trans (hS c' (.tail _ h)).2 hlt⟩) hr
    have hg₁ : Extends g S (g.makeNode op [c]).1 :=
      Extends.refl.makeNode (by simpa using .inr (hS c (.head _)).1)
    refine ⟨hg₁.trans hext, .cons ⟨⟨le_rfl, lt_of_lt_of_le hlt hext.size_le⟩, ?_⟩
      (forall₂_imp_of_mem (fun c' y hc' ⟨hf, hn⟩ => ⟨⟨le_trans hlt.le hf.1, hf.2⟩, ?_⟩) hys)⟩
    · rw [hext.node_of_lt hlt]
      simp [makeNode]
    · rw [hn, tyOf_makeNode_of_lt (hS c' (.tail _ hc')).2]

/-- New nodes the verifier accepts keep a function well typed. -/
theorem wellTyped_makeNodes {op : Op} : ∀ {g g' : FunctionBase} {cs xs : List Nat}, g.WellTyped →
    (∀ c ∈ cs, c < g.size ∧ op.verify [g.tyOf c] (op.resultType [g.tyOf c])) →
    makeNodes op g cs = (g', xs) → g'.WellTyped
  | _, _, [], _, hg, _, h => by cases h; exact hg
  | g, g', c :: cs, xs, hg, hcs, h => by
    generalize hr : makeNodes op (g.makeNode op [c]).1 cs = r at h
    obtain ⟨g₂, ys⟩ := r
    simp only [makeNodes, makeNode_snd, hr, Prod.mk.injEq] at h
    obtain ⟨rfl, rfl⟩ := h
    refine wellTyped_makeNodes (hg.makeNode (by simpa using (hcs c (.head _)).1) (hcs c (.head _)).2)
      (fun c' hc' => ?_) hr
    have hlt := (hcs c' (.tail _ hc')).1
    rw [tyOf_makeNode_of_lt hlt, size_makeNode]
    exact ⟨Nat.lt_succ_of_lt hlt, (hcs c' (.tail _ hc')).2⟩

/-- The new nodes compute `op` of the given nodes' values. -/
theorem eval_makeNodes {op : Op} {g g' : FunctionBase} {S : Nat → Prop} (hext : Extends g S g')
    {F : Value → Value} : ∀ {cs xs : List Nat} {cvs : List Value},
      List.Forall₂ (fun c x => Fresh g g' x ∧ g'.node x = some ⟨op, [c], op.resultType [g.tyOf c]⟩) cs xs →
      List.Forall₂ (fun c cv => g.Eval env c cv ∧ op.sem env (op.resultType [g.tyOf c]) [cv] = some (F cv)) cs cvs →
      List.Forall₂ (g'.Eval env) xs (cvs.map F)
  | _, _, _, .nil, .nil => .nil
  | _ :: _, _, _ :: _, .cons ⟨_, hx⟩ hxs, .cons ⟨hc, hF⟩ hcs =>
    .cons (eval_of_node hx (.cons (hext.eval hc) .nil) hF) (eval_makeNodes hext hxs hcs)

end FunctionBase

theorem map_pair_eq_ok {ε α : Type} {b b' : Bool} {e : Except ε α} {a : α} :
    ((b, ·) <$> e) = .ok (b', a) ↔ b = b' ∧ e = .ok a := by
  cases e <;> simp [Functor.map, Except.map, eq_comm]

theorem map_some_eq_ok {ε α : Type} {e : Except ε α} {a : α} : (some <$> e) = .ok (some a) ↔ e = .ok a := by
  cases e <;> simp [Functor.map, Except.map]

/-- A bit a ternary vector knows has its known value in every vector the
    ternary vector contains. -/
theorem TernaryVector.getElem?_of_contains {t : TernaryVector} {b : Bits} (h : t.Contains b) {i : Nat}
    {x : TernaryValue} {y : Bool} (hx : t[i]? = some x) (hy : x.toBool? = some y) : b[i]? = some y := by
  obtain ⟨y', hy', hc⟩ := forall₂_getElem?_left h hx
  rw [hy', TernaryValue.eq_of_toBool? hc hy]

/-! ## `IsAllZeros` -/

namespace QueryEngine

/-- The engine's `IsAllZeros` answers about `f` hold of every value its nodes
    take under a typed environment. -/
def AllZerosSound (q : QueryEngine) (f : FunctionBase) : Prop :=
  ∀ env : Env, env.Typed → ∀ n v, q.isAllZeros n = true → f.Eval env n v → ∀ l ∈ v.leaves, Bits.IsZero l

variable {q : QueryEngine} {f : FunctionBase}

theorem Sound.allZerosSound (hq : q.Sound f.Evaluations f.shape) : q.AllZerosSound f := by
  intro env henv n v hz hv
  obtain ⟨ev, hev, hev'⟩ := FunctionBase.exists_evaluation henv
  exact isAllZeros_sound hq hev (hev' n v hv) hz

theorem AllZerosSound.eq_zeroOfType (hq : q.AllZerosSound f) (hf : f.WellTyped) {env : Env}
    (henv : env.Typed) {n : Nat} {v : Value} (hz : q.isAllZeros n = true) (hv : f.Eval env n v) :
    v = zeroOfType (f.tyOf n) :=
  eq_zeroOfType_of_leaves _ (FunctionBase.hasType_of_eval hf henv hv) (hq env henv n v hz hv)

/-- The values of nodes of type `t` that the engine says are all zeros. -/
theorem AllZerosSound.values_eq_zero (hq : q.AllZerosSound f) (hf : f.WellTyped) {env : Env} (henv : env.Typed)
    {ns : List Nat} {vs : List Value} (hvs : List.Forall₂ (f.Eval env) ns vs) {t : Ty}
    (ht : ∀ n ∈ ns, f.tyOf n = t) {j : Nat} (hz : ∀ n, ns[j]? = some n → q.isAllZeros n = true)
    {w : Value} (hw : vs[j]? = some w) : w = zeroOfType t := by
  have hj : j < ns.length := hvs.length_eq ▸ (List.getElem?_eq_some_iff.1 hw).1
  have hn := List.getElem?_eq_getElem hj
  obtain ⟨w', hw', he⟩ := forall₂_getElem?_left hvs hn
  cases hw.symm.trans hw'
  rw [hq.eq_zeroOfType hf henv (hz _ hn) he, ht _ (List.getElem?_mem hn)]

/-- The value of a `Select`'s default that the engine says is all zeros. -/
theorem AllZerosSound.selectDefault_eq_zero (hq : q.AllZerosSound f) (hf : f.WellTyped) {env : Env} (henv : env.Typed)
    {d : Bool} {rest : List Nat} {vs : List Value} (hvs : List.Forall₂ (f.Eval env) rest vs) {t : Ty}
    (ht : ∀ n ∈ rest, f.tyOf n = t) (hz : ∀ n ∈ selectDefault d rest, q.isAllZeros n = true) :
    ∀ y ∈ selectDefault d vs, y = zeroOfType t := by
  intro y hy
  cases hdn : selectDefault d rest with
  | none => simp [selectDefault_none hvs hdn] at hy
  | some n =>
    obtain ⟨y', hy', he⟩ := selectDefault_rel hvs hdn
    cases (Option.mem_def.1 hy).symm.trans hy'
    rw [hq.eq_zeroOfType hf henv (hz n hdn) he, ht n (mem_of_selectDefault hdn)]

/-! ## What the rules read from the engine -/

/-- What the rules read from the engine holds of `f` under every typed
    environment: its `IsAllZeros` answers; the ternary vector of every bits node,
    tracked or not, contains the node's value (an engine answers with the
    unknown vector of a node's width where it knows nothing); and its
    `AtMostOneTrue` answers over the bits of a bits node. -/
structure SoundFor (q : QueryEngine) (f : FunctionBase) : Prop where
  allZeros : q.AllZerosSound f
  ternary : ∀ env : Env, env.Typed → ∀ n b, f.Eval env n (.bits b) → (q.ternary n).Contains b
  atMostOneBitTrue : ∀ env : Env, env.Typed → ∀ n b, f.Eval env n (.bits b) → q.atMostOneBitTrue n b.length →
    ∀ i j : Nat, b[i]? = some true → b[j]? = some true → i = j

namespace SoundFor

variable {q : QueryEngine} {f : FunctionBase} (hq : q.SoundFor f) {env : Env} (henv : env.Typed)
  {n : Nat} {b : Bits} (hv : f.Eval env n (.bits b))
include hq henv hv

/-- A fully known node is its known value. -/
theorem knownValueAsBits {bs : Bits} (h : q.knownValueAsBits n = some bs) : b = bs := by
  unfold QueryEngine.knownValueAsBits QueryEngine.isFullyKnown at h
  split at h
  · rename_i hk
    simp only [Bool.and_eq_true, List.all_eq_true] at hk
    cases h
    have hall : (q.ternary n).all (· != .unknown) := by
      unfold QueryEngine.ternary
      cases h' : q.getTernary n with
      | nil => rfl
      | cons t ts => exact List.all_eq_true.2 (hk.2 t (by rw [h']; exact .head _))
    exact (ternaryOps.toKnownBitsValues_of_contains (hq.ternary env henv n b hv) hall).symm
  · cases h

/-- A known bit of a bits node has its known value. -/
theorem knownValue {i : Nat} {x : Bool} (h : q.knownValue ⟨n, i, 0⟩ = some x) : b[i]? = some x := by
  unfold QueryEngine.knownValue at h
  split at h
  · simp only [Option.bind_eq_some] at h
    obtain ⟨y, ⟨t, ht0, hti⟩, hx⟩ := h
    obtain ⟨ts, hts⟩ : ∃ ts, q.getTernary n = t :: ts := by
      cases h' : q.getTernary n <;> simp_all
    have hc := hq.ternary env henv n b hv
    rw [QueryEngine.ternary, hts, List.headD_cons] at hc
    obtain ⟨y', hy', hc'⟩ := forall₂_getElem?_left hc hti
    rw [hy', TernaryValue.eq_of_toBool? hc' hx]
  · cases h

end SoundFor

/-- The engine that knows nothing of `f`: it tracks no node, and answers the
    unknown vector of each node's width. -/
def knowsNothing (f : FunctionBase) : QueryEngine where
  populate := .ok .unchanged
  isTracked _ := false
  getTernary n := [TernaryVector.unknown (f.tyOf n).bitCount]
  getIntervals _ := []
  atMostOneTrue _ := false
  atLeastOneTrue _ := false
  knownEquals _ _ := false
  knownNotEquals _ _ := false
  implies _ _ := false
  impliedNodeValue _ _ := none
  impliedNodeTernary _ _ := none

/-- The engine that knows nothing is sound for every well-typed function. -/
theorem knowsNothing_soundFor {f : FunctionBase} (hf : f.WellTyped) : (knowsNothing f).SoundFor f where
  allZeros _ _ _ _ hz := by simp [isAllZeros, knowsNothing] at hz
  ternary env henv n b hv := by
    have ht := FunctionBase.hasType_of_eval hf henv hv
    simp only [ternary, knowsNothing, List.headD_cons]
    cases h : f.tyOf n <;> rw [h] at ht <;>
      simp_all [Ty.bitCount, TernaryVector.unknown_contains, Value.hasType_tuple_iff, Value.hasType_array_iff,
        Value.hasType_token_iff]
  atMostOneBitTrue _ _ _ _ _ h := by simp [atMostOneBitTrue, knowsNothing] at h

end QueryEngine

end Xls
