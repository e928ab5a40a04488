import Xls.Ir.Verifier

/-!
# Rewrites of one node

Every rewrite the select-simplification pass makes has one form: it appends
new nodes, reading only nodes that the rewritten node depends on (and each
other), then makes the uses of the node uses of a replacement, which has the
node's value (`RewriteOf`). The section proves once that such a rewrite keeps
the value of every node of the function (`RewriteOf.eval`), so that each rule
only has to show its replacement computes the node's value.

* `Extends f S g`: `g` is `f` with nodes appended, each reading appended nodes
  before it or nodes of `S`;
* `Extends.eval_iff`: the nodes of a well-typed `f` keep their values in `g`;
* `RewriteOf.eval`, `RewriteOf.eval_replaceOperand`: after the rewiring every
  node keeps its value, and whatever read the node reads one of that value;
* `Keeps f f'`: what a whole run of rewrites keeps, the nodes of `f` with their
  types and values and the function's return value, shown of one rewrite by
  `Rewrites.keeps` and carried along a run by `Keeps.trans`;
* `Rewrites.wellFormed`: a rewrite gains no cycle, as every node keeps a value
  (`RewriteOf.total`).
-/

namespace Xls

namespace FunctionBase

/-- `g` is `f` with nodes appended, each reading only appended nodes before
    it or nodes of `S`. -/
inductive Extends (f : FunctionBase) (S : Nat → Prop) : FunctionBase → Prop
  | refl : Extends f S f
  | push {g : FunctionBase} {nd : Node} : Extends f S g →
      (∀ o ∈ nd.operands, f.size ≤ o ∧ o < g.size ∨ S o) → Extends f S (g.push nd)

/-- A node appended after `f`'s. -/
def Fresh (f g : FunctionBase) (n : Nat) : Prop := f.size ≤ n ∧ n < g.size

/-- Every operand names a node of the table. -/
def OperandsExist (f : FunctionBase) : Prop :=
  ∀ n nd, f.node n = some nd → ∀ o ∈ nd.operands, o < f.size

theorem operandsExist_of_wellTyped {f : FunctionBase} (hf : f.WellTyped) : f.OperandsExist :=
  fun _ _ hn => (verifyNode_iff.1 (verifyNode_of_wellTyped hf hn)).1

theorem Fresh.makeNode {f g : FunctionBase} {o : Nat} {op : Op} {ops : List Nat} (h : Fresh f g o) :
    Fresh f (g.makeNode op ops).1 o :=
  ⟨h.1, by simp only [size_makeNode]; exact Nat.lt_succ_of_lt h.2⟩

theorem fresh_makeNode_self {f g : FunctionBase} {op : Op} {ops : List Nat} (hg : f.size ≤ g.size) :
    Fresh f (g.makeNode op ops).1 g.size :=
  ⟨hg, by simp⟩

namespace Extends

variable {f g : FunctionBase} {S : Nat → Prop}

theorem size_le (h : Extends f S g) : f.size ≤ g.size := by
  induction h with
  | refl => exact le_rfl
  | push _ _ ih => simp only [size_push]; omega

theorem node_of_lt (h : Extends f S g) {n : Nat} (hn : n < f.size) : g.node n = f.node n := by
  induction h with
  | refl => rfl
  | push h' _ ih => rw [node_push_of_lt (lt_of_lt_of_le hn h'.size_le), ih]

theorem tyOf_of_lt (h : Extends f S g) {n : Nat} (hn : n < f.size) : g.tyOf n = f.tyOf n := by
  simp only [tyOf, h.node_of_lt hn]

theorem returnValue_eq (h : Extends f S g) : g.returnValue = f.returnValue := by
  induction h with
  | refl => rfl
  | push _ _ ih => exact ih

theorem eval (h : Extends f S g) {env : Env} {n : Nat} {v : Value} (hv : f.Eval env n v) :
    g.Eval env n v := by
  induction h with
  | refl => exact hv
  | push _ _ ih => exact eval_push _ ih

/-- The nodes of `f` keep their values, and gain none. -/
theorem eval_iff (h : Extends f S g) (hf : f.OperandsExist) {env : Env} {n : Nat} (hn : n < f.size)
    {v : Value} : g.Eval env n v ↔ f.Eval env n v :=
  ⟨eval_frame (S := (· < f.size)) (fun a nd ha hnd b hb => hf a nd ((h.node_of_lt ha).symm.trans hnd) b hb)
      (fun _ hx => (h.node_of_lt hx).symm) hn, h.eval⟩

/-- From a node of `f`, `g` reaches only nodes of `f`, as `f` does. -/
theorem reach_of_lt (h : Extends f S g) (hf : f.OperandsExist) {x y : Nat} (hr : g.Reach x y)
    (hx : x < f.size) : f.Reach x y := by
  induction hr with
  | refl => exact .refl _
  | step hn hb _ ih =>
    rw [h.node_of_lt hx] at hn
    exact .step hn hb (ih (hf _ _ hn _ hb))

/-- An appended node reads appended nodes and nodes of `S`. -/
theorem operand_of_fresh (h : Extends f S g) {a : Nat} {nd : Node} (ha : Fresh f g a)
    (hn : g.node a = some nd) {b : Nat} (hb : b ∈ nd.operands) : Fresh f g b ∨ S b := by
  induction h generalizing a nd with
  | refl => exact absurd ha.2 (not_lt.2 ha.1)
  | @push g' nd' h' hops ih =>
    have hle : ∀ {x}, f.size ≤ x ∧ x < g'.size → Fresh f (g'.push nd') x :=
      fun hx => ⟨hx.1, by simp only [size_push]; omega⟩
    rcases Nat.lt_or_ge a g'.size with ha' | ha'
    · rw [node_push_of_lt ha'] at hn
      exact (ih ⟨ha.1, ha'⟩ hn hb).imp_left hle
    · obtain rfl : a = g'.size := by unfold Fresh at ha; simp only [size_push] at ha; omega
      rw [node_push_size] at hn
      cases hn
      exact (hops b hb).imp_left hle

/-- An appended node reads appended nodes before it, or nodes of `S`. -/
theorem operand_lt (h : Extends f S g) {a : Nat} {nd : Node} (ha : f.size ≤ a) (hn : g.node a = some nd)
    {b : Nat} (hb : b ∈ nd.operands) : f.size ≤ b ∧ b < a ∨ S b := by
  induction h generalizing a nd with
  | refl => exact absurd (lt_size_of_node hn) (not_lt.2 ha)
  | @push g' nd' h' hops ih =>
    rcases Nat.lt_or_ge a g'.size with ha' | ha'
    · rw [node_push_of_lt ha'] at hn
      exact ih ha hn hb
    · obtain rfl : a = g'.size := by have := lt_size_of_node hn; simp only [size_push] at this; omega
      rw [node_push_size] at hn
      cases hn
      exact hops b hb

/-- From an appended node, `g` reaches appended nodes, or nodes `f` reaches
    from `S`. -/
theorem reach_of_fresh (h : Extends f S g) (hf : f.OperandsExist) (hS : ∀ s, S s → s < f.size)
    {x y : Nat} (hr : g.Reach x y) (hx : Fresh f g x) : Fresh f g y ∨ ∃ s, S s ∧ f.Reach s y := by
  induction hr with
  | refl => exact .inl hx
  | step hn hb hbc ih =>
    rcases h.operand_of_fresh hx hn hb with hb' | hb'
    · exact ih hb'
    · exact .inr ⟨_, hb', h.reach_of_lt hf hbc (hS _ hb')⟩

theorem makeNode {op : Op} {ops : List Nat} (h : Extends f S g)
    (hops : ∀ o ∈ ops, f.size ≤ o ∧ o < g.size ∨ S o) : Extends f S (g.makeNode op ops).1 :=
  .push h hops

theorem trans {g' : FunctionBase} (h : Extends f S g) (h' : Extends g S g') : Extends f S g' := by
  induction h' with
  | refl => exact h
  | push _ hops ih =>
    refine .push ih fun o ho => ?_
    rcases hops o ho with ho' | ho'
    · exact .inl ⟨le_trans h.size_le ho'.1, ho'.2⟩
    · exact .inr ho'

end Extends

theorem Reach.of_extends {f g : FunctionBase} {S : Nat → Prop} (h : Extends f S g) {x y : Nat}
    (hr : f.Reach x y) : g.Reach x y := by
  induction hr with
  | refl => exact .refl _
  | step hn hb _ ih =>
    exact .step ((h.node_of_lt (List.getElem?_eq_some_iff.1 hn).1).trans hn) hb ih

/-- A rewrite of `node` into `r` in `g`: `g` appends to `f` nodes over what
    `node` depends on, `r` is appended or something `node` depends on, and
    under every typed environment `r` has `node`'s value. -/
structure RewriteOf (f : FunctionBase) (node : Nat) (g : FunctionBase) (r : Nat) : Prop where
  ext : Extends f (f.ReachPlus node) g
  replacement : Fresh f g r ∨ f.ReachPlus node r
  sameValue : ∀ env : Env, env.Typed → ∀ v, f.Eval env node v → g.Eval env r v

theorem lt_size_of_reach {f : FunctionBase} (hf : f.OperandsExist) {b s : Nat} (hr : f.Reach b s)
    (hb : b < f.size) : s < f.size := by
  induction hr with
  | refl => exact hb
  | step hn ho _ ih => exact ih (hf _ _ hn _ ho)

theorem lt_size_of_reachPlus {f : FunctionBase} (hf : f.OperandsExist) {a s : Nat}
    (hs : f.ReachPlus a s) : s < f.size := by
  obtain ⟨nd, hn, b, hb, hr⟩ := hs
  exact lt_size_of_reach hf hr (hf _ _ hn _ hb)

theorem ReachPlus.trans_reach {f : FunctionBase} {a s : Nat} (hs : f.ReachPlus a s) {c : Nat}
    (hr : f.Reach s c) : f.ReachPlus a c := by
  obtain ⟨nd, hn, b, hb, hbs⟩ := hs
  exact ⟨nd, hn, b, hb, hbs.trans hr⟩

namespace RewriteOf

variable {f g : FunctionBase} {node r : Nat} (h : RewriteOf f node g r) (hf : f.OperandsExist)
  {env : Env} (henv : env.Typed)
include h hf

theorem reach (hn : node < f.size) (hr : g.Reach r node) : g.ReachPlus node node := by
  have hfr : f.ReachPlus node node := by
    rcases h.replacement with hfresh | hbelow
    · rcases h.ext.reach_of_fresh hf (fun _ => lt_size_of_reachPlus hf) hr hfresh with hy | ⟨s, hs, hsr⟩
      · exact absurd hn (not_lt.2 hy.1)
      · exact hs.trans_reach hsr
    · exact hbelow.trans_reach (h.ext.reach_of_lt hf hr (lt_size_of_reachPlus hf hbelow))
  obtain ⟨nd, hnd, b, hb, hbr⟩ := hfr
  exact ⟨nd, (h.ext.node_of_lt hn).trans hnd, b, hb, Reach.of_extends h.ext hbr⟩

include henv

theorem eval_new (hn : node < f.size) {v : Value} (hv : g.Eval env node v) : g.Eval env r v :=
  h.sameValue env henv v ((h.ext.eval_iff hf hn).1 hv)

/-- After a rewrite every node of `f` keeps its value. -/
theorem eval (hn : node < f.size) {n : Nat} {v : Value} (hv : f.Eval env n v) :
    (g.rewire node r).Eval env n v :=
  eval_rewire (fun _ => eval_new h hf henv hn) (reach h hf hn) (h.ext.eval hv)

/-- After a rewrite whatever read a node of `f` reads a node of the same value. -/
theorem eval_replaceOperand (hn : node < f.size) {n : Nat} {v : Value} (hv : f.Eval env n v) :
    (g.rewire node r).Eval env (replaceOperand node r n) v :=
  eval_rewire_replaceOperand (fun _ => eval_new h hf henv hn) (reach h hf hn) (h.ext.eval hv)

end RewriteOf

/-- A node of a well-typed function whose operands have values has one. -/
theorem exists_eval_of_operands {f : FunctionBase} (hf : f.WellTyped) {env : Env} (henv : env.Typed) {n : Nat}
    {nd : Node} (hnd : f.node n = some nd) (hops : ∀ o ∈ nd.operands, ∃ w, f.Eval env o w) : ∃ v, f.Eval env n v := by
  obtain ⟨-, hv, -⟩ := verifyNode_iff.1 (verifyNode_of_wellTyped hf hnd)
  obtain ⟨vs, hvs⟩ := exists_forall₂_of_forall hops
  obtain ⟨v, hsem, -⟩ := Op.sem_safe hv henv
    (List.forall₂_map_right_iff.2 (hvs.imp fun _ _ h => hasType_of_eval hf henv h).flip)
  exact ⟨v, eval_of_node hnd hvs hsem⟩

/-- After a rewrite that leaves the function well typed, every node has a value
    where every node of `f` had one: the nodes of `f` keep theirs, and each
    appended node reads appended nodes before it or nodes below `node`. -/
theorem RewriteOf.total {f g : FunctionBase} {node r : Nat} (h : RewriteOf f node g r) (hf : f.OperandsExist)
    (hn : node < f.size) {env : Env} (henv : env.Typed) (hwt : (g.rewire node r).WellTyped) (ht : f.Total env) :
    (g.rewire node r).Total env := by
  intro n hn'
  rw [size_rewire] at hn'
  induction n using Nat.strong_induction_on with
  | _ n ih =>
    rcases Nat.lt_or_ge n f.size with hlt | hge
    · obtain ⟨v, hv⟩ := ht n hlt
      exact ⟨v, h.eval hf henv hn hv⟩
    -- an appended node
    obtain ⟨nd, hnd⟩ : ∃ nd, g.node n = some nd := ⟨_, List.getElem?_eq_getElem hn'⟩
    refine exists_eval_of_operands hwt henv (by rw [node_rewire, hnd]; rfl) fun o ho => ?_
    obtain ⟨b, hb, rfl⟩ := List.mem_map.1 ho
    rcases h.ext.operand_lt hge hnd hb with ⟨hfb, hbn⟩ | hbelow
    · rw [replaceOperand, if_neg (by omega)]
      exact ih b hbn (by omega)
    · obtain ⟨u, hu⟩ := ht b (lt_size_of_reachPlus hf hbelow)
      exact ⟨u, h.eval_replaceOperand hf henv hn hu⟩

/-- `f'` is `f` after a rewrite of `node`. -/
def Rewrites (f : FunctionBase) (node : Nat) (f' : FunctionBase) : Prop :=
  ∃ g r, RewriteOf f node g r ∧ f' = g.rewire node r

theorem Rewrites.size_le {f f' : FunctionBase} {node : Nat} (h : Rewrites f node f') : f.size ≤ f'.size := by
  obtain ⟨g, r, hr, rfl⟩ := h
  simpa using hr.ext.size_le

section Rules

variable {f g f' : FunctionBase} {node : Nat} {op : Op} {ops : List Nat}

/-- A new node over appended nodes and nodes below `node`, computing `node`'s
    value. -/
theorem rewriteOf_makeNode (hg : Extends f (f.ReachPlus node) g)
    (hops : ∀ o ∈ ops, Fresh f g o ∨ f.ReachPlus node o)
    (hsem : ∀ env : Env, env.Typed → ∀ v, f.Eval env node v →
      ∃ vs, List.Forall₂ (g.Eval env) ops vs ∧ op.sem env (op.resultType (ops.map g.tyOf)) vs = some v) :
    RewriteOf f node (g.makeNode op ops).1 g.size where
  ext := hg.makeNode hops
  replacement := .inl ⟨hg.size_le, by simp⟩
  sameValue env henv v hv :=
    let ⟨_, hvs, hv'⟩ := hsem env henv v hv
    eval_makeNode_self hvs hv'

/-- `ReplaceUsesWithNew` with such a node is a rewrite. -/
theorem rewrites_of_replaceUsesWithNew (hn : node < f.size) (hg : Extends f (f.ReachPlus node) g)
    (hops : ∀ o ∈ ops, Fresh f g o ∨ f.ReachPlus node o)
    (hsem : ∀ env : Env, env.Typed → ∀ v, f.Eval env node v →
      ∃ vs, List.Forall₂ (g.Eval env) ops vs ∧ op.sem env (op.resultType (ops.map g.tyOf)) vs = some v)
    (h : g.replaceUsesWithNew node op ops = .ok f') : Rewrites f node f' :=
  ⟨_, _, rewriteOf_makeNode hg hops hsem, ((replaceUsesWithNew_eq_ok (lt_of_lt_of_le hn hg.size_le)).1 h).2⟩

/-- `ReplaceUsesWith`, after appending nodes, a node appended or below `node`
    that has `node`'s value is a rewrite. -/
theorem rewrites_of_extends {r : Nat} (hg : Extends f (f.ReachPlus node) g) (hr : Fresh f g r ∨ f.ReachPlus node r)
    (hsem : ∀ env : Env, env.Typed → ∀ v, f.Eval env node v → g.Eval env r v)
    (h : g.replaceUsesWith node r = .ok f') : Rewrites f node f' :=
  ⟨g, r, ⟨hg, hr, hsem⟩, (replaceUsesWith_eq_ok.1 h).2⟩

/-- `ReplaceUsesWith` a node below `node` of the same value is a rewrite. -/
theorem rewrites_of_replaceUsesWith {r : Nat} (hr : f.ReachPlus node r)
    (hsem : ∀ env : Env, env.Typed → ∀ v, f.Eval env node v → f.Eval env r v)
    (h : f.replaceUsesWith node r = .ok f') : Rewrites f node f' :=
  rewrites_of_extends .refl (.inr hr) hsem h

/-! ## Building a replacement node by node -/

/-- Nodes appended to `f` over what `node` depends on, the function staying
    well typed: where a rule stands between two `MakeNode`s. -/
structure Builds (f : FunctionBase) (node : Nat) (g : FunctionBase) : Prop where
  ext : Extends f (f.ReachPlus node) g
  wellTyped : g.WellTyped

/-- A node that a new node of a rewrite of `node` may read: an appended one, or
    one that `node` depends on. -/
def Usable (f : FunctionBase) (node : Nat) (g : FunctionBase) (o : Nat) : Prop :=
  Fresh f g o ∨ f.ReachPlus node o

variable {o : Nat}

theorem Builds.start (hf : f.WellTyped) : Builds f node f := ⟨.refl, hf⟩

theorem Usable.lt_size (hf : f.OperandsExist) (hb : Builds f node g) (ho : Usable f node g o) : o < g.size :=
  ho.elim (·.2) fun h => lt_of_lt_of_le (lt_size_of_reachPlus hf h) hb.ext.size_le

theorem Usable.makeNode (ho : Usable f node g o) : Usable f node (g.makeNode op ops).1 o :=
  ho.imp Fresh.makeNode id

theorem Builds.usable_self (hb : Builds f node g) : Usable f node (g.makeNode op ops).1 g.size :=
  .inl (fresh_makeNode_self hb.ext.size_le)

/-- Appending a node the verifier accepts over usable nodes. -/
theorem Builds.makeNode (hf : f.OperandsExist) (hb : Builds f node g) (hops : ∀ o ∈ ops, Usable f node g o)
    (hv : op.verify (ops.map g.tyOf) (op.resultType (ops.map g.tyOf))) : Builds f node (g.makeNode op ops).1 :=
  ⟨hb.ext.makeNode hops, hb.wellTyped.makeNode (fun o ho => (hops o ho).lt_size hf hb) hv⟩

/-- Ending the building with `ReplaceUsesWithNew` of a node the verifier
    accepts, of `node`'s type, that computes `node`'s value in the evaluations
    where `P` holds: it succeeds and keeps the function well typed, the new
    node has `node`'s type, and its value wherever `P` holds, and where `P`
    always holds it is a rewrite. -/
theorem Builds.replaces (hb : Builds f node g) (op : Op) (ops : List Nat) (hf : f.OperandsExist) (hn : node < f.size)
    (hops : ∀ o ∈ ops, Usable f node g o)
    (hv : op.verify (ops.map g.tyOf) (op.resultType (ops.map g.tyOf)))
    (hty : op.resultType (ops.map g.tyOf) = f.tyOf node) {P : Env → Value → Prop}
    (hsem : ∀ env : Env, env.Typed → ∀ v, f.Eval env node v → P env v →
      ∃ vs, List.Forall₂ (g.Eval env) ops vs ∧ op.sem env (op.resultType (ops.map g.tyOf)) vs = some v) :
    ∃ f', g.replaceUsesWithNew node op ops = .ok f' ∧ f'.WellTyped ∧
      (∃ g' r, f' = g'.rewire node r ∧ Extends f (f.ReachPlus node) g' ∧ Fresh f g' r ∧ g'.tyOf r = f.tyOf node ∧
        ∀ env : Env, env.Typed → ∀ v, f.Eval env node v → P env v → g'.Eval env r v) ∧
      ((∀ env : Env, env.Typed → ∀ v, f.Eval env node v → P env v) → Rewrites f node f') := by
  have h := (replaceUsesWithNew_eq_ok (lt_of_lt_of_le hn hb.ext.size_le)).2
    ⟨hty.trans (hb.ext.tyOf_of_lt hn).symm, rfl⟩
  have hnew : ∀ env : Env, env.Typed → ∀ v, f.Eval env node v → P env v →
      (g.makeNode op ops).1.Eval env g.size v := fun env henv v hv hp =>
    let ⟨_, hvs, hv'⟩ := hsem env henv v hv hp
    eval_makeNode_self hvs hv'
  exact ⟨_, h, hb.wellTyped.replaceUsesWithNew (fun o ho => (hops o ho).lt_size hf hb) hv h,
    ⟨_, _, ((replaceUsesWithNew_eq_ok (lt_of_lt_of_le hn hb.ext.size_le)).1 h).2, hb.ext.makeNode hops,
      fresh_makeNode_self hb.ext.size_le, by rw [tyOf_makeNode_self, hty], hnew⟩,
    fun hP => rewrites_of_replaceUsesWithNew hn hb.ext hops
      (fun env henv v hv => hsem env henv v hv (hP env henv v hv)) h⟩

/-- `Builds.replaces` for a node that computes `node`'s value in every
    evaluation: a rewrite. -/
theorem Builds.rewrites (hb : Builds f node g) (op : Op) (ops : List Nat) (hf : f.OperandsExist) (hn : node < f.size)
    (hops : ∀ o ∈ ops, Usable f node g o)
    (hv : op.verify (ops.map g.tyOf) (op.resultType (ops.map g.tyOf)))
    (hty : op.resultType (ops.map g.tyOf) = f.tyOf node)
    (hsem : ∀ env : Env, env.Typed → ∀ v, f.Eval env node v →
      ∃ vs, List.Forall₂ (g.Eval env) ops vs ∧ op.sem env (op.resultType (ops.map g.tyOf)) vs = some v) :
    ∃ f', g.replaceUsesWithNew node op ops = .ok f' ∧ Rewrites f node f' ∧ f'.WellTyped :=
  let ⟨f', h, hwt, _, hr⟩ := hb.replaces op ops hf hn hops hv hty (P := fun _ _ => True)
    fun env henv v hv _ => hsem env henv v hv
  ⟨f', h, hr fun _ _ _ _ => trivial, hwt⟩

end Rules

/-! ## Keeping the function's meaning -/

/-- `f'` keeps the meaning of `f`: it is well typed, it has `f`'s nodes with
    their types, and under every typed environment every node of `f` has its
    value in `f'` and `f'` returns what `f` returns. -/
structure Keeps (f f' : FunctionBase) : Prop where
  wellTyped : f'.WellTyped
  size_le : f.size ≤ f'.size
  tyOf_eq : ∀ n < f.size, f'.tyOf n = f.tyOf n
  eval : ∀ env : Env, env.Typed → ∀ n v, f.Eval env n v → f'.Eval env n v
  returnValue : ∀ env : Env, env.Typed → ∀ v, f.Eval env f.returnValue v → f'.Eval env f'.returnValue v

namespace Keeps

variable {f g f' : FunctionBase}

theorem refl (hf : f.WellTyped) : Keeps f f :=
  ⟨hf, le_rfl, fun _ _ => rfl, fun _ _ _ _ h => h, fun _ _ _ h => h⟩

theorem trans (h₁ : Keeps f g) (h₂ : Keeps g f') : Keeps f f' :=
  ⟨h₂.wellTyped, h₁.size_le.trans h₂.size_le,
    fun n hn => (h₂.tyOf_eq n (lt_of_lt_of_le hn h₁.size_le)).trans (h₁.tyOf_eq n hn),
    fun env henv n v h => h₂.eval env henv n v (h₁.eval env henv n v h),
    fun env henv v h => h₂.returnValue env henv v (h₁.returnValue env henv v h)⟩

end Keeps

/-- A rewrite of a node of a well-typed function that leaves it well typed
    keeps its meaning. -/
theorem Rewrites.keeps {f f' : FunctionBase} {node : Nat} (hf : f.WellTyped) (hn : node < f.size)
    (h : Rewrites f node f') (hwt : f'.WellTyped) : Keeps f f' := by
  obtain ⟨g, r, hr, rfl⟩ := h
  have hoe := operandsExist_of_wellTyped hf
  refine ⟨hwt, by simpa using hr.ext.size_le, fun n hn' => by rw [tyOf_rewire, hr.ext.tyOf_of_lt hn'],
    fun env henv n v hv => hr.eval hoe henv hn hv, fun env henv v hv => ?_⟩
  show (g.rewire node r).Eval env (replaceOperand node r g.returnValue) v
  rw [hr.ext.returnValue_eq]
  exact hr.eval_replaceOperand hoe henv hn hv

/-- A rewrite of a node of a well-formed function that leaves it well typed
    leaves it well formed: the function gains no cycle. -/
theorem Rewrites.wellFormed {f f' : FunctionBase} {node : Nat} (hf : f.WellFormed) (hn : node < f.size)
    (h : Rewrites f node f') (hwt : f'.WellTyped) : f'.WellFormed := by
  obtain ⟨g, r, hr, rfl⟩ := h
  exact (wellFormed_iff_total Env.zero_typed).2 ⟨hwt, hr.total (operandsExist_of_wellTyped hf.1) hn Env.zero_typed
    hwt ((wellFormed_iff_total Env.zero_typed).1 hf).2⟩

/-- A function that keeps the meaning of a well-formed `f` without appending
    nodes is well formed: each of its nodes has the value it has in `f`. -/
theorem Keeps.wellFormed_of_size_eq {f f' : FunctionBase} (hk : Keeps f f') (hf : f.WellFormed)
    (hsize : f'.size = f.size) : f'.WellFormed :=
  (wellFormed_iff_total Env.zero_typed).2 ⟨hk.wellTyped, fun n hn =>
    let ⟨v, hv⟩ := total_of_wellFormed hf Env.zero_typed n (hsize ▸ hn)
    ⟨v, hk.eval _ Env.zero_typed n v hv⟩⟩

end FunctionBase

end Xls
