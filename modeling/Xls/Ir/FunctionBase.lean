import Xls.Ir.Op
import Mathlib.Data.List.Forall2

/-!
# Functions as node tables

A `FunctionBase` is its table of nodes, a node named by its index, and its
return value. The pass changes it in three ways, as the source's `FunctionBase`
and `Node` do:

* `makeNode` (`MakeNode`) appends a node, with the type its constructor
  computes from its operands;
* `replaceUsesWith` (`Node::ReplaceUsesWith`) makes every use of a node,
  the return value included, a use of another of the same type;
* `replaceOperandNumber` (`Node::ReplaceOperandNumber`) changes one operand of
  one node, to a node of the same type.

A node's value is computed in rounds (`evalAt`, after the graph valuations of
optimizer proofs): in round `k + 1` a node gets the value its operation
computes from what its operands got in round `k`. A node evaluates to `v`
(`Eval`) when it gets `v` in some round; a node on a cycle never does.

* `eval_unique`, `eval_node_iff`: a node has at most one value, the one its
  operation computes from its operands' values;
* `eval_push`, `eval_push_self`: appending a node changes no value and the new
  node computes from its operands;
* `eval_rewire`, `eval_setNode`: rewiring the uses of `old` to a node `new`
  that has `old`'s value (and does not depend on `old`), or replacing a node by
  one of the same value, keeps the value of every node.
-/

namespace Xls

/-- A node: its operation, its operands, its type. -/
structure Node where
  op : Op
  operands : List Nat
  ty : Ty
  deriving DecidableEq

/-- `FunctionBase`: the node table and the return value. -/
structure FunctionBase where
  nodes : List Node
  returnValue : Nat
  deriving DecidableEq

/-- The operand `o` once the uses of `old` have gone to `new`. -/
def replaceOperand (old new o : Nat) : Nat := if o = old then new else o

namespace FunctionBase

variable (f : FunctionBase)

/-- The number of nodes. -/
def size : Nat := f.nodes.length

/-- The node of an id. -/
def node (n : Nat) : Option Node := f.nodes[n]?

/-- `GetType`. -/
def tyOf (n : Nat) : Ty := ((f.node n).map Node.ty).getD .token

/-- The table with a node appended. -/
def push (nd : Node) : FunctionBase := { f with nodes := f.nodes ++ [nd] }

/-- `FunctionBase::MakeNode`: a new node at the end of the table, with the type
    its constructor computes from its operands; its id is returned. -/
def makeNode (op : Op) (operands : List Nat) : FunctionBase × Nat :=
  (f.push ⟨op, operands, op.resultType (operands.map f.tyOf)⟩, f.size)

/-- Every use of `old`, as an operand or as the return value, made a use of
    `new`. -/
def rewire (old new : Nat) : FunctionBase where
  nodes := f.nodes.map fun nd => { nd with operands := nd.operands.map (replaceOperand old new) }
  returnValue := replaceOperand old new f.returnValue

/-- `Node::ReplaceUsesWith`: the replacement must have the node's type. -/
def replaceUsesWith (old new : Nat) : Except String FunctionBase :=
  if f.tyOf new = f.tyOf old then .ok (f.rewire old new)
  else .error "RET_CHECK failure: replacement->GetType() == GetType()"

/-- `Node::ReplaceUsesWithNew`: a new node, then the uses of `old` made uses
    of it. -/
def replaceUsesWithNew (old : Nat) (op : Op) (operands : List Nat) : Except String FunctionBase :=
  let (g, r) := f.makeNode op operands
  g.replaceUsesWith old r

/-- The table with node `n` replaced. -/
def setNode (n : Nat) (nd : Node) : FunctionBase := { f with nodes := f.nodes.set n nd }

/-- `Node::ReplaceOperandNumber`: operand `i` of node `n` becomes `x`, which
    must have the old operand's type. -/
def replaceOperandNumber (n : Nat) (i : Nat) (x : Nat) : Except String FunctionBase :=
  match f.node n with
  | some nd =>
    if f.tyOf x = f.tyOf (nd.operands.getD i x) then .ok (f.setNode n { nd with operands := nd.operands.set i x })
    else .error "RET_CHECK failure: old_operand->GetType() == new_operand->GetType()"
  | none => .error "no such node"

/-! ## Evaluation -/

/-- The values the nodes have after `k` rounds. -/
def evalAt (env : Env) : Nat → Nat → Option Value
  | 0, _ => none
  | k + 1, n => (f.node n).bind fun nd => (nd.operands.mapM (evalAt env k)).bind (nd.op.sem env nd.ty)

/-- Node `n` evaluates to `v` under `env`. -/
def Eval (env : Env) (n : Nat) (v : Value) : Prop := ∃ k, f.evalAt env k n = some v

/-- `a` depends on `c`: `c` is reached from `a` through operands. -/
inductive Reach : Nat → Nat → Prop
  | refl (n : Nat) : Reach n n
  | step {a b c : Nat} {nd : Node} : f.node a = some nd → b ∈ nd.operands → Reach b c → Reach a c

/-- `a` depends on `c` through at least one operand. -/
def ReachPlus (a c : Nat) : Prop := ∃ nd, f.node a = some nd ∧ ∃ b ∈ nd.operands, f.Reach b c

end FunctionBase

theorem mapM_eq_some_iff {α β : Type} {g : α → Option β} {l : List α} {vs : List β} :
    l.mapM g = some vs ↔ List.Forall₂ (fun a b => g a = some b) l vs := by
  induction l generalizing vs with
  | nil => rw [List.mapM_nil]; cases vs <;> simp [pure]
  | cons a l ih =>
    rw [List.mapM_cons]
    cases vs with
    | nil => cases g a <;> cases List.mapM g l <;> simp [bind, pure]
    | cons b bs =>
      rw [List.forall₂_cons, ← ih]
      cases g a <;> cases List.mapM g l <;> simp [bind, pure]

theorem except_bind_eq_ok {ε α β : Type} {x : Except ε α} {g : α → Except ε β} {b : β} :
    x >>= g = .ok b ↔ ∃ a, x = .ok a ∧ g a = .ok b := by
  cases x <;> simp [bind, Except.bind]

theorem forall₂_imp_of_mem {α β : Type} {R S : α → β → Prop} {l₁ : List α} {l₂ : List β}
    (H : ∀ a b, a ∈ l₁ → R a b → S a b) (h : List.Forall₂ R l₁ l₂) : List.Forall₂ S l₁ l₂ := by
  induction h with
  | nil => exact .nil
  | cons hab _ ih =>
    exact .cons (H _ _ (.head _) hab) (ih fun a b ha => H a b (.tail _ ha))

theorem forall₂_exists_of_mem_left {α β : Type} {R : α → β → Prop} {l₁ : List α} {l₂ : List β}
    (h : List.Forall₂ R l₁ l₂) {a : α} (ha : a ∈ l₁) : ∃ b ∈ l₂, R a b := by
  induction h with
  | nil => cases ha
  | cons hab _ ih =>
    rcases ha with _ | ⟨_, ha⟩
    · exact ⟨_, .head _, hab⟩
    · obtain ⟨b, hb, h⟩ := ih ha
      exact ⟨b, .tail _ hb, h⟩

theorem forall₂_exists_of_mem_right {α β : Type} {R : α → β → Prop} {l₁ : List α} {l₂ : List β}
    (h : List.Forall₂ R l₁ l₂) {b : β} (hb : b ∈ l₂) : ∃ a ∈ l₁, R a b := by
  induction h with
  | nil => cases hb
  | cons hab _ ih =>
    rcases hb with _ | ⟨_, hb⟩
    · exact ⟨_, .head _, hab⟩
    · obtain ⟨a, ha, h⟩ := ih hb
      exact ⟨a, .tail _ ha, h⟩

theorem forall₂_getElem?_left {α β : Type} {R : α → β → Prop} {l₁ : List α} {l₂ : List β}
    (h : List.Forall₂ R l₁ l₂) {i : Nat} {a : α} (ha : l₁[i]? = some a) : ∃ b, l₂[i]? = some b ∧ R a b := by
  induction h generalizing i with
  | nil => simp at ha
  | cons hab _ ih =>
    cases i with
    | zero =>
      simp only [List.getElem?_cons_zero, Option.some.injEq] at ha
      subst ha
      exact ⟨_, List.getElem?_cons_zero, hab⟩
    | succ i => simpa using ih (by simpa using ha)

theorem forall₂_singleton_right {α β : Type} {R : α → β → Prop} {l : List α} {b : β}
    (h : List.Forall₂ R l [b]) : ∃ a, l = [a] ∧ R a b := by
  cases h with
  | cons hab h => cases h; exact ⟨_, rfl, hab⟩

theorem exists_forall₂_of_forall {α β : Type} {R : α → β → Prop} {l : List α}
    (h : ∀ a ∈ l, ∃ b, R a b) : ∃ l', List.Forall₂ R l l' := by
  induction l with
  | nil => exact ⟨[], .nil⟩
  | cons a l ih =>
    obtain ⟨b, hb⟩ := h a (.head _)
    obtain ⟨l', hl'⟩ := ih fun a' ha' => h a' (.tail _ ha')
    exact ⟨b :: l', .cons hb hl'⟩

namespace FunctionBase

variable {f f' : FunctionBase} {env : Env}

@[simp] theorem evalAt_zero (n : Nat) : f.evalAt env 0 n = none := rfl

theorem evalAt_succ_eq_some {k : Nat} {n : Nat} {v : Value} :
    f.evalAt env (k + 1) n = some v ↔ ∃ nd, f.node n = some nd ∧ ∃ vs,
      List.Forall₂ (fun o w => f.evalAt env k o = some w) nd.operands vs ∧ nd.op.sem env nd.ty vs = some v := by
  simp only [evalAt, Option.bind_eq_some, mapM_eq_some_iff]

theorem evalAt_mono {k k' : Nat} (hk : k ≤ k') {n : Nat} {v : Value} (h : f.evalAt env k n = some v) :
    f.evalAt env k' n = some v := by
  induction k generalizing k' n v with
  | zero => simp at h
  | succ k ih =>
    obtain ⟨k', rfl⟩ : ∃ j, k' = j + 1 := ⟨k' - 1, by omega⟩
    obtain ⟨nd, hn, vs, hvs, hsem⟩ := evalAt_succ_eq_some.1 h
    exact evalAt_succ_eq_some.2 ⟨nd, hn, vs, hvs.imp fun _ _ h' => ih (by omega) h', hsem⟩

theorem eval_unique {n : Nat} {v w : Value} (hv : f.Eval env n v) (hw : f.Eval env n w) : v = w := by
  obtain ⟨k, hk⟩ := hv
  obtain ⟨j, hj⟩ := hw
  have := (evalAt_mono (Nat.le_max_left k j) hk).symm.trans (evalAt_mono (Nat.le_max_right k j) hj)
  exact Option.some.inj this

theorem forall₂_eval_unique {ns : List Nat} {vs ws : List Value} (hv : List.Forall₂ (f.Eval env) ns vs)
    (hw : List.Forall₂ (f.Eval env) ns ws) : vs = ws := by
  induction hv generalizing ws with
  | nil => cases hw; rfl
  | cons h _ ih => cases hw with | cons h' hw => rw [eval_unique h h', ih hw]

/-- Operands that evaluate all evaluate in one round. -/
theorem exists_level {os : List Nat} {vs : List Value} (h : List.Forall₂ (f.Eval env) os vs) :
    ∃ k, List.Forall₂ (fun o w => f.evalAt env k o = some w) os vs := by
  induction h with
  | nil => exact ⟨0, .nil⟩
  | cons hv _ ih =>
    obtain ⟨j, hj⟩ := hv
    obtain ⟨k, hk⟩ := ih
    exact ⟨max j k, .cons (evalAt_mono (Nat.le_max_left j k) hj)
      (hk.imp fun _ _ h => evalAt_mono (Nat.le_max_right j k) h)⟩

theorem eval_of_node {n : Nat} {nd : Node} {vs : List Value} {v : Value} (hn : f.node n = some nd)
    (hvs : List.Forall₂ (f.Eval env) nd.operands vs) (hsem : nd.op.sem env nd.ty vs = some v) :
    f.Eval env n v := by
  obtain ⟨k, hk⟩ := exists_level hvs
  exact ⟨k + 1, evalAt_succ_eq_some.2 ⟨nd, hn, vs, hk, hsem⟩⟩

/-- A node's value is what its operation computes from its operands' values. -/
theorem eval_node_iff {n : Nat} {nd : Node} {v : Value} (hn : f.node n = some nd) :
    f.Eval env n v ↔ ∃ vs, List.Forall₂ (f.Eval env) nd.operands vs ∧ nd.op.sem env nd.ty vs = some v := by
  refine ⟨fun ⟨k, hk⟩ => ?_, fun ⟨vs, hvs, hsem⟩ => eval_of_node hn hvs hsem⟩
  cases k with
  | zero => simp at hk
  | succ k =>
    obtain ⟨nd', hn', vs, hvs, hsem⟩ := evalAt_succ_eq_some.1 hk
    cases hn.symm.trans hn'
    exact ⟨vs, hvs.imp fun _ _ h => ⟨k, h⟩, hsem⟩

theorem exists_node_of_eval {n : Nat} {v : Value} (h : f.Eval env n v) : ∃ nd, f.node n = some nd := by
  obtain ⟨k, hk⟩ := h
  cases k with
  | zero => simp at hk
  | succ k => obtain ⟨nd, hn, -⟩ := evalAt_succ_eq_some.1 hk; exact ⟨nd, hn⟩

theorem lt_size_of_node {n : Nat} {nd : Node} (h : f.node n = some nd) : n < f.size :=
  (List.getElem?_eq_some_iff.1 h).1

theorem lt_size_of_eval {n : Nat} {v : Value} (h : f.Eval env n v) : n < f.size :=
  let ⟨_, hn⟩ := exists_node_of_eval h
  lt_size_of_node hn

/-! ## Dependencies -/

theorem Reach.trans {a b c : Nat} (h₁ : f.Reach a b) (h₂ : f.Reach b c) : f.Reach a c := by
  induction h₁ with
  | refl => exact h₂
  | step hn hb _ ih => exact .step hn hb (ih h₂)

/-- What a node evaluated by round `k` depends on was evaluated by then, and
    strictly before through an operand. -/
theorem evalAt_of_reach {k : Nat} {a c : Nat} {v : Value} (h : f.evalAt env k a = some v)
    (hr : f.Reach a c) : ∃ j ≤ k, ∃ w, f.evalAt env j c = some w := by
  induction hr generalizing k v with
  | refl => exact ⟨k, le_rfl, v, h⟩
  | @step a b c nd hn hb _ ih =>
    cases k with
    | zero => simp at h
    | succ k =>
      obtain ⟨nd', hn', vs, hvs, -⟩ := evalAt_succ_eq_some.1 h
      cases hn.symm.trans hn'
      obtain ⟨w, -, hw⟩ := forall₂_exists_of_mem_left hvs hb
      obtain ⟨j, hj, u, hu⟩ := ih hw
      exact ⟨j, by omega, u, hu⟩

/-- A node that evaluates is on no cycle. -/
theorem not_reachPlus_self {a : Nat} {v : Value} (h : f.Eval env a v) : ¬f.ReachPlus a a := by
  obtain ⟨k, hk⟩ := h
  induction k using Nat.strong_induction_on generalizing a v with
  | _ k ih =>
    rintro ⟨nd, hn, b, hb, hr⟩
    cases k with
    | zero => simp at hk
    | succ k =>
      obtain ⟨nd', hn', vs, hvs, -⟩ := evalAt_succ_eq_some.1 hk
      cases hn.symm.trans hn'
      obtain ⟨w, -, hw⟩ := forall₂_exists_of_mem_left hvs hb
      obtain ⟨j, hj, u, hu⟩ := evalAt_of_reach hw hr
      exact ih j (by omega) hu ⟨nd, hn, b, hb, hr⟩

/-- A change to nodes outside a set closed under operands leaves the values
    of the set's nodes. -/
theorem eval_frame {S : Nat → Prop} (hS : ∀ a nd, S a → f.node a = some nd → ∀ b ∈ nd.operands, S b)
    (hsame : ∀ x, S x → f'.node x = f.node x) {a : Nat} (ha : S a) {v : Value} (h : f.Eval env a v) :
    f'.Eval env a v := by
  obtain ⟨k, hk⟩ := h
  refine ⟨k, ?_⟩
  induction k generalizing a v with
  | zero => simp at hk
  | succ k ih =>
    obtain ⟨nd, hn, vs, hvs, hsem⟩ := evalAt_succ_eq_some.1 hk
    refine evalAt_succ_eq_some.2 ⟨nd, (hsame a ha).trans hn, vs, ?_, hsem⟩
    exact forall₂_imp_of_mem (fun o _ ho h => ih (hS a nd ha hn o ho) h) hvs

/-- A change to nodes on which `a` does not depend leaves `a`'s value. -/
theorem eval_of_not_reach {t a : Nat} (hsame : ∀ x, ¬f.Reach x t → f'.node x = f.node x)
    (ha : ¬f.Reach a t) {v : Value} (h : f.Eval env a v) : f'.Eval env a v :=
  eval_frame (fun _ _ hx hn _ hb hr => hx (.step hn hb hr)) hsame ha h

/-! ## Appending a node -/

@[simp] theorem size_push (nd : Node) : (f.push nd).size = f.size + 1 := by simp [push, size]

theorem node_push_of_lt {nd : Node} {n : Nat} (hn : n < f.size) : (f.push nd).node n = f.node n :=
  List.getElem?_append_left hn

@[simp] theorem node_push_size (nd : Node) : (f.push nd).node f.size = some nd := by
  simp [push, node, size, List.getElem?_append_right]

theorem eval_push (nd : Node) {n : Nat} {v : Value} (h : f.Eval env n v) : (f.push nd).Eval env n v :=
  eval_frame (S := fun x => ∃ w, f.Eval env x w)
    (fun _ _ ⟨_, hw⟩ hn _ hb => by
      obtain ⟨vs, hvs, -⟩ := (eval_node_iff hn).1 hw
      obtain ⟨u, -, hu⟩ := forall₂_exists_of_mem_left hvs hb
      exact ⟨u, hu⟩)
    (fun _ ⟨_, hw⟩ => node_push_of_lt (lt_size_of_eval hw)) ⟨v, h⟩ h

theorem eval_push_self {nd : Node} {vs : List Value} {v : Value} (hvs : List.Forall₂ (f.Eval env) nd.operands vs)
    (hsem : nd.op.sem env nd.ty vs = some v) : (f.push nd).Eval env f.size v :=
  eval_of_node (node_push_size nd) (hvs.imp fun _ _ h => eval_push nd h) hsem

theorem tyOf_push_of_lt {nd : Node} {n : Nat} (hn : n < f.size) : (f.push nd).tyOf n = f.tyOf n := by
  simp [tyOf, node_push_of_lt hn]

variable {op : Op} {ops : List Nat}

@[simp] theorem size_makeNode : (f.makeNode op ops).1.size = f.size + 1 := size_push _

@[simp] theorem makeNode_snd : (f.makeNode op ops).2 = f.size := rfl

theorem eval_makeNode {n : Nat} {v : Value} (h : f.Eval env n v) : (f.makeNode op ops).1.Eval env n v :=
  eval_push _ h

/-- The new node computes its operation on its operands' values, at the type
    its constructor gives it. -/
theorem eval_makeNode_self {vs : List Value} {v : Value} (hvs : List.Forall₂ (f.Eval env) ops vs)
    (hsem : op.sem env (op.resultType (ops.map f.tyOf)) vs = some v) :
    (f.makeNode op ops).1.Eval env (f.makeNode op ops).2 v :=
  eval_push_self hvs hsem

@[simp] theorem tyOf_makeNode_self : (f.makeNode op ops).1.tyOf f.size = op.resultType (ops.map f.tyOf) := by
  simp [makeNode, tyOf]

theorem tyOf_makeNode_of_lt {n : Nat} (hn : n < f.size) : (f.makeNode op ops).1.tyOf n = f.tyOf n :=
  tyOf_push_of_lt hn

/-- The type of a node after an append: the new node's, or what it was (`token`
    past the end). -/
theorem tyOf_makeNode (n : Nat) :
    (f.makeNode op ops).1.tyOf n = if n = f.size then op.resultType (ops.map f.tyOf) else f.tyOf n := by
  split
  · subst_vars
    exact tyOf_makeNode_self
  · rcases Nat.lt_or_gt_of_ne ‹_› with h | h
    · exact tyOf_makeNode_of_lt h
    · simp only [tyOf, makeNode, node, push]
      rw [List.getElem?_eq_none (by simp [size] at h ⊢; omega), List.getElem?_eq_none (by simp [size] at h ⊢; omega)]

/-! ## Rewiring uses -/

theorem node_rewire (old new n : Nat) : (f.rewire old new).node n =
    (f.node n).map fun nd => { nd with operands := nd.operands.map (replaceOperand old new) } :=
  List.getElem?_map _ _ _

@[simp] theorem size_rewire (old new : Nat) : (f.rewire old new).size = f.size := List.length_map _ _

@[simp] theorem tyOf_rewire (old new n : Nat) : (f.rewire old new).tyOf n = f.tyOf n := by
  simp only [tyOf, node_rewire]
  cases f.node n <;> rfl

theorem replaceUsesWith_eq_ok {old new : Nat} {f' : FunctionBase} :
    f.replaceUsesWith old new = .ok f' ↔ f.tyOf new = f.tyOf old ∧ f' = f.rewire old new := by
  unfold replaceUsesWith
  split <;> simp_all [eq_comm]

theorem replaceUsesWithNew_eq_ok {old : Nat} {f' : FunctionBase} (hold : old < f.size) :
    f.replaceUsesWithNew old op ops = .ok f' ↔
      op.resultType (ops.map f.tyOf) = f.tyOf old ∧ f' = (f.makeNode op ops).1.rewire old f.size := by
  rw [replaceUsesWithNew, replaceUsesWith_eq_ok, tyOf_makeNode_of_lt hold]
  simp [makeNode, tyOf]

/-- A node that does not depend on `old` is not changed by the rewiring. -/
theorem node_rewire_of_not_reach {old new x : Nat} (hx : ¬f.Reach x old) :
    (f.rewire old new).node x = f.node x := by
  rw [node_rewire]
  cases hn : f.node x with
  | none => rfl
  | some nd =>
    have hmap : nd.operands.map (replaceOperand old new) = nd.operands := by
      conv_rhs => rw [← List.map_id nd.operands]
      exact List.map_congr_left fun o ho => if_neg fun h => hx (.step hn ho (by subst h; exact .refl _))
    simp [hmap]

section Rewire

variable {old new : Nat} (hnew : ∀ v, f.Eval env old v → f.Eval env new v)
  (hreach : f.Reach new old → f.ReachPlus old old)
include hnew hreach

theorem eval_rewire_new {v : Value} (h : f.Eval env old v) : (f.rewire old new).Eval env new v :=
  eval_of_not_reach (fun _ hx => node_rewire_of_not_reach hx)
    (fun hr => not_reachPlus_self h (hreach hr)) (hnew v h)

/-- Rewiring the uses of `old` to a node that has `old`'s value and does not
    depend on `old` keeps the value of every node. -/
theorem eval_rewire {n : Nat} {v : Value} (h : f.Eval env n v) : (f.rewire old new).Eval env n v := by
  obtain ⟨k, hk⟩ := h
  induction k generalizing n v with
  | zero => simp at hk
  | succ k ih =>
    obtain ⟨nd, hn, vs, hvs, hsem⟩ := evalAt_succ_eq_some.1 hk
    have hn' : (f.rewire old new).node n = some { nd with operands := nd.operands.map (replaceOperand old new) } := by
      rw [node_rewire, hn]; rfl
    refine eval_of_node hn' (List.forall₂_map_left_iff.2 (hvs.imp fun o w hw => ?_)) hsem
    unfold replaceOperand
    split
    · subst o; exact eval_rewire_new hnew hreach ⟨k, hw⟩
    · exact ih hw

/-- Whatever read `o` now reads a node of the same value. -/
theorem eval_rewire_replaceOperand {o : Nat} {v : Value} (h : f.Eval env o v) :
    (f.rewire old new).Eval env (replaceOperand old new o) v := by
  unfold replaceOperand
  split
  · subst o; exact eval_rewire_new hnew hreach h
  · exact eval_rewire hnew hreach h

end Rewire

/-! ## Replacing a node -/

theorem node_setNode_self {n : Nat} (hn : n < f.size) (nd : Node) : (f.setNode n nd).node n = some nd :=
  List.getElem?_set_self hn

theorem node_setNode_ne {n m : Nat} (h : m ≠ n) (nd : Node) : (f.setNode n nd).node m = f.node m :=
  List.getElem?_set_ne (Ne.symm h)

@[simp] theorem size_setNode (n : Nat) (nd : Node) : (f.setNode n nd).size = f.size := List.length_set _ _ _

/-- Replacing node `n` by a node that computes `n`'s value from operands that do
    not depend on `n` keeps the value of every node. -/
theorem eval_setNode {n : Nat} {nd : Node} (hn : n < f.size)
    (hval : ∀ v, f.Eval env n v → ∃ vs, List.Forall₂ (f.Eval env) nd.operands vs ∧ nd.op.sem env nd.ty vs = some v)
    (hreach : ∀ b ∈ nd.operands, f.Reach b n → f.ReachPlus n n) {m : Nat} {w : Value}
    (h : f.Eval env m w) : (f.setNode n nd).Eval env m w := by
  have hsame : ∀ x, ¬f.Reach x n → (f.setNode n nd).node x = f.node x :=
    fun x hx => node_setNode_ne (fun h => hx (by subst h; exact .refl _)) nd
  obtain ⟨k, hk⟩ := h
  induction k generalizing m w with
  | zero => simp at hk
  | succ k ih =>
    by_cases hm : m = n
    · subst m
      obtain ⟨vs, hvs, hsem⟩ := hval w ⟨k + 1, hk⟩
      refine eval_of_node (node_setNode_self hn nd) (forall₂_imp_of_mem (fun b u hb hu => ?_) hvs) hsem
      exact eval_of_not_reach hsame (fun hr => not_reachPlus_self ⟨k + 1, hk⟩ (hreach b hb hr)) hu
    · obtain ⟨nd', hn', vs, hvs, hsem⟩ := evalAt_succ_eq_some.1 hk
      exact eval_of_node ((node_setNode_ne hm nd).trans hn') (hvs.imp fun _ _ hu => ih hu) hsem

theorem replaceOperandNumber_eq_ok {n : Nat} {i : Nat} {x : Nat} {f' : FunctionBase} :
    f.replaceOperandNumber n i x = .ok f' ↔ ∃ nd, f.node n = some nd ∧
      f.tyOf x = f.tyOf (nd.operands.getD i x) ∧ f' = f.setNode n { nd with operands := nd.operands.set i x } := by
  unfold replaceOperandNumber
  cases f.node n with
  | none => simp
  | some nd =>
    dsimp only
    split <;> rename_i h <;> simp only [List.getD_eq_getElem?_getD] at h <;> simp [h, eq_comm]

end FunctionBase

end Xls
