import Xls.SelectSimplification.Split
import Mathlib.Data.Finset.Card

/-!
# Bit sources

`GetBitSource` traces a bit of a node back through bit slices and concats to a
literal, to a bit the query engine knows, or to a bit of a node it does not see
through. On a well-formed function and a bit within a bits node's width:

* `SourceOf`: what an answer means, a constant the bit has in every
  evaluation, or a bit, within its node's width, of a node the node depends on,
  which the bit equals in every evaluation;
* `concatBitSource_spec`: the walk over a concat's operands, least significant
  first, finds the operand holding the bit, so it never reaches the
  `LOG(FATAL)` at its end;
* `getBitSource_sourceOf`: every answer is a source of the bit, whatever the
  fuel;
* `exists_depth`, `getBitSource_fuel`: the number of nodes a node depends on
  goes down at each operand and is below the size of the function, so the
  recursion ends within the fuel `f.size` it is given;
* `getBitSource_sound`: the three together, and `PairsOfBitsWithSameSource`
  pairs only nodes whose bits are equal in every evaluation.
-/

namespace Xls

namespace SelectSimplification

open FunctionBase

variable {q : QueryEngine} {f : FunctionBase}

/-- What `GetBitSource` may answer for bit `i` of node `n`: a constant the bit
    has in every evaluation, or bit `j` of a node `m` that `n` depends on, with
    `j` within `m`'s width, which the bit equals in every evaluation. -/
def SourceOf (f : FunctionBase) (n i : Nat) : BitSource → Prop
  | .const b => ∀ env : Env, env.Typed → ∀ v, f.Eval env n v → v.toBits[i]? = some b
  | .bit m j => f.Reach n m ∧ (∃ wm, f.tyOf m = .bits wm ∧ j < wm) ∧
      ∀ env : Env, env.Typed → ∀ v, f.Eval env n v → ∃ u, f.Eval env m u ∧ v.toBits[i]? = u.toBits[j]?

theorem sourceOf_self {n w i : Nat} (hn : f.tyOf n = .bits w) (hi : i < w) : SourceOf f n i (.bit n i) :=
  ⟨.refl n, ⟨w, hn, hi⟩, fun _ _ v hv => ⟨v, hv, rfl⟩⟩

/-- A source of bit `j` of an operand is one of bit `i` of the node, when the
    two bits are equal in every evaluation. -/
theorem SourceOf.of_operand {n o i j : Nat} {nd : Node} {r : BitSource} (hnd : f.node n = some nd)
    (ho : o ∈ nd.operands) (hr : SourceOf f o j r)
    (hbit : ∀ env : Env, env.Typed → ∀ v, f.Eval env n v → ∃ u, f.Eval env o u ∧ v.toBits[i]? = u.toBits[j]?) :
    SourceOf f n i r := by
  cases r with
  | const b => exact fun env henv v hv => let ⟨u, hu, he⟩ := hbit env henv v hv; he.trans (hr env henv u hu)
  | bit m k =>
    refine ⟨.step hnd ho hr.1, hr.2.1, fun env henv v hv => ?_⟩
    obtain ⟨u, hu, he⟩ := hbit env henv v hv
    obtain ⟨u', hu', he'⟩ := hr.2.2 env henv u hu
    exact ⟨u', hu', he.trans he'⟩

/-- Two bits with one source are equal in every evaluation. -/
theorem SourceOf.bit_eq {a b i i' : Nat} {r : BitSource} (ha : SourceOf f a i r) (hb : SourceOf f b i' r)
    {env : Env} (henv : env.Typed) {va vb : Value} (hva : f.Eval env a va) (hvb : f.Eval env b vb) :
    va.toBits[i]? = vb.toBits[i']? := by
  cases r with
  | const x => rw [ha env henv va hva, hb env henv vb hvb]
  | bit m j =>
    obtain ⟨u, hu, hau⟩ := ha.2.2 env henv va hva
    obtain ⟨u', hu', hbu⟩ := hb.2.2 env henv vb hvb
    rw [hau, hbu, eval_unique hu hu']

/-! ## The verifier's checks of the nodes traced through -/

theorem verify_bitSlice (hf : f.WellTyped) {n start width operand : Nat} {rest : List Nat} {ty : Ty}
    (hnd : f.node n = some ⟨.bitSlice start width, operand :: rest, ty⟩) :
    rest = [] ∧ ty = .bits width ∧ ∃ wo, f.tyOf operand = .bits wo ∧ start + width ≤ wo := by
  have hv := (verifyNode_iff.1 (verifyNode_of_wellTyped hf hnd)).2.1
  simp only [List.map_cons] at hv
  generalize f.tyOf operand = t at hv ⊢
  cases rest <;> cases t
  case nil.bits wo =>
    replace hv : (decide (start + width ≤ wo) && ty == .bits width) = true := hv
    simp only [Bool.and_eq_true, decide_eq_true_eq, beq_iff_eq] at hv
    exact ⟨rfl, hv.2, wo, rfl, hv.1⟩
  all_goals exact Bool.noConfusion hv

theorem verify_concat (hf : f.WellTyped) {n : Nat} {ops : List Nat} {ty : Ty}
    (hnd : f.node n = some ⟨.concat, ops, ty⟩) :
    (∀ o ∈ ops, f.tyOf o = .bits (f.tyOf o).bitCount) ∧ ty = .bits (ops.map fun o => (f.tyOf o).bitCount).sum := by
  have hv : ((ops.map f.tyOf).all Ty.isBits && ty == .bits ((ops.map f.tyOf).map Ty.bitCount).sum) = true :=
    (verifyNode_iff.1 (verifyNode_of_wellTyped hf hnd)).2.1
  simp only [Bool.and_eq_true, List.all_eq_true, List.mem_map, beq_iff_eq, List.map_map] at hv
  exact ⟨fun o ho => Ty.isBits_iff.1 (hv.1 _ ⟨o, ho, rfl⟩), hv.2⟩

theorem verify_literal (hf : f.WellTyped) {n : Nat} {c : Value} {ops : List Nat} {ty : Ty}
    (hnd : f.node n = some ⟨.literal c, ops, ty⟩) : ops = [] ∧ c.HasType ty := by
  have hv := (verifyNode_iff.1 (verifyNode_of_wellTyped hf hnd)).2.1
  cases ops with
  | nil =>
    replace hv : (decide (c.HasType ty) && ty.noEmptyArray) = true := hv
    exact ⟨rfl, of_decide_eq_true (Bool.and_eq_true_iff.1 hv).1⟩
  | cons => exact Bool.noConfusion hv

/-! ## The walk over a concat -/

theorem concatBitSource_congr {s₁ s₂ : Nat → Nat → Except String BitSource} {i : Nat} :
    ∀ {os : List Nat} (offset : Nat), (∀ o ∈ os, ∀ j, s₁ o j = s₂ o j) →
      concatBitSource f s₁ i offset os = concatBitSource f s₂ i offset os
  | [], _, _ => rfl
  | o :: os, offset, h => by
    simp only [concatBitSource, h o (.head _), concatBitSource_congr _ fun o' ho' => h o' (.tail _ ho')]

/-- The walk of `GetBitSource` over a concat's operands, least significant
    first from `offset`: for a bit below their total width it answers the
    source of a bit of the operand holding it, the bit of the concatenation
    (least significant first) it is. -/
theorem concatBitSource_spec {source : Nat → Nat → Except String BitSource} {i : Nat} :
    ∀ {os : List Nat} {offset : Nat}, offset ≤ i → i < offset + (os.map fun o => (f.tyOf o).bitCount).sum →
      ∃ o ∈ os, ∃ j < (f.tyOf o).bitCount, concatBitSource f source i offset os = source o j ∧
        ∀ {P : Nat → Value → Prop} {us : List Value},
          List.Forall₂ (fun o u => P o u ∧ u.toBits.length = (f.tyOf o).bitCount) os us →
          ∃ u, P o u ∧ (us.map Value.toBits).flatten[i - offset]? = u.toBits[j]?
  | [], _, h₁, h₂ => by simp at h₂; omega
  | o :: os, offset, h₁, h₂ => by
    unfold concatBitSource
    split
    · -- the bit is in this operand
      rename_i hlt
      refine ⟨o, .head _, i - offset, hlt, rfl, fun {P} us hus => ?_⟩
      cases hus with
      | cons hu _ =>
        exact ⟨_, hu.1, List.getElem?_append_left (by rw [hu.2]; exact hlt)⟩
    · -- past it: on to the next, its width added to the offset
      rename_i hge
      simp only [List.map_cons, List.sum_cons] at h₂
      obtain ⟨o', ho', j, hj, heq, hval⟩ :=
        @concatBitSource_spec source i os (offset + (f.tyOf o).bitCount) (by omega) (by omega)
      refine ⟨o', .tail _ ho', j, hj, heq, fun {P} us hus => ?_⟩
      cases hus with
      | cons hu hus =>
        obtain ⟨u', hu', he⟩ := hval hus
        refine ⟨u', hu', ?_⟩
        rw [List.map_cons, List.flatten_cons, List.getElem?_append_right (by rw [hu.2]; omega), hu.2, ← he,
          Nat.sub_sub]

/-! ## Every answer is a source -/

/-- Every answer of `GetBitSource` for a bit within a bits node's width is a
    source of the bit, whatever the fuel: it never fails. -/
theorem getBitSource_sourceOf (hf : f.WellTyped) (hq : q.SoundFor f) :
    ∀ (fuel : Nat) {n w i : Nat}, f.tyOf n = .bits w → i < w →
      ∃ r, getBitSource q f fuel n i = .ok r ∧ SourceOf f n i r
  | 0, _, _, _, hn, hi => ⟨_, rfl, sourceOf_self hn hi⟩
  | fuel + 1, n, w, i, hn, hi => by
    unfold getBitSource
    split
    · -- a bit slice: bit `i + start` of its operand
      rename_i start width operand rest ty hnd
      obtain ⟨rfl, rfl, wo, ho, hle⟩ := verify_bitSlice hf hnd
      have hw : w = width := Ty.bits.inj (hn.symm.trans (tyOf_of_node hnd))
      obtain ⟨r, hr, hsrc⟩ := getBitSource_sourceOf hf hq fuel ho (by omega : i + start < wo)
      refine ⟨r, hr, hsrc.of_operand hnd (.head _) fun env henv v hv => ?_⟩
      obtain ⟨a, vs, ha, hvs, hsem⟩ := exists_operands hnd hv
      cases hvs
      obtain rfl : Value.bits (BitsOps.slice a.toBits start width) = v := Option.some.inj hsem
      refine ⟨a, ha, ?_⟩
      rw [Value.toBits_bits, BitsOps.slice, List.getElem?_take_of_lt (by omega), List.getElem?_drop, Nat.add_comm]
    · -- a concat: the bit of the operand holding it
      rename_i ops ty hnd
      obtain ⟨hbits, hty⟩ := verify_concat hf hnd
      have hw : w = (ops.map fun o => (f.tyOf o).bitCount).sum := Ty.bits.inj ((hn.symm.trans (tyOf_of_node hnd)).trans hty)
      obtain ⟨o, ho, j, hj, heq, hval⟩ := @concatBitSource_spec f (getBitSource q f fuel) i ops.reverse 0
        (Nat.zero_le i) (by rw [List.map_reverse, List.sum_reverse]; omega)
      have ho' : o ∈ ops := List.mem_reverse.1 ho
      obtain ⟨r, hr, hsrc⟩ := getBitSource_sourceOf hf hq fuel (hbits o ho') hj
      refine ⟨r, heq.trans hr, hsrc.of_operand hnd ho' fun env henv v hv => ?_⟩
      obtain ⟨vals, hvals, hsem⟩ := (eval_node_iff hnd).1 hv
      obtain rfl : Value.bits (BitsOps.concat (vals.map Value.toBits)) = v := Option.some.inj hsem
      obtain ⟨u, hu, he⟩ := hval (P := f.Eval env) (List.forall₂_reverse_iff.2 (forall₂_imp_of_mem
        (fun o u ho hu => ⟨hu, (Value.eq_bits_of_hasType (hbits o ho ▸ hasType_of_eval hf henv hu)).2⟩) hvals))
      refine ⟨u, hu, ?_⟩
      rw [← he, Value.toBits_bits, Nat.sub_zero, List.map_reverse, ← BitsOps.concat_reverse, List.reverse_reverse]
    · -- a literal: its bit
      rename_i c ops ty hnd
      obtain ⟨rfl, hc⟩ := verify_literal hf hnd
      have hty : ty = .bits w := (tyOf_of_node hnd).symm.trans hn
      obtain ⟨-, hcw⟩ := Value.eq_bits_of_hasType (hty ▸ hc)
      refine ⟨_, rfl, fun env henv v hv => ?_⟩
      obtain ⟨vs, hvs, hsem⟩ := (eval_node_iff hnd).1 hv
      cases hvs
      obtain rfl : c = v := Option.some.inj hsem
      rw [List.getD_eq_getElem?_getD, List.getElem?_eq_getElem (by omega), Option.getD_some]
    · -- any other node: a bit the engine knows, or the bit itself
      split
      · rename_i hk
        obtain ⟨x, hx⟩ := Option.isSome_iff_exists.1 (Bool.and_eq_true_iff.1 hk).2
        refine ⟨_, rfl, fun env henv v hv => ?_⟩
        obtain ⟨hvb, -⟩ := Value.eq_bits_of_hasType (hn ▸ hasType_of_eval hf henv hv)
        rw [hvb] at hv
        rw [hq.knownValue henv hv hx, QueryEngine.isOne, hx]
        cases x <;> rfl
      · exact ⟨_, rfl, sourceOf_self hn hi⟩
    · exact ⟨_, rfl, sourceOf_self hn hi⟩

/-! ## The recursion ends within its fuel -/

/-- In a well-formed function the number of nodes a node depends on goes down
    from the node to each of its operands, and is below the size of the
    function. -/
theorem exists_depth (hf : f.WellFormed) :
    ∃ d : Nat → Nat, (∀ n nd, f.node n = some nd → ∀ o ∈ nd.operands, d o < d n) ∧ ∀ n < f.size, d n < f.size := by
  classical
  obtain ⟨hwt, rank, hrank⟩ := hf
  have hreach : ∀ {a c}, f.Reach a c → rank c ≤ rank a := fun h => by
    induction h with
    | refl => exact le_rfl
    | step hnd hb _ ih => exact ih.trans (hrank _ _ hnd _ hb).le
  have hplus : ∀ {a c}, f.ReachPlus a c → rank c < rank a := fun ⟨_, hnd, _, hb, hbc⟩ =>
    lt_of_le_of_lt (hreach hbc) (hrank _ _ hnd _ hb)
  refine ⟨fun n => ((Finset.range f.size).filter (f.ReachPlus n)).card, fun n nd hnd o ho => ?_, fun n hn => ?_⟩
  · -- what `o` depends on, `n` depends on too, and `n` depends on `o` but `o` does not
    refine Finset.card_lt_card ((Finset.ssubset_iff_of_subset fun m hm => ?_).2 ⟨o, ?_, ?_⟩)
    · simp only [Finset.mem_filter] at hm ⊢
      obtain ⟨nd', hnd', b, hb, hbm⟩ := hm.2
      exact ⟨hm.1, nd, hnd, o, ho, .step hnd' hb hbm⟩
    · simp only [Finset.mem_filter, Finset.mem_range]
      exact ⟨(verifyNode_iff.1 (verifyNode_of_wellTyped hwt hnd)).1 o ho, nd, hnd, o, ho, .refl o⟩
    · simp only [Finset.mem_filter, not_and]
      exact fun _ h => lt_irrefl _ (hplus h)
  · -- and no node depends on itself
    calc ((Finset.range f.size).filter (f.ReachPlus n)).card ≤ ((Finset.range f.size).erase n).card :=
          Finset.card_le_card fun m hm => by
            simp only [Finset.mem_filter, Finset.mem_erase] at hm ⊢
            refine ⟨?_, hm.1⟩
            rintro rfl
            exact lt_irrefl _ (hplus hm.2)
      _ < f.size := by rw [Finset.card_erase_of_mem (Finset.mem_range.2 hn), Finset.card_range]; omega

/-- Given more fuel than a node's depth, one more unit changes nothing. -/
theorem getBitSource_fuel {d : Nat → Nat} (hd : ∀ n nd, f.node n = some nd → ∀ o ∈ nd.operands, d o < d n) :
    ∀ {fuel n : Nat} (i : Nat), d n < fuel → getBitSource q f (fuel + 1) n i = getBitSource q f fuel n i
  | fuel + 1, n, i, h => by
    unfold getBitSource
    split
    · rename_i hnd
      exact getBitSource_fuel hd _ (by have := hd _ _ hnd _ (.head _); omega)
    · rename_i hnd
      exact concatBitSource_congr 0 fun o ho j =>
        getBitSource_fuel hd j (by have := hd _ _ hnd o (List.mem_reverse.1 ho); omega)
    all_goals rfl

/-! ## `GetBitSource` and `PairsOfBitsWithSameSource` -/

theorem mapM_ok_of_forall {α β : Type} {g : α → Except String β} {P : α → β → Prop} :
    ∀ {l : List α}, (∀ a ∈ l, ∃ b, g a = .ok b ∧ P a b) → ∃ bs, l.mapM g = .ok bs ∧ List.Forall₂ P l bs
  | [], _ => ⟨[], rfl, .nil⟩
  | a :: l, h => by
    obtain ⟨b, hb, hp⟩ := h a (.head _)
    obtain ⟨bs, hbs, hps⟩ := mapM_ok_of_forall fun a' ha' => h a' (.tail _ ha')
    exact ⟨b :: bs, by rw [List.mapM_cons, hb, hbs]; rfl, .cons hp hps⟩

theorem mem_matchingPairs {sources : List BitSource} {a b : Nat} (h : (a, b) ∈ matchingPairs sources) :
    a < b ∧ b < sources.length ∧ sources[a]? = sources[b]? := by
  simp only [matchingPairs, List.mem_flatMap, List.mem_range, List.mem_map, List.mem_filter, Bool.and_eq_true,
    decide_eq_true_eq, beq_iff_eq, Prod.mk.injEq] at h
  obtain ⟨_, -, _, ⟨hb, hab, he⟩, rfl, rfl⟩ := h
  exact ⟨hab, hb, he⟩

/-- `GetBitSource` on a well-formed function and a sound engine: for every bit
    within a bits node's width the recursion ends within its fuel `f.size`
    (more fuel changes nothing), never fails, and answers a source of the bit;
    so `PairsOfBitsWithSameSource` over bits nodes wider than the bit never
    fails and pairs only nodes whose bits are equal in every evaluation. -/
theorem getBitSource_sound (hf : f.WellFormed) (hq : q.SoundFor f) :
    (∀ n w i, f.tyOf n = .bits w → i < w →
      (∀ k, getBitSource q f (f.size + k) n i = getBitSource q f f.size n i) ∧
      ∃ r, getBitSource q f f.size n i = .ok r ∧ SourceOf f n i r) ∧
    ∀ (nodes : List Nat) (i : Nat), (∀ c ∈ nodes, ∃ w, f.tyOf c = .bits w ∧ i < w) →
      ∃ pairs, pairsOfBitsWithSameSource q f nodes i = .ok pairs ∧
        ∀ a b, (a, b) ∈ pairs → a < b ∧ ∃ na nb, nodes[a]? = some na ∧ nodes[b]? = some nb ∧
          ∀ env : Env, env.Typed → ∀ va vb, f.Eval env na va → f.Eval env nb vb → va.toBits[i]? = vb.toBits[i]? := by
  obtain ⟨d, hd, hdf⟩ := exists_depth hf
  refine ⟨fun n w i hn hi => ⟨fun k => ?_, getBitSource_sourceOf hf.1 hq _ hn hi⟩, fun nodes i hnodes => ?_⟩
  · -- the node is in the table, so below its depth bound
    have hdn : d n < f.size := hdf n (by
      by_contra h
      rw [tyOf, node, List.getElem?_eq_none (by simpa [size] using h)] at hn
      cases hn)
    induction k with
    | zero => rfl
    | succ k ih => rw [← Nat.add_assoc, getBitSource_fuel hd i (by omega), ih]
  · obtain ⟨rs, hrs, hsrc⟩ := mapM_ok_of_forall (P := fun n r => SourceOf f n i r) (g := fun n =>
      getBitSource q f f.size n i) fun c hc =>
      let ⟨_, hc', hi⟩ := hnodes c hc; getBitSource_sourceOf hf.1 hq _ hc' hi
    refine ⟨_, by simp only [pairsOfBitsWithSameSource, hrs]; rfl, fun a b hab => ?_⟩
    obtain ⟨hlt, hb, he⟩ := mem_matchingPairs hab
    have hsrc' : List.Forall₂ (fun r n => SourceOf f n i r) rs nodes := List.Forall₂.flip hsrc
    obtain ⟨na, hna, hsa⟩ := forall₂_getElem?_left hsrc' (he.trans (List.getElem?_eq_getElem hb))
    obtain ⟨nb, hnb, hsb⟩ := forall₂_getElem?_left hsrc' (List.getElem?_eq_getElem hb)
    exact ⟨hlt, na, nb, hna, hnb, fun env henv va vb hva hvb => hsa.bit_eq hsb henv hva hvb⟩

/-- `bit_slice(concat(x, y), start=1, width=2)`, with `x` a two-bit and `y` a
    one-bit parameter. -/
def sliceOfConcat : FunctionBase :=
  ⟨[⟨.param 0, [], .bits 2⟩, ⟨.param 1, [], .bits 1⟩, ⟨.concat, [0, 1], .bits 3⟩, ⟨.bitSlice 1 2, [2], .bits 2⟩], 3⟩

theorem sliceOfConcat_wellFormed : sliceOfConcat.WellFormed :=
  ⟨by decide, id, fun n nd h o ho => by
    rcases n with _ | _ | _ | _ | n <;> cases h <;> simp [sliceOfConcat] at ho ⊢ <;> omega⟩

/-- Bit 0 of the slice is bit 0 of `x`. -/
theorem getBitSource_sound_sliceOfConcat :
    getBitSource (QueryEngine.knowsNothing sliceOfConcat) sliceOfConcat sliceOfConcat.size 3 0 = .ok (.bit 0 0) ∧
      SourceOf sliceOfConcat 3 0 (.bit 0 0) := by
  obtain ⟨r, hr, hs⟩ := ((getBitSource_sound sliceOfConcat_wellFormed
    (QueryEngine.knowsNothing_soundFor sliceOfConcat_wellFormed.1)).1 3 2 0 rfl (by decide)).2
  obtain rfl : r = .bit 0 0 := Except.ok.inj (hr.symm.trans rfl)
  exact ⟨hr, hs⟩

end SelectSimplification

end Xls
