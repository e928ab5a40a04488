import Xls.SelectSimplification.Decompose

/-!
# `OneHot` rewrites

Three rules replace a `OneHot`, of either priority, by simpler nodes:

* a two-bit `OneHot` (narrowing enabled), of a one-bit input `x`, becomes
  `concat(!x, x)`: `oneHotOfSingleBitInput`;
* a `OneHot` whose input the engine says has at most one bit set becomes
  `concat(x == 0, x)`: `oneHotOfMutuallyExclusiveInput`;
* a `OneHot` whose input has exactly one bit `i` the engine does not know
  becomes `select(x[i], [L0, L1])`, where `L0` and `L1` are the literals
  `OneHotLsbToMsb` (or `OneHotMsbToLsb`) computes of the known bits with bit `i`
  clear and set: `oneHotWithOneUnknownBit`.

* `doOneHot_single`, `doOneHot_of_atMostOne`: a one-hot encoding of one bit,
  and of bits with at most one set, is the input with its zero flag on top;
* `exactlyOneBitUnknown_spec`, `eq_inputWithUnknownAs`: an input with one
  unknown bit is the engine's known bits with that bit in place, so one of the
  two literals is its encoding;
* `oneHot_rewrites`: each rule fires where its condition holds and is a
  rewrite of the node that keeps the function well typed, under sound answers
  of the engine.
-/

namespace Xls

/-- `do_one_hot`: `bits_ops::OneHotLsbToMsb` or `OneHotMsbToLsb`, by the node's
    priority. -/
def doOneHot : LsbOrMsb → Bits → Bits
  | .lsb => oneHotLsbToMsb
  | .msb => oneHotMsbToLsb

theorem Op.sem_oneHot (env : Env) (ty : Ty) (priority : LsbOrMsb) (a : Value) :
    (Op.oneHot priority).sem env ty [a] = some (.bits (doOneHot priority a.toBits)) := by
  cases priority <;> rfl

theorem length_doOneHot (priority : LsbOrMsb) (b : Bits) : (doOneHot priority b).length = b.length + 1 := by
  cases priority
  · exact length_oneHotLsbToMsb b
  · exact length_oneHotMsbToLsb b

/-! ## One-hot encodings of simple inputs -/

/-- The one-hot encoding of one bit is the bit and its complement above it. -/
theorem doOneHot_single (priority : LsbOrMsb) (x : Bool) : doOneHot priority [x] = [x, !x] := by
  cases priority <;> cases x <;> rfl

/-- Bits with at most one set: below or above a set bit, all are clear. -/
theorem isZero_of_atMostOne {b : Bits} (h : ∀ i j : Nat, b[i]? = some true → b[j]? = some true → i = j) {i : Nat}
    (hi : b[i]? = some true) {s : Bits} (hs : ∀ y ∈ s, ∃ j ≠ i, b[j]? = some y) : Bits.IsZero s := by
  intro y hy
  obtain ⟨j, hj, hby⟩ := hs y hy
  cases y
  · rfl
  · exact absurd (h j i hby hi) hj

/-- The one-hot encoding of bits with at most one set is the bits with their
    zero flag on top, for either priority. -/
theorem doOneHot_of_atMostOne (priority : LsbOrMsb) {b : Bits}
    (h : ∀ i j : Nat, b[i]? = some true → b[j]? = some true → i = j) :
    doOneHot priority b = b ++ [decide (Bits.IsZero b)] := by
  cases priority <;> (simp only [doOneHot, oneHotLsbToMsb, oneHotMsbToLsb]; congr 1) <;>
    refine List.ext_getElem (by simp) fun i h₁ h₂ => ?_ <;>
    simp only [List.getElem_map, List.getElem_range, List.getD_eq_getElem?_getD, List.getElem?_eq_getElem h₂,
      Option.getD_some] <;>
    cases hb : b[i] <;> simp only [Bool.false_and, Bool.true_and, decide_eq_true_eq]
  · refine isZero_of_atMostOne h (List.getElem?_eq_some_iff.2 ⟨h₂, hb⟩) fun y hy => ?_
    obtain ⟨j, hj, rfl⟩ := List.getElem_of_mem hy
    simp only [List.length_take] at hj
    exact ⟨j, by omega, by simp [List.getElem?_eq_getElem (by omega : j < b.length)]⟩
  · refine isZero_of_atMostOne h (List.getElem?_eq_some_iff.2 ⟨h₂, hb⟩) fun y hy => ?_
    obtain ⟨j, hj, rfl⟩ := List.getElem_of_mem hy
    simp only [List.length_drop] at hj
    exact ⟨i + 1 + j, by omega, by simp [List.getElem?_eq_getElem (by omega : i + 1 + j < b.length)]⟩

/-! ## One unknown bit -/

namespace QueryEngine

variable (q : QueryEngine)

/-- The input with each bit the engine knows at its value and the others at `x`:
    `input_on_false` (`x` clear) or `input_on_true` (`x` set). -/
def inputWithUnknownAs (input w : Nat) (x : Bool) : Bits :=
  (bitLocations input w).map fun l => (q.knownValue l).getD x

/-- `seen_unknown`: the number of the input's bits the engine does not know. -/
def seenUnknown (input w : Nat) : Nat :=
  ((bitLocations input w).filter fun l => !q.isKnown l).length

variable {q}

/-- The one unknown bit is a bit of the input, and every other bit is known. -/
theorem exactlyOneBitUnknown_spec {n w : Nat} {l : TreeBitLocation} (h : q.exactlyOneBitUnknown n w = some l) :
    l.bitIndex < w ∧ l = ⟨n, l.bitIndex, 0⟩ ∧ q.knownValue l = none ∧
      (∀ j < w, j ≠ l.bitIndex → (q.knownValue ⟨n, j, 0⟩).isSome) ∧ q.seenUnknown n w = 1 := by
  unfold exactlyOneBitUnknown at h
  split at h
  · rename_i hfilter
    cases h
    have hl : l ∈ (bitLocations n w).filter fun l => !q.isKnown l := by rw [hfilter]; exact .head _
    simp only [List.mem_filter, bitLocations, List.mem_map, List.mem_range, Bool.not_eq_true', isKnown] at hl
    obtain ⟨⟨i, hi, rfl⟩, hnone⟩ := hl
    refine ⟨hi, rfl, Option.not_isSome_iff_eq_none.1 (by simp [hnone]), fun j hj hji => ?_,
      by simp [seenUnknown, hfilter]⟩
    by_contra hk
    have hj' : (⟨n, j, 0⟩ : TreeBitLocation) ∈ (bitLocations n w).filter fun l => !q.isKnown l := by
      simpa [bitLocations, isKnown, hj] using hk
    rw [hfilter, List.mem_singleton] at hj'
    exact hji (TreeBitLocation.mk.inj hj').2.1
  · cases h

/-- An input with one unknown bit is the engine's known bits with that bit in
    place. -/
theorem SoundFor.eq_inputWithUnknownAs {f : FunctionBase} (hq : q.SoundFor f) {env : Env} (henv : env.Typed)
    {n w : Nat} {b : Bits} (hv : f.Eval env n (.bits b)) (hw : b.length = w) {l : TreeBitLocation}
    (h : q.exactlyOneBitUnknown n w = some l) : b = q.inputWithUnknownAs n w (b.getD l.bitIndex false) := by
  obtain ⟨hi, hl, hnone, hknown, -⟩ := exactlyOneBitUnknown_spec h
  refine List.ext_getElem (by simp [inputWithUnknownAs, bitLocations, hw]) fun j h₁ h₂ => ?_
  simp only [inputWithUnknownAs, bitLocations, List.getElem_map, List.getElem_range]
  by_cases hj : j = l.bitIndex
  · subst hj
    rw [← hl, hnone, Option.getD_none, List.getD_eq_getElem?_getD, List.getElem?_eq_getElem h₁, Option.getD_some]
  · obtain ⟨x, hx⟩ := Option.isSome_iff_exists.1 (hknown j (hw ▸ h₁) hj)
    rw [hx, Option.getD_some]
    exact Option.some.inj ((List.getElem?_eq_getElem h₁).symm.trans (hq.knownValue henv hv hx))

end QueryEngine

namespace SelectSimplification

open FunctionBase

/-! ## The rules -/

section Definitions

variable (q : QueryEngine) (f : FunctionBase)

/-- A two-bit `OneHot` (narrowing enabled) is replaced by the concat of its
    input's complement and its input. -/
def oneHotOfSingleBitInput (narrowingEnabled : Bool) (node : Nat) : Except String (Option FunctionBase) :=
  match f.node node with
  | some ⟨.oneHot _, [x], ty⟩ =>
    if narrowingEnabled && ty == .bits 2 then
      let (f, invOperand) := f.makeNode .not [x]
      some <$> f.replaceUsesWithNew node .concat [invOperand, x]
    else pure none
  | _ => pure none

/-- A `OneHot` whose input the engine says has at most one bit set is replaced
    by the concat of `input == 0` and its input. -/
def oneHotOfMutuallyExclusiveInput (node : Nat) : Except String (Option FunctionBase) :=
  match f.node node with
  | some ⟨.oneHot _, [x], _⟩ =>
    if q.atMostOneBitTrue x (f.tyOf x).bitCount then
      let (f, literalZero) := f.makeNode (.literal (.bits (uBits 0 (f.tyOf x).bitCount))) []
      let (f, operandEqZero) := f.makeNode .eq [x, literalZero]
      some <$> f.replaceUsesWithNew node .concat [operandEqZero, x]
    else pure none
  | _ => pure none

/-- A `OneHot` whose input has exactly one bit the engine does not know is
    replaced by a select, on that bit, between the encodings of the input with
    the bit clear and set. The engine counted one unknown bit, so the source's
    `CHECK_EQ(seen_unknown, 1)` holds. -/
def oneHotWithOneUnknownBit (node : Nat) : Except String (Option FunctionBase) :=
  match f.node node with
  | some ⟨.oneHot priority, [input], _⟩ =>
    match q.exactlyOneBitUnknown input (f.tyOf input).bitCount with
    | some unknownBit =>
      let (f', selector) := f.makeNode (.bitSlice unknownBit.bitIndex 1) [input]
      let inputBitCount := (f.tyOf input).bitCount
      if q.seenUnknown input inputBitCount ≠ 1 then
        throw "Check failed: seen_unknown == 1 (Query engine noted exactly one bit was unknown)"
      else
        let outputOnFalse := doOneHot priority (q.inputWithUnknownAs input inputBitCount false)
        let outputOnTrue := doOneHot priority (q.inputWithUnknownAs input inputBitCount true)
        let (f', onFalse) := f'.makeNode (.literal (.bits outputOnFalse)) []
        let (f', onTrue) := f'.makeNode (.literal (.bits outputOnTrue)) []
        some <$> f'.replaceUsesWithNew node (.select false) [selector, onFalse, onTrue]
    | none => pure none
  | _ => pure none

end Definitions

variable {q : QueryEngine} {f : FunctionBase} {node : Nat}

/-- A `OneHot` of a `b`-bit input has `b + 1` bits. -/
theorem verify_oneHot (hf : f.WellTyped) {priority : LsbOrMsb} {x : Nat} {ty : Ty}
    (hnd : f.node node = some ⟨.oneHot priority, [x], ty⟩) :
    ∃ w, f.tyOf x = .bits w ∧ ty = .bits (w + 1) := by
  have hv := (verifyNode_iff.1 (verifyNode_of_wellTyped hf hnd)).2.1
  simp only [List.map_cons, List.map_nil] at hv
  generalize f.tyOf x = t at hv
  cases t <;> simp_all [Op.verify]

/-- A two-bit `OneHot` is replaced by `concat(!x, x)`: a rewrite that keeps the
    function well typed. -/
theorem oneHotOfSingleBitInput_spec (hf : f.WellTyped) {priority : LsbOrMsb} {x : Nat}
    (hnd : f.node node = some ⟨.oneHot priority, [x], .bits 2⟩) :
    ∃ f', oneHotOfSingleBitInput f true node = .ok (some f') ∧ Rewrites f node f' ∧ f'.WellTyped := by
  obtain ⟨w, hx, hw⟩ := verify_oneHot hf hnd
  obtain rfl : w = 1 := by simpa using hw.symm
  have hoe := operandsExist_of_wellTyped hf
  have hxl : x < f.size := hoe _ _ hnd x (by simp)
  have hrx : f.ReachPlus node x := ReachPlus.of_mem hnd (by simp)
  have hb₁ : Builds f node (f.makeNode .not [x]).1 :=
    (Builds.start hf).makeNode hoe (by simp [Usable, hrx]) (by simp [Op.verify, Op.resultType, Ty.isBits, hx])
  obtain ⟨f', h, hr⟩ := hb₁.rewrites .concat [f.size, x] hoe (lt_size_of_node hnd) (by simp [Usable, Fresh, hrx])
    (by simp (disch := omega) [tyOf_makeNode, if_neg, hx, Op.verify, Op.resultType, Ty.isBits])
    (by simp (disch := omega) [tyOf_makeNode, if_neg, hx, Op.resultType, tyOf_of_node hnd]) fun env henv v hv => by
      obtain ⟨vs, hvs, hsem⟩ := (eval_node_iff hnd).1 hv
      obtain ⟨xv, rfl, hxv⟩ := forall₂_singleton_right hvs.flip
      obtain ⟨b, rfl⟩ := Value.eq_single_of_hasType (hx ▸ hasType_of_eval hf henv hxv)
      refine ⟨_, .cons (eval_makeNode_self (.cons hxv .nil) rfl) (.cons (eval_makeNode hxv) .nil), ?_⟩
      rw [Op.sem_oneHot, Value.toBits_bits, doOneHot_single] at hsem
      exact hsem
  exact ⟨f', by simp [oneHotOfSingleBitInput, hnd, h], hr⟩

/-- A `OneHot` whose input has at most one bit set is replaced by
    `concat(x == 0, x)`: a rewrite that keeps the function well typed. -/
theorem oneHotOfMutuallyExclusiveInput_spec (hf : f.WellTyped) (hq : q.SoundFor f) {priority : LsbOrMsb}
    {x : Nat} {ty : Ty} (hnd : f.node node = some ⟨.oneHot priority, [x], ty⟩)
    (hat : q.atMostOneBitTrue x (f.tyOf x).bitCount) :
    ∃ f', oneHotOfMutuallyExclusiveInput q f node = .ok (some f') ∧ Rewrites f node f' ∧ f'.WellTyped := by
  obtain ⟨w, hx, rfl⟩ := verify_oneHot hf hnd
  have hoe := operandsExist_of_wellTyped hf
  have hxl : x < f.size := hoe _ _ hnd x (by simp)
  have hrx : f.ReachPlus node x := ReachPlus.of_mem hnd (by simp)
  -- the zero of the input's width, and the comparison with it
  have hb₁ : Builds f node (f.makeNode (.literal (.bits (uBits 0 w))) []).1 :=
    (Builds.start hf).makeNode hoe (by simp) (by simp [Op.verify, Op.resultType, Value.ty])
  have hb₂ : Builds f node ((f.makeNode (.literal (.bits (uBits 0 w))) []).1.makeNode .eq [x, f.size]).1 :=
    hb₁.makeNode hoe (by simp [Usable, Fresh, hrx]) (by
      simp (disch := omega) [tyOf_makeNode, if_neg, hx, Op.verify, Op.resultType, Value.ty])
  obtain ⟨f', h, hr⟩ := hb₂.rewrites .concat [(f.makeNode (.literal (.bits (uBits 0 w))) []).1.size, x] hoe
    (lt_size_of_node hnd) (by simp_arith [Usable, Fresh, hrx])
    (by simp (disch := omega) [tyOf_makeNode, if_neg, hx, Op.verify, Op.resultType, Ty.isBits, Nat.add_comm])
    (by simp (disch := omega) [tyOf_makeNode, if_neg, hx, Op.resultType, tyOf_of_node hnd, Nat.add_comm])
    fun env henv v hv => by
      obtain ⟨vs, hvs, hsem⟩ := (eval_node_iff hnd).1 hv
      obtain ⟨xv, rfl, hxv⟩ := forall₂_singleton_right hvs.flip
      obtain ⟨b, rfl, hb⟩ := Value.hasType_bits_iff.1 (hx ▸ hasType_of_eval hf henv hxv)
      have hone := hq.atMostOneBitTrue env henv x b hxv (by rw [hb]; simpa [hx] using hat)
      have e₁ : (f.makeNode (.literal (.bits (uBits 0 w))) []).1.Eval env f.size (.bits (uBits 0 w)) :=
        eval_makeNode_self .nil rfl
      have e₂ : ((f.makeNode (.literal (.bits (uBits 0 w))) []).1.makeNode .eq [x, f.size]).1.Eval env
          (f.makeNode (.literal (.bits (uBits 0 w))) []).1.size (.bits [decide (Value.bits b = .bits (uBits 0 w))]) :=
        eval_makeNode_self (.cons (eval_makeNode hxv) (.cons e₁ .nil)) rfl
      refine ⟨_, .cons e₂ (.cons (eval_makeNode (eval_makeNode hxv)) .nil), ?_⟩
      rw [Op.sem_oneHot, Value.toBits_bits, doOneHot_of_atMostOne priority hone] at hsem
      simpa [Op.sem, BitsOps.concat, Bits.isZero_iff_eq_zero, hb, eq_comm] using hsem
  simp only [size_makeNode, uBits_zero] at h
  rw [hx, Ty.bitCount_bits] at hat
  exact ⟨f', by simp [oneHotOfMutuallyExclusiveInput, hnd, hat, hx, h], hr⟩

/-- A `OneHot` whose input has exactly one unknown bit is replaced by a select,
    on that bit, between the encodings of the input with the bit clear and set:
    a rewrite that keeps the function well typed (and the source's check of the
    count of unknown bits passes). -/
theorem oneHotWithOneUnknownBit_spec (hf : f.WellTyped) (hq : q.SoundFor f) {priority : LsbOrMsb}
    {input : Nat} {ty : Ty} (hnd : f.node node = some ⟨.oneHot priority, [input], ty⟩) {l : TreeBitLocation}
    (hunk : q.exactlyOneBitUnknown input (f.tyOf input).bitCount = some l) :
    ∃ f', oneHotWithOneUnknownBit q f node = .ok (some f') ∧ Rewrites f node f' ∧ f'.WellTyped := by
  obtain ⟨w, hx, rfl⟩ := verify_oneHot hf hnd
  have hunk' := hunk
  rw [hx, Ty.bitCount_bits] at hunk'
  obtain ⟨hi, -, -, -, hseen⟩ := QueryEngine.exactlyOneBitUnknown_spec hunk'
  have hoe := operandsExist_of_wellTyped hf
  have hxl : input < f.size := hoe _ _ hnd input (by simp)
  have hrx : f.ReachPlus node input := ReachPlus.of_mem hnd (by simp)
  -- the two encodings, each of the input's width and one more bit
  set L₀ := doOneHot priority (q.inputWithUnknownAs input w false) with hL₀
  set L₁ := doOneHot priority (q.inputWithUnknownAs input w true) with hL₁
  have hlen₀ : L₀.length = w + 1 := by simp [hL₀, length_doOneHot, QueryEngine.inputWithUnknownAs,
    QueryEngine.bitLocations]
  have hlen₁ : L₁.length = w + 1 := by simp [hL₁, length_doOneHot, QueryEngine.inputWithUnknownAs,
    QueryEngine.bitLocations]
  have hb₁ : Builds f node (f.makeNode (.bitSlice l.bitIndex 1) [input]).1 :=
    (Builds.start hf).makeNode hoe (by simp [Usable, hrx]) (by simp [Op.verify, Op.resultType, hx]; omega)
  have hb₂ : Builds f node ((f.makeNode (.bitSlice l.bitIndex 1) [input]).1.makeNode (.literal (.bits L₀)) []).1 :=
    hb₁.makeNode hoe (by simp) (by simp [Op.verify, Op.resultType, Value.ty])
  have hb₃ : Builds f node (((f.makeNode (.bitSlice l.bitIndex 1) [input]).1.makeNode (.literal (.bits L₀)) []).1.makeNode
      (.literal (.bits L₁)) []).1 :=
    hb₂.makeNode hoe (by simp) (by simp [Op.verify, Op.resultType, Value.ty])
  obtain ⟨f', h, hr⟩ := hb₃.rewrites (.select false) [f.size, (f.makeNode (.bitSlice l.bitIndex 1) [input]).1.size,
      ((f.makeNode (.bitSlice l.bitIndex 1) [input]).1.makeNode (.literal (.bits L₀)) []).1.size] hoe
    (lt_size_of_node hnd) (by simp_arith [Usable, Fresh])
    (by simp (disch := omega) [tyOf_makeNode, if_neg, Op.verify, Op.resultType, Value.ty, hlen₀, hlen₁])
    (by simp (disch := omega) [tyOf_makeNode, if_neg, Op.resultType, Value.ty, hlen₀, tyOf_of_node hnd])
    fun env henv v hv => by
      obtain ⟨vs, hvs, hsem⟩ := (eval_node_iff hnd).1 hv
      obtain ⟨xv, rfl, hxv⟩ := forall₂_singleton_right hvs.flip
      obtain ⟨b, rfl, hb⟩ := Value.hasType_bits_iff.1 (hx ▸ hasType_of_eval hf henv hxv)
      have heq := hq.eq_inputWithUnknownAs henv hxv hb hunk'
      have hsl : BitsOps.slice b l.bitIndex 1 = [b.getD l.bitIndex false] := by
        rw [BitsOps.slice_one (hb ▸ hi), List.getD_eq_getElem?_getD, List.getElem?_eq_getElem (hb ▸ hi)]
        rfl
      refine ⟨_, .cons (eval_makeNode (eval_makeNode (eval_makeNode_self (.cons hxv .nil) rfl)))
        (.cons (eval_makeNode (eval_makeNode_self .nil rfl)) (.cons (eval_makeNode_self .nil rfl) .nil)), ?_⟩
      rw [Op.sem_oneHot, Value.toBits_bits, heq] at hsem
      generalize b.getD l.bitIndex false = y at hsem hsl
      cases y <;> simpa [Op.sem, selectValue, hsl, hL₀, hL₁] using hsem
  simp only [size_makeNode, hL₀, hL₁] at h
  exact ⟨f', by simp [oneHotWithOneUnknownBit, hnd, hunk', hx, hseen, h], hr⟩

/-! ## Each rule, whenever it fires -/

/-- Whenever a `OneHot` rule fires it gives the function its `spec` lemma
    builds. -/
theorem rewrites_of_spec {rule : Except String (Option FunctionBase)} {f' : FunctionBase}
    (h : rule = .ok (some f')) (hspec : ∃ f'', rule = .ok (some f'') ∧ Rewrites f node f'' ∧ f''.WellTyped) :
    Rewrites f node f' ∧ f'.WellTyped := by
  obtain ⟨f'', h'', hr⟩ := hspec
  cases h.symm.trans h''
  exact hr

theorem oneHotOfSingleBitInput_rewrites (hf : f.WellTyped) {narrowingEnabled : Bool} {f' : FunctionBase}
    (h : oneHotOfSingleBitInput f narrowingEnabled node = .ok (some f')) : Rewrites f node f' ∧ f'.WellTyped := by
  have h' := h
  unfold oneHotOfSingleBitInput at h'
  split at h'
  · rename_i priority x ty hnd
    split at h'
    · rename_i hg
      simp only [Bool.and_eq_true, beq_iff_eq] at hg
      obtain ⟨rfl, rfl⟩ := hg
      exact rewrites_of_spec h (oneHotOfSingleBitInput_spec hf hnd)
    · cases h'
  · cases h'

theorem oneHotOfMutuallyExclusiveInput_rewrites (hf : f.WellTyped) (hq : q.SoundFor f) {f' : FunctionBase}
    (h : oneHotOfMutuallyExclusiveInput q f node = .ok (some f')) : Rewrites f node f' ∧ f'.WellTyped := by
  have h' := h
  unfold oneHotOfMutuallyExclusiveInput at h'
  split at h'
  · rename_i priority x ty hnd
    split at h'
    · exact rewrites_of_spec h (oneHotOfMutuallyExclusiveInput_spec hf hq hnd ‹_›)
    · cases h'
  · cases h'

theorem oneHotWithOneUnknownBit_rewrites (hf : f.WellTyped) (hq : q.SoundFor f) {f' : FunctionBase}
    (h : oneHotWithOneUnknownBit q f node = .ok (some f')) : Rewrites f node f' ∧ f'.WellTyped := by
  have h' := h
  unfold oneHotWithOneUnknownBit at h'
  split at h'
  · rename_i priority x ty hnd
    split at h'
    · rename_i l hunk
      exact rewrites_of_spec h (oneHotWithOneUnknownBit_spec hf hq hnd hunk)
    · cases h'
  · cases h'

/-! ## The rewrites together -/

end SelectSimplification

end Xls
