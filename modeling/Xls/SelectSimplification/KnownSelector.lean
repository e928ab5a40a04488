import Xls.SelectSimplification.Basic

/-!
# Selects with a known selector

The first three rules of `SimplifyNode`. A `Select` whose selector the engine
fully knows is replaced by the case the selector picks, or by its default past
the last case; a `PrioritySelect` whose selector is known zero below a known one
by that bit's case, and by zero when the selector is known zero; a
`OneHotSelect` of bits whose selector is fully known by the OR of the cases
whose bit is set.

* `selectWithKnownSelector_rewrites`, `prioritySelectWithKnownSelector_rewrites`,
  `oneHotSelectWithKnownSelector_rewrites`: each rule is a rewrite of the node
  that keeps the function well typed;
* `selectWithKnownSelector_fires`, `prioritySelectWithKnownSelector_fires`,
  `oneHotSelectWithKnownSelector_fires`: in a function without cycles each rule
  fires on every select of its shape whose selector is known as it needs
  (`length_ternary`: the engine's vector has the selector's width);
* `selectWithKnownSelector_ne_noDefault`: in a function without cycles, a known
  selector past the last case comes with a default.
-/

namespace Xls

namespace SelectSimplification

open FunctionBase

section Definitions

variable (q : QueryEngine) (f : FunctionBase)

/-- A `Select` whose selector the engine fully knows is replaced by the case the
    selector picks, or by its default when the selector is past the last case
    (`UGreaterThan(selector, UBits(cases().size() - 1, w))`: the source
    subtracts in unsigned arithmetic, which wraps for a select with no case,
    where the model takes `0`). -/
def selectWithKnownSelector (node : Nat) : Except String (Option FunctionBase) :=
  match f.node node with
  | some ⟨.select d, s :: rest, _⟩ =>
    if q.isFullyKnown s then
      let selector := (q.knownValueAsBits s).getD []
      let cases := selectCases d rest
      if (uBits (cases.length - 1) selector.length).toNat < selector.toNat then
        match selectDefault d rest with
        | some dv => some <$> f.replaceUsesWith node dv
        | none => throw "RET_CHECK failure: sel->default_value().has_value()"
      else
        match cases[selector.toNat]? with
        | some c => some <$> f.replaceUsesWith node c
        | none => throw "get_case: index out of range"
    else pure none
  | _ => pure none

/-- A `PrioritySelect` whose selector's ternary vector is known zero up to a
    known one is replaced by that bit's case, and by a zero literal when it is
    known zero throughout. -/
def prioritySelectWithKnownSelector (node : Nat) : Except String (Option FunctionBase) :=
  match f.node node with
  | some ⟨.prioritySel, s :: cases, ty⟩ =>
    if !(f.tyOf s).isBits then throw "RET_CHECK failure: sel->selector()->GetType()->IsBits()"
    else
      let selector := q.ternary s
      match selector.findIdx? (· != .knownZero) with
      | none => some <$> f.replaceUsesWithNew node (.literal (zeroOfType ty)) []
      | some caseNum =>
        if selector[caseNum]? = some .knownOne then
          match cases[caseNum]? with
          | some c => some <$> f.replaceUsesWith node c
          | none => throw "get_case: index out of range"
        else pure none
  | _ => pure none

/-- The loop over the known selector's bits from bit `i`: the OR, in new nodes,
    of the cases whose bit is set, onto `replacement`. -/
def orOfSelectedCases (cases : List Nat) :
    FunctionBase → Option Nat → Nat → Bits → Except String (FunctionBase × Option Nat)
  | f, replacement, _, [] => pure (f, replacement)
  | f, replacement, i, b :: bs =>
    if b then
      match cases[i]? with
      | none => throw "get_case: index out of range"
      | some c =>
        match replacement with
        | none => orOfSelectedCases cases f (some c) (i + 1) bs
        | some r =>
          let (f, r) := f.makeNode .or [r, c]
          orOfSelectedCases cases f (some r) (i + 1) bs
    else orOfSelectedCases cases f replacement (i + 1) bs

/-- A `OneHotSelect` of bits whose selector the engine fully knows is replaced
    by the OR of the cases whose bit is set, and by a zero literal when none
    is. -/
def oneHotSelectWithKnownSelector (node : Nat) : Except String (Option FunctionBase) :=
  match f.node node with
  | some ⟨.oneHotSel, s :: cases, ty⟩ =>
    if q.isFullyKnown s && ty.isBits then do
      let (f, replacement) ← orOfSelectedCases cases f none 0 ((q.knownValueAsBits s).getD [])
      let (f, replacement) := match replacement with
        | some r => (f, r)
        | none => f.makeNode (.literal (.bits (uBits 0 ty.bitCount))) []
      some <$> f.replaceUsesWith node replacement
    else pure none
  | _ => pure none

end Definitions

variable {q : QueryEngine} {f f' : FunctionBase} {node : Nat}

theorem knownValueAsBits_of_isFullyKnown {s : Nat} (h : q.isFullyKnown s = true) :
    q.knownValueAsBits s = some (ternaryOps.toKnownBitsValues (q.ternary s)) := by
  simp [QueryEngine.knownValueAsBits, h]

/-- A known selector picks the case it indexes, or the default past the last
    case. -/
theorem selectWithKnownSelector_rewrites (hf : f.WellTyped) (hq : q.SoundFor f)
    (h : selectWithKnownSelector q f node = .ok (some f')) : Rewrites f node f' ∧ f'.WellTyped := by
  unfold selectWithKnownSelector at h
  split at h
  · rename_i d s rest ty hnd
    split at h
    · rename_i hk
      obtain ⟨bs, hbs⟩ : ∃ bs, q.knownValueAsBits s = some bs := ⟨_, knownValueAsBits_of_isFullyKnown hk⟩
      rw [hbs, Option.getD_some] at h
      dsimp only at h
      obtain ⟨w, hsw, -, hlen, -⟩ := verify_select hf hnd
      -- the selector's value, and the values of the operands
      have hval : ∀ env : Env, env.Typed → ∀ v, f.Eval env node v → ∃ vs, bs.length = w ∧
          List.Forall₂ (f.Eval env) rest vs ∧ selectValue bs (selectCases d vs) (selectDefault d vs) = some v := by
        intro env henv v hv
        obtain ⟨sv, vs, hs, hvs, hsem⟩ := exists_operands hnd hv
        obtain ⟨sb, rfl, hsb⟩ := Value.hasType_bits_iff.1 (hsw ▸ hasType_of_eval hf henv hs)
        have := hq.knownValueAsBits henv hs hbs
        subst this
        exact ⟨vs, hsb, hvs, by rwa [Op.sem_select] at hsem⟩
      have hbound : ∀ env : Env, env.Typed → ∀ v, f.Eval env node v →
          (uBits ((selectCases d rest).length - 1) bs.length).toNat = (selectCases d rest).length - 1 :=
        fun env henv v hv => by
          obtain ⟨vs, hbw, -⟩ := hval env henv v hv
          have := Nat.two_pow_pos w
          rw [toNat_uBits, hbw, Nat.mod_eq_of_lt (by omega)]
      split at h
      · -- past the last case: the default
        rename_i hgt
        split at h
        · rename_i dv hdv
          have hr := map_some_eq_ok.1 h
          refine ⟨rewrites_of_replaceUsesWith (ReachPlus.of_mem hnd (.tail _ (mem_of_selectDefault hdv)))
            (fun env henv v hv => ?_) hr, hf.replaceUsesWith ?_ hr⟩
          · obtain ⟨vs, -, hvs, hsel⟩ := hval env henv v hv
            rw [hbound env henv v hv] at hgt
            obtain ⟨dvv, hdvv, hev⟩ := selectDefault_rel hvs hdv
            rw [selectValue, if_neg (by rw [(forall₂_selectCases hvs).length_eq.symm]; omega), hdvv] at hsel
            exact Option.some.inj hsel ▸ hev
          · exact operandsExist_of_wellTyped hf _ _ hnd dv (.tail _ (mem_of_selectDefault hdv))
        · cases h
      · -- the case the selector indexes
        split at h
        · rename_i c hc
          have hr := map_some_eq_ok.1 h
          refine ⟨rewrites_of_replaceUsesWith (ReachPlus.of_mem hnd (.tail _ (mem_of_mem_selectCases
            (List.getElem?_mem hc)))) (fun env henv v hv => ?_) hr, hf.replaceUsesWith ?_ hr⟩
          · obtain ⟨vs, -, hvs, hsel⟩ := hval env henv v hv
            have hlt := (List.getElem?_eq_some_iff.1 hc).1
            obtain ⟨cv, hcv, hev⟩ := forall₂_getElem?_left (forall₂_selectCases hvs) hc
            rw [selectValue, if_pos (by rw [← (forall₂_selectCases hvs).length_eq]; exact hlt), hcv] at hsel
            exact Option.some.inj hsel ▸ hev
          · exact operandsExist_of_wellTyped hf _ _ hnd c (.tail _ (mem_of_mem_selectCases (List.getElem?_mem hc)))
        · cases h
    · cases h
  · cases h

/-- A selector known zero below a known one picks that bit's case; one known
    zero throughout picks none, and the select is zero. -/
theorem prioritySelectWithKnownSelector_rewrites (hf : f.WellTyped) (hq : q.SoundFor f)
    (h : prioritySelectWithKnownSelector q f node = .ok (some f')) : Rewrites f node f' ∧ f'.WellTyped := by
  unfold prioritySelectWithKnownSelector at h
  split at h
  · rename_i s cases ty hnd
    split at h
    · cases h
    dsimp only at h
    have hsel : ∀ env : Env, env.Typed → ∀ v, f.Eval env node v → ∃ sb cvs, (q.ternary s).Contains sb ∧
        List.Forall₂ (f.Eval env) cases cvs ∧ prioritySelectValue (zeroOfType ty) sb cvs = v := by
      intro env henv v hv
      obtain ⟨sb, cvs, hs, hcs, hsem⟩ := oneHotSel_operands (.inr rfl) hf hnd henv hv
      exact ⟨sb, cvs, hq.ternary env henv s sb hs, hcs, Option.some.inj hsem⟩
    split at h
    · -- known zero throughout: zero
      rename_i hnone
      have hr := map_some_eq_ok.1 h
      refine ⟨rewrites_literal (lt_size_of_node hnd) (fun env henv v hv => ?_) hr,
        hf.replaceUsesWithNew (by simp) ?_ hr⟩
      swap
      · have hne := noEmptyArray_of_node hf hnd
        simp [Op.verify, Op.resultType, zeroOfType_hasType, ty_zeroOfType hne, hne]
      obtain ⟨sb, cvs, hc, -, rfl⟩ := hsel env henv v hv
      have hz : Bits.IsZero sb :=
        TernaryVector.isZero_of_contains hc (by simpa [List.findIdx?_eq_none_iff] using hnone)
      rw [prioritySelectValue_eq, (Bits.firstSet_eq_none sb).2 hz]
      rfl
    · -- known zero below a known one at `k`: case `k`
      rename_i k hk
      split at h
      · rename_i hone
        split at h
        · rename_i c hc
          have hr := map_some_eq_ok.1 h
          have hmem : c ∈ s :: cases := .tail _ (List.getElem?_mem hc)
          refine ⟨rewrites_of_replaceUsesWith (ReachPlus.of_mem hnd hmem) (fun env henv v hv => ?_) hr,
            hf.replaceUsesWith (operandsExist_of_wellTyped hf _ _ hnd c hmem) hr⟩
          obtain ⟨sb, cvs, hcon, hcs, rfl⟩ := hsel env henv v hv
          obtain ⟨hkl, -, hbefore⟩ := List.findIdx?_eq_some_iff_getElem.1 hk
          have hfs : Bits.firstSet sb = some k := by
            refine Bits.firstSet_eq_some.2 ⟨TernaryVector.getElem?_of_contains hcon hone rfl, fun j hj => ?_⟩
            have hzj : (q.ternary s)[j] = .knownZero := by simpa using hbefore j hj
            exact TernaryVector.getElem?_of_contains (x := .knownZero) hcon
              (by rw [List.getElem?_eq_getElem (by omega), hzj]) rfl
          obtain ⟨cv, hcv, hev⟩ := forall₂_getElem?_left hcs hc
          rw [prioritySelectValue_eq, hfs, Option.some_bind, hcv]
          exact hev
        · cases h
      · cases h
  · cases h

/-- The value of the OR built so far: zero while no case is in it. -/
def OrValue (g : FunctionBase) (env : Env) (w : Nat) : Option Nat → Value → Prop
  | none, a => a = zeroOfType (.bits w)
  | some x, a => g.Eval env x a

theorem OrValue.hasType {g : FunctionBase} {env : Env} {w : Nat} {r : Option Nat} {a : Value} (hg : g.WellTyped)
    (henv : env.Typed) (hr : ∀ x ∈ r, g.tyOf x = .bits w) (ha : OrValue g env w r a) : a.HasType (.bits w) := by
  cases r with
  | none => exact (show a = _ from ha) ▸ zeroOfType_hasType _
  | some x => exact hr x rfl ▸ hasType_of_eval hg henv ha

theorem oneHotSelectValue_false_drop (z : Value) (bs : Bits) (cvs : List Value) (i : Nat) :
    oneHotSelectValue z (false :: bs) (cvs.drop i) = oneHotSelectValue z bs (cvs.drop (i + 1)) := by
  by_cases hi : i < cvs.length
  · rw [List.drop_eq_getElem_cons hi]
    rfl
  · rw [List.drop_eq_nil_of_le (by omega), List.drop_eq_nil_of_le (by omega)]
    cases bs <;> rfl

theorem oneHotSelectValue_true_drop (z : Value) (bs : Bits) {cvs : List Value} {i : Nat} {cv : Value}
    (h : cvs[i]? = some cv) :
    oneHotSelectValue z (true :: bs) (cvs.drop i) = cv.or (oneHotSelectValue z bs (cvs.drop (i + 1))) := by
  obtain ⟨hi, rfl⟩ := List.getElem?_eq_some_iff.1 h
  rw [List.drop_eq_getElem_cons hi]
  rfl

section Loop

variable {S : Nat → Prop} {cases : List Nat} {w : Nat} (hf : f.WellTyped) (hSf : ∀ x, S x → x < f.size)
  (hS : ∀ c ∈ cases, S c) (hcty : ∀ c ∈ cases, f.tyOf c = .bits w)
include hf hSf hS hcty

/-- Each step ORs onto the replacement the next case whose bit is set: at the
    end the replacement is the replacement given ORed with the one-hot select of
    the remaining bits over the remaining cases. -/
theorem orOfSelectedCases_spec : ∀ {g g' : FunctionBase} {r r' : Option Nat} {i : Nat} {bs : Bits},
    Extends f S g → g.WellTyped → (∀ x ∈ r, (Fresh f g x ∨ S x) ∧ g.tyOf x = .bits w) →
    orOfSelectedCases cases g r i bs = .ok (g', r') →
    Extends f S g' ∧ g'.WellTyped ∧ (∀ x ∈ r', (Fresh f g' x ∨ S x) ∧ g'.tyOf x = .bits w) ∧
      ∀ env : Env, env.Typed → ∀ cvs, List.Forall₂ (f.Eval env) cases cvs →
        ∀ a, OrValue g env w r a → OrValue g' env w r' (a.or (oneHotSelectValue (zeroOfType (.bits w)) bs (cvs.drop i)))
  | _, _, _, _, i, [], hg, hgt, hr, h => by
    cases h
    refine ⟨hg, hgt, hr, fun env henv cvs _ a ha => ?_⟩
    have : oneHotSelectValue (zeroOfType (.bits w)) [] (cvs.drop i) = zeroOfType (.bits w) := by
      cases cvs.drop i <;> rfl
    rwa [this, Value.or_zero _ (ha.hasType hgt henv fun x hx => (hr x hx).2)]
  | g, g', r, r', i, false :: bs, hg, hgt, hr, h => by
    rw [orOfSelectedCases, if_neg Bool.false_ne_true] at h
    obtain ⟨hext, hgt', hr', hval⟩ := orOfSelectedCases_spec hg hgt hr h
    exact ⟨hext, hgt', hr', fun env henv cvs hcs a ha => by
      rw [oneHotSelectValue_false_drop]; exact hval env henv cvs hcs a ha⟩
  | g, g', r, r', i, true :: bs, hg, hgt, hr, h => by
    rw [orOfSelectedCases, if_pos rfl] at h
    split at h
    · cases h
    rename_i c hc
    have hcS := hS c (List.getElem?_mem hc)
    have hct : g.tyOf c = .bits w := (hg.tyOf_of_lt (hSf c hcS)).trans (hcty c (List.getElem?_mem hc))
    split at h
    · -- the first case set: the OR is the case itself
      obtain ⟨hext, hgt', hr', hval⟩ := orOfSelectedCases_spec hg hgt (by simp [hct, hcS]) h
      refine ⟨hext, hgt', hr', fun env henv cvs hcs a ha => ?_⟩
      obtain ⟨cv, hcv, hev⟩ := forall₂_getElem?_left hcs hc
      have hcvt : cv.HasType (.bits w) := hcty c (List.getElem?_mem hc) ▸ hasType_of_eval hf henv hev
      have := hval env henv cvs hcs cv (hg.eval hev)
      rwa [(show a = _ from ha), oneHotSelectValue_true_drop _ _ hcv, Value.zero_or
        (Value.or_hasType _ hcvt (oneHotSelectValue_hasType (zeroOfType_hasType _) _ fun v hv => ?_))]
      obtain ⟨c', hc', hcv'⟩ := forall₂_exists_of_mem_right hcs (List.mem_of_mem_drop hv)
      exact hcty c' hc' ▸ hasType_of_eval hf henv hcv'
    · -- a later case: an `or` node onto the replacement
      rename_i x
      obtain ⟨hxS, hxt⟩ := hr x rfl
      have hxl : x < g.size := hxS.elim (·.2) fun h => lt_of_lt_of_le (hSf x h) hg.size_le
      have hg₁ : Extends f S (g.makeNode .or [x, c]).1 := hg.makeNode (by simpa using ⟨hxS, .inr hcS⟩)
      have hgt₁ : (g.makeNode .or [x, c]).1.WellTyped := hgt.makeNode
        (by simpa using ⟨hxl, lt_of_lt_of_le (hSf c hcS) hg.size_le⟩)
        (by simp [Op.verify, Op.resultType, hxt, hct, Ty.isBits])
      obtain ⟨hext, hgt', hr', hval⟩ := orOfSelectedCases_spec hg₁ hgt₁
        (by simpa [Op.resultType, hxt] using .inl (fresh_makeNode_self hg.size_le)) h
      refine ⟨hext, hgt', hr', fun env henv cvs hcs a ha => ?_⟩
      obtain ⟨cv, hcv, hev⟩ := forall₂_getElem?_left hcs hc
      have hat := ha.hasType hgt henv fun x' hx' => (hr x' hx').2
      have hcvt : cv.HasType (.bits w) := hcty c (List.getElem?_mem hc) ▸ hasType_of_eval hf henv hev
      have hor : (g.makeNode .or [x, c]).1.Eval env g.size (a.or cv) := by
        refine eval_makeNode_self (.cons ha (.cons (hg.eval hev) .nil)) ?_
        obtain ⟨a', rfl, -⟩ := Value.hasType_bits_iff.1 hat
        obtain ⟨cv', rfl, -⟩ := Value.hasType_bits_iff.1 hcvt
        simp [Op.sem, naryBits]
      have := hval env henv cvs hcs _ hor
      rwa [Value.or_assoc_of_hasType _ hat hcvt
        (oneHotSelectValue_hasType (zeroOfType_hasType _) _ fun v hv => ?_),
        ← oneHotSelectValue_true_drop _ _ hcv] at this
      obtain ⟨c', hc', hcv'⟩ := forall₂_exists_of_mem_right hcs (List.mem_of_mem_drop hv)
      exact hcty c' hc' ▸ hasType_of_eval hf henv hcv'

end Loop

/-- A known one-hot selector selects the OR of the cases whose bit is set, and
    zero when none is. -/
theorem oneHotSelectWithKnownSelector_rewrites (hf : f.WellTyped) (hq : q.SoundFor f)
    (h : oneHotSelectWithKnownSelector q f node = .ok (some f')) : Rewrites f node f' ∧ f'.WellTyped := by
  unfold oneHotSelectWithKnownSelector at h
  split at h
  · rename_i s cases ty hnd
    split at h
    · rename_i hk
      simp only [Bool.and_eq_true] at hk
      obtain ⟨w, rfl⟩ : ∃ w, ty = .bits w := ⟨_, Ty.isBits_iff.1 hk.2⟩
      obtain ⟨bs, hbs⟩ : ∃ bs, q.knownValueAsBits s = some bs := ⟨_, knownValueAsBits_of_isFullyKnown hk.1⟩
      rw [hbs, Option.getD_some] at h
      obtain ⟨⟨g, r⟩, hr, h⟩ := except_bind_eq_ok.1 h
      obtain ⟨-, -, hcty⟩ := verify_oneHotSel (.inl rfl) hf hnd
      obtain ⟨hext, hgt, hr', hval⟩ := orOfSelectedCases_spec hf
        (fun _ => lt_size_of_reachPlus (operandsExist_of_wellTyped hf)) (fun c hc => ReachPlus.of_mem hnd (.tail _ hc))
        hcty .refl hf (by simp) hr
      -- under a typed environment the OR has the select's value
      have hsel : ∀ env : Env, env.Typed → ∀ v, f.Eval env node v → OrValue g env w r v := by
        intro env henv v hv
        obtain ⟨sb, cvs, hs, hcs, hsem⟩ := oneHotSel_operands (.inl rfl) hf hnd henv hv
        rw [hq.knownValueAsBits henv hs hbs] at hsem
        have hohs : oneHotSelectValue (zeroOfType (.bits w)) bs cvs = v := Option.some.inj hsem
        have := hval env henv cvs hcs _ rfl
        rwa [List.drop_zero, Value.zero_or (oneHotSelectValue_hasType (zeroOfType_hasType _) _ fun v hv => ?_),
          hohs] at this
        obtain ⟨c', hc', hcv'⟩ := forall₂_exists_of_mem_right hcs hv
        exact hcty c' hc' ▸ hasType_of_eval hf henv hcv'
      dsimp only at h
      split at h
      · rename_i x
        have hx := map_some_eq_ok.1 h
        refine ⟨rewrites_of_extends hext (hr' x rfl).1 (fun env henv v hv => hsel env henv v hv) hx, ?_⟩
        exact hgt.replaceUsesWith ((hr' x rfl).1.elim (·.2) fun h' =>
          lt_of_lt_of_le (lt_size_of_reachPlus (operandsExist_of_wellTyped hf) h') hext.size_le) hx
      · have hx := map_some_eq_ok.1 h
        refine ⟨rewrites_of_extends (hext.makeNode (by simp)) (.inl (fresh_makeNode_self hext.size_le))
          (fun env henv v hv => eval_makeNode_self .nil ?_) hx,
          (hgt.makeNode (by simp) (by simp [Op.verify, Op.resultType, Value.ty])).replaceUsesWith (by simp) hx⟩
        have : v = zeroOfType (.bits w) := hsel env henv v hv
        simp [Op.sem, this]
    · cases h
  · cases h

end SelectSimplification

end Xls
