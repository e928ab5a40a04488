import Xls.SelectSimplification.OneHot

/-!
# Squeezing a select

When the ternary vector of a bits-typed `Select` knows some of its leading or
trailing bits, `SimplifyNode` (splits enabled) narrows the select to the
unknown run in the middle: each case and the default is sliced to that run,
and the known bits are put back by a `Concat` around the narrow select,
`Sel(...) => Concat(Known, Sel(...), Known)`.

`is_squeezable_mux` reads the known bits off the vector with `Bits::Slice`,
whose range check holds when the vector has the select's width, as the answer
of a sound engine does; the model's slices are total.

* `countOnes_of_cover` (in `Xls.Bits`): a leading and a trailing run of known
  bits that overlap cover the whole vector, so the two runs fit side by side
  unless every bit is known, which `is_squeezable_mux` reports as all leading;
* `squeezableMux_spec`: the constant bits found are `l` leading and `t`
  trailing ones (`l = w` and none trailing when every bit is known), fit in the
  select, and are the ends of every value the vector holds;
* `squeezeSelect_spec`: the replacement has the select's type, and its value
  wherever the select's value has those ends;
* `squeezeMux_rewrites`: the whole rule.
-/

namespace Xls

namespace ternaryOps

/-- Where a bit is known, its known value is the bit of every vector the
    ternary vector holds. -/
theorem getElem?_toKnownBitsValues {t : TernaryVector} {b : Bits} (h : t.Contains b) {j : Nat}
    (hk : (toKnownBits t)[j]? = some true) : (toKnownBitsValues t)[j]? = b[j]? := by
  simp only [toKnownBits, List.getElem?_map] at hk
  obtain ⟨x, hx, hxk⟩ := Option.map_eq_some'.1 hk
  obtain ⟨y, hy, hxy⟩ := forall₂_getElem?_left h hx
  simp only [toKnownBitsValues, List.getElem?_map, hx, hy, Option.map_some']
  cases x <;> simp_all [TernaryValue.Contains]

end ternaryOps

namespace SelectSimplification

open FunctionBase

/-- `is_squeezable_mux`: the known leading bits (`msb`) and known trailing bits
    (`lsb`) of a bits-typed `Select`, when it has any; a select whose bits are
    all known has them all as leading bits and no trailing ones. -/
def squeezableMux (q : QueryEngine) (f : FunctionBase) (node : Nat) : Option (Bits × Bits) :=
  match f.node node with
  | some ⟨.select _, _, .bits bitCount⟩ =>
    let leadingKnown := countLeadingOnes (ternaryOps.toKnownBits (q.ternary node))
    let trailingKnown := countTrailingOnes (ternaryOps.toKnownBits (q.ternary node))
    if leadingKnown = 0 ∧ trailingKnown = 0 then none
    else
      let msb := BitsOps.slice (ternaryOps.toKnownBitsValues (q.ternary node)) (bitCount - leadingKnown) leadingKnown
      if leadingKnown = trailingKnown ∧ leadingKnown = bitCount then some (msb, [])
      else some (msb, BitsOps.slice (ternaryOps.toKnownBitsValues (q.ternary node)) 0 trailingKnown)
  | _ => none

/-- `SqueezeSelect` of a `Select`: each operand after the selector sliced to
    the bits between the constant ones, a literal of each constant part, the
    select over the slices (the default's slice as its default), and the
    select replaced by `concat(msb_literal, new_select, lsb_literal)`. -/
def squeezeSelect (f : FunctionBase) (constMsb constLsb : Bits) (node : Nat) : Except String (Option FunctionBase) :=
  match f.node node with
  | some ⟨.select d, s :: cases, ty⟩ =>
    let newWidth := ty.bitCount - constMsb.length - constLsb.length
    let (f, newCases) := makeNodes (.bitSlice constLsb.length newWidth) f cases
    let (f, msbLiteral) := f.makeNode (.literal (.bits constMsb)) []
    let (f, lsbLiteral) := f.makeNode (.literal (.bits constLsb)) []
    let (f, newSelect) := f.makeNode (.select d) (s :: newCases)
    some <$> f.replaceUsesWithNew node .concat [msbLiteral, newSelect, lsbLiteral]
  | _ => pure none

/-- The squeezing rule of `SimplifyNode` (splits enabled). -/
def squeezeMux (q : QueryEngine) (f : FunctionBase) (splitsEnabled : Bool) (node : Nat) :
    Except String (Option FunctionBase) :=
  if splitsEnabled then
    match squeezableMux q f node with
    | some (constMsb, constLsb) => squeezeSelect f constMsb constLsb node
    | none => pure none
  else pure none

variable {q : QueryEngine} {f : FunctionBase} {node s : Nat} {d : Bool} {cases : List Nat} {w : Nat}

/-! ## The constant bits -/

/-- What `is_squeezable_mux` finds, when the vector has the select's width `w`:
    the `l` leading known bits, and the `t` trailing ones unless all `w` are
    known; they fit in the select, and they are the ends of every vector the
    ternary vector holds. -/
theorem squeezableMux_spec (hnd : f.node node = some ⟨.select d, s :: cases, .bits w⟩)
    (hlen : (q.ternary node).length = w) {msb lsb : Bits} (h : squeezableMux q f node = some (msb, lsb)) :
    msb.length = countLeadingOnes (ternaryOps.toKnownBits (q.ternary node)) ∧
      (lsb.length = countTrailingOnes (ternaryOps.toKnownBits (q.ternary node)) ∨ msb.length = w ∧ lsb = []) ∧
      msb.length + lsb.length ≤ w ∧
      ∀ b, (q.ternary node).Contains b →
        msb = BitsOps.slice b (w - msb.length) msb.length ∧ lsb = BitsOps.slice b 0 lsb.length := by
  simp only [squeezableMux, hnd] at h
  have hK : (ternaryOps.toKnownBits (q.ternary node)).length = w := by simp [ternaryOps.toKnownBits, hlen]
  have hV : (ternaryOps.toKnownBitsValues (q.ternary node)).length = w := by
    simp [ternaryOps.toKnownBitsValues, hlen]
  -- the known runs read the same off every vector the ternary vector holds
  have hmsb : ∀ b, (q.ternary node).Contains b → ∀ j, w - countLeadingOnes (ternaryOps.toKnownBits (q.ternary node)) ≤ j →
      j < w → (ternaryOps.toKnownBitsValues (q.ternary node))[j]? = b[j]? := fun b hb j h₁ h₂ =>
    ternaryOps.getElem?_toKnownBitsValues hb (by
      simpa [hK, show w - 1 - (w - 1 - j) = j by omega] using
        getElem?_of_lt_countLeadingOnes (b := ternaryOps.toKnownBits (q.ternary node)) (i := w - 1 - j) (by omega))
  have hlsb : ∀ b, (q.ternary node).Contains b → ∀ j, j < countTrailingOnes (ternaryOps.toKnownBits (q.ternary node)) →
      (ternaryOps.toKnownBitsValues (q.ternary node))[j]? = b[j]? := fun b hb j hj =>
    ternaryOps.getElem?_toKnownBitsValues hb (getElem?_of_lt_countTrailingOnes hj)
  have hl := hK ▸ countLeadingOnes_le (ternaryOps.toKnownBits (q.ternary node))
  have ht := hK ▸ countTrailingOnes_le (ternaryOps.toKnownBits (q.ternary node))
  have hcov := hK ▸ countOnes_of_cover (b := ternaryOps.toKnownBits (q.ternary node))
  generalize countLeadingOnes (ternaryOps.toKnownBits (q.ternary node)) = l at *
  generalize countTrailingOnes (ternaryOps.toKnownBits (q.ternary node)) = t at *
  generalize ternaryOps.toKnownBitsValues (q.ternary node) = V at *
  have hlenMsb : (BitsOps.slice V (w - l) l).length = l := BitsOps.length_slice (by omega)
  have hmsb' : ∀ b, (q.ternary node).Contains b → BitsOps.slice V (w - l) l = BitsOps.slice b (w - l) l :=
    fun b hb => BitsOps.slice_congr fun j h₁ h₂ => hmsb b hb j h₁ (by omega)
  split_ifs at h with h₀ hall <;> simp only [Option.some.injEq, Prod.mk.injEq] at h <;> obtain ⟨rfl, rfl⟩ := h
  · -- every bit known: all of them leading
    exact ⟨hlenMsb, .inr ⟨hlenMsb.trans hall.2, rfl⟩, by simp [hlenMsb]; omega,
      fun b hb => ⟨by rw [hlenMsb]; exact hmsb' b hb, rfl⟩⟩
  · -- otherwise the two runs do not overlap
    have hcover : l + t ≤ w := by
      by_contra hc
      exact hall ((hcov (by omega)).elim fun h₁ h₂ => ⟨by omega, by omega⟩)
    have hlenLsb : (BitsOps.slice V 0 t).length = t := BitsOps.length_slice (by omega)
    exact ⟨hlenMsb, .inl hlenLsb, by omega, fun b hb => ⟨by rw [hlenMsb]; exact hmsb' b hb,
      by rw [hlenLsb]; exact BitsOps.slice_congr fun j _ h₂ => hlsb b hb j (by omega)⟩⟩

/-! ## The replacement -/

section SqueezeSelect

variable {msb lsb : Bits} (hf : f.WellTyped) (hnd : f.node node = some ⟨.select d, s :: cases, .bits w⟩)
  (hbound : msb.length + lsb.length ≤ w)
include hf hnd hbound

/-- `SqueezeSelect` with constant parts that fit in the select succeeds and
    keeps the function well typed. The concatenation it builds has the
    select's type, and its value wherever `msb` and `lsb` are the ends of the
    select's value (the narrow select picks the middle of the case the select
    picks); where they always are, it is a rewrite. -/
theorem squeezeSelect_spec {P : Env → Value → Prop}
    (hP : ∀ env : Env, env.Typed → ∀ b, f.Eval env node (.bits b) → P env (.bits b) →
      msb = BitsOps.slice b (w - msb.length) msb.length ∧ lsb = BitsOps.slice b 0 lsb.length) :
    ∃ f', squeezeSelect f msb lsb node = .ok (some f') ∧ f'.WellTyped ∧
      (∃ g r, f' = g.rewire node r ∧ Extends f (f.ReachPlus node) g ∧ Fresh f g r ∧ g.tyOf r = .bits w ∧
        ∀ env : Env, env.Typed → ∀ v, f.Eval env node v → P env v → g.Eval env r v) ∧
      ((∀ env : Env, env.Typed → ∀ v, f.Eval env node v → P env v) → Rewrites f node f') := by
  have hoe := operandsExist_of_wellTyped hf
  have hlt := hoe _ _ hnd
  obtain ⟨sw, hsw, hty, -, -⟩ := verify_select hf hnd
  -- the middle slices of the cases and the default
  generalize hmk : makeNodes (.bitSlice lsb.length (w - msb.length - lsb.length)) f cases = r
  obtain ⟨g₁, newCases⟩ := r
  obtain ⟨hext, hxs⟩ := makeNodes_spec (S := f.ReachPlus node)
    (fun c hc => ⟨ReachPlus.of_mem hnd (.tail _ hc), hlt c (.tail _ hc)⟩) hmk
  have hle := hext.size_le
  have hb₁ : Builds f node g₁ := ⟨hext, wellTyped_makeNodes hf (fun c hc => ⟨hlt c (.tail _ hc), by
    simp [hty c hc, Op.verify, Op.resultType]; omega⟩) hmk⟩
  have hfresh : ∀ x ∈ newCases, Fresh f g₁ x := fun x hx => (forall₂_exists_of_mem_right hxs hx).choose_spec.2.1
  have hcs : newCases.map g₁.tyOf = List.replicate cases.length (.bits (w - msb.length - lsb.length)) :=
    (map_eq_of_forall₂ (F := fun _ : Nat => Ty.bits (w - msb.length - lsb.length))
      (hxs.imp fun _ _ ⟨_, hx⟩ => by rw [tyOf_of_node hx]; rfl)).trans (List.map_const' _ _)
  -- the two literals
  have hb₂ : Builds f node (g₁.makeNode (.literal (.bits msb)) []).1 :=
    hb₁.makeNode hoe (by simp) (by simp [Op.verify, Op.resultType, Value.ty])
  set g₂ := (g₁.makeNode (.literal (.bits msb)) []).1 with hg₂
  have hb₃ : Builds f node (g₂.makeNode (.literal (.bits lsb)) []).1 :=
    hb₂.makeNode hoe (by simp) (by simp [Op.verify, Op.resultType, Value.ty])
  set g₃ := (g₂.makeNode (.literal (.bits lsb)) []).1 with hg₃
  have hsz₂ : g₂.size = g₁.size + 1 := size_makeNode
  have hsz₃ : g₃.size = g₁.size + 2 := by rw [hg₃, size_makeNode, hsz₂]
  -- the narrow select, of the middle's width
  have hty₃ : ∀ x < g₁.size, g₃.tyOf x = g₁.tyOf x := fun x hx => by
    rw [hg₃, tyOf_makeNode_of_lt (show x < g₂.size by omega), hg₂, tyOf_makeNode_of_lt hx]
  have hmap : (s :: newCases).map g₃.tyOf = .bits sw :: List.replicate cases.length (.bits (w - msb.length - lsb.length)) := by
    rw [List.map_cons, hty₃ s (lt_of_lt_of_le (hlt s (.head _)) hext.size_le), hext.tyOf_of_lt (hlt s (.head _)), hsw,
      List.map_congr_left fun x hx => hty₃ x (hfresh x hx).2, hcs]
  have hver := Op.verify_select_replicate (b := .bits (w - msb.length - lsb.length))
    (rfl : (Op.select d).isSelect = true) (by
    simpa [(List.map_congr_left hty).trans (List.map_const' _ _), hsw] using
      (verifyNode_iff.1 (verifyNode_of_wellTyped hf hnd)).2.1)
  have hb₄ : Builds f node (g₃.makeNode (.select d) (s :: newCases)).1 := hb₃.makeNode hoe
    (List.forall_mem_cons.2 ⟨.inr (ReachPlus.of_mem hnd (.head _)), fun x hx => .inl (hfresh x hx).makeNode.makeNode⟩)
    (by rw [hmap, hver.2]; exact hver.1)
  set g₄ := (g₃.makeNode (.select d) (s :: newCases)).1 with hg₄
  have htys : [g₁.size, g₃.size, g₂.size].map g₄.tyOf =
      [.bits msb.length, .bits (w - msb.length - lsb.length), .bits lsb.length] := by
    simp only [List.map_cons, List.map_nil]
    rw [hg₄, tyOf_makeNode_self, hmap, hver.2, tyOf_makeNode_of_lt (show g₁.size < g₃.size by omega),
      tyOf_makeNode_of_lt (show g₂.size < g₃.size by omega), hg₃, tyOf_makeNode_self,
      tyOf_makeNode_of_lt (show g₁.size < g₂.size by omega), hg₂, tyOf_makeNode_self]
    rfl
  -- the concatenation of the literals around the narrow select
  obtain ⟨f', h, hwt, ⟨g, r, hf', hext', hfr, htyr, hev⟩, hrw⟩ := hb₄.replaces .concat [g₁.size, g₃.size, g₂.size] hoe
      (lt_size_of_node hnd)
      (by
        simp only [List.mem_cons, List.mem_singleton, List.not_mem_nil, or_false]
        rintro o (rfl | rfl | rfl) <;> exact .inl (by simp only [Fresh, hg₄, size_makeNode]; omega))
      (by rw [htys]; simp [Op.verify, Op.resultType, Ty.isBits])
      (by rw [htys, tyOf_of_node hnd]; simp [Op.resultType]; omega)
      (P := P) fun env henv v hv hPv => by
    obtain ⟨sv, cvs, hs, hcvs, hsem⟩ := exists_operands hnd hv
    obtain ⟨b, rfl, hbw⟩ := Value.hasType_bits_iff.1 (by simpa [tyOf_of_node hnd] using hasType_of_eval hf henv hv)
    obtain ⟨hm, hl⟩ := hP env henv b hv hPv
    -- the narrow select picks the middle of the case the select picks
    have hnew := eval_makeNodes hext
      (F := fun cv => .bits (BitsOps.slice cv.toBits lsb.length (w - msb.length - lsb.length))) hxs
      (hcvs.imp fun _ _ h => ⟨h, rfl⟩)
    have hmid : g₄.Eval env g₃.size (.bits (BitsOps.slice b lsb.length (w - msb.length - lsb.length))) :=
      eval_makeNode_self (.cons (eval_makeNode (eval_makeNode (hext.eval hs)))
        (hnew.imp fun _ _ h => eval_makeNode (eval_makeNode h))) (by
          rw [Op.sem_select] at hsem ⊢
          rw [selectCases_map, selectDefault_map, selectValue_map, hsem]
          rfl)
    -- and the constant ends put back make up the select's value
    have hval : lsb ++ BitsOps.slice b lsb.length (w - msb.length - lsb.length) ++ msb = b :=
      calc lsb ++ BitsOps.slice b lsb.length (w - msb.length - lsb.length) ++ msb
          = BitsOps.slice b 0 lsb.length ++ BitsOps.slice b lsb.length (b.length - msb.length - lsb.length) ++
              BitsOps.slice b (b.length - msb.length) msb.length := by rw [hbw, ← hm, ← hl]
        _ = b := BitsOps.slice_three_eq_self (by omega)
    refine ⟨_, .cons (eval_makeNode (eval_makeNode (eval_makeNode_self .nil rfl))) (.cons hmid
      (.cons (eval_makeNode (eval_makeNode_self .nil rfl)) .nil)), ?_⟩
    simp [Op.sem, BitsOps.concat, hval]
  refine ⟨f', ?_, hwt, ⟨g, r, hf', hext', hfr, htyr.trans (tyOf_of_node hnd), hev⟩, hrw⟩
  simp only [hg₄, hg₃, hg₂, size_makeNode] at h
  simp [squeezeSelect, hnd, hmk, h]

end SqueezeSelect

/-! ## The rule -/

/-- A select that `is_squeezable_mux` finds has a selector, in a well-typed
    function. -/
theorem squeezableMux_node (hf : f.WellTyped) {p : Bits × Bits} (h : squeezableMux q f node = some p) :
    ∃ d s cases w, f.node node = some ⟨.select d, s :: cases, .bits w⟩ := by
  unfold squeezableMux at h
  split at h
  · rename_i d ops w hnd
    cases ops with
    | nil => simpa [Op.verify] using (verifyNode_iff.1 (verifyNode_of_wellTyped hf hnd)).2.1
    | cons s cases => exact ⟨d, s, cases, w, hnd⟩
  · cases h

/-- Whenever the squeezing rule fires on a function whose engine answers
    soundly, with ternary vectors as wide as their nodes, it is a rewrite of
    the node that keeps the function well typed. -/
theorem squeezeMux_rewrites_of_sound (hf : f.WellTyped) (hq : q.SoundFor f)
    (hw : ∀ n w, f.tyOf n = .bits w → (q.ternary n).length = w) {splitsEnabled : Bool} {f' : FunctionBase}
    (h : squeezeMux q f splitsEnabled node = .ok (some f')) : Rewrites f node f' ∧ f'.WellTyped := by
  unfold squeezeMux at h
  split at h
  · split at h
    · rename_i msb lsb hsq
      obtain ⟨d, s, cases, w, hnd⟩ := squeezableMux_node hf hsq
      obtain ⟨-, -, hbound, hends⟩ := squeezableMux_spec hnd (hw node w (tyOf_of_node hnd)) hsq
      obtain ⟨f'', h'', hwt, -, hrw⟩ := squeezeSelect_spec hf hnd hbound
        (P := fun _ v => (q.ternary node).Contains v.toBits) fun _ _ b _ hb => hends b hb
      cases h.symm.trans h''
      refine ⟨hrw fun env henv v hv => ?_, hwt⟩
      obtain ⟨b, rfl, -⟩ := Value.hasType_bits_iff.1 (by simpa [tyOf_of_node hnd] using hasType_of_eval hf henv hv)
      exact hq.ternary env henv node b hv
    · cases h
  · cases h

end SelectSimplification

end Xls
