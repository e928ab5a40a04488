import Xls.SelectSimplification.EquivalentCases
import Mathlib.Data.List.DropRight

/-!
# Dead cases

The rule of `SimplifyNode` (narrowing enabled) that drops from a one-hot or
priority select, whose selector the engine tracks, the cases that cannot reach
its value. A scan of the cases with the selector's ternary vector
(`is_removable_case`) drops, from a one-hot select, a case whose selector bit
is known zero or whose value is known all zeros; from a priority select, a case
whose bit is known zero and every case after a known one. A priority select
then drops its trailing cases known all zeros. Splits disabled, the cases kept
are instead the whole run from the first case kept to the last. The select is
rebuilt over the cases kept, selected by their selector bits (`GatherBits`), or
replaced by zero when no case is kept.

* `oneHotSelectValue_gather`, `prioritySelectValue_gather`: a select over the
  cases at a sublist of its indices is the select over all of them, when each
  case left out is not selected or is zero (one-hot), or when the case of the
  least significant set bit is kept, or is zero and past every case kept
  (priority);
* `scanCases_spec`, `keptCases_spec`: the indices kept, in order, and why each
  index left out can be;
* `removeDeadCases_rewrites`: the rule is a rewrite of the select that keeps
  the function well typed.
-/

namespace Xls

namespace SelectSimplification

open FunctionBase

section Definitions

variable (q : QueryEngine)

/-- `GatherFromSequence`, from its contract (node_util is not in the
    sources): the elements at `indices`, in their order. -/
def gatherFromSequence {α : Type} (xs : List α) (indices : List Nat) : List α :=
  indices.filterMap (xs[·]?)

/-- `is_removable_case(c)` on case `c`, the node `caseNode`, with
    `all_later_cases_removable` as the scan has it: whether the case can be
    removed, and the flag after. -/
def isRemovableCase (isPriority : Bool) (selectorBits : TernaryVector) (allLaterCasesRemovable : Bool)
    (c caseNode : Nat) : Bool × Bool :=
  if allLaterCasesRemovable then (true, true)
  else if isPriority && selectorBits[c]? == some .knownOne then (false, true)
  else if selectorBits[c]? == some .knownZero then (true, false)
  else (!isPriority && q.isAllZeros caseNode, false)

/-- The scan over the cases from case `i`: `has_removable_case` and
    `nonremovable_indices`. -/
def scanCases (isPriority : Bool) (selectorBits : TernaryVector) :
    Bool → Bool → List Nat → Nat → List Nat → Bool × List Nat
  | _, hasRemovableCase, nonremovableIndices, _, [] => (hasRemovableCase, nonremovableIndices)
  | allLater, hasRemovableCase, nonremovableIndices, i, c :: cases =>
    let (removable, allLater) := isRemovableCase q isPriority selectorBits allLater i c
    if removable then scanCases isPriority selectorBits allLater true nonremovableIndices (i + 1) cases
    else scanCases isPriority selectorBits allLater hasRemovableCase (nonremovableIndices ++ [i]) (i + 1) cases

/-- `has_removable_case` and `nonremovable_indices` as the select is rebuilt:
    after the scan, the trailing cases known all zeros of a priority select
    popped, and, splits disabled, the indices from the first kept to the last. -/
def keptCases (isPriority splitsEnabled : Bool) (selectorBits : TernaryVector) (cases : List Nat) :
    Bool × List Nat :=
  let (hasRemovableCase, nonremovableIndices) := scanCases q isPriority selectorBits false false [] 0 cases
  let nonremovableIndices :=
    if isPriority then nonremovableIndices.rdropWhile fun i => cases[i]?.any q.isAllZeros
    else nonremovableIndices
  if !splitsEnabled && !nonremovableIndices.isEmpty && hasRemovableCase then
    let first := nonremovableIndices.headD 0
    let last := nonremovableIndices.getLastD 0
    let nonremovableIndices := List.range' first (last + 1 - first)
    (if nonremovableIndices.length = cases.length then false else hasRemovableCase, nonremovableIndices)
  else (hasRemovableCase, nonremovableIndices)

variable (f : FunctionBase)

/-- A one-bit `BitSlice` of `selector` at each of `indices`, appended to
    `slices`. -/
def bitSlices (selector : Nat) : FunctionBase → List Nat → List Nat → FunctionBase × List Nat
  | f, slices, [] => (f, slices)
  | f, slices, i :: indices =>
    let (f, slice) := f.makeNode (.bitSlice i 1) [selector]
    bitSlices selector f (slices ++ [slice]) indices

/-- `GatherBits(selector, indices)`, from its contract (node_util is not in
    the sources): a node of the bits of `selector` at `indices`, the first
    least significant; here the `Concat`, most significant first, of their
    one-bit slices. -/
def gatherBits (selector : Nat) (indices : List Nat) : FunctionBase × Nat :=
  let (f, slices) := bitSlices selector f [] indices
  f.makeNode .concat slices.reverse

/-- The dead-case rule of `SimplifyNode` (narrowing enabled), on a one-hot or
    priority select whose selector the engine tracks. -/
def removeDeadCases (narrowingEnabled splitsEnabled : Bool) (node : Nat) : Except String (Option FunctionBase) :=
  match f.node node with
  | some ⟨op, selector :: cases, ty⟩ =>
    if narrowingEnabled && (op == .oneHotSel || op == .prioritySel) && q.isTracked selector then
      match keptCases q (op == .prioritySel) splitsEnabled (q.ternary selector) cases with
      | (false, _) => pure none
      | (true, []) => some <$> f.replaceUsesWithNew node (.literal (zeroOfType ty)) []
      | (true, nonremovableIndices) =>
        let (f, newSelector) := gatherBits f selector nonremovableIndices
        some <$> f.replaceUsesWithNew node op (newSelector :: gatherFromSequence cases nonremovableIndices)
    else pure none
  | _ => pure none

end Definitions

/-! ## The cases kept -/

section Lists

theorem range'_sublist {a b n : Nat} (h : a + b ≤ n) : List.Sublist (List.range' a b) (List.range' 0 n) := by
  have h₁ := List.range'_append 0 a (n - a) 1
  have h₂ := List.range'_append a b (n - a - b) 1
  simp only [Nat.one_mul, Nat.zero_add] at h₁ h₂
  rw [show n = n - a + a by omega, ← h₁, show n - a = n - a - b + b by omega, ← h₂]
  exact (List.sublist_append_left _ _).trans (List.sublist_append_right _ _)

/-- Popping the back while it satisfies `p` leaves a prefix, the rest all
    satisfying `p`. -/
theorem rdropWhile_append_rtakeWhile {α : Type} (p : α → Bool) (l : List α) :
    l = l.rdropWhile p ++ l.rtakeWhile p := by
  rw [List.rdropWhile, List.rtakeWhile, ← List.reverse_append, List.takeWhile_append_dropWhile,
    List.reverse_reverse]

theorem headD_le_of_mem {l : List Nat} (hl : l.Pairwise (· < ·)) {x : Nat} (hx : x ∈ l) : l.headD 0 ≤ x := by
  cases l with
  | nil => cases hx
  | cons a l =>
    rcases List.mem_cons.1 hx with rfl | hx
    · exact le_rfl
    · exact (List.rel_of_pairwise_cons hl hx).le

theorem le_getLastD_of_mem {l : List Nat} (hl : l.Pairwise (· < ·)) {x : Nat} (hx : x ∈ l) : x ≤ l.getLastD 0 := by
  have hne : l ≠ [] := List.ne_nil_of_mem hx
  rw [List.getLastD_eq_getLast?, List.getLast?_eq_getLast _ hne, Option.getD_some]
  rw [← List.dropLast_append_getLast hne] at hx hl
  rcases List.mem_append.1 hx with hx | hx
  · exact ((List.pairwise_append.1 hl).2.2 x hx _ (.head _)).le
  · rw [List.mem_singleton.1 hx]

end Lists

section Scan

variable (q : QueryEngine) (isPriority : Bool) (bits : TernaryVector)

/-- A case found removable, the flag clear before: its bit is known zero, or
    it is a one-hot select's case known all zeros; the flag stays clear. -/
theorem isRemovableCase_fst {c node : Nat} (h : (isRemovableCase q isPriority bits false c node).1 = true) :
    (isRemovableCase q isPriority bits false c node).2 = false ∧
      (bits[c]? = some .knownZero ∨ isPriority = false ∧ q.isAllZeros node = true) := by
  unfold isRemovableCase at h ⊢
  split_ifs at h ⊢ <;> simp_all

/-- The flag set by a case, clear before: a priority select's bit known one. -/
theorem isRemovableCase_snd {c node : Nat} (h : (isRemovableCase q isPriority bits false c node).2 = true) :
    isPriority = true ∧ bits[c]? = some .knownOne := by
  unfold isRemovableCase at h
  split_ifs at h <;> simp_all

/-- The scan from case `i` appends to the indices kept a sublist of the
    cases' indices; the flag clear, each index it leaves out has its bit known
    zero, or is a one-hot select's case known all zeros, or follows a bit
    known one of a priority select. -/
theorem scanCases_spec : ∀ (cases : List Nat) (allLater has : Bool) (acc : List Nat) (i : Nat),
    ∃ K, (scanCases q isPriority bits allLater has acc i cases).2 = acc ++ K ∧
      List.Sublist K (List.range' i cases.length) ∧
      (allLater = false → ∀ j c, cases[j]? = some c → i + j ∉ K →
        bits[i + j]? = some .knownZero ∨ isPriority = false ∧ q.isAllZeros c = true ∨
          isPriority = true ∧ ∃ k < j, bits[i + k]? = some .knownOne)
  | [], _, _, acc, _ => ⟨[], by simp [scanCases], .slnil, fun _ _ _ h => by simp at h⟩
  | c :: cases, allLater, has, acc, i => by
    rcases hr : isRemovableCase q isPriority bits allLater i c with ⟨removable, flag⟩
    cases removable with
    | true =>
      obtain ⟨K, hK, hsub, hdrop⟩ := scanCases_spec cases flag true acc (i + 1)
      refine ⟨K, by simpa [scanCases, hr] using hK, by simpa [List.range'_succ] using hsub.cons i, ?_⟩
      rintro rfl (_ | j) c' hc' hj
      · obtain ⟨-, h⟩ := isRemovableCase_fst q isPriority bits (by rw [hr])
        simp only [List.getElem?_cons_zero, Option.some.injEq] at hc'
        subst hc'
        rcases h with h | h
        · exact .inl h
        · exact .inr (.inl h)
      · have hflag := (isRemovableCase_fst q isPriority bits (by rw [hr])).1
        rw [hr] at hflag
        rcases hdrop hflag j c' (by simpa using hc') (by rwa [Nat.add_right_comm]) with h | h | ⟨hp, k, hk, h⟩
        · exact .inl (by rwa [Nat.add_right_comm] at h)
        · exact .inr (.inl h)
        · exact .inr (.inr ⟨hp, k + 1, by omega, by rwa [Nat.add_right_comm, Nat.add_assoc] at h⟩)
    | false =>
      obtain ⟨K, hK, hsub, hdrop⟩ := scanCases_spec cases flag has (acc ++ [i]) (i + 1)
      refine ⟨i :: K, by simpa [scanCases, hr] using hK, by simpa [List.range'_succ] using hsub.cons₂ i, ?_⟩
      rintro rfl (_ | j) c' hc' hj
      · exact absurd (.head _) hj
      · cases flag with
        | true =>
          obtain ⟨hp, h⟩ := isRemovableCase_snd q isPriority bits (by rw [hr])
          exact .inr (.inr ⟨hp, 0, by omega, h⟩)
        | false =>
          rcases hdrop rfl j c' (by simpa using hc')
              (fun h => hj (.tail _ (by rwa [Nat.add_right_comm] at h))) with h | h | ⟨hp, k, hk, h⟩
          · exact .inl (by rwa [Nat.add_right_comm] at h)
          · exact .inr (.inl h)
          · exact .inr (.inr ⟨hp, k + 1, by omega, by rwa [Nat.add_right_comm, Nat.add_assoc] at h⟩)

/-- The indices the select is rebuilt over: a sublist of the cases' indices;
    for a one-hot select, each index left out has its bit known zero or its
    case known all zeros; for a priority select, a case whose bit is not known
    zero and follows no bit known one is kept, or is known all zeros and
    follows every case kept. -/
theorem keptCases_spec (splitsEnabled : Bool) (cases : List Nat) :
    List.Sublist (keptCases q isPriority splitsEnabled bits cases).2 (List.range' 0 cases.length) ∧
      (isPriority = false → ∀ j c, cases[j]? = some c → j ∉ (keptCases q isPriority splitsEnabled bits cases).2 →
        bits[j]? = some .knownZero ∨ q.isAllZeros c = true) ∧
      (isPriority = true → ∀ j c, cases[j]? = some c → bits[j]? ≠ some .knownZero →
        (∀ k < j, bits[k]? ≠ some .knownOne) →
        j ∈ (keptCases q isPriority splitsEnabled bits cases).2 ∨
          q.isAllZeros c = true ∧ ∀ k ∈ (keptCases q isPriority splitsEnabled bits cases).2, k < j) := by
  -- the indices the scan keeps, in increasing order
  obtain ⟨N, hN, hsub, hdrop⟩ := scanCases_spec q isPriority bits cases false false [] 0
  generalize hsc : scanCases q isPriority bits false false [] 0 cases = sc at hN
  obtain ⟨has, N₀⟩ := sc
  simp only [List.nil_append] at hN
  subst hN
  have hsort : N₀.Pairwise (· < ·) := List.Pairwise.sublist hsub (List.pairwise_lt_range' 0 _)
  -- a priority select's trailing cases known all zeros popped
  obtain ⟨T, hNT, hT⟩ : ∃ T, N₀ = (if isPriority then N₀.rdropWhile fun i => cases[i]?.any q.isAllZeros else N₀) ++ T ∧
      ∀ x ∈ T, isPriority = true ∧ cases[x]?.any q.isAllZeros = true := by
    split
    · exact ⟨_, rdropWhile_append_rtakeWhile _ N₀, fun x hx => ⟨‹_›, List.mem_rtakeWhile_imp (p := fun i => cases[i]?.any q.isAllZeros) hx⟩⟩
    · exact ⟨[], by simp, by simp⟩
  unfold keptCases
  rw [hsc]
  dsimp only
  generalize (if isPriority then N₀.rdropWhile fun i => cases[i]?.any q.isAllZeros else N₀) = N at hNT ⊢
  subst hNT
  have hsortN : N.Pairwise (· < ·) := (List.pairwise_append.1 hsort).1
  have hbefore : ∀ x ∈ T, ∀ k ∈ N, k < x := fun x hx k hk => (List.pairwise_append.1 hsort).2.2 k hk x hx
  suffices hfin : ∀ K, (K = N ∨ N ≠ [] ∧ K = List.range' (N.headD 0) (N.getLastD 0 + 1 - N.headD 0)) →
      List.Sublist K (List.range' 0 cases.length) ∧
        (isPriority = false → ∀ j c, cases[j]? = some c → j ∉ K → bits[j]? = some .knownZero ∨ q.isAllZeros c = true) ∧
        (isPriority = true → ∀ j c, cases[j]? = some c → bits[j]? ≠ some .knownZero →
          (∀ k < j, bits[k]? ≠ some .knownOne) → j ∈ K ∨ q.isAllZeros c = true ∧ ∀ k ∈ K, k < j) by
    split
    · rename_i hc
      exact hfin _ (.inr ⟨by simp at hc; exact hc.1.2, rfl⟩)
    · exact hfin _ (.inl rfl)
  -- the cases kept: a sublist of the indices, holding those of the scan, and before the popped ones
  intro K hKdef
  obtain ⟨hsubK, hNK, hTK⟩ : List.Sublist K (List.range' 0 cases.length) ∧ N ⊆ K ∧ ∀ x ∈ T, ∀ k ∈ K, k < x := by
    rcases hKdef with rfl | ⟨hne, rfl⟩
    · exact ⟨(List.sublist_append_left _ _).trans hsub, fun _ => id, hbefore⟩
    · have hlast : N.getLastD 0 ∈ N := by
        rw [List.getLastD_eq_getLast?, List.getLast?_eq_getLast _ hne]
        exact List.getLast_mem hne
      have hlt := List.mem_range'_1.1 (hsub.subset (List.mem_append_left T hlast))
      have hfl := headD_le_of_mem hsortN hlast
      refine ⟨range'_sublist (by omega), fun y hy => List.mem_range'_1.2 ⟨headD_le_of_mem hsortN hy, ?_⟩,
        fun y hy k hk => ?_⟩
      · have := le_getLastD_of_mem hsortN hy
        omega
      · have := (List.mem_range'_1.1 hk).2
        have := hbefore y hy _ hlast
        omega
  refine ⟨hsubK, fun hp j c hc hj => ?_, fun hp j c hc hz hone => ?_⟩
  · -- one-hot: what the scan leaves out is what is left out
    have hjN : j ∉ N ++ T := fun h =>
      (List.mem_append.1 h).elim (fun h => hj (hNK h)) fun h => absurd (hT j h).1 (by simp [hp])
    rcases hdrop rfl j c hc (by simpa using hjN) with h | ⟨-, h⟩ | ⟨h, -⟩
    · exact .inl (by simpa using h)
    · exact .inr h
    · simp [hp] at h
  · -- priority: the scan keeps the case, unless popped as a trailing zero
    have hjN : j ∈ N ++ T := by
      by_contra hjN
      rcases hdrop rfl j c hc (by simpa using hjN) with h | ⟨h, -⟩ | ⟨-, k, hk, h⟩
      · exact hz (by simpa using h)
      · simp [hp] at h
      · exact hone k hk (by simpa using h)
    rcases List.mem_append.1 hjN with h | h
    · exact .inl (hNK h)
    · exact .inr ⟨by simpa [hc] using (hT j h).2, hTK j h⟩

end Scan

/-! ## Selects over some of their cases -/

section Gather

variable {α β : Type}

theorem gatherFromSequence_cons_of_lt {xs : List α} {i : Nat} (h : i < xs.length) (is : List Nat) :
    gatherFromSequence xs (i :: is) = xs[i] :: gatherFromSequence xs is := by
  simp [gatherFromSequence, List.getElem?_eq_getElem h]

theorem gatherFromSequence_range' : ∀ (ys xs : List α),
    gatherFromSequence (ys ++ xs) (List.range' ys.length xs.length) = xs
  | _, [] => rfl
  | ys, x :: xs => by
    have ih := gatherFromSequence_range' (ys ++ [x]) xs
    rw [List.append_assoc, List.singleton_append, List.length_append, List.length_singleton] at ih
    rw [List.length_cons, List.range'_succ, gatherFromSequence_cons_of_lt (by simp), ih]
    simp [List.getElem_append_right]

theorem mem_of_mem_gatherFromSequence {xs : List α} {is : List Nat} {x : α} (h : x ∈ gatherFromSequence xs is) :
    x ∈ xs := by
  obtain ⟨i, -, hi⟩ := List.mem_filterMap.1 h
  exact List.getElem?_mem hi

theorem forall₂_gatherFromSequence {R : α → β → Prop} {xs : List α} {ys : List β} (h : List.Forall₂ R xs ys) :
    ∀ is : List Nat, List.Forall₂ R (gatherFromSequence xs is) (gatherFromSequence ys is)
  | [] => .nil
  | i :: is => by
    have ih := forall₂_gatherFromSequence h is
    unfold gatherFromSequence at ih ⊢
    rw [List.filterMap_cons, List.filterMap_cons]
    cases hx : xs[i]? with
    | none =>
      have hy : ys[i]? = none := by
        rw [List.getElem?_eq_none_iff, ← h.length_eq]
        exact List.getElem?_eq_none_iff.1 hx
      simpa [hy] using ih
    | some x =>
      obtain ⟨y, hy, hr⟩ := forall₂_getElem?_left h hx
      simp only [hy]
      exact .cons hr ih

theorem length_gatherFromSequence {xs : List α} : ∀ {is : List Nat}, (∀ i ∈ is, i < xs.length) →
    (gatherFromSequence xs is).length = is.length
  | [], _ => rfl
  | i :: is, h => by
    rw [gatherFromSequence_cons_of_lt (h i (.head _)), List.length_cons, List.length_cons,
      length_gatherFromSequence fun j hj => h j (.tail _ hj)]

theorem getElem?_gatherFromSequence {xs : List α} : ∀ {is : List Nat}, (∀ i ∈ is, i < xs.length) →
    ∀ p : Nat, (gatherFromSequence xs is)[p]? = is[p]?.bind (xs[·]?)
  | [], _, _ => rfl
  | i :: is, h, p => by
    rw [gatherFromSequence_cons_of_lt (h i (.head _))]
    cases p with
    | zero => simp [List.getElem?_eq_getElem (h i (.head _))]
    | succ p => simpa using getElem?_gatherFromSequence (fun j hj => h j (.tail _ hj)) p

end Gather

section Values

variable {t : Ty} {sb : Bits} {vs : List Value}

/-- A one-hot select over the cases at the indices `K`, a sublist of `L`, is
    the one over the cases at `L` when each case at `L` left out is not
    selected or is zero. -/
theorem oneHotSelectValue_gather (hvs : ∀ v ∈ vs, v.HasType t) (hlen : sb.length = vs.length) :
    ∀ {K L : List Nat}, List.Sublist K L → L.Nodup → (∀ i ∈ L, i < sb.length) →
      (∀ i ∈ L, i ∉ K → sb[i]? = some false ∨ vs[i]? = some (zeroOfType t)) →
      oneHotSelectValue (zeroOfType t) (gatherFromSequence sb K) (gatherFromSequence vs K) =
        oneHotSelectValue (zeroOfType t) (gatherFromSequence sb L) (gatherFromSequence vs L)
  | _, _, .slnil, _, _, _ => rfl
  | _, _, @List.Sublist.cons _ _ L a h, hnd, hlt, hdrop => by
    have ha : a < sb.length := hlt a (.head _)
    have hrest : (oneHotSelectValue (zeroOfType t) (gatherFromSequence sb L) (gatherFromSequence vs L)).HasType t :=
      oneHotSelectValue_hasType (zeroOfType_hasType t) _ fun v hv => hvs v (mem_of_mem_gatherFromSequence hv)
    rw [gatherFromSequence_cons_of_lt ha, gatherFromSequence_cons_of_lt (hlen ▸ ha), oneHotSelectValue,
      oneHotSelectValue_gather hvs hlen h (List.nodup_cons.1 hnd).2 (fun i hi => hlt i (.tail _ hi))
        fun i hi hK => hdrop i (.tail _ hi) hK]
    rcases hdrop a (.head _) fun hK => (List.nodup_cons.1 hnd).1 (h.subset hK) with hb | hc
    · rw [List.getElem?_eq_getElem ha, Option.some.injEq] at hb
      simp [hb]
    · rw [List.getElem?_eq_getElem (hlen ▸ ha), Option.some.injEq] at hc
      rw [hc, Value.zero_or hrest]
      simp
  | _, _, .cons₂ a h, hnd, hlt, hdrop => by
    have ha : a < sb.length := hlt a (.head _)
    rw [gatherFromSequence_cons_of_lt ha, gatherFromSequence_cons_of_lt (hlen ▸ ha),
      gatherFromSequence_cons_of_lt ha, gatherFromSequence_cons_of_lt (hlen ▸ ha), oneHotSelectValue, oneHotSelectValue,
      oneHotSelectValue_gather hvs hlen h (List.nodup_cons.1 hnd).2 (fun i hi => hlt i (.tail _ hi))
        fun i hi hK => hdrop i (.tail _ hi) fun hK' =>
          (List.mem_cons.1 hK').elim (fun hia => (List.nodup_cons.1 hnd).1 (hia ▸ hi)) hK]

/-- A priority select over the cases at the increasing indices `K` is the one
    over all the cases when the least significant set bit's case is kept, or
    is zero and past every case kept. -/
theorem prioritySelectValue_gather {z : Value} {K : List Nat} (hK : K.Pairwise (· < ·))
    (hlt : ∀ k ∈ K, k < sb.length) (hlen : sb.length = vs.length)
    (hfirst : ∀ j, Bits.firstSet sb = some j → j ∈ K ∨ vs[j]? = some z ∧ ∀ k ∈ K, k < j) :
    prioritySelectValue z (gatherFromSequence sb K) (gatherFromSequence vs K) = prioritySelectValue z sb vs := by
  have hltv : ∀ k ∈ K, k < vs.length := fun k hk => hlen ▸ hlt k hk
  -- where no kept bit is set, the select over the kept cases is zero
  have hnone : (∀ k ∈ K, sb[k]? = some false) → prioritySelectValue z (gatherFromSequence sb K)
      (gatherFromSequence vs K) = z := fun hoff => by
    rw [prioritySelectValue_eq, (Bits.firstSet_eq_none _).2 fun x hx => ?_]
    · rfl
    obtain ⟨k, hk, hx⟩ := List.mem_filterMap.1 hx
    exact Option.some.inj (hx.symm.trans (hoff k hk))
  rw [prioritySelectValue_eq z sb]
  rcases hs : Bits.firstSet sb with _ | j
  · refine hnone fun k hk => ?_
    have hz := (Bits.firstSet_eq_none sb).1 hs
    rw [List.getElem?_eq_getElem (hlt k hk), hz _ (List.getElem_mem _)]
  · obtain ⟨hj, hbelow⟩ := Bits.firstSet_eq_some.1 hs
    rcases hfirst j hs with hjK | ⟨hz, hbefore⟩
    · -- the kept case of the first set bit is the first one set among the kept
      obtain ⟨p, hp, rfl⟩ := List.getElem_of_mem hjK
      have hg : (gatherFromSequence sb K)[p]? = some true := by
        rw [getElem?_gatherFromSequence hlt, List.getElem?_eq_getElem hp]; exact hj
      have hpre : ∀ r < p, (gatherFromSequence sb K)[r]? = some false := fun r hr => by
        rw [getElem?_gatherFromSequence hlt, List.getElem?_eq_getElem (by omega)]
        exact hbelow _ (List.pairwise_iff_getElem.1 hK r p (by omega) hp hr)
      rw [prioritySelectValue_eq, Bits.firstSet_eq_some.2 ⟨hg, hpre⟩, Option.some_bind, Option.some_bind,
        getElem?_gatherFromSequence hltv, List.getElem?_eq_getElem hp, Option.some_bind]
    · rw [hnone fun k hk => hbelow k (hbefore k hk), Option.some_bind, hz]
      rfl

end Values

/-! ## The rule -/

section Build

variable {f : FunctionBase} {node s w : Nat} (hf : f.WellTyped) (hs : f.ReachPlus node s)
  (hsw : f.tyOf s = .bits w)
include hf hs hsw

/-- The one-bit slices of the selector at indices inside it are new pieces,
    whose bits are the selector's at those indices. -/
theorem bitSlices_spec : ∀ {g g' : FunctionBase} {slices slices' : List Nat} {k : Nat} (indices : List Nat),
    (∀ i ∈ indices, i < w) → SlicesState f node g slices k → bitSlices s g slices indices = (g', slices') →
    SlicesState f node g' slices' (k + indices.length) ∧
      ∀ env sb, f.Eval env s (.bits sb) → sb.length = w → ∀ bs, SlicesBits g env slices bs →
        SlicesBits g' env slices' (bs ++ gatherFromSequence sb indices)
  | _, _, _, _, _, [], _, hst, h => by
    cases h
    exact ⟨hst, fun _ _ _ _ bs hbs => by simpa [gatherFromSequence] using hbs⟩
  | g, g', slices, slices', k, i :: indices, hlt, hst, h => by
    have hi := hlt i (.head _)
    simp only [bitSlices, makeNode_snd] at h
    have hst₁ := hst.push hf (show ∀ o ∈ [s], Fresh f g o ∨ f.ReachPlus node o by simpa using .inr hs)
      (verify_selectorSlice hf hs hsw hst (show i + 1 ≤ w by omega)) (by simp [Op.resultType, Ty.isBits])
    obtain ⟨hst', hbits⟩ := bitSlices_spec indices (fun j hj => hlt j (.tail _ hj)) hst₁ h
    refine ⟨by simpa [Op.resultType, Ty.bitCount, Nat.add_assoc, Nat.add_comm 1] using hst',
      fun env sb hs' hsb bs hbs => ?_⟩
    have hi' : i < sb.length := by omega
    have hslice : (g.makeNode (.bitSlice i 1) [s]).1.Eval env g.size (.bits [sb[i]]) :=
      eval_makeNode_self (.cons (hst.ext.eval hs') .nil) (by
        show some (Value.bits (BitsOps.slice sb i 1)) = _
        rw [BitsOps.slice_one hi'])
    simpa [gatherFromSequence_cons_of_lt hi'] using
      hbits env sb hs' hsb _ (hbs.makeNode.push hslice)

/-- `GatherBits` of indices inside the selector: new nodes over the
    selector, the last one as wide as there are indices and holding the
    selector's bits at them. -/
theorem gatherBits_spec {indices : List Nat} {g : FunctionBase} {sel : Nat} (hlt : ∀ i ∈ indices, i < w)
    (h : gatherBits f s indices = (g, sel)) :
    Builds f node g ∧ Usable f node g sel ∧ g.tyOf sel = .bits indices.length ∧
      ∀ env sb, f.Eval env s (.bits sb) → sb.length = w → g.Eval env sel (.bits (gatherFromSequence sb indices)) := by
  generalize hbs : bitSlices s f [] indices = r at h
  obtain ⟨g₁, slices⟩ := r
  simp only [gatherBits, hbs] at h
  have h₂ := congrArg Prod.snd h
  rw [makeNode_snd] at h₂
  subst h₂
  obtain rfl := congrArg Prod.fst h
  obtain ⟨hst, hbits⟩ := bitSlices_spec hf hs hsw indices hlt (SlicesState.init hf) hbs
  obtain ⟨hb, hu, hty, hval⟩ := hst.concat hf
  exact ⟨hb, hu, by simpa using hty, fun env sb hs' hsb => hval env _ (by simpa using hbits env sb hs' hsb [] ⟨[], .nil, rfl⟩)⟩

end Build

section Rule

variable {q : QueryEngine} {f f' : FunctionBase} {narrowingEnabled : Bool} {node : Nat}

/-- Under a sound engine, the select over the cases `keptCases` keeps, selected
    by their selector bits, computes the select's value. -/
theorem sem_keptCases (splitsEnabled : Bool) (hf : f.WellTyped) (hq : q.SoundFor f) {op : Op} {s : Nat} {cases : List Nat} {ty : Ty}
    (hop : op = .oneHotSel ∨ op = .prioritySel) (hnd : f.node node = some ⟨op, s :: cases, ty⟩) {env : Env}
    (henv : env.Typed) {v : Value} (hv : f.Eval env node v) :
    ∃ sb cvs, f.Eval env s (.bits sb) ∧ sb.length = cases.length ∧ List.Forall₂ (f.Eval env) cases cvs ∧
      op.sem env ty (.bits (gatherFromSequence sb (keptCases q (op == .prioritySel) splitsEnabled (q.ternary s) cases).2) ::
        gatherFromSequence cvs (keptCases q (op == .prioritySel) splitsEnabled (q.ternary s) cases).2) = some v := by
  obtain ⟨hsw, -, hcty⟩ := verify_oneHotSel hop hf hnd
  obtain ⟨sb, cvs, hs, hcs, hsem⟩ := oneHotSel_operands hop hf hnd henv hv
  have hsbl := length_of_eval hf hsw henv hs
  have hlen : sb.length = cvs.length := hsbl.trans hcs.length_eq
  refine ⟨sb, cvs, hs, hsbl, hcs, ?_⟩
  obtain ⟨hsub, hone, hprio⟩ := keptCases_spec q (op == .prioritySel) (q.ternary s) splitsEnabled cases
  generalize (keptCases q (op == .prioritySel) splitsEnabled (q.ternary s) cases).2 = K at hsub hone hprio ⊢
  have hcon := hq.ternary env henv s sb hs
  -- a bit known zero is clear, and a case known all zeros is zero
  have hknown : ∀ j (x : TernaryValue) y, (q.ternary s)[j]? = some x → x.toBool? = some y → sb[j]? = some y :=
    fun j x y hx hy => TernaryVector.getElem?_of_contains hcon hx hy
  have hzero : ∀ j c, cases[j]? = some c → q.isAllZeros c = true → cvs[j]? = some (zeroOfType ty) := fun j c hc hz => by
    obtain ⟨cv, hcv, -⟩ := forall₂_getElem?_left hcs hc
    rw [hcv, hq.allZeros.values_eq_zero hf henv hcs hcty (fun n hn => by rw [hc] at hn; cases hn; exact hz) hcv]
  have hKlt : ∀ k ∈ K, k < sb.length := fun k hk => by
    have := List.mem_range'_1.1 (hsub.subset hk); omega
  rcases hop with rfl | rfl
  · -- one-hot: each case left out is not selected or is zero
    rw [← hsem]
    refine congrArg some ((oneHotSelectValue_gather (fun c hc => ?_) hlen (L := List.range' 0 sb.length)
      (by rwa [hsbl]) (List.nodup_range' _ _) (fun i hi => by have := (List.mem_range'_1.1 hi).2; omega)
      fun i hi hiK => ?_).trans ?_)
    · obtain ⟨n, hn, hev⟩ := forall₂_exists_of_mem_right hcs hc
      exact hcty n hn ▸ hasType_of_eval hf henv hev
    · have hi' : i < cases.length := by have := (List.mem_range'_1.1 hi).2; omega
      rcases hone rfl i cases[i] (List.getElem?_eq_getElem hi') hiK with h | h
      · exact .inl (hknown i _ false h rfl)
      · exact .inr (hzero i _ (List.getElem?_eq_getElem hi') h)
    · have h₁ := gatherFromSequence_range' [] sb
      have h₂ := gatherFromSequence_range' [] cvs
      simp only [List.nil_append, List.length_nil] at h₁ h₂
      rw [h₁, hlen, h₂]
      rfl
  · -- priority: the case of the first set bit is kept, or is zero past every case kept
    rw [← hsem]
    refine congrArg some (prioritySelectValue_gather (List.Pairwise.sublist hsub (List.pairwise_lt_range' 0 _))
      hKlt hlen fun j hj => ?_)
    obtain ⟨hjs, hbelow⟩ := Bits.firstSet_eq_some.1 hj
    have hjl : j < cases.length := hsbl ▸ (List.getElem?_eq_some_iff.1 hjs).1
    have hc := List.getElem?_eq_getElem hjl
    refine (hprio rfl j _ hc (fun h => absurd ((hknown j _ false h rfl).symm.trans hjs) (by decide))
      fun k hk h => absurd ((hknown k _ true h rfl).symm.trans (hbelow k hk)) (by decide)).imp_right
      fun ⟨hz, hK⟩ => ⟨hzero j _ hc hz, hK⟩

/-- The dead-case rule under a sound engine: a rewrite of the select that keeps
    the function well typed. -/
theorem removeDeadCases_rewrites (hf : f.WellTyped) (hq : q.SoundFor f)
    (h : removeDeadCases q f narrowingEnabled splitsEnabled node = .ok (some f')) : Rewrites f node f' ∧ f'.WellTyped := by
  unfold removeDeadCases at h
  split at h
  · rename_i op s cases ty hnd
    split at h
    · rename_i hc
      have hop : op = .oneHotSel ∨ op = .prioritySel := by
        simp only [Bool.and_eq_true, Bool.or_eq_true, beq_iff_eq] at hc
        exact hc.1.2
      obtain ⟨hsw, -, hcty⟩ := verify_oneHotSel hop hf hnd
      have hoe := operandsExist_of_wellTyped hf
      have hsem : ∀ env : Env, env.Typed → ∀ v, f.Eval env node v → _ := fun env henv v hv =>
        sem_keptCases splitsEnabled hf hq hop hnd henv hv
      obtain ⟨hsub, -, -⟩ := keptCases_spec q (op == .prioritySel) (q.ternary s) splitsEnabled cases
      generalize (keptCases q (op == .prioritySel) splitsEnabled (q.ternary s) cases) = kc at h hsub hsem
      obtain ⟨has, K⟩ := kc
      have hKlt : ∀ k ∈ K, k < cases.length := fun k hk => by
        have := List.mem_range'_1.1 (hsub.subset hk); omega
      split at h
      · cases h
      · -- nothing kept: zero
        rename_i hkk
        obtain ⟨rfl, rfl⟩ := Prod.mk.inj hkk
        have hr := map_some_eq_ok.1 h
        refine ⟨rewrites_literal (lt_size_of_node hnd) (fun env henv v hv => ?_) hr,
          hf.replaceUsesWithNew (by simp) ?_ hr⟩
        · obtain ⟨sb, cvs, -, -, -, hsv⟩ := hsem env henv v hv
          rcases hop with rfl | rfl <;> exact (Option.some.inj hsv).symm
        · have hne := noEmptyArray_of_node hf hnd
          simp [Op.verify, Op.resultType, zeroOfType_hasType, ty_zeroOfType hne, hne]
      · -- the select over the cases kept
        rename_i K' hne hkk
        obtain ⟨rfl, rfl⟩ := Prod.mk.inj hkk
        generalize hgb : gatherBits f s K = gb at h
        obtain ⟨g, sel⟩ := gb
        dsimp only at h
        obtain ⟨hb, hsel, hselty, hselval⟩ := gatherBits_spec hf (ReachPlus.of_mem hnd (.head _)) hsw hKlt hgb
        -- the cases kept: cases of the select, of its type, as many as the indices kept
        have hgcs : ∀ c ∈ gatherFromSequence cases K, f.ReachPlus node c ∧ g.tyOf c = ty := fun c hc =>
          have hc' := mem_of_mem_gatherFromSequence hc
          ⟨ReachPlus.of_mem hnd (.tail _ hc'), (hb.ext.tyOf_of_lt (hoe _ _ hnd c (.tail _ hc'))).trans (hcty c hc')⟩
        have hlen := length_gatherFromSequence hKlt
        obtain ⟨c₀, cs, hcs₀⟩ : ∃ c₀ cs, gatherFromSequence cases K = c₀ :: cs := by
          cases hg : gatherFromSequence cases K with
          | nil => exact absurd (List.length_eq_zero.1 (by rw [← hlen, hg]; rfl)) hne
          | cons c₀ cs => exact ⟨c₀, cs, rfl⟩
        rw [hcs₀] at hgcs hlen
        have hty : op.resultType ((sel :: c₀ :: cs).map g.tyOf) = ty := by
          rcases hop with rfl | rfl <;> exact (hgcs c₀ (.head _)).2
        obtain ⟨f'', h'', hr⟩ := hb.rewrites op (sel :: c₀ :: cs) hoe (lt_size_of_node hnd)
          (by rintro o (_ | ⟨_, ho⟩); exacts [hsel, .inr (hgcs o ho).1])
          (by
            rw [hty]
            have hall : ∀ c ∈ c₀ :: cs, (g.tyOf c == ty) = true := fun c hc => beq_iff_eq.2 (hgcs c hc).2
            rcases hop with rfl | rfl <;>
              simp_all [Op.verify, List.all_eq_true])
          (by rw [hty, tyOf_of_node hnd])
          fun env henv v hv => by
            obtain ⟨sb, cvs, hs', hsbl, hcs, hsv⟩ := hsem env henv v hv
            refine ⟨_, .cons (hselval env sb hs' hsbl) (hcs₀ ▸ forall₂_gatherFromSequence (hcs.imp fun _ _ => hb.ext.eval) K),
              ?_⟩
            rw [hty]
            exact hsv
        rw [hcs₀] at h
        cases (map_some_eq_ok.1 h).symm.trans h''
        exact hr
    · cases h
  · cases h

end Rule

end SelectSimplification

end Xls
