import Xls.QueryEngine

/-!
# The union query engine

`UnownedUnionQueryEngine` composes a list of populated engines, each answering
independently, into one that takes the most precise answer available:

* `Populate` populates every engine in turn and combines the statuses they
  report (`populateFrom`), returning the first error;
* `GetTernary` starts from the all-unknown tree of the node's type and merges in
  the vectors of every engine that tracks the node with
  `ternary_ops::UpdateWithUnion`, under a `CHECK_OK` (`getTernaryFrom`: an error
  is the process aborting);
* `GetIntervals` intersects the interval sets of the tracking engines;
* the boolean queries hold when some engine says so, and `ImpliedNodeValue` is
  the first engine's that has one.

The main result, `union_sound_and_precise`: on engines sound for a set of
evaluations, the union is sound; on a node with a value the `CHECK_OK` does not
fail, the union knows every bit a tracking engine knows, and its interval sets
lie inside each tracking engine's.

`Populate`'s step is the meet of the statuses (`combine_eq_meet`), so
`populate_meet`: when every engine populates, the union reports the meet of
their statuses whatever their order, and otherwise the first error.
-/

namespace Xls

namespace UnownedUnionQueryEngine

/-- One step of `Populate`: `unchanged` is the identity, `changed` degrades
    only to `unknown`, and `unknown` absorbs. -/
def combine (result rf : ReachedFixpoint) : ReachedFixpoint :=
  let result := if result = .unchanged then rf else result
  if result = .changed ∧ rf = .unknown then .unknown else result

/-- `UnownedUnionQueryEngine::Populate`, from the status `result` so far. -/
def populateFrom (result : ReachedFixpoint) : List QueryEngine → Except String ReachedFixpoint
  | [] => .ok result
  | e :: es =>
    match e.populate with
    | .error err => .error err
    | .ok rf => populateFrom (combine result rf) es

/-- `SimpleUpdateFrom` with `UpdateWithUnion`, leaf by leaf. -/
def updateLeaves : List TernaryVector → List TernaryVector → Except String (List TernaryVector)
  | [], [] => .ok []
  | l :: ls, r :: rs =>
    match ternaryOps.updateWithUnion l r, updateLeaves ls rs with
    | .ok x, .ok xs => .ok (x :: xs)
    | .error e, _ => .error e
    | .ok _, .error e => .error e
  | _, _ => .error "Size mismatch"

/-- The loop of `UnownedUnionQueryEngine::GetTernary` from the tree `acc`: an
    error is a failed `CHECK_OK`. -/
def getTernaryFrom (n : Nat) :
    List TernaryVector → List QueryEngine → Except String (List TernaryVector)
  | acc, [] => .ok acc
  | acc, e :: es =>
    if e.isTracked n then
      match updateLeaves acc (e.getTernary n) with
      | .ok acc => getTernaryFrom n acc es
      | .error err => .error err
    else getTernaryFrom n acc es

/-- The all-unknown tree of the given leaf widths. -/
def unknownTree (widths : List Nat) : List TernaryVector := widths.map TernaryVector.unknown

/-- `UnownedUnionQueryEngine::GetTernary`, with the `CHECK_OK` as an error. -/
def getTernaryChecked (shape : Nat → List Nat) (engines : List QueryEngine) (n : Nat) :
    Except String (List TernaryVector) :=
  getTernaryFrom n (unknownTree (shape n)) engines

/-- The loop of `UnownedUnionQueryEngine::GetIntervals` from the sets `acc`. -/
def getIntervalsFrom (n : Nat) (acc : List IntervalSet) (engines : List QueryEngine) :
    List IntervalSet :=
  engines.foldl (fun acc e =>
    if e.isTracked n then List.zipWith IntervalSet.intersect acc (e.getIntervals n) else acc) acc

/-- The loop of `UnownedUnionQueryEngine::ImpliedNodeTernary`, from `result`: a
    conflict fails a `CHECK_OK`. -/
def impliedNodeTernaryFrom (ps : List (TreeBitLocation × Bool)) (n : Nat) :
    Option TernaryVector → List QueryEngine → Except String (Option TernaryVector)
  | result, [] => .ok result
  | result, e :: es =>
    match e.impliedNodeTernary ps n, result with
    | none, _ => impliedNodeTernaryFrom ps n result es
    | some t, none => impliedNodeTernaryFrom ps n (some t) es
    | some t, some r =>
      match ternaryOps.updateWithUnion r t with
      | .ok r => impliedNodeTernaryFrom ps n (some r) es
      | .error err => .error err

/-! ### The loops, one engine at a time -/

open List (Forall₂)

theorem updateLeaves_of_contains {l r : List TernaryVector} {bs : List Bits}
    (hl : Forall₂ TernaryVector.Contains l bs) (hr : Forall₂ TernaryVector.Contains r bs) :
    ∃ t, updateLeaves l r = .ok t ∧ Forall₂ TernaryVector.Contains t bs ∧
      Forall₂ TernaryVector.Refines t l ∧ Forall₂ TernaryVector.Refines t r := by
  induction hl generalizing r with
  | nil => cases hr; exact ⟨[], rfl, .nil, .nil, .nil⟩
  | cons hx _ ih =>
    cases hr with
    | cons hy hs =>
      obtain ⟨x, hxe, hxc, hxl, hxr⟩ := ternaryOps.updateWithUnion_of_contains hx hy
      obtain ⟨t, hte, htc, htl, htr⟩ := ih hs
      exact ⟨x :: t, by simp [updateLeaves, hxe, hte], .cons hxc htc, .cons hxl htl,
        .cons hxr htr⟩

theorem widths_updateLeaves {l r t : List TernaryVector} (h : updateLeaves l r = .ok t) :
    t.map List.length = l.map List.length := by
  induction l generalizing r t with
  | nil => cases r <;> simp_all [updateLeaves]
  | cons x l ih =>
    cases r with
    | nil => simp [updateLeaves] at h
    | cons y r =>
      simp only [updateLeaves] at h
      split at h <;> cases h
      simp [ternaryOps.length_updateWithUnion ‹_›, ih ‹_›]

variable {n : Nat} {es : List QueryEngine}

/-- The merged tree keeps the shape of the tracking engines' trees. -/
theorem widths_getTernaryFrom {w : List Nat} {acc t : List TernaryVector}
    (hacc : acc.map List.length = w)
    (hes : ∀ e ∈ es, e.isTracked n → (e.getTernary n).map List.length = w)
    (h : getTernaryFrom n acc es = .ok t) : t.map List.length = w := by
  induction es generalizing acc with
  | nil => cases h; exact hacc
  | cons e es ih =>
    simp only [getTernaryFrom] at h
    split_ifs at h
    · split at h
      · exact ih (by rw [widths_updateLeaves ‹_›, hacc]) (fun e' he' => hes e' (.tail _ he')) h
      · cases h
    · exact ih hacc (fun e' he' => hes e' (.tail _ he')) h

/-- On vectors that all contain the leaves `bs`, the merge does not fail; it
    contains `bs` and knows all that the start and every tracking engine know. -/
theorem getTernaryFrom_of_contains {acc : List TernaryVector} {bs : List Bits}
    (hacc : Forall₂ TernaryVector.Contains acc bs)
    (hes : ∀ e ∈ es, e.isTracked n → Forall₂ TernaryVector.Contains (e.getTernary n) bs) :
    ∃ t, getTernaryFrom n acc es = .ok t ∧ Forall₂ TernaryVector.Contains t bs ∧
      Forall₂ TernaryVector.Refines t acc ∧
      ∀ e ∈ es, e.isTracked n → Forall₂ TernaryVector.Refines t (e.getTernary n) := by
  have refines := @TernaryVector.refines_leaves_trans
  induction es generalizing acc with
  | nil => exact ⟨acc, rfl, hacc, List.forall₂_same.2 fun t _ => .refl t, by simp⟩
  | cons e es ih =>
    have hes' : ∀ e' ∈ es, e'.isTracked n → _ := fun e' he' => hes e' (.tail _ he')
    by_cases he : e.isTracked n
    · -- A tracking engine: merge its tree in, then go on from the merged tree.
      obtain ⟨u, hu, huc, hua, hue⟩ := updateLeaves_of_contains hacc (hes e (.head _) he)
      obtain ⟨t, ht, htc, htu, hte⟩ := ih huc hes'
      refine ⟨t, by simp [getTernaryFrom, he, hu, ht], htc, refines htu hua, ?_⟩
      rintro e' (_ | ⟨_, he'⟩) hte'
      · exact refines htu hue
      · exact hte e' he' hte'
    · obtain ⟨t, ht, htc, hta, hte⟩ := ih hacc hes'
      refine ⟨t, by simp [getTernaryFrom, he, ht], htc, hta, ?_⟩
      rintro e' (_ | ⟨_, he'⟩) hte'
      · exact absurd hte' he
      · exact hte e' he' hte'

theorem unknownTree_contains {bs : List Bits} {w : List Nat} (h : bs.map List.length = w) :
    Forall₂ TernaryVector.Contains (unknownTree w) bs := by
  subst h
  induction bs <;> simp_all [unknownTree, TernaryVector.unknown_contains]

theorem widths_unknownTree (w : List Nat) : (unknownTree w).map List.length = w := by
  simp [unknownTree, TernaryVector.unknown, Function.comp_def]

theorem getIntervalsFrom_cons (e : QueryEngine) (acc : List IntervalSet) :
    getIntervalsFrom n acc (e :: es) = getIntervalsFrom n
      (if e.isTracked n then List.zipWith IntervalSet.intersect acc (e.getIntervals n) else acc) es :=
  rfl

/-- An interval set per leaf contains the leaf. -/
abbrev LeavesIn (ss : List IntervalSet) (bs : List Bits) : Prop :=
  Forall₂ (fun s b => IntervalSet.Contains s (Bits.toNat b)) ss bs

theorem leavesIn_zipWith {a c : List IntervalSet} {bs : List Bits} (ha : LeavesIn a bs)
    (hc : LeavesIn c bs) : LeavesIn (List.zipWith IntervalSet.intersect a c) bs := by
  induction ha generalizing c with
  | nil => cases hc; exact .nil
  | cons hx _ ih => cases hc with
    | cons hy hs => exact .cons (IntervalSet.contains_intersect.2 ⟨hx, hy⟩) (ih hs)

theorem getIntervalsFrom_leavesIn {acc : List IntervalSet} {bs : List Bits}
    (hacc : LeavesIn acc bs) (hes : ∀ e ∈ es, e.isTracked n → LeavesIn (e.getIntervals n) bs) :
    LeavesIn (getIntervalsFrom n acc es) bs := by
  induction es generalizing acc with
  | nil => exact hacc
  | cons e es ih =>
    rw [getIntervalsFrom_cons]
    split_ifs with he
    · exact ih (leavesIn_zipWith hacc (hes e (.head _) he)) fun e' he' => hes e' (.tail _ he')
    · exact ih hacc fun e' he' => hes e' (.tail _ he')

theorem forall₂_subset_zipWith {a c : List IntervalSet} (h : a.length = c.length) :
    Forall₂ IntervalSet.Subset (List.zipWith IntervalSet.intersect a c) a ∧
      Forall₂ IntervalSet.Subset (List.zipWith IntervalSet.intersect a c) c := by
  induction a generalizing c with
  | nil => cases c <;> simp_all
  | cons x a ih =>
    cases c with
    | nil => simp at h
    | cons y c =>
      obtain ⟨h₁, h₂⟩ := ih (Nat.succ.inj h)
      exact ⟨.cons (IntervalSet.intersect_subset_left _ _) h₁,
        .cons (IntervalSet.intersect_subset_right _ _) h₂⟩

theorem length_getIntervalsFrom {acc : List IntervalSet}
    (hes : ∀ e ∈ es, e.isTracked n → (e.getIntervals n).length = acc.length) :
    (getIntervalsFrom n acc es).length = acc.length := by
  induction es generalizing acc with
  | nil => rfl
  | cons e es ih =>
    rw [getIntervalsFrom_cons]
    split_ifs with he
    · have hl := hes e (.head _) he
      rw [ih fun e' he' ht => by rw [hes e' (.tail _ he') ht]; simp [hl], List.length_zipWith, hl,
        Nat.min_self]
    · exact ih fun e' he' => hes e' (.tail _ he')

/-- The intersected sets lie inside the start and every tracking engine's sets. -/
theorem getIntervalsFrom_subset {acc : List IntervalSet}
    (hes : ∀ e ∈ es, e.isTracked n → (e.getIntervals n).length = acc.length) :
    Forall₂ IntervalSet.Subset (getIntervalsFrom n acc es) acc ∧
      ∀ e ∈ es, e.isTracked n → Forall₂ IntervalSet.Subset (getIntervalsFrom n acc es) (e.getIntervals n) := by
  have trans := @IntervalSet.subset_leaves_trans
  induction es generalizing acc with
  | nil => exact ⟨List.forall₂_same.2 fun _ _ _ h => h, by simp⟩
  | cons e es ih =>
    rw [getIntervalsFrom_cons]
    split_ifs with he
    · have hl := hes e (.head _) he
      obtain ⟨h₁, h₂⟩ := forall₂_subset_zipWith hl.symm
      obtain ⟨k₁, k₂⟩ := @ih (List.zipWith IntervalSet.intersect acc (e.getIntervals n))
        fun e' he' ht => by rw [hes e' (.tail _ he') ht]; simp [hl]
      refine ⟨trans k₁ h₁, ?_⟩
      rintro e' (_ | ⟨_, he'⟩) hte'
      · exact trans k₁ h₂
      · exact k₂ e' he' hte'
    · obtain ⟨k₁, k₂⟩ := ih fun e' he' => hes e' (.tail _ he')
      refine ⟨k₁, ?_⟩
      rintro e' (_ | ⟨_, he'⟩) hte'
      · exact absurd hte' he
      · exact k₂ e' he' hte'

end UnownedUnionQueryEngine

open UnownedUnionQueryEngine in
/-- `UnownedUnionQueryEngine` over `engines`, on a function of leaf widths
    `shape`. Its answers are those of the runs that do not abort: where a
    `CHECK_OK` fails it answers nothing. -/
def unownedUnionQueryEngine (shape : Nat → List Nat) (engines : List QueryEngine) :
    QueryEngine where
  populate := populateFrom .unchanged engines
  isTracked n := engines.any (·.isTracked n)
  getTernary n :=
    match getTernaryChecked shape engines n with
    | .ok t => t
    | .error _ => unknownTree (shape n)
  getIntervals n := getIntervalsFrom n ((shape n).map IntervalSet.maximal) engines
  atMostOneTrue ls := engines.any (·.atMostOneTrue ls)
  atLeastOneTrue ls := engines.any (·.atLeastOneTrue ls)
  knownEquals a b := engines.any (·.knownEquals a b)
  knownNotEquals a b := engines.any (·.knownNotEquals a b)
  implies a b := engines.any (·.implies a b)
  impliedNodeValue ps n := engines.findSome? (·.impliedNodeValue ps n)
  impliedNodeTernary ps n :=
    match impliedNodeTernaryFrom ps n none engines with
    | .ok r => r
    | .error _ => none


namespace UnownedUnionQueryEngine

open List (Forall₂)

variable {E : Set Evaluation} {shape : Nat → List Nat} {engines : List QueryEngine}

theorem getTernaryFrom_of_untracked {n : Nat} {acc : List TernaryVector}
    {es : List QueryEngine} (h : ∀ e ∈ es, e.isTracked n = false) :
    getTernaryFrom n acc es = .ok acc := by
  induction es <;> simp_all [getTernaryFrom]

theorem bitCounts_zipWith_intersect {a c : List IntervalSet} (h : a.length = c.length) :
    (List.zipWith IntervalSet.intersect a c).map IntervalSet.bitCount =
      a.map IntervalSet.bitCount := by
  induction a generalizing c with
  | nil => rfl
  | cons x a ih =>
    cases c with
    | nil => simp at h
    | cons y c => simp [ih (Nat.succ.inj h), IntervalSet.intersect]

theorem bitCounts_getIntervalsFrom {n : Nat} {es : List QueryEngine} {acc : List IntervalSet}
    (hes : ∀ e ∈ es, e.isTracked n → (e.getIntervals n).map IntervalSet.bitCount =
      acc.map IntervalSet.bitCount) :
    (getIntervalsFrom n acc es).map IntervalSet.bitCount = acc.map IntervalSet.bitCount := by
  induction es generalizing acc with
  | nil => rfl
  | cons e es ih =>
    rw [getIntervalsFrom_cons]
    split_ifs with he
    · have hz := bitCounts_zipWith_intersect (by simpa using congrArg List.length (hes e (.head _) he).symm)
      rw [ih fun e' he' ht => by rw [hes e' (.tail _ he') ht, hz], hz]
    · exact ih fun e' he' => hes e' (.tail _ he')

theorem widths_of_contains {ts : List TernaryVector} {bs : List Bits}
    (h : Forall₂ TernaryVector.Contains ts bs) : bs.map List.length = ts.map List.length := by
  induction h with
  | nil => rfl
  | cons hx _ ih => simp [ih, hx.length_eq]

/-- The leaf widths of a node's value, read off a tracking sound engine. -/
theorem widths_of_sound {q : QueryEngine} (hq : q.Sound E shape) {ev : Evaluation} (hev : ev ∈ E)
    {n : Nat} {v : Value} (hv : ev n = some v) (ht : q.isTracked n) :
    v.leaves.map List.length = shape n := by
  rw [← hq.ternary_shape n ht, widths_of_contains (hq.ternary ev hev n v hv ht)]

theorem maximal_leavesIn (bs : List Bits) :
    LeavesIn ((bs.map List.length).map IntervalSet.maximal) bs := by
  induction bs with
  | nil => exact .nil
  | cons b bs ih => exact .cons IntervalSet.maximal_contains ih

/-- A property of implied vectors closed under their union holds of the merged
    one. -/
theorem impliedNodeTernaryFrom_of {ps : List (TreeBitLocation × Bool)} {n : Nat}
    {P : TernaryVector → Prop}
    (hP : ∀ l r t, P l → P r → ternaryOps.updateWithUnion l r = .ok t → P t) :
    ∀ {result : Option TernaryVector} {es : List QueryEngine} {t : TernaryVector},
      (∀ r, result = some r → P r) →
      (∀ e ∈ es, ∀ t, e.impliedNodeTernary ps n = some t → P t) →
      impliedNodeTernaryFrom ps n result es = .ok (some t) → P t
  | result, [], t, hr, _, h => hr t (by cases h; rfl)
  | result, e :: es, t, hr, hes, h => by
    have hes' : ∀ e' ∈ es, _ := fun e' he' => hes e' (.tail _ he')
    simp only [impliedNodeTernaryFrom] at h
    split at h
    · exact impliedNodeTernaryFrom_of hP hr hes' h
    · exact impliedNodeTernaryFrom_of hP (by rintro r ⟨⟩; exact hes e (.head _) _ ‹_›) hes' h
    · split at h
      · exact impliedNodeTernaryFrom_of hP
          (by rintro r ⟨⟩; exact hP _ _ _ (hr _ rfl) (hes e (.head _) _ ‹_›) ‹_›) hes' h
      · cases h

open QueryEngine in
/-- The union of sound engines is sound: each of its answers is one of a sound
    engine's, or (for ternary vectors and interval sets) a merge of theirs. -/
theorem union_sound (hs : ∀ q ∈ engines, q.Sound E shape) :
    (unownedUnionQueryEngine shape engines).Sound E shape where
  ternary_shape n _ := by
    simp only [unownedUnionQueryEngine]
    split
    · exact widths_getTernaryFrom (widths_unknownTree _)
        (fun e he ht => (hs e he).ternary_shape n ht) ‹_›
    · exact widths_unknownTree _
  intervals_shape n _ := by
    simp only [unownedUnionQueryEngine]
    rw [bitCounts_getIntervalsFrom] <;> simp [Function.comp_def, IntervalSet.maximal]
    intro e he ht
    rw [(hs e he).intervals_shape n ht]
  ternary ev hev n v hv ht := by
    obtain ⟨q, hq, hqt⟩ := List.any_eq_true.1 ht
    obtain ⟨t, h, htc, -, -⟩ := getTernaryFrom_of_contains
      (unknownTree_contains (widths_of_sound (hs q hq) hev hv hqt))
      fun e he het => (hs e he).ternary ev hev n v hv het
    simpa [unownedUnionQueryEngine, getTernaryChecked, h] using htc
  intervals ev hev n v hv ht := by
    obtain ⟨q, hq, hqt⟩ := List.any_eq_true.1 ht
    have hinit := maximal_leavesIn v.leaves
    rw [widths_of_sound (hs q hq) hev hv hqt] at hinit
    exact getIntervalsFrom_leavesIn hinit fun e he het => (hs e he).intervals ev hev n v hv het
  atMostOneTrue ls h ev hev := by
    obtain ⟨q, hq, h⟩ := List.any_eq_true.1 h
    exact (hs q hq).atMostOneTrue ls h ev hev
  atLeastOneTrue ls h ev hev := by
    obtain ⟨q, hq, h⟩ := List.any_eq_true.1 h
    exact (hs q hq).atLeastOneTrue ls h ev hev
  knownEquals a b h ev hev := by
    obtain ⟨q, hq, h⟩ := List.any_eq_true.1 h
    exact (hs q hq).knownEquals a b h ev hev
  knownNotEquals a b h ev hev := by
    obtain ⟨q, hq, h⟩ := List.any_eq_true.1 h
    exact (hs q hq).knownNotEquals a b h ev hev
  implies a b h ev hev := by
    obtain ⟨q, hq, h⟩ := List.any_eq_true.1 h
    exact (hs q hq).implies a b h ev hev
  impliedNodeValue ps n r h ev hev := by
    obtain ⟨q, hq, h⟩ := List.exists_of_findSome?_eq_some h
    exact (hs q hq).impliedNodeValue ps n r h ev hev
  impliedNodeTernary ps n t h ev hev hps v hv := by
    simp only [unownedUnionQueryEngine] at h
    split at h
    · subst h
      have hP : ∀ l r t, (∃ b, v = .bits b ∧ l.Contains b) → (∃ b, v = .bits b ∧ r.Contains b) →
          ternaryOps.updateWithUnion l r = .ok t → ∃ b, v = .bits b ∧ t.Contains b := by
        rintro l r t ⟨b, rfl, hl⟩ ⟨b', hb, hr⟩ h
        cases hb
        obtain ⟨t', h', ht', -⟩ := ternaryOps.updateWithUnion_of_contains hl hr
        exact ⟨b, rfl, by rw [h] at h'; cases h'; exact ht'⟩
      exact @impliedNodeTernaryFrom_of ps n _ hP none engines t (by simp)
        (fun e he t ht => (hs e he).impliedNodeTernary ps n t ht ev hev hps v hv) ‹_›
    · cases h

/-- The union of engines sound for `E` is sound; on a node with a value in some
    evaluation the `CHECK_OK` of `GetTernary` holds and the union knows every bit
    a tracking engine knows, with its value; and its interval sets lie inside
    every tracking engine's. -/
theorem union_sound_and_precise (hs : ∀ q ∈ engines, q.Sound E shape) :
    (unownedUnionQueryEngine shape engines).Sound E shape ∧
    ∀ n, ((∃ ev ∈ E, (ev n).isSome) →
        (∃ t, getTernaryChecked shape engines n = .ok t) ∧
        ∀ q ∈ engines, q.isTracked n → Forall₂ TernaryVector.Refines
          ((unownedUnionQueryEngine shape engines).getTernary n) (q.getTernary n)) ∧
      ∀ q ∈ engines, q.isTracked n → Forall₂ IntervalSet.Subset
        ((unownedUnionQueryEngine shape engines).getIntervals n) (q.getIntervals n) := by
  refine ⟨union_sound hs, fun n => ⟨fun ⟨ev, hev, hn⟩ => ?_, fun q hq hqt => ?_⟩⟩
  · obtain ⟨v, hv⟩ := Option.isSome_iff_exists.1 hn
    by_cases ht : ∃ q ∈ engines, q.isTracked n
    · -- A tracking engine fixes the widths; every tracking engine contains the value.
      obtain ⟨q, hq, hqt⟩ := ht
      obtain ⟨t, h, -, -, hte⟩ := getTernaryFrom_of_contains
        (unknownTree_contains (widths_of_sound (hs q hq) hev hv hqt))
        fun e he het => (hs e he).ternary ev hev n v hv het
      refine ⟨⟨t, h⟩, fun q hq hqt => ?_⟩
      simpa [unownedUnionQueryEngine, getTernaryChecked, h] using hte q hq hqt
    · push_neg at ht
      exact ⟨⟨_, getTernaryFrom_of_untracked fun e he => by simpa using ht e he⟩,
        fun q hq hqt => absurd hqt (ht q hq)⟩
  · have hw := (hs q hq).intervals_shape n hqt
    exact (getIntervalsFrom_subset fun e he het => by
      rw [← List.length_map _ IntervalSet.bitCount, (hs e he).intervals_shape n het]; simp).2
      q hq hqt

/-- An engine knowing of the two-bit node `0` only that its low bit is set and
    its value is at least `1`. -/
def knowsLowBit : QueryEngine where
  populate := .ok .unchanged
  isTracked n := n == 0
  getTernary _ := [[.knownOne, .unknown]]
  getIntervals _ := [⟨2, [⟨1, 3⟩]⟩]
  atMostOneTrue _ := false
  atLeastOneTrue _ := false
  knownEquals _ _ := false
  knownNotEquals _ _ := false
  implies _ _ := false
  impliedNodeValue _ _ := none
  impliedNodeTernary _ _ := none

/-- An engine knowing of the two-bit node `0` only that its high bit is clear
    and its value is at most `1`. -/
def knowsHighBit : QueryEngine :=
  { knowsLowBit with getTernary := fun _ => [[.unknown, .knownZero]], getIntervals := fun _ => [⟨2, [⟨0, 1⟩]⟩] }

/-- The evaluation in which node `0` is the two-bit vector `1`. -/
def nodeZeroIsOne : Evaluation := fun n => if n = 0 then some (.bits [true, false]) else none

theorem union_sound_and_precise_knowsLowBit_knowsHighBit :
    (∀ q ∈ [knowsLowBit, knowsHighBit], q.Sound {nodeZeroIsOne} fun _ => [2]) ∧
    ((unownedUnionQueryEngine (fun _ => [2]) [knowsLowBit, knowsHighBit]).Sound {nodeZeroIsOne} (fun _ => [2]) ∧
    ∀ n, ((∃ ev ∈ ({nodeZeroIsOne} : Set Evaluation), (ev n).isSome) →
        (∃ t, getTernaryChecked (fun _ => [2]) [knowsLowBit, knowsHighBit] n = .ok t) ∧
        ∀ q ∈ [knowsLowBit, knowsHighBit], q.isTracked n → Forall₂ TernaryVector.Refines
          ((unownedUnionQueryEngine (fun _ => [2]) [knowsLowBit, knowsHighBit]).getTernary n) (q.getTernary n)) ∧
      ∀ q ∈ [knowsLowBit, knowsHighBit], q.isTracked n → Forall₂ IntervalSet.Subset
        ((unownedUnionQueryEngine (fun _ => [2]) [knowsLowBit, knowsHighBit]).getIntervals n) (q.getIntervals n)) ∧
    (unownedUnionQueryEngine (fun _ => [2]) [knowsLowBit, knowsHighBit]).getTernary 0 = [[.knownOne, .knownZero]] := by
  have hs : ∀ q ∈ [knowsLowBit, knowsHighBit], q.Sound {nodeZeroIsOne} fun _ => [2] := by
    intro q hq
    simp only [List.mem_cons, List.mem_singleton, List.not_mem_nil, or_false] at hq
    rcases hq with rfl | rfl <;>
      constructor <;> simp [knowsLowBit, knowsHighBit, nodeZeroIsOne, Value.leaves, TernaryVector.Contains,
        TernaryValue.Contains, IntervalSet.Contains, Bits.toNat]
  exact ⟨hs, union_sound_and_precise hs, rfl⟩

end UnownedUnionQueryEngine

/-! ## `Populate`: the meet of the statuses -/

namespace ReachedFixpoint

/-- The meet of two statuses in the order `unchanged > changed > unknown`. -/
def meet : ReachedFixpoint → ReachedFixpoint → ReachedFixpoint
  | .unchanged, b => b
  | a, .unchanged => a
  | .changed, .changed => .changed
  | _, _ => .unknown

theorem meet_right_comm (a b c : ReachedFixpoint) : (a.meet b).meet c = (a.meet c).meet b := by
  cases a <;> cases b <;> cases c <;> rfl

theorem meet_eq_unchanged {a b : ReachedFixpoint} : a.meet b = .unchanged ↔ a = .unchanged ∧ b = .unchanged := by
  cases a <;> cases b <;> decide

theorem meet_eq_unknown {a b : ReachedFixpoint} : a.meet b = .unknown ↔ a = .unknown ∨ b = .unknown := by
  cases a <;> cases b <;> decide

theorem eq_changed_iff {r : ReachedFixpoint} : r = .changed ↔ r ≠ .unchanged ∧ r ≠ .unknown := by
  cases r <;> decide

theorem foldl_meet_eq_unchanged {r : ReachedFixpoint} {l : List ReachedFixpoint} :
    l.foldl meet r = .unchanged ↔ r = .unchanged ∧ ∀ x ∈ l, x = .unchanged := by
  induction l generalizing r with
  | nil => simp
  | cons x l ih => simp [ih, meet_eq_unchanged, and_assoc]

theorem foldl_meet_eq_unknown {r : ReachedFixpoint} {l : List ReachedFixpoint} :
    l.foldl meet r = .unknown ↔ r = .unknown ∨ .unknown ∈ l := by
  induction l generalizing r with
  | nil => simp
  | cons x l ih => simp only [List.foldl_cons, ih, meet_eq_unknown, List.mem_cons, or_assoc, @eq_comm _ unknown x]

end ReachedFixpoint

namespace UnownedUnionQueryEngine

open ReachedFixpoint

/-- A step of `Populate` is the meet of the status so far with the engine's. -/
theorem combine_eq_meet (result rf : ReachedFixpoint) : combine result rf = result.meet rf := by
  cases result <;> cases rf <;> rfl

/-- When every engine populates, `Populate` folds their statuses with the meet. -/
theorem populateFrom_of_ok {es : List QueryEngine} (hok : ∀ e ∈ es, ∃ rf, e.populate = .ok rf)
    (r : ReachedFixpoint) :
    populateFrom r es = .ok ((es.filterMap fun e => e.populate.toOption).foldl meet r) := by
  induction es generalizing r with
  | nil => rfl
  | cons e es ih =>
    obtain ⟨rf, hrf⟩ := hok e (.head _)
    simp only [populateFrom, hrf, combine_eq_meet, List.filterMap_cons, Except.toOption, List.foldl_cons,
      ih fun e' h => hok e' (.tail _ h)]

/-- The first engine that fails stops `Populate` with its error, whatever the
    engines after it. -/
theorem populateFrom_of_error {e : QueryEngine} {err : String} (herr : e.populate = .error err) (es₂ : List QueryEngine) :
    ∀ {es₁ : List QueryEngine} (r : ReachedFixpoint), (∀ e' ∈ es₁, ∃ rf, e'.populate = .ok rf) →
      populateFrom r (es₁ ++ e :: es₂) = .error err
  | [], _, _ => by simp [populateFrom, herr]
  | e' :: es₁, r, hok => by
    obtain ⟨rf, hrf⟩ := hok e' (.head _)
    simp only [List.cons_append, populateFrom, hrf]
    exact populateFrom_of_error herr es₂ _ fun e'' h => hok e'' (.tail _ h)

section Statuses

variable {es : List QueryEngine} (hok : ∀ e ∈ es, ∃ rf, e.populate = .ok rf)
include hok

theorem mem_statuses {x : ReachedFixpoint} :
    x ∈ es.filterMap (fun e => e.populate.toOption) ↔ ∃ e ∈ es, e.populate = .ok x := by
  simp only [List.mem_filterMap]
  refine exists_congr fun e => and_congr_right fun he => ?_
  obtain ⟨rf, hrf⟩ := hok e he
  simp [hrf, Except.toOption]

theorem statuses_meet_eq_unchanged :
    (es.filterMap fun e => e.populate.toOption).foldl meet .unchanged = .unchanged ↔
      ∀ e ∈ es, e.populate = .ok .unchanged := by
  simp only [foldl_meet_eq_unchanged, true_and, mem_statuses hok]
  exact ⟨fun h e he => let ⟨x, hx⟩ := hok e he; hx.trans (congrArg _ (h x ⟨e, he, hx⟩)),
    fun h x ⟨e, he, hx⟩ => Except.ok.inj ((h e he).symm.trans hx).symm⟩

theorem statuses_meet_eq_unknown :
    (es.filterMap fun e => e.populate.toOption).foldl meet .unchanged = .unknown ↔
      ∃ e ∈ es, e.populate = .ok .unknown := by
  simp [foldl_meet_eq_unknown, mem_statuses hok]

end Statuses

/-- `UnownedUnionQueryEngine::Populate`: when every engine populates, it returns
    the meet of their statuses, `unchanged` when all are, `unknown` when one is
    and `changed` otherwise, whatever their order; when one fails, it returns
    the error of the first that fails, whatever the engines after it. -/
theorem populate_meet (shape : Nat → List Nat) :
    (∀ es : List QueryEngine, (∀ e ∈ es, ∃ rf, e.populate = .ok rf) →
      ∃ r, (unownedUnionQueryEngine shape es).populate = .ok r ∧
        (r = .unchanged ↔ ∀ e ∈ es, e.populate = .ok .unchanged) ∧
        (r = .unknown ↔ ∃ e ∈ es, e.populate = .ok .unknown) ∧
        (r = .changed ↔ (∃ e ∈ es, e.populate ≠ .ok .unchanged) ∧ ∀ e ∈ es, e.populate ≠ .ok .unknown)) ∧
    (∀ es es' : List QueryEngine, es.Perm es' → (∀ e ∈ es, ∃ rf, e.populate = .ok rf) →
      (unownedUnionQueryEngine shape es).populate = (unownedUnionQueryEngine shape es').populate) ∧
    (∀ (es₁ : List QueryEngine) (e : QueryEngine) (es₂ : List QueryEngine) (err : String),
      (∀ e' ∈ es₁, ∃ rf, e'.populate = .ok rf) → e.populate = .error err →
      (unownedUnionQueryEngine shape (es₁ ++ e :: es₂)).populate = .error err) := by
  refine ⟨fun es hok => ⟨_, populateFrom_of_ok hok _, statuses_meet_eq_unchanged hok,
    statuses_meet_eq_unknown hok, ?_⟩, fun es es' hp hok => ?_,
    fun es₁ e es₂ err hok herr => populateFrom_of_error herr es₂ _ hok⟩
  · rw [eq_changed_iff, Ne, Ne, statuses_meet_eq_unchanged hok, statuses_meet_eq_unknown hok]
    push_neg
    exact Iff.rfl
  · have hok' : ∀ e ∈ es', ∃ rf, e.populate = .ok rf := fun e he => hok e (hp.mem_iff.2 he)
    show populateFrom _ es = populateFrom _ es'
    rw [populateFrom_of_ok hok, populateFrom_of_ok hok',
      (hp.filterMap _).foldl_eq' fun x _ y _ z => meet_right_comm z x y]

end UnownedUnionQueryEngine

end Xls
