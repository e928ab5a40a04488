import Xls.Domains
import Xls.Ir.FunctionBase

/-!
# Query engines

A query engine answers questions about the values the nodes of a function can
take: which bits are known (`getTernary`), which ranges are possible
(`getIntervals`), and relations between located bits. A `QueryEngine` is the
record of its answers once populated on a function; `populate` is what
`Populate(f)` returned.

An engine is `Sound` for a set `E` of evaluations when each of its answers is
a fact of every evaluation in `E`: a known bit has that value, a value lies in
its interval set, bits said to be mutually exclusive are, and so on. A
tracked node's answers have the shape of its type (`shape`, the widths of its
leaves), as a `LeafTypeTree` over the type has.

An evaluation is partial: it gives a value to the nodes that have one. Facts
about located bits are read with `TreeBitLocation.bit`.
-/

namespace Xls

/-- `ReachedFixpoint`: what `Populate` reports, from the most precise
    (`unchanged`) to the least (`unknown`). -/
inductive ReachedFixpoint where
  | unchanged
  | changed
  | unknown
  deriving DecidableEq, Repr

/-- `TreeBitLocation`: bit `bitIndex` of leaf `leaf` of the value of `node`. -/
structure TreeBitLocation where
  node : Nat
  bitIndex : Nat
  leaf : Nat
  deriving DecidableEq, Repr

/-- An evaluation of a function: the value of every node that has one. -/
abbrev Evaluation := Nat → Option Value

/-- The bit at `l` in the evaluation `ev`, if the node has a value with that bit. -/
def TreeBitLocation.bit (ev : Evaluation) (l : TreeBitLocation) : Option Bool :=
  (ev l.node).bind fun v => v.leaves[l.leaf]?.bind (·[l.bitIndex]?)

/-- The answers of a populated query engine (`QueryEngine`'s virtual queries). -/
structure QueryEngine where
  /-- What `Populate(f)` returned. -/
  populate : Except String ReachedFixpoint
  isTracked : Nat → Bool
  getTernary : Nat → List TernaryVector
  getIntervals : Nat → List IntervalSet
  atMostOneTrue : List TreeBitLocation → Bool
  atLeastOneTrue : List TreeBitLocation → Bool
  knownEquals : TreeBitLocation → TreeBitLocation → Bool
  knownNotEquals : TreeBitLocation → TreeBitLocation → Bool
  implies : TreeBitLocation → TreeBitLocation → Bool
  impliedNodeValue : List (TreeBitLocation × Bool) → Nat → Option Bits
  impliedNodeTernary : List (TreeBitLocation × Bool) → Nat → Option TernaryVector

namespace QueryEngine

/-! ## The facts the answers state -/

/-- At most one of the bits is set. -/
def AtMostOneTrue (ev : Evaluation) (ls : List TreeBitLocation) : Prop :=
  ∀ a ∈ ls, ∀ b ∈ ls, a.bit ev = some true → b.bit ev = some true → a = b

/-- Some bit is set, when all of them exist. -/
def AtLeastOneTrue (ev : Evaluation) (ls : List TreeBitLocation) : Prop :=
  (∀ l ∈ ls, (l.bit ev).isSome) → ∃ l ∈ ls, l.bit ev = some true

/-- The bits at `a` and `b` are equal. -/
def KnownEquals (ev : Evaluation) (a b : TreeBitLocation) : Prop :=
  ∀ x y, a.bit ev = some x → b.bit ev = some y → x = y

/-- The bits at `a` and `b` differ. -/
def KnownNotEquals (ev : Evaluation) (a b : TreeBitLocation) : Prop :=
  ∀ x y, a.bit ev = some x → b.bit ev = some y → x ≠ y

/-- The bit at `a` set implies the bit at `b` set. -/
def Implies (ev : Evaluation) (a b : TreeBitLocation) : Prop :=
  ∀ y, a.bit ev = some true → b.bit ev = some y → y = true

/-- The predicate bits have their given values. -/
def Holds (ev : Evaluation) (ps : List (TreeBitLocation × Bool)) : Prop :=
  ∀ p ∈ ps, p.1.bit ev = some p.2

/-- `q` answers soundly for the evaluations `E` of a function whose nodes have
    the leaf widths `shape`. -/
structure Sound (E : Set Evaluation) (shape : Nat → List Nat) (q : QueryEngine) : Prop where
  ternary_shape : ∀ n, q.isTracked n → (q.getTernary n).map List.length = shape n
  intervals_shape : ∀ n, q.isTracked n → (q.getIntervals n).map IntervalSet.bitCount = shape n
  ternary : ∀ ev ∈ E, ∀ n v, ev n = some v → q.isTracked n →
    List.Forall₂ TernaryVector.Contains (q.getTernary n) v.leaves
  intervals : ∀ ev ∈ E, ∀ n v, ev n = some v → q.isTracked n →
    List.Forall₂ (fun s b => IntervalSet.Contains s (Bits.toNat b)) (q.getIntervals n) v.leaves
  atMostOneTrue : ∀ ls, q.atMostOneTrue ls → ∀ ev ∈ E, AtMostOneTrue ev ls
  atLeastOneTrue : ∀ ls, q.atLeastOneTrue ls → ∀ ev ∈ E, AtLeastOneTrue ev ls
  knownEquals : ∀ a b, q.knownEquals a b → ∀ ev ∈ E, KnownEquals ev a b
  knownNotEquals : ∀ a b, q.knownNotEquals a b → ∀ ev ∈ E, KnownNotEquals ev a b
  implies : ∀ a b, q.implies a b → ∀ ev ∈ E, Implies ev a b
  impliedNodeValue : ∀ ps n r, q.impliedNodeValue ps n = some r → ∀ ev ∈ E, Holds ev ps →
    ∀ v, ev n = some v → v = .bits r
  impliedNodeTernary : ∀ ps n t, q.impliedNodeTernary ps n = some t → ∀ ev ∈ E, Holds ev ps →
    ∀ v, ev n = some v → ∃ b, v = .bits b ∧ t.Contains b

/-! ## The queries the base class derives from the ternary answers

Modelled from the spec (query_engine.cc is not in the sources): a located bit
is known when the engine tracks its node and its ternary value is known; a node
is all zeros or fully known when it is tracked and every bit of it is. -/

variable (q : QueryEngine)

/-- `GetTernary(node).Get({})`: the ternary vector of a bits node. -/
def ternary (n : Nat) : TernaryVector := (q.getTernary n).headD []

/-- `KnownValue`: the value of a located bit, if known. -/
def knownValue (l : TreeBitLocation) : Option Bool :=
  if q.isTracked l.node then ((q.getTernary l.node)[l.leaf]?.bind (·[l.bitIndex]?)).bind TernaryValue.toBool?
  else none

/-- `IsKnown`. -/
def isKnown (l : TreeBitLocation) : Bool := (q.knownValue l).isSome

/-- `IsOne`. -/
def isOne (l : TreeBitLocation) : Bool := q.knownValue l == some true

/-- `IsAllZeros`. -/
def isAllZeros (n : Nat) : Bool := q.isTracked n && (q.getTernary n).all fun t => t.all (· == .knownZero)

/-- `IsFullyKnown`. -/
def isFullyKnown (n : Nat) : Bool := q.isTracked n && (q.getTernary n).all fun t => t.all (· != .unknown)

/-- `KnownValueAsBits`. -/
def knownValueAsBits (n : Nat) : Option Bits :=
  if q.isFullyKnown n then some (ternaryOps.toKnownBitsValues (q.ternary n)) else none

/-- The locations of the bits of a bits node of width `w`. -/
def bitLocations (n : Nat) (w : Nat) : List TreeBitLocation := (List.range w).map fun i => ⟨n, i, 0⟩

/-- `AtMostOneBitTrue` of a bits node of width `w`. -/
def atMostOneBitTrue (n : Nat) (w : Nat) : Bool := q.atMostOneTrue (bitLocations n w)

/-- `ExactlyOneBitUnknown` of a bits node of width `w`: the one bit not known,
    when all the others are. -/
def exactlyOneBitUnknown (n : Nat) (w : Nat) : Option TreeBitLocation :=
  match (bitLocations n w).filter fun l => !q.isKnown l with
  | [l] => some l
  | _ => none

/-! ## Soundness of the derived queries -/

section Sound

variable {q} {E : Set Evaluation} {shape : Nat → List Nat} (hq : q.Sound E shape)
  {ev : Evaluation} (hev : ev ∈ E)
include hq hev

theorem ternary_contains {n : Nat} {b : Bits} (hv : ev n = some (.bits b)) (ht : q.isTracked n) :
    (q.ternary n).Contains b := by
  obtain ⟨t, ht', hc⟩ := forall₂_singleton_right (hq.ternary ev hev n _ hv ht)
  simp [ternary, ht', hc]

theorem isAllZeros_sound {n : Nat} {v : Value} (hv : ev n = some v) (h : q.isAllZeros n) :
    ∀ l ∈ v.leaves, Bits.IsZero l := by
  simp only [isAllZeros, Bool.and_eq_true, List.all_eq_true] at h
  intro l hl
  obtain ⟨t, ht, hc⟩ := forall₂_exists_of_mem_right (hq.ternary ev hev n v hv h.1) hl
  exact TernaryVector.isZero_of_contains hc (List.all_eq_true.2 (h.2 t ht))

theorem knownValueAsBits_sound {n : Nat} {b bs : Bits} (hv : ev n = some (.bits b))
    (h : q.knownValueAsBits n = some bs) : b = bs := by
  unfold knownValueAsBits isFullyKnown at h
  split at h
  · rename_i hk
    simp only [Bool.and_eq_true, List.all_eq_true] at hk
    cases h
    have hc := ternary_contains hq hev hv hk.1
    refine (ternaryOps.toKnownBitsValues_of_contains hc (List.all_eq_true.2 (hk.2 _ ?_))).symm
    obtain ⟨t, ht', -⟩ := forall₂_singleton_right (hq.ternary ev hev n _ hv hk.1)
    simp [ternary, ht']
  · cases h

theorem knownValue_sound {l : TreeBitLocation} {v : Value} {x : Bool} (hv : ev l.node = some v)
    (h : q.knownValue l = some x) : l.bit ev = some x := by
  unfold knownValue at h
  split at h
  · rename_i ht
    simp only [Option.bind_eq_some] at h
    obtain ⟨tv, ⟨t, hti, htv⟩, hx⟩ := h
    have hc := hq.ternary ev hev l.node v hv ht
    obtain ⟨b, hb, hc'⟩ := forall₂_getElem?_left hc hti
    obtain ⟨y, hy, hcy⟩ := forall₂_getElem?_left hc' htv
    simp [TreeBitLocation.bit, hv, hb, hy, TernaryValue.eq_of_toBool? hcy hx]
  · cases h

end Sound

end QueryEngine

end Xls

namespace Xls

namespace FunctionBase

/-- The shape of node `n`'s answers: the widths of the leaves of its type. -/
def shape (f : FunctionBase) (n : Nat) : List Nat := (f.tyOf n).leafWidths

/-- The evaluations of `f`: under a typed environment, each node of the table
    has its value if it has one; nodes outside the table are unconstrained, so
    a sound engine says nothing of them. -/
def Evaluations (f : FunctionBase) : Set Evaluation :=
  {ev | ∃ env : Env, env.Typed ∧ ∀ n < f.size, ∀ v, ev n = some v ↔ f.Eval env n v}

/-- Every typed environment gives an evaluation of `f`. -/
theorem exists_evaluation {f : FunctionBase} {env : Env} (henv : env.Typed) :
    ∃ ev ∈ f.Evaluations, ∀ n v, f.Eval env n v → ev n = some v := by
  classical
  have hev : ∀ n v, (if h : ∃ v, f.Eval env n v then some h.choose else none) = some v ↔ f.Eval env n v := by
    intro n v
    split
    · rename_i h
      exact ⟨fun h' => Option.some.inj h' ▸ h.choose_spec, fun h' => congrArg some (eval_unique h.choose_spec h')⟩
    · rename_i h
      exact ⟨(fun h' => nomatch h'), fun h' => absurd ⟨v, h'⟩ h⟩
  exact ⟨_, ⟨env, henv, fun n _ v => hev n v⟩, fun n v h => (hev n v).2 h⟩

end FunctionBase

end Xls
