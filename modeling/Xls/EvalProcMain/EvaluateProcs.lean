import Xls.Value

/-!
# Proc network evaluation (`EvaluateProcs`)

`EvaluateProcs` of `eval_proc_main` runs a proc network on a serial runtime: it
writes the input values to their channels' queues, then, for each entry of
`--ticks`, resets the procs' state (the queues are kept, so a later run sees what
an earlier one left) and ticks: a given number of times, or, for a negative
entry, until every expected output channel holds at least as many values as
expected. At the end it reads the expected outputs off their queues and
compares them.

When a negative-tick run converges, the source lists the inputs no proc has
consumed in a warning. It builds that list by reading the values off each
input queue that is not single-value (`while (!in_queue->IsEmpty())
unconsumed_inputs[...].push_back(*in_queue->Read())`), so the check empties
those queues.

* `collectUnconsumedInputs_queues`: after the check, every such input queue is
  empty and the others are as they were;
* `unconsumed_input_lost`: with `--ticks -1,1`, an input value the first run
  leaves is read off its queue by the check, and the second run never
  receives it;
* `verifyOutputs_reports_each_channel`: the final comparison passes exactly
  when every expected channel reads its expected values and some value was
  expected, and otherwise reports each failing channel once.
-/

namespace Xls.EvalProcMain

/-- `ChannelKind`. -/
inductive ChannelKind where
  | streaming
  | singleValue
  deriving DecidableEq

/-- The channel queues of the runtime's queue manager, front first. -/
abbrev Queues (Name : Type) := Name → List Value

/-- `ChannelQueue::Write` (modelled from the spec: the channel queues are not in
    the sources): a streaming queue appends the value, a single-value queue
    holds the last value written. -/
def writeQueue (kind : ChannelKind) (queue : List Value) (v : Value) : List Value :=
  match kind with
  | .streaming => queue ++ [v]
  | .singleValue => [v]

/-- `ChannelQueue::Read` (modelled from the spec): the front value, which a
    streaming queue drops and a single-value queue keeps. -/
def readQueue (kind : ChannelKind) : List Value → Option Value × List Value
  | [] => (none, [])
  | v :: queue =>
    match kind with
    | .streaming => (some v, queue)
    | .singleValue => (some v, v :: queue)

/-- The proc network a serial runtime evaluates (modelled from the spec: the
    runtime is not in the sources): the kind of each channel, the procs'
    initial state, and one `Tick`, which takes the procs' state and the queues
    to new ones together with the assertion messages that fired (each already
    prefixed with its proc's name), or fails. -/
structure ProcNetwork (Name State : Type) where
  kind : Name → ChannelKind
  initialState : State
  tick : State → Queues Name → Except String (State × Queues Name × List String)

/-- The runtime: the procs' state and the channel queues. -/
structure Runtime (Name State : Type) where
  state : State
  queues : Queues Name

/-- An error of the final check of an expected output channel. -/
inductive OutputCheckError where
  /-- "Channel didn't consume %d expected values (processed %d)". -/
  | didNotConsume (missing processed : Nat)
  /-- "Mismatched (channel) after %d outputs (%s != %s)": expected, then read. -/
  | mismatched (processed : Nat) (expected actual : Value)

/-- How `EvaluateProcs` fails. -/
inductive EvaluateProcsError (Name : Type) where
  /-- `runtime->Tick()` failed. -/
  | tick (msg : String)
  /-- "Assert(s) fired", with `fail_on_assert`. -/
  | assertsFired (msgs : List String)
  /-- "Outputs did not match expectations". -/
  | outputsDidNotMatch (errors : List (Name × OutputCheckError))
  /-- "No output verified (empty expected values?)". -/
  | noOutputVerified

variable {Name State : Type} [DecidableEq Name]

/-- The input values written to their channels' queues, channel by channel. -/
def loadInputs (kind : Name → ChannelKind) (inputs : List (Name × List Value)) (queues : Queues Name) :
    Queues Name :=
  inputs.foldl (fun queues input =>
    Function.update queues input.1 (input.2.foldl (writeQueue (kind input.1)) (queues input.1))) queues

/-- Every expected output channel holds at least as many values as expected
    (`all_outputs_produced`). -/
def allOutputsProduced (expected : List (Name × List Value)) (queues : Queues Name) : Bool :=
  expected.all fun output => decide (output.2.length ≤ (queues output.1).length)

/-- `while (!in_queue->IsEmpty()) read.push_back(*in_queue->Read())`: the values
    read off a streaming queue, and the queue after. -/
def drain : List Value → List Value → List Value × List Value
  | [], read => (read, [])
  | v :: queue, read => drain queue (read ++ [v])

/-- The convergence check's list of unconsumed inputs: for each input channel,
    in the map's order, that is not single-value, the values read off its
    queue. The queues after it, and `unconsumed_inputs` (the channels a value
    was read off, with the values). -/
def collectUnconsumedInputs (kind : Name → ChannelKind) :
    List Name → Queues Name → Queues Name × List (Name × List Value)
  | [], queues => (queues, [])
  | c :: cs, queues =>
    if kind c = .singleValue then collectUnconsumedInputs kind cs queues
    else
      let drained := drain (queues c) []
      let rest := collectUnconsumedInputs kind cs (Function.update queues c drained.2)
      (rest.1, if drained.1.isEmpty then rest.2 else (c, drained.1) :: rest.2)

/-- The tick loop of one entry `thisTicks` of `--ticks`, from tick `i`, with at
    most `fuel` more iterations (`none` when they run out): `thisTicks` ticks,
    or, for a negative entry, ticks until every expected output is produced,
    when the convergence check runs and the loop breaks. -/
def tickLoop (net : ProcNetwork Name State) (failOnAssert : Bool) (inputs expected : List (Name × List Value))
    (thisTicks : Int) : Nat → Nat → Runtime Name State → Option (Except (EvaluateProcsError Name) (Runtime Name State))
  | 0, _, _ => none
  | fuel + 1, i, rt =>
    if thisTicks < 0 ∨ i < thisTicks then
      match net.tick rt.state rt.queues with
      | .error e => some (.error (.tick e))
      | .ok (state, queues, asserts) =>
        if failOnAssert && !asserts.isEmpty then some (.error (.assertsFired asserts))
        else if thisTicks < 0 && allOutputsProduced expected queues then
          some (.ok ⟨state, (collectUnconsumedInputs net.kind (inputs.map Prod.fst) queues).1⟩)
        else tickLoop net failOnAssert inputs expected thisTicks fuel (i + 1) ⟨state, queues⟩
    else some (.ok rt)

/-- The runs of `EvaluateProcs`, one per entry of `--ticks`: `ResetState`
    restores the procs' initial state and keeps the queues. -/
def evaluateRuns (net : ProcNetwork Name State) (failOnAssert : Bool) (inputs expected : List (Name × List Value))
    (fuel : Nat) : List Int → Runtime Name State → Option (Except (EvaluateProcsError Name) (Runtime Name State))
  | [], rt => some (.ok rt)
  | thisTicks :: ticks, rt =>
    match tickLoop net failOnAssert inputs expected thisTicks fuel 0 { rt with state := net.initialState } with
    | some (.ok rt) => evaluateRuns net failOnAssert inputs expected fuel ticks rt
    | r => r

/-- The final check of one expected output channel: its expected values read
    off the queue in order, up to the first missing or mismatched one. The
    queue after it, the error, and whether a value was matched. -/
def checkOutputValues (kind : ChannelKind) (processed : Nat) :
    List Value → List Value → List Value × Option OutputCheckError × Bool
  | [], queue => (queue, none, false)
  | value :: rest, queue =>
    match readQueue kind queue with
    | (none, queue) => (queue, some (.didNotConsume (rest.length + 1) processed), false)
    | (some out, queue) =>
      if value ≠ out then (queue, some (.mismatched processed value out), false)
      else
        let r := checkOutputValues kind (processed + 1) rest queue
        (r.1, r.2.1, true)

/-- The final check of the expected outputs, channel by channel: the errors and
    whether any value was matched (`checked_any_output`). -/
def checkOutputs (kind : Name → ChannelKind) :
    List (Name × List Value) → Queues Name → List (Name × OutputCheckError) × Bool
  | [], _ => ([], false)
  | (c, values) :: rest, queues =>
    let r := checkOutputValues (kind c) 0 values (queues c)
    let rest := checkOutputs kind rest (Function.update queues c r.1)
    ((match r.2.1 with | some e => [(c, e)] | none => []) ++ rest.1, r.2.2 || rest.2)

/-- `EvaluateProcs`, with at most `fuel` ticks per run: the inputs loaded on a
    fresh runtime, the runs, and the final check of the outputs. -/
def evaluateProcs (net : ProcNetwork Name State) (failOnAssert : Bool) (ticks : List Int)
    (inputs expected : List (Name × List Value)) (fuel : Nat) :
    Option (Except (EvaluateProcsError Name) (Runtime Name State)) :=
  match evaluateRuns net failOnAssert inputs expected fuel ticks
      ⟨net.initialState, loadInputs net.kind inputs fun _ => []⟩ with
  | some (.ok rt) =>
    let r := checkOutputs net.kind expected rt.queues
    if !r.1.isEmpty then some (.error (.outputsDidNotMatch r.1))
    else if !r.2 && !expected.isEmpty then some (.error .noOutputVerified)
    else some (.ok rt)
  | r => r

/-! ## The convergence check empties the input queues -/

theorem drain_eq : ∀ (queue read : List Value), drain queue read = (read ++ queue, [])
  | [], read => by simp [drain]
  | v :: queue, read => by simp [drain, drain_eq queue]

/-- After the convergence check, each input channel that is not single-value
    has an empty queue, and every other channel's queue is as it was. -/
theorem collectUnconsumedInputs_queues (kind : Name → ChannelKind) :
    ∀ (cs : List Name) (queues : Queues Name) (c : Name), (collectUnconsumedInputs kind cs queues).1 c =
      if c ∈ cs ∧ kind c ≠ .singleValue then [] else queues c
  | [], queues, c => by simp [collectUnconsumedInputs]
  | x :: cs, queues, c => by
    unfold collectUnconsumedInputs
    split
    · rw [collectUnconsumedInputs_queues kind cs queues c]
      by_cases hc : c = x <;> simp_all
    · rw [collectUnconsumedInputs_queues kind cs _ c, drain_eq]
      by_cases hc : c = x
      · subst hc; simp_all
      · simp_all

/-! ## An input left by one run is lost to the next

A proc that in each tick moves the front of its input channel to its output
channel, given two inputs and expecting one output, run with `--ticks -1,1`:
the first run converges after one tick with the second input still queued,
the convergence check reads it off the queue, and the second run ticks on an
empty input queue, so the value never reaches the output. -/

section LostInput

/-- The channels of the echo proc. -/
inductive EchoChannel where
  | input
  | output
  deriving DecidableEq

/-- A proc that, in each tick, moves the front of `input` to the back of
    `output`. -/
def echoNetwork : ProcNetwork EchoChannel Unit where
  kind _ := .streaming
  initialState := ()
  tick _ queues := .ok ((), (match queues .input with
    | [] => queues
    | v :: rest => Function.update (Function.update queues .input rest) .output (queues .output ++ [v])), [])

/-- Two input values. -/
def echoInputs : List (EchoChannel × List Value) := [(.input, [.bits [true], .bits [false]])]

/-- One expected output value. -/
def echoExpected : List (EchoChannel × List Value) := [(.output, [.bits [true]])]

/-- The queues once the inputs are loaded. -/
def echoLoaded : Queues EchoChannel := loadInputs echoNetwork.kind echoInputs fun _ => []

theorem unconsumed_input_lost :
    ((echoNetwork.tick () echoLoaded).toOption.map fun r => r.2.1 .input) = some [.bits [false]] ∧
      ((evaluateRuns echoNetwork false echoInputs echoExpected 2 [-1] ⟨(), echoLoaded⟩).bind
        Except.toOption).map (·.queues .input) = some [] ∧
      ((evaluateRuns echoNetwork false echoInputs echoExpected 2 [-1, 1] ⟨(), echoLoaded⟩).bind
        Except.toOption).map (·.queues .output) = some [.bits [true]] :=
  ⟨rfl, rfl, rfl⟩

end LostInput

/-! ## The final check reports every failing channel

The verification phase of `EvaluateProcs` reads each expected output channel's
values off its queue, in the map's order, and stops at a channel's first
missing or mismatched value but goes on with the next channel. Stated against
what `n` reads of a queue return (`readValues`) and what an error says
(`OutputCheckError.Reports`):

* `checkOutputValues_eq_none_iff`, `checkOutputValues_reports`: one channel's
  check passes exactly when the values read are the expected ones, and
  otherwise reports its first failure;
* `checkOutputs_eq`: with the map's channels distinct, each channel's check reads
  its own queue as the runs left it;
* `verifyOutputs_reports_each_channel`: the phase passes exactly when every
  channel reads its expected values and some value was expected, and otherwise
  has one entry per failing channel. -/

/-- The verification phase of `EvaluateProcs`, on the queues the runs leave. -/
def verifyOutputs (kind : Name → ChannelKind) (expected : List (Name × List Value)) (queues : Queues Name) :
    Except (EvaluateProcsError Name) Unit :=
  let r := checkOutputs kind expected queues
  if !r.1.isEmpty then .error (.outputsDidNotMatch r.1)
  else if !r.2 && !expected.isEmpty then .error .noOutputVerified
  else .ok ()

theorem evaluateProcs_eq (net : ProcNetwork Name State) (failOnAssert : Bool) (ticks : List Int)
    (inputs expected : List (Name × List Value)) (fuel : Nat) :
    evaluateProcs net failOnAssert ticks inputs expected fuel =
      (evaluateRuns net failOnAssert inputs expected fuel ticks
        ⟨net.initialState, loadInputs net.kind inputs fun _ => []⟩).map fun r =>
          r.bind fun rt => (verifyOutputs net.kind expected rt.queues).map fun _ => rt := by
  unfold evaluateProcs verifyOutputs
  rcases evaluateRuns net failOnAssert inputs expected fuel ticks _ with _ | _ | rt
  · rfl
  · rfl
  · dsimp only [Option.map, Except.bind]
    split_ifs <;> rfl

/-- The values `n` successive `Read`s of a queue return, up to the first that
    finds it empty. -/
def readValues (kind : ChannelKind) : Nat → List Value → List Value
  | 0, _ => []
  | n + 1, queue =>
    match readQueue kind queue with
    | (some v, queue) => v :: readValues kind n queue
    | (none, _) => []

/-- `e` reports the first failure of `reads`, the values read off a channel,
    against the expected `values`: after `processed` matching values the queue ran
    out, or the next value read differs from the expected one. -/
def OutputCheckError.Reports (values reads : List Value) : OutputCheckError → Prop
  | .didNotConsume missing processed =>
    reads = values.take processed ∧ processed < values.length ∧ missing = values.length - processed
  | .mismatched processed expected actual =>
    reads.take processed = values.take processed ∧ values[processed]? = some expected ∧
      reads[processed]? = some actual ∧ expected ≠ actual

section FinalCheck

variable {kind : ChannelKind}

theorem checkOutputValues_eq_none_iff : ∀ (values : List Value) (processed : Nat) (queue : List Value),
    (checkOutputValues kind processed values queue).2.1 = none ↔ readValues kind values.length queue = values
  | [], _, _ => by simp [checkOutputValues, readValues]
  | value :: rest, processed, queue => by
    rcases h : readQueue kind queue with ⟨_ | out, queue'⟩
    · simp [checkOutputValues, readValues, h]
    · by_cases hv : value = out
      · subst hv
        simp [checkOutputValues, readValues, h, checkOutputValues_eq_none_iff rest]
      · simp [checkOutputValues, readValues, h, hv, Ne.symm hv]

theorem checkOutputValues_matched : ∀ (values : List Value) (processed : Nat) (queue : List Value),
    (checkOutputValues kind processed values queue).2.1 = none →
      ((checkOutputValues kind processed values queue).2.2 = true ↔ values ≠ [])
  | [], _, _, _ => by simp [checkOutputValues]
  | value :: rest, processed, queue, hnone => by
    rcases h : readQueue kind queue with ⟨_ | out, queue'⟩ <;>
      simp only [checkOutputValues, h] at hnone ⊢
    · cases hnone
    · split_ifs at hnone ⊢
      simp_all

theorem checkOutputValues_reports : ∀ (values pre queue : List Value) (e : OutputCheckError),
    (checkOutputValues kind pre.length values queue).2.1 = some e →
      e.Reports (pre ++ values) (pre ++ readValues kind values.length queue)
  | [], _, _, _, h => by simp [checkOutputValues] at h
  | value :: rest, pre, queue, e, h => by
    rcases hr : readQueue kind queue with ⟨_ | out, queue'⟩
    · -- the queue ran out
      simp only [checkOutputValues, hr, Option.some.injEq] at h
      subst h
      simp [OutputCheckError.Reports, readValues, hr]
    · by_cases hv : value = out
      · -- the value matched: the rest is checked with one more processed
        subst hv
        simp only [checkOutputValues, hr, ne_eq, not_true_eq_false, if_false] at h
        have := checkOutputValues_reports rest (pre ++ [value]) queue' e (by simpa using h)
        simpa [readValues, hr] using this
      · -- the first mismatch
        simp only [checkOutputValues, hr, ne_eq, hv, not_false_eq_true, if_true, Option.some.injEq] at h
        subst h
        simp [OutputCheckError.Reports, readValues, hr, hv, List.getElem?_append_right le_rfl]

end FinalCheck

/-- With the channels of the map distinct, the checks of the channels do not
    see each other's reads: on two queue maps that agree on the map's channels,
    the errors are those of each channel's own check, in the map's order, and a
    value was matched when one was on some channel. -/
theorem checkOutputs_eq (kind : Name → ChannelKind) :
    ∀ (expected : List (Name × List Value)) (queues queues' : Queues Name), (expected.map Prod.fst).Nodup →
      (∀ cv ∈ expected, queues cv.1 = queues' cv.1) →
      checkOutputs kind expected queues =
        (expected.filterMap fun cv => (checkOutputValues (kind cv.1) 0 cv.2 (queues' cv.1)).2.1.map (cv.1, ·),
          expected.any fun cv => (checkOutputValues (kind cv.1) 0 cv.2 (queues' cv.1)).2.2)
  | [], _, _, _, _ => rfl
  | (c, values) :: rest, queues, queues', hnd, hq => by
    rw [List.map_cons, List.nodup_cons] at hnd
    have hc : queues c = queues' c := hq _ (.head _)
    have hrest := checkOutputs_eq kind rest
        (Function.update queues c (checkOutputValues (kind c) 0 values (queues' c)).1) queues' hnd.2 fun cv hcv => by
      have hne : cv.1 ≠ c := by rintro rfl; exact hnd.1 (List.mem_map.2 ⟨cv, hcv, rfl⟩)
      rw [Function.update_noteq hne]
      exact hq cv (.tail _ hcv)
    simp only [checkOutputs, hrest, hc, List.filterMap_cons, List.any_cons]
    cases (checkOutputValues (kind c) 0 values (queues' c)).2.1 <;> rfl

theorem forall₂_filter_filterMap {α β : Type} {g : α → Option β} {p : α → Bool} {R : α → β → Prop}
    (hg : ∀ a, (g a).isSome = p a) (hR : ∀ a b, g a = some b → R a b) :
    ∀ l : List α, List.Forall₂ R (l.filter p) (l.filterMap g)
  | [] => .nil
  | a :: l => by
    rw [List.filter_cons, List.filterMap_cons, ← hg a]
    rcases h : g a with _ | b
    · exact forall₂_filter_filterMap hg hR l
    · exact .cons (hR a b h) (forall₂_filter_filterMap hg hR l)

/-- The verification phase on any contents of the queues and a non-empty map of
    expected outputs (a map, so its channels are distinct): it passes exactly
    when some value was expected and every channel's values read off its queue
    are the expected ones. When some channel fails, the error has exactly one
    entry per failing channel, in the map's order, each reporting that
    channel's first failure; when every expected list is empty, no output was
    verified. -/
theorem verifyOutputs_reports_each_channel (kind : Name → ChannelKind) (expected : List (Name × List Value))
    (queues : Queues Name) (hnodup : (expected.map Prod.fst).Nodup) (hne : expected ≠ []) :
    (verifyOutputs kind expected queues = .ok () ↔
      (∃ cv ∈ expected, cv.2 ≠ []) ∧ ∀ cv ∈ expected, readValues (kind cv.1) cv.2.length (queues cv.1) = cv.2) ∧
    ((∃ cv ∈ expected, readValues (kind cv.1) cv.2.length (queues cv.1) ≠ cv.2) →
      ∃ errors, verifyOutputs kind expected queues = .error (.outputsDidNotMatch errors) ∧
        List.Forall₂ (fun cv ce => ce.1 = cv.1 ∧ ce.2.Reports cv.2 (readValues (kind cv.1) cv.2.length (queues cv.1)))
          (expected.filter fun cv => readValues (kind cv.1) cv.2.length (queues cv.1) ≠ cv.2) errors) ∧
    ((∀ cv ∈ expected, cv.2 = []) → verifyOutputs kind expected queues = .error .noOutputVerified) := by
  have heq := checkOutputs_eq kind expected queues queues hnodup fun _ _ => rfl
  have hnone (cv : Name × List Value) := @checkOutputValues_eq_none_iff (kind cv.1) cv.2 0 (queues cv.1)
  -- no error is reported exactly when every channel reads its expected values
  have herrs : (checkOutputs kind expected queues).1 = [] ↔
      ∀ cv ∈ expected, readValues (kind cv.1) cv.2.length (queues cv.1) = cv.2 := by
    simp only [heq, List.filterMap_eq_nil_iff, Option.map_eq_none', hnone]
  -- and then a value was matched exactly when one was expected
  have hmatched (hall : ∀ cv ∈ expected, readValues (kind cv.1) cv.2.length (queues cv.1) = cv.2) :
      (checkOutputs kind expected queues).2 = true ↔ ∃ cv ∈ expected, cv.2 ≠ [] := by
    simp only [heq, List.any_eq_true]
    exact exists_congr fun cv => and_congr_right fun hcv =>
      checkOutputValues_matched cv.2 0 (queues cv.1) ((hnone cv).2 (hall cv hcv))
  have hexp : expected.isEmpty = false := List.isEmpty_eq_false.2 hne
  dsimp only [verifyOutputs]
  split_ifs with h1 h2
  · -- some error is reported
    simp only [Bool.not_eq_eq_eq_not, Bool.not_true, List.isEmpty_eq_false] at h1
    refine ⟨iff_of_false not_false fun h => h1 (herrs.2 h.2), fun ⟨cv, hcv, hfail⟩ => ⟨_, rfl, ?_⟩,
      fun hempty => absurd (herrs.2 fun cv hcv => by rw [hempty cv hcv]; rfl) h1⟩
    rw [heq]
    refine forall₂_filter_filterMap (fun cv => ?_) (fun cv ce h => ?_) expected
    · rw [Bool.eq_iff_iff, Option.isSome_map', Option.isSome_iff_ne_none, decide_eq_true_iff, ne_eq, ne_eq, hnone]
    · obtain ⟨e, he, rfl⟩ := Option.map_eq_some'.1 h
      exact ⟨rfl, checkOutputValues_reports cv.2 [] (queues cv.1) e he⟩
  · -- no error, and nothing matched
    simp only [hexp, Bool.not_false, Bool.and_true, Bool.not_eq_eq_eq_not, Bool.not_true, List.isEmpty_eq_false,
      not_not] at h1 h2
    refine ⟨iff_of_false not_false fun h => Bool.noConfusion (h2.symm.trans ((hmatched h.2).2 h.1)),
      fun ⟨cv, hcv, hfail⟩ => absurd (herrs.1 h1 cv hcv) hfail, fun _ => rfl⟩
  · -- no error, and a value matched
    simp only [hexp, Bool.not_false, Bool.and_true, Bool.not_eq_eq_eq_not, Bool.not_true, List.isEmpty_eq_false,
      not_not, Bool.not_eq_false] at h1 h2
    refine ⟨iff_of_true rfl ⟨(hmatched (herrs.1 h1)).1 h2, herrs.1 h1⟩,
      fun ⟨cv, hcv, hfail⟩ => absurd (herrs.1 h1 cv hcv) hfail, fun hempty => ?_⟩
    obtain ⟨cv, hcv, hne⟩ := (hmatched (herrs.1 h1)).1 h2
    exact absurd (hempty cv hcv) hne

/-- The echo proc's expected output, read off a queue holding it, passes. -/
theorem verifyOutputs_reports_each_channel_echoExpected :
    verifyOutputs echoNetwork.kind echoExpected (fun _ => [.bits [true]]) = .ok () :=
  (verifyOutputs_reports_each_channel echoNetwork.kind echoExpected (fun _ => [.bits [true]]) (by decide)
    (List.cons_ne_nil _ _)).1.2 ⟨⟨_, .head _, List.cons_ne_nil _ _⟩, fun cv hcv => by
      rw [List.mem_singleton.1 hcv]
      rfl⟩

end Xls.EvalProcMain
