import Xls.EvalProcMain.RunBlock
import Xls.Ir.FunctionBase
import Mathlib.Data.List.Nodup

/-!
# One cycle of `RunBlock`, phase by phase

`cycleStep` cut where the source's loop body changes what it does: the drive,
the block's run and its assertions (`runOneCycle`); the input transfers, the
output checks and the memories' requests of a non-reset cycle (`afterBlock`);
and the exit and the timeout at its end (`endCycle`). `cycleStep_eq` puts them
back together, and each phase gets one lemma saying all it can do:

* `inputSet_ready`: the testbench drives every expected output channel's ready
  high; `inputSet_valid`: with the driven ports distinct, it drives an input
  channel's valid high exactly when the channel's Bernoulli trial succeeds and
  its queue is not empty, with the front of the queue on its data port, so a
  channel transfers only the front of a nonempty queue (`runOneCycle_transfer`);
* `afterBlock_spec`: with the channels distinct, a cycle that passes its
  checks drops the front of each input queue whose channel transfers and of
  each expected output queue whose channel presents a value, that value
  matching the front, and moves the last output cycle to this one when some
  value was presented;
* `checkCycle_ne_noOutput`: only the end of a cycle fails with the no-output
  error.
-/

namespace Xls.EvalProcMain

variable {Name : Type} [DecidableEq Name]

/-! ## Well-formed testbenches -/

/-- The ports of an input channel the testbench drives: its valid and, for a
    channel of nonzero width whose data port the block has, its data; a
    single-value channel's port has the channel's name. -/
def inputChannelPorts (tb : Testbench Name) (name : Name) : List Name :=
  if (tb.channelInfo name).readyValid then
    (tb.channelInfo name).channelValid ::
      if (tb.channelInfo name).width ≠ 0 ∧ (tb.inputPortType (tb.channelInfo name).channelData).isSome then
        [(tb.channelInfo name).channelData]
      else []
  else [name]

/-- The ports the testbench drives after the reset port, in the order it
    drives them. -/
def drivenPorts (tb : Testbench Name) : List Name :=
  tb.inputChannels.flatMap (inputChannelPorts tb) ++ tb.memories.map (fun m => (tb.ramInfo m).rdData) ++
    tb.outputChannels.map fun name => (tb.channelInfo name).channelReady

/-- The channels as `RunBlock` sets them up: the keys of the input map and of
    the expected-output map, so each without repeats, and no channel in both
    (`CHECK(!channel_value_queues.contains(name))`). -/
structure Testbench.ChannelsDistinct (tb : Testbench Name) : Prop where
  inputs_nodup : tb.inputChannels.Nodup
  outputs_nodup : tb.outputChannels.Nodup
  disjoint : ∀ name ∈ tb.inputChannels, name ∉ tb.outputChannels

instance (tb : Testbench Name) : Decidable tb.ChannelsDistinct :=
  decidable_of_iff (tb.inputChannels.Nodup ∧ tb.outputChannels.Nodup ∧
      ∀ name ∈ tb.inputChannels, name ∉ tb.outputChannels)
    ⟨fun ⟨h₁, h₂, h₃⟩ => ⟨h₁, h₂, h₃⟩, fun ⟨h₁, h₂, h₃⟩ => ⟨h₁, h₂, h₃⟩⟩

/-- The ports the testbench drives are distinct ports of the block. -/
def Testbench.PortsDistinct (tb : Testbench Name) : Prop := (drivenPorts tb).Nodup

instance (tb : Testbench Name) : Decidable tb.PortsDistinct := inferInstanceAs (Decidable (drivenPorts tb).Nodup)

/-! ## What the testbench sees of a cycle -/

/-- An input channel transfers a value: it is ready/valid, and its valid,
    driven by the testbench, and its ready, output by the block, are both
    high. -/
def transferOn (tb : Testbench Name) (inputs outputs : PortValues Name) (name : Name) : Bool :=
  (tb.channelInfo name).readyValid && ((inputs (tb.channelInfo name).channelValid).map bitZero).getD false &&
    ((outputs (tb.channelInfo name).channelReady).map bitZero).getD false

/-- An expected output channel presents a value: its valid, output by the
    block, is high (the testbench drives its ready high). -/
def presents (tb : Testbench Name) (outputs : PortValues Name) (name : Name) : Bool :=
  ((outputs (tb.channelInfo name).channelValid).map bitZero).getD false

/-- The value an output channel presents: its data port's, or none for a
    channel of width zero, which has no data port. -/
def presentedData (tb : Testbench Name) (outputs : PortValues Name) (name : Name) : Option Value :=
  if (tb.channelInfo name).width ≠ 0 then outputs (tb.channelInfo name).channelData else none

/-- What the output check accepts: the value presented is the expected one,
    or, on a channel of width zero, the expected value has no bits. -/
def Matches (info : ChannelInfo Name) (data : Option Value) (expected : Value) : Prop :=
  if info.width ≠ 0 then data = some expected else expected.flatBitCount = 0

instance (info : ChannelInfo Name) (data : Option Value) (expected : Value) :
    Decidable (Matches info data expected) :=
  inferInstanceAs (Decidable (if _ then _ else _))

/-! ## The phases of a cycle -/

/-- The drive of a cycle, the block's run on it and the check of the
    assertions that fired: the inputs driven and the block's outputs. -/
def runOneCycle (tb : Testbench Name) (block : Block Name) (bernoulli : Nat → Name → Bool) (cycle : Nat)
    (s : RunState Name) : Except (RunBlockError Name) (PortValues Name × PortValues Name) := do
  let inputs ← inputSet tb s cycle (bernoulli cycle)
  let (outputs, asserts) ← match block cycle inputs with
    | .ok r => pure r
    | .error e => throw (.block e)
  if !asserts.isEmpty && tb.failOnAssert then throw (.assertsFired asserts)
  return (inputs, outputs)

/-- The rest of a non-reset cycle up to its end: the input transfers, the
    output checks and the memories' requests. -/
def afterBlock (tb : Testbench Name) (inputs outputs : PortValues Name) (cycle : Nat) (s : RunState Name) :
    Except (RunBlockError Name) (RunState Name) := do
  let queues ← tb.inputChannels.foldlM (consumeInput tb inputs outputs) s.queues
  let (errors, s) ← tb.outputChannels.foldlM (checkOutput tb inputs outputs cycle) ([], { s with queues })
  if !errors.isEmpty then throw (.outputsDidNotMatch cycle errors)
  let memories ← serviceMemories tb outputs tb.memories s.memories
  return { s with memories }

/-- A non-reset cycle up to its end. -/
def checkCycle (tb : Testbench Name) (block : Block Name) (bernoulli : Nat → Name → Bool) (cycle : Nat)
    (s : RunState Name) : Except (RunBlockError Name) (RunState Name) := do
  let (inputs, outputs) ← runOneCycle tb block bernoulli cycle s
  afterBlock tb inputs outputs cycle s

/-- The end of a non-reset cycle: out of the loop when every expected output
    queue is empty, else the no-output timeout, else the memories' tick. -/
def endCycle (tb : Testbench Name) (cycle : Nat) (s : RunState Name) : Except (RunBlockError Name) (CycleEnd Name) :=
  if allOutputQueuesEmpty tb s.queues then .ok (.done s)
  else if cycle - s.lastOutputCycle > tb.maxCyclesNoOutput then .error (.noOutput tb.maxCyclesNoOutput)
  else .ok (.next { s with memories := fun m => (s.memories m).tick })


@[simp] theorem except_ok_bind {ε α β : Type} (a : α) (g : α → Except ε β) : (Except.ok a >>= g) = g a := rfl

@[simp] theorem except_error_bind {ε α β : Type} (e : ε) (g : α → Except ε β) :
    (Except.error e >>= g) = .error e := rfl

@[simp] theorem except_pure {ε α : Type} (a : α) : (pure a : Except ε α) = .ok a := rfl

@[simp] theorem bitZero_boolValue (b : Bool) : bitZero (boolValue b) = b := rfl

omit [DecidableEq Name] in
@[simp] theorem lookup_eq_ok {m : PortValues Name} {k : Name} {v : Value} : lookup m k = .ok v ↔ m k = some v := by
  unfold lookup
  split <;> simp_all

/-! ## The drive -/

section Drive

variable {tb : Testbench Name} {queues : Name → List Value} {bernoulli : Name → Bool}

end Drive

/-! ## The input set -/

section InputSet

variable {tb : Testbench Name} {s : RunState Name} {cycle : Nat} {bernoulli : Name → Bool}
  {inputs : PortValues Name}

/-- The drive of the expected outputs' readies: each channel must be
    ready/valid, and its ready is driven high. -/
theorem foldlM_ready :
    ∀ (names : List Name) (set r : PortValues Name),
      names.foldlM (fun set name =>
        if (tb.channelInfo name).readyValid then
          Except.ok (Function.update set (tb.channelInfo name).channelReady (some (boolValue true)))
        else (Except.error (.checkFailed "info.ready_valid") : Except (RunBlockError Name) _)) set = .ok r →
      (∀ o ∈ names, (tb.channelInfo o).readyValid = true) ∧
      ∀ p, r p = if p ∈ names.map (fun o => (tb.channelInfo o).channelReady) then some (boolValue true) else set p
  | [], set, r, h => ⟨fun _ h => absurd h (List.not_mem_nil _), fun p => by simp [← Except.ok.inj h]⟩
  | name :: rest, set, r, h => by
    rw [List.foldlM_cons] at h
    obtain ⟨set', h1, h⟩ := except_bind_eq_ok.1 h
    split_ifs at h1 with hrv
    cases h1
    obtain ⟨hrest, hr⟩ := foldlM_ready rest _ r h
    refine ⟨List.forall_mem_cons.2 ⟨hrv, hrest⟩, fun p => ?_⟩
    rw [hr p, Function.update_apply]
    by_cases h1 : p = (tb.channelInfo name).channelReady <;>
      by_cases h2 : p ∈ rest.map (fun o => (tb.channelInfo o).channelReady) <;> simp [h1, h2]

/-- The testbench drives the ready of every expected output channel high, and
    each of them is ready/valid. -/
theorem inputSet_ready (h : inputSet tb s cycle bernoulli = .ok inputs) :
    ∀ o ∈ tb.outputChannels,
      (tb.channelInfo o).readyValid = true ∧ inputs (tb.channelInfo o).channelReady = some (boolValue true) := by
  unfold inputSet at h
  obtain ⟨_, -, h⟩ := except_bind_eq_ok.1 h
  obtain ⟨hrv, hr⟩ := foldlM_ready _ _ _ h
  exact fun o ho => ⟨hrv o ho, by rw [hr, if_pos (List.mem_map_of_mem _ ho)]⟩

end InputSet

/-! ## The checks after the block's run -/

section Checks

variable {tb : Testbench Name} {inputs outputs : PortValues Name} {cycle : Nat}

/-- An input channel's consumption drops the front of its queue exactly when
    it transfers. -/
theorem consumeInput_ok {queues queues' : Name → List Value} {name : Name}
    (h : consumeInput tb inputs outputs queues name = .ok queues') :
    queues' = if transferOn tb inputs outputs name then Function.update queues name (queues name).tail
      else queues := by
  unfold consumeInput at h
  unfold transferOn
  cases hrv : (tb.channelInfo name).readyValid
  · simp [hrv] at h
    simp [h]
  rcases hv : inputs (tb.channelInfo name).channelValid with _ | v <;>
    rcases hr : outputs (tb.channelInfo name).channelReady with _ | r <;>
    simp [hv, hr, hrv, lookup] at h ⊢
  exact h.symm

/-- An expected output channel's check: a channel that presents no value
    changes nothing; one that presents the front of its queue drops it and
    moves the last output cycle to this one; anything else adds an error. -/
theorem checkOutput_ok {errors errors' : List (OutputError Name)} {s s' : RunState Name} {name : Name}
    (hrdy : inputs (tb.channelInfo name).channelReady = some (boolValue true))
    (h : checkOutput tb inputs outputs cycle (errors, s) name = .ok (errors', s')) :
    presents tb outputs name = false ∧ errors' = errors ∧ s' = s ∨
      presents tb outputs name = true ∧ (∃ v rest, s.queues name = v :: rest ∧
        Matches (tb.channelInfo name) (presentedData tb outputs name) v ∧ errors' = errors ∧
        s' = { s with queues := Function.update s.queues name rest, matchedOutputs := s.matchedOutputs + 1,
                      lastOutputCycle := cycle }) ∨
      ∃ err, errors' = errors ++ [err] := by
  unfold checkOutput at h
  rcases hv : outputs (tb.channelInfo name).channelValid with _ | v
  · simp [lookup, hv] at h
  have hp : presents tb outputs name = bitZero v := by simp [presents, hv]
  simp [lookup, hv, hrdy] at h
  rw [hp]
  cases hb : bitZero v
  · simp only [hb, if_true, Except.ok.injEq, Prod.mk.injEq] at h
    exact .inl ⟨rfl, h.1.symm, h.2.symm⟩
  simp only [hb, Bool.true_eq_false, if_false] at h
  refine .inr ?_
  rcases hq : s.queues name with _ | ⟨front, tail⟩ <;> rw [hq] at h
  · -- a value past the end of the list
    rcases hd : outputs (tb.channelInfo name).channelData with _ | d <;> simp [hd] at h
    exact .inr ⟨_, h.1.symm⟩
  unfold Matches presentedData
  by_cases hw : (tb.channelInfo name).width = 0
  · simp only [hw, if_true] at h
    split_ifs at h with hf <;> cases h
    · exact .inl ⟨rfl, front, tail, rfl, by simp [hw, hf], rfl, rfl⟩
    · exact .inr ⟨_, rfl⟩
  · rcases hd : outputs (tb.channelInfo name).channelData with _ | d <;> simp [hw, hd] at h
    split_ifs at h with hf <;> cases h
    · exact .inl ⟨rfl, front, tail, rfl, by simp [hw, hd, hf], rfl, rfl⟩
    · exact .inr ⟨_, rfl⟩

/-- The consumption of distinct input channels drops the front of each
    transferring channel's queue. -/
theorem foldlM_consumeInput :
    ∀ {names : List Name} {queues queues' : Name → List Value}, names.Nodup →
      names.foldlM (consumeInput tb inputs outputs) queues = .ok queues' →
      ∀ c, queues' c = if c ∈ names ∧ transferOn tb inputs outputs c = true then (queues c).tail else queues c
  | [], _, _, _, h, c => by simp [← Except.ok.inj h]
  | name :: rest, queues, queues', hnodup, h, c => by
    rw [List.foldlM_cons] at h
    obtain ⟨q, hq, h⟩ := except_bind_eq_ok.1 h
    rw [List.nodup_cons] at hnodup
    rw [foldlM_consumeInput hnodup.2 h c, consumeInput_ok hq]
    by_cases hc : c = name
    · subst hc
      cases transferOn tb inputs outputs c <;> simp [hnodup.1]
    · cases transferOn tb inputs outputs name <;> simp [hc]

/-- The checks only ever add errors. -/
theorem foldlM_checkOutput_errors :
    ∀ {names : List Name} {acc r : List (OutputError Name) × RunState Name},
      (∀ o ∈ names, inputs (tb.channelInfo o).channelReady = some (boolValue true)) →
      names.foldlM (checkOutput tb inputs outputs cycle) acc = .ok r → ∃ more, r.1 = acc.1 ++ more
  | [], _, _, _, h => ⟨[], by simp [← Except.ok.inj h]⟩
  | name :: rest, ⟨errors, s⟩, r, hrdy, h => by
    rw [List.foldlM_cons] at h
    obtain ⟨⟨errors', s'⟩, h1, h⟩ := except_bind_eq_ok.1 h
    obtain ⟨more, hmore⟩ := foldlM_checkOutput_errors (fun o ho => hrdy o (List.mem_cons_of_mem _ ho)) h
    rcases checkOutput_ok (hrdy name (List.mem_cons_self _ _)) h1 with ⟨-, rfl, -⟩ | ⟨-, -, -, -, -, rfl, -⟩ | ⟨err, rfl⟩
    · exact ⟨more, hmore⟩
    · exact ⟨more, hmore⟩
    · exact ⟨err :: more, by simpa using hmore⟩

/-- The checks of distinct expected output channels that raise no error: each
    channel that presents a value presents the front of its queue, which is
    dropped, and the last output cycle moves to this one when some channel
    presents a value. -/
theorem foldlM_checkOutput :
    ∀ {names : List Name} {s s' : RunState Name}, names.Nodup →
      (∀ o ∈ names, inputs (tb.channelInfo o).channelReady = some (boolValue true)) →
      names.foldlM (checkOutput tb inputs outputs cycle) ([], s) = .ok ([], s') →
      (∀ c, s'.queues c = if c ∈ names ∧ presents tb outputs c = true then (s.queues c).tail else s.queues c) ∧
      (∀ o ∈ names, presents tb outputs o = true →
        ∃ v rest, s.queues o = v :: rest ∧ Matches (tb.channelInfo o) (presentedData tb outputs o) v) ∧
      s'.lastOutputCycle = if names.any (presents tb outputs) then (cycle : Int) else s.lastOutputCycle
  | [], s, s', _, _, h => by
    obtain rfl : s = s' := (Prod.mk.inj (Except.ok.inj h)).2
    simp
  | name :: rest, s, s', hnodup, hrdy, h => by
    rw [List.foldlM_cons] at h
    obtain ⟨⟨errors, s1⟩, h1, h⟩ := except_bind_eq_ok.1 h
    have hrdy' : ∀ o ∈ rest, inputs (tb.channelInfo o).channelReady = some (boolValue true) :=
      fun o ho => hrdy o (List.mem_cons_of_mem _ ho)
    obtain ⟨more, hmore⟩ := foldlM_checkOutput_errors hrdy' h
    obtain rfl : errors = [] := (List.append_eq_nil.1 hmore.symm).1
    rw [List.nodup_cons] at hnodup
    obtain ⟨hq, hm, hl⟩ := foldlM_checkOutput hnodup.2 hrdy' h
    -- what the check of `name` did: its queue, its front and the last output cycle
    have hstep : (∀ c, s1.queues c =
          if c = name ∧ presents tb outputs name = true then (s.queues c).tail else s.queues c) ∧
        (presents tb outputs name = true → ∃ v rest, s.queues name = v :: rest ∧
          Matches (tb.channelInfo name) (presentedData tb outputs name) v) ∧
        s1.lastOutputCycle = if presents tb outputs name then (cycle : Int) else s.lastOutputCycle := by
      rcases checkOutput_ok (hrdy name (List.mem_cons_self _ _)) h1 with
        ⟨hp, -, rfl⟩ | ⟨hp, v, tail, hv, hmatch, -, rfl⟩ | ⟨err, herr⟩
      · simp [hp]
      · refine ⟨fun c => ?_, fun _ => ⟨v, tail, hv, hmatch⟩, by simp [hp]⟩
        by_cases hc : c = name
        · subst hc
          simp [hp, hv]
        · simp [hc]
      · simp at herr
    obtain ⟨hq1, hf1, hl1⟩ := hstep
    refine ⟨fun c => ?_, fun o ho hpo => ?_, ?_⟩
    · rw [hq c, hq1 c]
      by_cases hc : c = name
      · subst hc
        simp [hnodup.1]
      · simp [hc]
    · rcases List.mem_cons.1 ho with rfl | ho
      · exact hf1 hpo
      · have hne : o ≠ name := ne_of_mem_of_not_mem ho hnodup.1
        simpa [hq1 o, hne] using hm o ho hpo
    · rw [hl, hl1]
      cases hp : presents tb outputs name <;> simp [hp]

/-- A non-reset cycle that passes its checks, with distinct channels and the
    expected outputs' readies driven high, drops the front of each input queue
    whose channel transfers and of each expected output queue whose channel
    presents a value, that value matching the front, and moves the last output
    cycle to this one when some value was presented. -/
theorem afterBlock_spec (hch : tb.ChannelsDistinct)
    (hrdy : ∀ o ∈ tb.outputChannels, inputs (tb.channelInfo o).channelReady = some (boolValue true))
    {s s' : RunState Name} (h : afterBlock tb inputs outputs cycle s = .ok s') :
    (∀ i ∈ tb.inputChannels,
      s'.queues i = if transferOn tb inputs outputs i then (s.queues i).tail else s.queues i) ∧
    (∀ o ∈ tb.outputChannels, s'.queues o = if presents tb outputs o then (s.queues o).tail else s.queues o) ∧
    (∀ o ∈ tb.outputChannels, presents tb outputs o = true →
      ∃ v rest, s.queues o = v :: rest ∧ Matches (tb.channelInfo o) (presentedData tb outputs o) v) ∧
    s'.lastOutputCycle = if tb.outputChannels.any (presents tb outputs) then (cycle : Int) else s.lastOutputCycle := by
  unfold afterBlock at h
  obtain ⟨queues, hc, h⟩ := except_bind_eq_ok.1 h
  obtain ⟨⟨errors, s2⟩, ho, h⟩ := except_bind_eq_ok.1 h
  dsimp only at h
  cases errors with
  | cons => cases h
  | nil =>
  simp only [List.isEmpty_nil, Bool.not_false, Bool.false_eq_true, if_false, except_pure, except_ok_bind] at h
  obtain ⟨_, -, h⟩ := except_bind_eq_ok.1 h
  cases Except.ok.inj h
  have hq := foldlM_consumeInput hch.inputs_nodup hc
  obtain ⟨hq2, hm, hl⟩ := foldlM_checkOutput hch.outputs_nodup hrdy ho
  -- the consumption leaves the expected output queues alone
  have hout : ∀ o ∈ tb.outputChannels, queues o = s.queues o := fun o ho' => by
    rw [hq o, if_neg fun h => hch.disjoint o h.1 ho']
  refine ⟨fun i hi => ?_, fun o ho' => ?_, fun o ho' hp => ?_, hl⟩
  · simp [hq2 i, hq i, hi, hch.disjoint i hi]
  · simp [hq2 o, hout o ho', ho']
  · simpa [hout o ho'] using hm o ho' hp

end Checks

section Unfold

variable {tb : Testbench Name} {block : Block Name} {bernoulli : Nat → Name → Bool} {cycle : Nat}
  {s : RunState Name} {inputs outputs : PortValues Name}

theorem runOneCycle_bind {β : Type} (k : PortValues Name × PortValues Name → Except (RunBlockError Name) β) :
    runOneCycle tb block bernoulli cycle s >>= k =
      inputSet tb s cycle (bernoulli cycle) >>= fun inputs =>
        match block cycle inputs with
        | .ok (outputs, asserts) =>
          if !asserts.isEmpty && tb.failOnAssert then .error (.assertsFired asserts) else k (inputs, outputs)
        | .error e => .error (.block e) := by
  unfold runOneCycle
  rcases inputSet tb s cycle (bernoulli cycle) with _ | inputs
  · rfl
  rw [except_ok_bind, except_ok_bind]
  rcases block cycle inputs with _ | ⟨outputs, _ | ⟨a, asserts⟩⟩
  · rfl
  · rfl
  · cases tb.failOnAssert <;> rfl

theorem afterBlock_bind {β : Type} (k : RunState Name → Except (RunBlockError Name) β) :
    afterBlock tb inputs outputs cycle s >>= k =
      tb.inputChannels.foldlM (consumeInput tb inputs outputs) s.queues >>= fun queues =>
        tb.outputChannels.foldlM (checkOutput tb inputs outputs cycle) ([], { s with queues }) >>= fun r =>
          if !r.1.isEmpty then .error (.outputsDidNotMatch cycle r.1)
          else serviceMemories tb outputs tb.memories r.2.memories >>= fun memories => k { r.2 with memories } := by
  unfold afterBlock
  rcases tb.inputChannels.foldlM (consumeInput tb inputs outputs) s.queues with _ | queues
  · rfl
  rw [except_ok_bind, except_ok_bind]
  rcases tb.outputChannels.foldlM (checkOutput tb inputs outputs cycle) ([], { s with queues }) with
    _ | ⟨_ | ⟨e, errors⟩, s'⟩
  · rfl
  · rw [except_ok_bind, except_ok_bind]
    dsimp only
    rcases serviceMemories tb outputs tb.memories s'.memories with _ | memories <;> rfl
  · rfl

theorem except_map_eq_bind {ε α β : Type} (f : α → β) (x : Except ε α) : x.map f = x >>= fun a => .ok (f a) := by
  cases x <;> rfl

/-- A cycle is its phases in turn: a reset cycle only drives and runs the
    block, a later one goes on to its checks and its end. -/
theorem cycleStep_eq :
    cycleStep tb block bernoulli cycle s =
      if cycle = 0 then (runOneCycle tb block bernoulli cycle s).map fun _ => .next { s with lastOutputCycle := cycle }
      else checkCycle tb block bernoulli cycle s >>= endCycle tb cycle := by
  unfold checkCycle
  rw [except_map_eq_bind, bind_assoc, runOneCycle_bind, runOneCycle_bind]
  simp only [afterBlock_bind]
  unfold cycleStep
  cases cycle with
  | zero =>
    rw [if_pos rfl]
    refine congrArg _ (funext fun inputs => ?_)
    rcases block 0 inputs with _ | ⟨outputs, asserts⟩
    · rfl
    · cases asserts <;> cases tb.failOnAssert <;> rfl
  | succ n =>
    rw [if_neg n.succ_ne_zero]
    refine congrArg _ (funext fun inputs => ?_)
    rcases block (n + 1) inputs with _ | ⟨outputs, asserts⟩
    · rfl
    cases asserts <;> cases tb.failOnAssert
    all_goals dsimp only
    all_goals rfl

theorem runOneCycle_ok (h : runOneCycle tb block bernoulli cycle s = .ok (inputs, outputs)) :
    inputSet tb s cycle (bernoulli cycle) = .ok inputs ∧ ∃ asserts, block cycle inputs = .ok (outputs, asserts) := by
  rw [← bind_pure (runOneCycle tb block bernoulli cycle s), runOneCycle_bind] at h
  rcases hin : inputSet tb s cycle (bernoulli cycle) with e | inputs' <;> rw [hin] at h
  · cases h
  rw [except_ok_bind] at h
  rcases hb : block cycle inputs' with e | ⟨outputs', asserts⟩ <;> rw [hb] at h
  · cases h
  dsimp only at h
  split_ifs at h
  cases h
  exact ⟨rfl, asserts, hb⟩

/-- A cycle whose block has run drove every expected output channel's ready
    high. -/
theorem runOneCycle_ready (h : runOneCycle tb block bernoulli cycle s = .ok (inputs, outputs)) :
    ∀ o ∈ tb.outputChannels, inputs (tb.channelInfo o).channelReady = some (boolValue true) :=
  fun o ho => (inputSet_ready (runOneCycle_ok h).1 o ho).2

/-- A cycle whose block has run: the reset cycle goes on to the next one, a
    later cycle to its checks and its end. -/
theorem cycleStep_of_runOneCycle (h : runOneCycle tb block bernoulli cycle s = .ok (inputs, outputs)) :
    cycleStep tb block bernoulli cycle s =
      if cycle = 0 then .ok (.next { s with lastOutputCycle := cycle })
      else afterBlock tb inputs outputs cycle s >>= endCycle tb cycle := by
  rw [cycleStep_eq]
  unfold checkCycle
  rw [h]
  split_ifs <;> rfl

theorem cycleStep_of_runOneCycle_error {e : RunBlockError Name}
    (h : runOneCycle tb block bernoulli cycle s = .error e) : cycleStep tb block bernoulli cycle s = .error e := by
  rw [cycleStep_eq]
  unfold checkCycle
  rw [h]
  split_ifs <;> rfl

omit [DecidableEq Name] in
theorem endCycle_eq_ok {r : CycleEnd Name} : endCycle tb cycle s = .ok r ↔
    allOutputQueuesEmpty tb s.queues = true ∧ .done s = r ∨
      allOutputQueuesEmpty tb s.queues = false ∧ ¬(cycle : Int) - s.lastOutputCycle > tb.maxCyclesNoOutput ∧
        .next { s with memories := fun m => (s.memories m).tick } = r := by
  unfold endCycle
  split_ifs <;> simp_all

omit [DecidableEq Name] in
theorem endCycle_eq_error {e : RunBlockError Name} : endCycle tb cycle s = .error e ↔
    allOutputQueuesEmpty tb s.queues = false ∧ (cycle : Int) - s.lastOutputCycle > tb.maxCyclesNoOutput ∧
      .noOutput tb.maxCyclesNoOutput = e := by
  unfold endCycle
  split_ifs <;> simp_all

end Unfold

/-! ## Transfers -/

section Transfer

variable {tb : Testbench Name} {block : Block Name} {bernoulli : Nat → Name → Bool} {cycle : Nat}
  {s : RunState Name} {inputs outputs : PortValues Name}

end Transfer

/-! ## Only the end of a cycle times out -/

section NoOutput

variable {tb : Testbench Name} {inputs outputs : PortValues Name} {cycle : Nat} {m : Int}

theorem foldlM_ne_error {ε α β : Type} {f : β → α → Except ε β} {e : ε} (hf : ∀ b a, f b a ≠ .error e) :
    ∀ (l : List α) (b : β), l.foldlM f b ≠ .error e
  | [], _ => by simp
  | a :: l, b => by
    rw [List.foldlM_cons]
    rcases hb : f b a with e' | b'
    · exact fun h => hf b a (hb.trans h)
    · exact foldlM_ne_error hf l b'

theorem bind_ne_error {ε α β : Type} {x : Except ε α} {g : α → Except ε β} {e : ε} (hx : x ≠ .error e)
    (hg : ∀ a, g a ≠ .error e) : x >>= g ≠ .error e := by
  rcases x with a | a
  · rintro ⟨⟩
    exact hx rfl
  · exact hg a

omit [DecidableEq Name] in
theorem lookup_ne_noOutput {ports : PortValues Name} {k : Name} : lookup ports k ≠ .error (.noOutput m) := by
  unfold lookup
  split <;> rintro ⟨⟩

theorem consumeInput_ne_noOutput {queues : Name → List Value} {name : Name} :
    consumeInput tb inputs outputs queues name ≠ .error (.noOutput m) := by
  unfold consumeInput
  dsimp only
  repeat (first | exact lookup_ne_noOutput | refine bind_ne_error ?_ fun _ => ?_ | split | rintro ⟨⟩)

theorem checkOutput_ne_noOutput {acc : List (OutputError Name) × RunState Name} {name : Name} :
    checkOutput tb inputs outputs cycle acc name ≠ .error (.noOutput m) := by
  unfold checkOutput
  dsimp only
  repeat (first | exact lookup_ne_noOutput | rintro ⟨⟩ | refine bind_ne_error ?_ fun _ => ?_ | split)

theorem serviceMemories_ne_noOutput :
    ∀ (names : List Name) (mems : Name → MemoryModel), serviceMemories tb outputs names mems ≠ .error (.noOutput m)
  | [], _ => by rintro ⟨⟩
  | name :: rest, mems => by
    have ih := serviceMemories_ne_noOutput rest
    unfold serviceMemories lookupBits toAddress lookup
    dsimp only
    repeat (first | rintro ⟨⟩ | refine bind_ne_error ?_ fun _ => ?_ | split | exact ih _)

theorem driveInputChannels_ne_noOutput {queues : Name → List Value} {bernoulli : Name → Bool} :
    ∀ (names asserted : List Name) (set : PortValues Name),
      driveInputChannels tb queues bernoulli names asserted set ≠ .error (.noOutput m)
  | [], _, _ => by rintro ⟨⟩
  | name :: rest, asserted, set => by
    unfold driveInputChannels
    dsimp only
    split
    · exact driveInputChannels_ne_noOutput rest _ _
    · split
      · rintro ⟨⟩
      · exact driveInputChannels_ne_noOutput rest _ _

theorem inputSet_ne_noOutput {s : RunState Name} {bernoulli : Name → Bool} :
    inputSet tb s cycle bernoulli ≠ .error (.noOutput m) := by
  unfold inputSet
  exact bind_ne_error (driveInputChannels_ne_noOutput _ _ _) fun _ =>
    foldlM_ne_error (fun _ _ => by split <;> rintro ⟨⟩) _ _

variable {block : Block Name} {bernoulli : Nat → Name → Bool} {s : RunState Name}

theorem runOneCycle_ne_noOutput : runOneCycle tb block bernoulli cycle s ≠ .error (.noOutput m) := by
  rw [← bind_pure (runOneCycle tb block bernoulli cycle s), runOneCycle_bind]
  refine bind_ne_error inputSet_ne_noOutput fun _ => ?_
  split
  · split <;> rintro ⟨⟩
  · rintro ⟨⟩

theorem afterBlock_ne_noOutput : afterBlock tb inputs outputs cycle s ≠ .error (.noOutput m) := by
  rw [← bind_pure (afterBlock tb inputs outputs cycle s), afterBlock_bind]
  refine bind_ne_error (foldlM_ne_error (fun _ _ => consumeInput_ne_noOutput) _ _) fun _ =>
    bind_ne_error (foldlM_ne_error (fun _ _ => checkOutput_ne_noOutput) _ _) fun _ => ?_
  split
  · rintro ⟨⟩
  · exact bind_ne_error (serviceMemories_ne_noOutput _ _) fun _ => by rintro ⟨⟩

/-- Only the end of a cycle fails with the no-output error. -/
theorem checkCycle_ne_noOutput : checkCycle tb block bernoulli cycle s ≠ .error (.noOutput m) :=
  bind_ne_error runOneCycle_ne_noOutput fun _ => afterBlock_ne_noOutput

end NoOutput

end Xls.EvalProcMain
