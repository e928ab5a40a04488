import Xls.EvalProcMain.MemoryModel

/-!
# Block simulation (`RunBlock`)

The cycle loop of `RunBlock` in `eval_proc_main`: a testbench around a block,
driving its input ports each cycle, reading its output ports, and checking the
values the block sends against the expected ones.

In cycle `c` (`cycleStep`):

* the testbench drives the inputs (`inputSet`): the reset port, high in cycle
  `0` only; for each ready/valid input channel, valid and the data at the front
  of its queue (`driveInputChannels`); the memories' read data; and ready, high,
  for every expected output channel;
* the block runs one cycle (`Block`), giving its output ports and the assertions
  that fired;
* after the reset cycle, a ready/valid input channel whose valid and ready are
  both high transfers the front of its queue; an output channel whose valid (and
  ready) is high presents a value, checked against the front of its expected
  queue; the memories serve the block's write and read requests;
* the run ends when every expected output queue is empty, and fails after more
  than `maxCyclesNoOutput` cycles without a matched output.

Port and channel names range over any type `Name` with decidable equality. The
block is any behaviour: its outputs in each cycle are any function of the
cycle and of the inputs driven in it. The Bernoulli trials deciding whether an
input channel asserts valid are any outcomes, one per cycle and channel
(`bernoulli`): this stands for every random seed and every
`prob_input_valid_assert`.

In `driveInputChannels` the set `asserted_valids` is, as in the source, a
local of the cycle's body: it starts empty in every cycle.
-/

namespace Xls.EvalProcMain

variable {Name : Type} [DecidableEq Name]

/-- Values by port name (`absl::flat_hash_map<std::string, Value>`): `none`
    for a port not set. -/
abbrev PortValues (Name : Type) := Name → Option Value

/-- `ChannelInfo`: a channel's ports and flow control. -/
structure ChannelInfo (Name : Type) where
  width : Int
  portInput : Bool
  readyValid : Bool
  channelReady : Name
  channelValid : Name
  channelData : Name

/-- `StandardRamInfo`: the ports of a RAM. -/
structure StandardRamInfo (Name : Type) where
  rdAddr : Name
  rdEn : Name
  rdData : Name
  wrAddr : Name
  wrEn : Name
  wrData : Name

/-- What `RunBlock` has set up before its cycle loop, and its options. -/
structure Testbench (Name : Type) where
  channelInfo : Name → ChannelInfo Name
  /-- The channels of `inputs_for_channels`, in the map's order. -/
  inputChannels : List Name
  /-- The channels of `expected_outputs_for_channels`, in the map's order. -/
  outputChannels : List Name
  /-- The reset port of the signature and whether it is active low, if any. -/
  reset : Option (Name × Bool)
  ramInfo : Name → StandardRamInfo Name
  /-- The memories of `model_memories`, in the map's order. -/
  memories : List Name
  /-- `GetPortTypeOrNull`: the type of the block's input port of that name. -/
  inputPortType : Name → Option Ty
  maxCyclesNoOutput : Int
  failOnAssert : Bool

/-- The block's behaviour: in each cycle, given the inputs driven, its output
    ports and the assertion messages that fired, or the error of
    `RunOneCycle`. -/
abbrev Block (Name : Type) := Nat → PortValues Name → Except String (PortValues Name × List String)

/-- The state `RunBlock` carries from cycle to cycle. -/
structure RunState (Name : Type) where
  /-- `channel_value_queues`: the inputs not yet consumed and the outputs not
      yet matched. -/
  queues : Name → List Value
  memories : Name → MemoryModel
  lastOutputCycle : Int
  matchedOutputs : Nat

/-- An error the output checks collect in a cycle. -/
inductive OutputError (Name : Type) where
  /-- "Block wrote past the end of the expected values list for channel". -/
  | pastEnd (channel : Name) (data : Value)
  /-- "Output mismatched for channel": expected, then what the block output. -/
  | mismatch (channel : Name) (expected actual : Value)
  /-- The channel has no data port but a value of nonzero width is expected. -/
  | zeroLengthMismatch (channel : Name) (expected : Value)

/-- How `RunBlock` fails. -/
inductive RunBlockError (Name : Type) where
  /-- A `CHECK`, a `RET_CHECK` or a `.at()` of a missing port: the process
      aborts. -/
  | checkFailed (what : String)
  /-- `RunOneCycle` failed. -/
  | block (msg : String)
  /-- "Assert(s) fired", with `fail_on_assert`. -/
  | assertsFired (msgs : List String)
  /-- "Outputs did not match expectations after cycle". -/
  | outputsDidNotMatch (cycle : Nat) (errors : List (OutputError Name))
  /-- A memory request failed, or its address does not fit 64 bits. -/
  | memory (msg : String)
  /-- `OutOfRangeError`: "Block didn't produce output for %i cycles". -/
  | noOutput (maxCyclesNoOutput : Int)

/-- `Value(UBits(b ? 1 : 0, 1))`. -/
def boolValue (b : Bool) : Value := .bits [b]

/-- `.bits().Get(0)`. -/
def bitZero (v : Value) : Bool := v.toBits.headD false

/-- `m.at(k)`: aborts when the port is missing. -/
def lookup (m : PortValues Name) (k : Name) : Except (RunBlockError Name) Value :=
  match m k with
  | some v => .ok v
  | none => .error (.checkFailed "map::at")

/-- The drive of the input channels in one cycle, from the set
    `assertedValids` of the channels already driven valid in it. -/
def driveInputChannels (tb : Testbench Name) (queues : Name → List Value) (bernoulli : Name → Bool) :
    List Name → List Name → PortValues Name → Except (RunBlockError Name) (PortValues Name)
  | [], _, inputSet => .ok inputSet
  | name :: rest, assertedValids, inputSet =>
    let info := tb.channelInfo name
    let queue := queues name
    if info.readyValid then
      -- Don't bring valid low without a transaction
      let assertedValid := decide (name ∈ assertedValids)
      let thisValid := assertedValid || (bernoulli name && !queue.isEmpty)
      let assertedValids := if thisValid then name :: assertedValids else assertedValids
      let inputSet := Function.update inputSet info.channelValid (some (boolValue thisValid))
      let portType := if info.width ≠ 0 then tb.inputPortType info.channelData else none
      let inputSet := match portType with
        | some t => Function.update inputSet info.channelData (some (queue.headD (allOnesOfType t)))
        | none => inputSet
      driveInputChannels tb queues bernoulli rest assertedValids inputSet
    else
      match queue with
      | [] => .error (.checkFailed "!queue.empty()")
      | v :: _ => driveInputChannels tb queues bernoulli rest assertedValids
          (Function.update inputSet name (some v))

/-- The inputs the testbench drives in cycle `cycle` (`input_set`). -/
def inputSet (tb : Testbench Name) (s : RunState Name) (cycle : Nat) (bernoulli : Name → Bool) :
    Except (RunBlockError Name) (PortValues Name) := do
  let resetting := cycle == 0
  let set : PortValues Name := fun _ => none
  let set := match tb.reset with
    | some (r, activeLow) => Function.update set r (some (boolValue (resetting ^^ activeLow)))
    | none => set
  let set ← driveInputChannels tb s.queues bernoulli tb.inputChannels [] set
  let set := tb.memories.foldl (fun set m =>
    Function.update set (tb.ramInfo m).rdData (some (s.memories m).getValueReadLastTick)) set
  tb.outputChannels.foldlM (fun set name =>
    if (tb.channelInfo name).readyValid then
      .ok (Function.update set (tb.channelInfo name).channelReady (some (boolValue true)))
    else .error (.checkFailed "info.ready_valid")) set

/-- The consumption of one input channel after a non-reset cycle: when its
    valid and ready are both high, the front of its queue is transferred. -/
def consumeInput (tb : Testbench Name) (inputSet outputs : PortValues Name)
    (queues : Name → List Value) (name : Name) : Except (RunBlockError Name) (Name → List Value) := do
  let info := tb.channelInfo name
  if !info.readyValid then return queues
  let vld := bitZero (← lookup inputSet info.channelValid)
  let rdy := bitZero (← lookup outputs info.channelReady)
  return if vld && rdy then Function.update queues name (queues name).tail else queues

/-- The check of one expected output channel after a non-reset cycle: a value
    presented (valid and ready high) must be the front of its queue, which it
    then drops. -/
def checkOutput (tb : Testbench Name) (inputSet outputs : PortValues Name) (cycle : Nat)
    (acc : List (OutputError Name) × RunState Name) (name : Name) :
    Except (RunBlockError Name) (List (OutputError Name) × RunState Name) := do
  let (errors, s) := acc
  let info := tb.channelInfo name
  let vld := bitZero (← lookup outputs info.channelValid)
  let rdy := bitZero (← lookup inputSet info.channelReady)
  if !(rdy && vld) then return (errors, s)
  match s.queues name with
  | [] => return (errors ++ [.pastEnd name (← lookup outputs info.channelData)], s)
  | front :: tail =>
    if info.width ≠ 0 then
      let data ← lookup outputs info.channelData
      if front ≠ data then return (errors ++ [.mismatch name front data], s)
    else if front.flatBitCount ≠ 0 then
      return (errors ++ [.zeroLengthMismatch name front], s)
    return (errors, { s with queues := Function.update s.queues name tail,
                             matchedOutputs := s.matchedOutputs + 1, lastOutputCycle := cycle })

/-- `m.at(k)` of a value that must be bits (`CHECK(v.IsBits())`). -/
def lookupBits (m : PortValues Name) (k : Name) : Except (RunBlockError Name) Bits := do
  match ← lookup m k with
  | .bits b => .ok b
  | _ => .error (.checkFailed "IsBits")

/-- `Bits::ToUint64` followed by the conversion to the `int64_t` address of
    `Read` and `Write`. -/
def toAddress (b : Bits) : Except (RunBlockError Name) Int :=
  let x := b.toNat
  if x < 2 ^ 64 then .ok (if x < 2 ^ 63 then (x : Int) else (x : Int) - 2 ^ 64)
  else .error (.memory "Bits to Uint64 conversion failed")

/-- `Value::IsAllOnes` of a bits value. -/
def isAllOnes (b : Bits) : Bool := b.all id

/-- The memory requests of one non-reset cycle: each memory takes the write,
    then the read, the block asks of it. -/
def serviceMemories (tb : Testbench Name) (outputs : PortValues Name) :
    List Name → (Name → MemoryModel) → Except (RunBlockError Name) (Name → MemoryModel)
  | [], mems => .ok mems
  | name :: rest, mems => do
    let info := tb.ramInfo name
    let mems ← if isAllOnes (← lookupBits outputs info.wrEn) then do
        let addr ← lookupBits outputs info.wrAddr
        let data ← lookupBits outputs info.wrData
        match (MemoryModel.write (← toAddress addr) (.bits data)).run (mems name) with
        | .ok _ m => pure (Function.update mems name m)
        | .error e _ => throw (.memory e)
      else pure mems
    let mems ← if isAllOnes (← lookupBits outputs info.rdEn) then do
        let addr ← lookupBits outputs info.rdAddr
        match (MemoryModel.read (← toAddress addr)).run (mems name) with
        | .ok _ m => pure (Function.update mems name m)
        | .error e _ => throw (.memory e)
      else pure mems
    serviceMemories tb outputs rest mems

/-- Every ready/valid expected output queue is empty (`all_output_queues_empty`). -/
def allOutputQueuesEmpty (tb : Testbench Name) (queues : Name → List Value) : Bool :=
  tb.outputChannels.all fun name => !(tb.channelInfo name).readyValid || (queues name).isEmpty

/-- How a cycle ends: on to the next cycle, or out of the loop. -/
inductive CycleEnd (Name : Type) where
  | next (s : RunState Name)
  | done (s : RunState Name)

/-- One iteration of `RunBlock`'s cycle loop. -/
def cycleStep (tb : Testbench Name) (block : Block Name) (bernoulli : Nat → Name → Bool)
    (cycle : Nat) (s : RunState Name) : Except (RunBlockError Name) (CycleEnd Name) := do
  let inputs ← inputSet tb s cycle (bernoulli cycle)
  let (outputs, asserts) ← match block cycle inputs with
    | .ok r => pure r
    | .error e => throw (.block e)
  if !asserts.isEmpty && tb.failOnAssert then throw (.assertsFired asserts)
  if cycle == 0 then return .next { s with lastOutputCycle := cycle }
  let queues ← tb.inputChannels.foldlM (consumeInput tb inputs outputs) s.queues
  let (errors, s) ← tb.outputChannels.foldlM (checkOutput tb inputs outputs cycle) ([], { s with queues })
  if !errors.isEmpty then throw (.outputsDidNotMatch cycle errors)
  let memories ← serviceMemories tb outputs tb.memories s.memories
  let s := { s with memories }
  if allOutputQueuesEmpty tb s.queues then return .done s
  if cycle - s.lastOutputCycle > tb.maxCyclesNoOutput then throw (.noOutput tb.maxCyclesNoOutput)
  return .next { s with memories := fun m => (s.memories m).tick }

/-- Where a run stands: before the next cycle, out of the loop, or failed. -/
inductive Progress (Name : Type) where
  | running (s : RunState Name)
  | finished (s : RunState Name)
  | failed (e : RunBlockError Name)

/-- The run after its first `n` cycles, from the state `s₀`. -/
def progress (tb : Testbench Name) (block : Block Name) (bernoulli : Nat → Name → Bool)
    (s₀ : RunState Name) : Nat → Progress Name
  | 0 => .running s₀
  | n + 1 =>
    match progress tb block bernoulli s₀ n with
    | .running s =>
      match cycleStep tb block bernoulli n s with
      | .ok (.next s) => .running s
      | .ok (.done s) => .finished s
      | .error e => .failed e
    | p => p

/-- The inputs the testbench drives in cycle `n` of a run, if the run gets
    there. -/
def drivenInputs (tb : Testbench Name) (block : Block Name) (bernoulli : Nat → Name → Bool)
    (s₀ : RunState Name) (n : Nat) : Option (PortValues Name) :=
  match progress tb block bernoulli s₀ n with
  | .running s => (inputSet tb s n (bernoulli n)).toOption
  | _ => none

/-! ## Valid is not sticky

Since `asserted_valids` starts empty in every cycle, the valid driven for an
input channel in a cycle is that cycle's Bernoulli outcome (and a nonempty
queue), whatever was driven before. In the run below the channel `inCh` has one
value to send; the testbench drives its valid high in cycle 1, the block keeps
its ready low, and in cycle 2 the trial fails and valid drops with no transfer
having taken place. -/

section StickyValid

/-- The ports and channels of a block with one input and one output channel. -/
inductive Port where
  | rst | inCh | inVld | inRdy | inData | outCh | outVld | outRdy | outData
  deriving DecidableEq

/-- One ready/valid input channel `inCh` and one expected output channel `outCh`,
    both one bit wide, with an active-high reset. -/
def oneChannelTestbench : Testbench Port where
  channelInfo
    | .outCh => ⟨1, false, true, .outRdy, .outVld, .outData⟩
    | _ => ⟨1, true, true, .inRdy, .inVld, .inData⟩
  inputChannels := [.inCh]
  outputChannels := [.outCh]
  reset := some (.rst, false)
  ramInfo _ := ⟨.rst, .rst, .rst, .rst, .rst, .rst⟩
  memories := []
  inputPortType
    | .inData => some (.bits 1)
    | _ => none
  maxCyclesNoOutput := 100
  failOnAssert := true

/-- A block that never takes input (ready low) and never sends output. -/
def stalledBlock : Block Port := fun _ _ =>
  .ok (fun
    | .inRdy => some (boolValue false)
    | .outVld => some (boolValue false)
    | .outData => some (boolValue false)
    | _ => none, [])

/-- The first state: one value to send on `inCh`, one expected on `outCh`. -/
def oneValueQueued : RunState Port where
  queues
    | .inCh => [boolValue true]
    | .outCh => [boolValue true]
    | _ => []
  memories _ := MemoryModel.mk' "" 0 .token .token
  lastOutputCycle := 0
  matchedOutputs := 0

theorem valid_dropped_without_transfer :
    (drivenInputs oneChannelTestbench stalledBlock (fun c _ => c == 1) oneValueQueued 1).bind
        (· Port.inVld) = some (boolValue true) ∧
    (∀ c i, (stalledBlock c i).toOption.bind (·.1 Port.inRdy) = some (boolValue false)) ∧
    (drivenInputs oneChannelTestbench stalledBlock (fun c _ => c == 1) oneValueQueued 2).bind
        (· Port.inVld) = some (boolValue false) :=
  ⟨rfl, fun _ _ => rfl, rfl⟩

end StickyValid

end Xls.EvalProcMain
