import Xls.EvalProcMain.Cycle
import Mathlib.Data.List.AList

/-!
# Setting up a block simulation

What `RunBlock` does before its cycle loop, from the block's signature, the
input and expected-output maps (`inputs_for_channels`,
`expected_outputs_for_channels`) and the memories of `--model_memories`:

* `interpretBlockSignature` (`InterpretBlockSignature`) reads each channel of
  the signature the testbench drives or reads (`interpretChannel`), or, for a
  signature without one, each data port (`portChannels`), and checks the maps
  against them: each input channel has an entry in the input map, each output
  channel one in the expected-output map, and each entry of a map is a
  channel;
* `getRamInfoMap` (`GetRamInfoMap`) reads the ports of each RAM;
* `prepareQueues` fills `channel_value_queues` from the two maps, `CHECK`ing
  that no channel is in both;
* `makeMemories` makes a `MemoryModel` for each memory, reading disabled as
  all ones of the type of its read-data port.

`runBlockSetup` is these steps in turn, and gives the testbench and the first
state of the cycle loop of `Xls.EvalProcMain.RunBlock`. Main results:

* `interpretBlockSignature_eq_ok_iff`: `InterpretBlockSignature` returns the
  channels of the signature exactly when the maps name each of them on its
  side, and nothing else;
* `signatureChannel_of_lookup`: each channel it returns is what the signature
  says of it (`SignatureChannel`);
* `runBlockSetup_spec`: after the set-up the testbench's channels are
  distinct (`Testbench.ChannelsDistinct`, the hypothesis of the run theorems
  of `Xls.EvalProcMain.Run`), each channel of the input map is an input
  channel of the signature and each of the expected-output map an output
  channel, each queue holds its map's values and each memory is new. The
  set-up does not check that the ports the testbench drives are distinct
  (`Testbench.PortsDistinct`, which the transfer theorem also assumes): two
  input channels may be mapped to one valid port
  (`runBlockSetup_spec_sharedPortSignature`);
* `runBlockSetup_ok_iff`: the set-up succeeds exactly when the maps' channels
  are the input and the output channels of the signature, every RAM says its
  ports, and every memory is a RAM whose read-data port is an input port.

A map (`absl::flat_hash_map`, `absl::btree_map`) is an association list with
distinct keys (`AList`); the loops visit its entries in their order.
-/

namespace Xls.EvalProcMain

/-! ## The block signature -/

/-- `ChannelOpsProto`: what a channel supports. -/
inductive ChannelOps where
  | invalid
  | sendOnly
  | receiveOnly
  | sendReceive
  deriving DecidableEq

/-- `ChannelFlowControlProto`. -/
inductive FlowControl where
  | invalid
  | none
  | readyValid
  deriving DecidableEq

/-- `DirectionProto` of a port. -/
inductive Direction where
  | invalid
  | input
  | output
  deriving DecidableEq

/-- `BlockPortMappingProto`: the ports a channel is mapped to, `none` for a
    field not set (its accessor then reads the empty string). -/
structure BlockPortMapping where
  dataPortName : Option String
  readyPortName : Option String
  validPortName : Option String

/-- The condition of the `absl::c_all_of` of `InterpretBlockSignature`: `q`
    names the same data, ready and valid ports as `p`. -/
def BlockPortMapping.samePorts (p q : BlockPortMapping) : Bool :=
  q.dataPortName.getD "" == p.dataPortName.getD "" && q.readyPortName.getD "" == p.readyPortName.getD "" &&
    q.validPortName.getD "" == p.validPortName.getD ""

/-- `ChannelProto`, with the fields `InterpretBlockSignature` reads. -/
structure ChannelProto where
  name : String
  supportedOps : ChannelOps
  flowControl : FlowControl
  /-- `metadata().block_ports()`. -/
  blockPorts : List BlockPortMapping

/-- `PortProto`. -/
structure PortProto where
  name : String
  direction : Direction
  width : Int

/-- The `ram_oneof` of a `RamProto`, by the names of its ports' signals. -/
inductive RamPorts where
  /-- `ram_1rw`: one read/write port. -/
  | ram1RW (address readEnable writeEnable writeData readData : String)
  /-- `ram_1r1w`: one read port and one write port. -/
  | ram1R1W (readAddress readEnable readData writeAddress writeEnable writeData : String)
  /-- `RAM_ONEOF_NOT_SET`. -/
  | notSet

/-- `RamProto`. -/
structure RamProto where
  name : String
  ports : RamPorts

/-- `ResetProto`: the reset port's name, empty for none, and its polarity. -/
structure ResetProto where
  name : String
  activeLow : Bool

/-- `ModuleSignatureProto`, with the fields `RunBlock` reads. -/
structure ModuleSignature where
  dataChannels : List ChannelProto
  dataPorts : List PortProto
  rams : List RamProto
  reset : ResetProto

/-- How the set-up of `RunBlock` fails. -/
inductive SetupError where
  /-- `InvalidArgumentError`, with its message. -/
  | invalidArgument (msg : String)
  /-- A failed `RET_CHECK`, with what it reports. -/
  | retCheck (msg : String)
  /-- A failed `CHECK`: the process aborts. -/
  | checkFailed (what : String)
  /-- `Block::GetInputPort` of a name that is no input port of the block. -/
  | noInputPort (name : String)
  deriving DecidableEq

/-- A map from names. -/
abbrev NameMap (β : Type) := AList fun _ : String => β

/-- The loops that read each element of a list into an entry of a map
    (`map[key] = value`, replacing an entry of that key), skipping the
    elements read as `none`; they stop at the first element whose reading
    fails. -/
def insertEach {α β ε : Type} (read : α → Except ε (Option (String × β))) :
    NameMap β → List α → Except ε (NameMap β)
  | m, [] => pure m
  | m, x :: xs => do
    match ← read x with
    | some (k, v) => insertEach read (m.insert k v) xs
    | none => insertEach read m xs

/-! ## The loops -/

section Loops

variable {α β ε : Type}

@[simp] theorem except_throw (e : ε) : (throw e : Except ε α) = .error e := rfl

/-- A check loop succeeds exactly when every element passes. -/
theorem forM_eq_ok_iff {f : α → Except ε PUnit} : ∀ {l : List α}, l.forM f = .ok () ↔ ∀ a ∈ l, f a = .ok ()
  | [] => by simp
  | a :: l => by
    rw [List.forM_cons', except_bind_eq_ok, List.forall_mem_cons, ← forM_eq_ok_iff]
    exact ⟨fun ⟨(), ha, hl⟩ => ⟨ha, hl⟩, fun ⟨ha, hl⟩ => ⟨(), ha, hl⟩⟩

theorem check_eq_ok_iff {p : Prop} [Decidable p] {e : ε} :
    (if p then .ok () else .error e : Except ε Unit) = .ok () ↔ p := by
  split <;> simp [*]

/-- A loop of `insertEach` succeeds exactly when every element reads. -/
theorem exists_insertEach_eq_ok_iff {read : α → Except ε (Option (String × β))} :
    ∀ {m : NameMap β} {xs : List α}, (∃ m', insertEach read m xs = .ok m') ↔ ∀ x ∈ xs, ∃ r, read x = .ok r
  | m, [] => by simp [insertEach]
  | m, x :: xs => by
    rcases hx : read x with e | _ | ⟨k, v⟩ <;>
      simp [insertEach, hx, exists_insertEach_eq_ok_iff]

/-- An entry of the map a loop of `insertEach` makes was there before or is
    the reading of an element. -/
theorem lookup_of_insertEach {read : α → Except ε (Option (String × β))} {k : String} {v : β} :
    ∀ {m m' : NameMap β} {xs : List α}, insertEach read m xs = .ok m' → m'.lookup k = some v →
      m.lookup k = some v ∨ ∃ x ∈ xs, read x = .ok (some (k, v))
  | m, m', [], h, hl => by cases h; exact .inl hl
  | m, m', x :: xs, h, hl => by
    obtain ⟨r, hx, h⟩ := except_bind_eq_ok.1 h
    rcases r with _ | ⟨k', v'⟩
    · exact (lookup_of_insertEach h hl).imp id fun ⟨y, hy, hr⟩ => ⟨y, .tail _ hy, hr⟩
    · rcases lookup_of_insertEach h hl with hl' | ⟨y, hy, hr⟩
      · by_cases hk : k = k'
        · subst hk
          obtain rfl : v' = v := Option.some.inj ((AList.lookup_insert _).symm.trans hl')
          exact .inr ⟨x, .head _, hx⟩
        · exact .inl ((AList.lookup_insert_ne hk).symm.trans hl')
      · exact .inr ⟨y, .tail _ hy, hr⟩

/-- The map a loop of `insertEach` makes has the keys it had and those of
    the elements read. -/
theorem mem_of_insertEach {read : α → Except ε (Option (String × β))} {k : String} :
    ∀ {m m' : NameMap β} {xs : List α}, insertEach read m xs = .ok m' →
      (k ∈ m ∨ ∃ x ∈ xs, ∃ v, read x = .ok (some (k, v))) → k ∈ m'
  | m, m', [], h, hk => by
    cases h
    exact hk.resolve_right fun ⟨_, hx, _⟩ => List.not_mem_nil _ hx
  | m, m', x :: xs, h, hk => by
    obtain ⟨r, hx, h⟩ := except_bind_eq_ok.1 h
    rcases r with _ | ⟨k', v'⟩
    · refine mem_of_insertEach h (hk.imp_right fun ⟨y, hy, v, hr⟩ => ?_)
      rcases List.mem_cons.1 hy with rfl | hy
      · cases hx.symm.trans hr
      · exact ⟨y, hy, v, hr⟩
    · refine mem_of_insertEach h ?_
      rcases hk with hk | ⟨y, hy, v, hr⟩
      · exact .inl ((AList.mem_insert _).2 (.inr hk))
      · rcases List.mem_cons.1 hy with rfl | hy
        · cases hx.symm.trans hr
          exact .inl ((AList.mem_insert _).2 (.inl rfl))
        · exact .inr ⟨y, hy, v, hr⟩

end Loops

/-! ## `InterpretBlockSignature` -/

/-- The switch on `supported_ops()` in `InterpretBlockSignature`: whether a
    channel is an input. The `RET_CHECK` names the channel where the source
    prints its `DebugString`. -/
def portInputOf (channel : ChannelProto) : Except SetupError Bool :=
  match channel.supportedOps with
  | .sendOnly => pure false
  | .receiveOnly => pure true
  | _ => throw (.retCheck ("Internal/send&recv channel '" ++ channel.name ++ "' ended up in block signature."))

/-- The body of the loop over `data_channels()` in `InterpretBlockSignature`:
    `none` for an internal channel (`CHANNEL_OPS_SEND_RECEIVE`), else the
    channel's name and `ChannelInfo`. -/
def interpretChannel (dataPorts : List PortProto) (channel : ChannelProto) :
    Except SetupError (Option (String × ChannelInfo String)) :=
  if channel.supportedOps = .sendReceive then pure none else
  match channel.blockPorts with
  | [] => throw (.invalidArgument ("Channel '" ++ channel.name ++ "' has no associated ports"))
  | portMapping :: _ =>
    if !channel.blockPorts.all portMapping.samePorts then
      throw (.invalidArgument ("A single channel '" ++ channel.name ++
        "' being mapped to multiple ports is not supported"))
    else
      match dataPorts.find? (fun port => port.name == portMapping.dataPortName.getD "") with
      | none => throw (.invalidArgument ("Channel '" ++ channel.name ++ "' names its data port as '" ++
          portMapping.dataPortName.getD "" ++ "' but no such port exists."))
      | some dataPort =>
        portInputOf channel >>= fun portInput =>
        if channel.flowControl = .readyValid then
          match portMapping.readyPortName, portMapping.validPortName with
          | none, _ => throw (.invalidArgument ("Ready/valid channel '" ++ channel.name ++ "' has no ready port."))
          | some _, none => throw (.invalidArgument ("Ready/valid channel '" ++ channel.name ++
              "' has no valid port."))
          | some ready, some valid => pure (some (channel.name,
              ⟨dataPort.width, portInput, true, ready, valid, portMapping.dataPortName.getD ""⟩))
        else pure (some (channel.name, ⟨dataPort.width, portInput, false, "", "", portMapping.dataPortName.getD ""⟩))

/-- What `interpretChannel` reads off a channel the testbench drives
    (`info.portInput`) or reads. -/
structure ChannelOf (dataPorts : List PortProto) (channel : ChannelProto) (info : ChannelInfo String) : Prop where
  /-- A receive-only channel is an input, a send-only one an output. -/
  ops : channel.supportedOps = if info.portInput then .receiveOnly else .sendOnly
  /-- It is mapped to ports, all naming its data port. -/
  mapped : channel.blockPorts ≠ [] ∧ ∀ mapping ∈ channel.blockPorts, mapping.dataPortName.getD "" = info.channelData
  /-- Its data port is a port of the signature, of the channel's width. -/
  dataPort : ∃ port ∈ dataPorts, port.name = info.channelData ∧ port.width = info.width
  /-- It is ready/valid as its flow control says, and then its mappings all
      name its ready and valid ports. -/
  readyValid : info.readyValid = (channel.flowControl == .readyValid)
  handshake : info.readyValid = true → ∀ mapping ∈ channel.blockPorts,
    mapping.readyPortName.getD "" = info.channelReady ∧ mapping.validPortName.getD "" = info.channelValid

section Channel

variable {dataPorts : List PortProto} {channel : ChannelProto}

theorem samePorts_iff {p q : BlockPortMapping} : p.samePorts q = true ↔ q.dataPortName.getD "" = p.dataPortName.getD "" ∧
    q.readyPortName.getD "" = p.readyPortName.getD "" ∧ q.validPortName.getD "" = p.validPortName.getD "" := by
  simp [BlockPortMapping.samePorts, and_assoc]

theorem portInputOf_eq_ok {portInput : Bool} (h : portInputOf channel = .ok portInput) :
    channel.supportedOps = if portInput then .receiveOnly else .sendOnly := by
  unfold portInputOf at h
  split at h <;> cases h <;> simpa

/-- `interpretChannel` skips exactly the internal channels. -/
theorem interpretChannel_eq_ok_none (h : interpretChannel dataPorts channel = .ok none) :
    channel.supportedOps = .sendReceive := by
  unfold interpretChannel at h
  split at h
  · assumption
  split at h
  · cases h
  split at h
  · cases h
  split at h
  · cases h
  obtain ⟨portInput, -, h⟩ := except_bind_eq_ok.1 h
  split at h
  · split at h <;> cases h
  · cases h

/-- What `interpretChannel` returns for a channel it does not skip: the
    channel's name, and its info as `ChannelOf` reads it. -/
theorem channelOf_of_interpretChannel {name : String} {info : ChannelInfo String}
    (h : interpretChannel dataPorts channel = .ok (some (name, info))) :
    name = channel.name ∧ ChannelOf dataPorts channel info := by
  unfold interpretChannel at h
  split at h
  · cases h
  split at h
  · cases h
  rename_i portMapping _ hports
  split at h
  · cases h
  rename_i hall
  have hsame : ∀ q ∈ channel.blockPorts, q.dataPortName.getD "" = portMapping.dataPortName.getD "" ∧
      q.readyPortName.getD "" = portMapping.readyPortName.getD "" ∧
      q.validPortName.getD "" = portMapping.validPortName.getD "" := fun q hq =>
    samePorts_iff.1 (List.all_eq_true.1 (by simpa using hall) q hq)
  have hne : channel.blockPorts ≠ [] := by simp [hports]
  split at h
  · cases h
  rename_i dataPort hfind
  have hdata : ∃ port ∈ dataPorts, port.name = portMapping.dataPortName.getD "" ∧ port.width = dataPort.width :=
    ⟨dataPort, List.mem_of_find?_eq_some hfind, by simpa using List.find?_some hfind, rfl⟩
  obtain ⟨portInput, hpi, h⟩ := except_bind_eq_ok.1 h
  have hops := portInputOf_eq_ok hpi
  split at h
  · rename_i hrv
    split at h
    · cases h
    · cases h
    rename_i ready valid hready hvalid
    cases h
    exact ⟨rfl, hops, ⟨hne, fun q hq => (hsame q hq).1⟩, hdata, by simp [hrv], fun _ q hq =>
      ⟨(hsame q hq).2.1.trans (by simp [hready]), (hsame q hq).2.2.trans (by simp [hvalid])⟩⟩
  · rename_i hrv
    cases h
    exact ⟨rfl, hops, ⟨hne, fun q hq => (hsame q hq).1⟩, hdata, by simp [hrv], by simp⟩

end Channel

/-- The channel of a data port, for a signature without channels the
    testbench drives or reads (a function's arguments and result). -/
def portChannel (port : PortProto) : ChannelInfo String :=
  ⟨port.width, port.direction == .input, false, "", "", port.name⟩

/-- The loop over `data_ports()` of `InterpretBlockSignature`. -/
def portChannels (dataPorts : List PortProto) : NameMap (ChannelInfo String) :=
  dataPorts.foldl (fun channelInfo port => channelInfo.insert port.name (portChannel port)) ∅

/-- The channels `InterpretBlockSignature` reads off the signature, before it
    checks the maps against them. -/
def signatureChannels (signature : ModuleSignature) : Except SetupError (NameMap (ChannelInfo String)) := do
  let channelInfo ← insertEach (interpretChannel signature.dataPorts) ∅ signature.dataChannels
  pure (if channelInfo.entries.isEmpty then portChannels signature.dataPorts else channelInfo)

/-- The loop over `channel_info` checking that each input channel has an
    entry in the input map and each output channel one in the
    expected-output map. -/
def checkChannelsInMaps (inputs outputs : List String) (channelInfo : NameMap (ChannelInfo String)) :
    Except SetupError Unit :=
  channelInfo.entries.forM fun ⟨name, info⟩ =>
    if info.portInput then
      if name ∈ inputs then pure () else throw (.retCheck ("missing port " ++ name))
    else if name ∈ outputs then pure () else throw (.retCheck ("Missing port " ++ name))

/-- The loops checking that each channel of a map (`file`: of the inputs or of
    the outputs) is a channel of `channel_info`. -/
def checkMapInChannels (channelInfo : NameMap (ChannelInfo String)) (file : String) (names : List String) :
    Except SetupError Unit :=
  names.forM fun name =>
    if name ∈ channelInfo then pure () else
      throw (.invalidArgument ("Channel " ++ name ++ " should not be in channel " ++ file ++
        " file, as there are no corresponding ports"))

/-- `InterpretBlockSignature`: the channels of the signature, checked against
    the channels of the input map (`inputs`) and of the expected-output map
    (`outputs`). -/
def interpretBlockSignature (signature : ModuleSignature) (inputs outputs : List String) :
    Except SetupError (NameMap (ChannelInfo String)) := do
  let channelInfo ← signatureChannels signature
  checkChannelsInMaps inputs outputs channelInfo
  checkMapInChannels channelInfo "inputs" inputs
  checkMapInChannels channelInfo "outputs" outputs
  pure channelInfo

/-- What the signature says of the channel `name` the testbench drives or
    reads, with its info: a channel of that name, as `ChannelOf` reads it; or,
    for a signature whose channels are all internal, a data port of that name
    (`portChannel`). -/
def SignatureChannel (signature : ModuleSignature) (name : String) (info : ChannelInfo String) : Prop :=
  (∃ channel ∈ signature.dataChannels, channel.name = name ∧ ChannelOf signature.dataPorts channel info) ∨
    (∀ channel ∈ signature.dataChannels, channel.supportedOps = .sendReceive) ∧
      ∃ port ∈ signature.dataPorts, port.name = name ∧ info = portChannel port

section Signature

variable {signature : ModuleSignature} {channelInfo : NameMap (ChannelInfo String)} {name : String}
  {info : ChannelInfo String} {inputs outputs : List String}

theorem lookup_portChannels :
    ∀ {ports : List PortProto} {m : NameMap (ChannelInfo String)},
      (ports.foldl (fun channelInfo port => channelInfo.insert port.name (portChannel port)) m).lookup name =
        some info → m.lookup name = some info ∨ ∃ port ∈ ports, port.name = name ∧ info = portChannel port
  | [], _, h => .inl h
  | port :: _, _, h => by
    rw [List.foldl_cons] at h
    rcases lookup_portChannels h with h | ⟨p, hp, hn, rfl⟩
    · by_cases hk : name = port.name
      · subst hk
        exact .inr ⟨port, .head _, rfl, (Option.some.inj ((AList.lookup_insert _).symm.trans h)).symm⟩
      · exact .inl ((AList.lookup_insert_ne hk).symm.trans h)
    · exact .inr ⟨p, .tail _ hp, hn, rfl⟩

/-- Each channel `InterpretBlockSignature` reads off the signature is what the
    signature says of it. -/
theorem signatureChannel_of_lookup (h : signatureChannels signature = .ok channelInfo)
    (hl : channelInfo.lookup name = some info) : SignatureChannel signature name info := by
  obtain ⟨read, hread, h⟩ := except_bind_eq_ok.1 h
  cases h
  split at hl
  · rename_i hempty
    refine .inr ⟨fun channel hc => ?_, (lookup_portChannels hl).resolve_left (by simp)⟩
    obtain ⟨r, hr⟩ := exists_insertEach_eq_ok_iff.1 ⟨_, hread⟩ channel hc
    rcases r with _ | ⟨k, v⟩
    · exact interpretChannel_eq_ok_none hr
    · have hk := AList.mem_keys.1 (mem_of_insertEach hread (.inr ⟨channel, hc, v, hr⟩))
      simp [AList.keys, List.isEmpty_iff.1 hempty] at hk
  · rcases lookup_of_insertEach hread hl with h0 | ⟨channel, hc, hr⟩
    · simp at h0
    · obtain ⟨rfl, hof⟩ := channelOf_of_interpretChannel hr
      exact .inl ⟨channel, hc, rfl, hof⟩

theorem checkChannelsInMaps_eq_ok_iff : checkChannelsInMaps inputs outputs channelInfo = .ok () ↔
    ∀ name info, channelInfo.lookup name = some info → name ∈ (if info.portInput then inputs else outputs) := by
  rw [checkChannelsInMaps, forM_eq_ok_iff]
  refine ⟨fun h name info hl => ?_, fun h ⟨name, info⟩ he => ?_⟩
  · have := h _ (AList.mem_lookup_iff.1 hl)
    by_cases hp : info.portInput <;> simpa [hp, check_eq_ok_iff] using this
  · have := h name info (AList.mem_lookup_iff.2 he)
    by_cases hp : info.portInput <;> simpa [hp, check_eq_ok_iff] using this

theorem checkMapInChannels_eq_ok_iff {file : String} :
    checkMapInChannels channelInfo file inputs = .ok () ↔ ∀ name ∈ inputs, name ∈ channelInfo := by
  rw [checkMapInChannels, forM_eq_ok_iff]
  exact forall₂_congr fun _ _ => check_eq_ok_iff

/-- `InterpretBlockSignature` returns the channels of the signature exactly
    when each input channel is in the input map, each output channel in the
    expected-output map, and each channel of the maps is one of them. -/
theorem interpretBlockSignature_eq_ok_iff :
    interpretBlockSignature signature inputs outputs = .ok channelInfo ↔
      signatureChannels signature = .ok channelInfo ∧
      (∀ name info, channelInfo.lookup name = some info → name ∈ (if info.portInput then inputs else outputs)) ∧
      (∀ name ∈ inputs, name ∈ channelInfo) ∧ ∀ name ∈ outputs, name ∈ channelInfo := by
  constructor
  · intro h
    obtain ⟨ci, hci, h⟩ := except_bind_eq_ok.1 h
    obtain ⟨⟨⟩, h₁, h⟩ := except_bind_eq_ok.1 h
    obtain ⟨⟨⟩, h₂, h⟩ := except_bind_eq_ok.1 h
    obtain ⟨⟨⟩, h₃, h⟩ := except_bind_eq_ok.1 h
    cases h
    exact ⟨hci, checkChannelsInMaps_eq_ok_iff.1 h₁, checkMapInChannels_eq_ok_iff.1 h₂,
      checkMapInChannels_eq_ok_iff.1 h₃⟩
  · rintro ⟨hci, h₁, h₂, h₃⟩
    simp only [interpretBlockSignature, hci, checkChannelsInMaps_eq_ok_iff.2 h₁, checkMapInChannels_eq_ok_iff.2 h₂,
      checkMapInChannels_eq_ok_iff.2 h₃, except_ok_bind, except_pure]

end Signature

/-! ## `GetRamInfoMap`, the queues and the memories -/

/-- The body of the loop of `GetRamInfoMap`: the ports of one RAM. -/
def ramInfoOf (ram : RamProto) : Except SetupError (StandardRamInfo String) :=
  match ram.ports with
  | .ram1RW address readEnable writeEnable writeData readData =>
    pure ⟨address, readEnable, readData, address, writeEnable, writeData⟩
  | .ram1R1W readAddress readEnable readData writeAddress writeEnable writeData =>
    pure ⟨readAddress, readEnable, readData, writeAddress, writeEnable, writeData⟩
  | .notSet => throw (.retCheck ("Ram request '" ++ ram.name ++ "' does not include read/write info"))

/-- `GetRamInfoMap`: the ports of each RAM of the signature. -/
def getRamInfoMap (signature : ModuleSignature) : Except SetupError (NameMap (StandardRamInfo String)) :=
  insertEach (fun ram => (fun info => some (ram.name, info)) <$> ramInfoOf ram) ∅ signature.rams

/-- The loops filling `channel_value_queues` from a map's entries, each
    `CHECK`ing that the channel has no queue yet. -/
def enqueueChannels : NameMap (List Value) → List (Σ _ : String, List Value) →
    Except SetupError (NameMap (List Value))
  | queues, [] => pure queues
  | queues, ⟨name, values⟩ :: rest =>
    if name ∈ queues then throw (.checkFailed "!channel_value_queues.contains(name)")
    else enqueueChannels (queues.insert name values) rest

/-- `channel_value_queues`: the values of the input map, then those of the
    expected-output map. -/
def prepareQueues (inputs outputs : NameMap (List Value)) : Except SetupError (NameMap (List Value)) := do
  let queues ← enqueueChannels ∅ inputs.entries
  enqueueChannels queues outputs.entries

/-- The body of the loop making `model_memories`: the memory of a
    `--model_memories` entry, of its size and initial value, reading disabled
    as all ones (`XsOfType`) of the type of its RAM's read-data port. A
    negative size, which the source converts to `size_t`, is read as `0`. -/
def makeMemory (ramInfo : NameMap (StandardRamInfo String)) (inputPortType : String → Option Ty)
    (memory : Σ _ : String, Int × Value) : Except SetupError (Option (String × MemoryModel)) :=
  match ramInfo.lookup memory.1 with
  | none => throw (.retCheck "ram_info.contains(name)")
  | some info =>
    match inputPortType info.rdData with
    | none => throw (.noInputPort info.rdData)
    | some ty => pure (some (memory.1, MemoryModel.mk' memory.1 memory.2.1.toNat memory.2.2 (allOnesOfType ty)))

/-- `model_memories`. -/
def makeMemories (ramInfo : NameMap (StandardRamInfo String)) (inputPortType : String → Option Ty)
    (modelMemories : NameMap (Int × Value)) : Except SetupError (NameMap MemoryModel) :=
  insertEach (makeMemory ramInfo inputPortType) ∅ modelMemories.entries

section Resources

variable {signature : ModuleSignature} {name : String}

/-- `GetRamInfoMap` succeeds exactly when every RAM says its ports. -/
theorem exists_getRamInfoMap_eq_ok_iff :
    (∃ ramInfo, getRamInfoMap signature = .ok ramInfo) ↔ ∀ ram ∈ signature.rams, ram.ports ≠ .notSet := by
  rw [getRamInfoMap, exists_insertEach_eq_ok_iff]
  refine forall₂_congr fun ram _ => ?_
  unfold ramInfoOf
  split <;> simp [Functor.map, Except.map, *]

theorem exists_enqueueChannels_eq_ok_iff :
    ∀ {queues : NameMap (List Value)} {l : List (Σ _ : String, List Value)}, l.NodupKeys →
      ((∃ queues', enqueueChannels queues l = .ok queues') ↔ ∀ name ∈ l.keys, name ∉ queues)
  | _, [], _ => by simp [enqueueChannels]
  | queues, ⟨k, values⟩ :: rest, hl => by
    rw [List.nodupKeys_cons] at hl
    by_cases hq : k ∈ queues
    · simp [enqueueChannels, hq]
    · rw [enqueueChannels, if_neg hq, exists_enqueueChannels_eq_ok_iff hl.2]
      simp only [List.keys_cons, List.mem_cons, forall_eq_or_imp, AList.mem_insert, not_or]
      exact ⟨fun h => ⟨hq, fun n hn => (h n hn).2⟩, fun h n hn => ⟨fun hn' => hl.1 (hn' ▸ hn), h.2 n hn⟩⟩

theorem lookup_enqueueChannels :
    ∀ {queues queues' : NameMap (List Value)} {l : List (Σ _ : String, List Value)}, l.NodupKeys →
      enqueueChannels queues l = .ok queues' → queues'.lookup name = (l.dlookup name).or (queues.lookup name)
  | _, _, [], _, h => by cases h; simp
  | queues, _, ⟨k, values⟩ :: rest, hl, h => by
    rw [List.nodupKeys_cons] at hl
    rw [enqueueChannels] at h
    split at h
    · cases h
    rw [lookup_enqueueChannels hl.2 h]
    by_cases hn : name = k
    · subst hn
      simp [List.dlookup_eq_none.2 hl.1, List.dlookup_cons_eq]
    · simp [List.dlookup_cons_ne rest ⟨k, values⟩ hn, AList.lookup_insert_ne hn]

/-- `channel_value_queues` is filled exactly when no channel is in both maps. -/
theorem exists_prepareQueues_eq_ok_iff {inputs outputs : NameMap (List Value)} :
    (∃ queues, prepareQueues inputs outputs = .ok queues) ↔ ∀ name ∈ inputs, name ∉ outputs := by
  obtain ⟨queues, hq⟩ := (exists_enqueueChannels_eq_ok_iff inputs.nodupKeys).2 fun _ _ => AList.not_mem_empty _
  have hmem : ∀ name, name ∈ queues ↔ name ∈ inputs := fun name => by
    rw [← AList.lookup_isSome, ← AList.lookup_isSome, lookup_enqueueChannels inputs.nodupKeys hq]
    simp [AList.lookup]
  simp only [prepareQueues, hq, except_ok_bind, exists_enqueueChannels_eq_ok_iff outputs.nodupKeys, hmem]
  exact ⟨fun h name hi ho => h name (AList.mem_keys.1 ho) hi, fun h name ho hi => h name hi (AList.mem_keys.2 ho)⟩

/-- Each queue holds its map's values. -/
theorem lookup_prepareQueues {inputs outputs queues : NameMap (List Value)}
    (h : prepareQueues inputs outputs = .ok queues) :
    queues.lookup name = (outputs.lookup name).or (inputs.lookup name) := by
  obtain ⟨queues₁, h₁, h⟩ := except_bind_eq_ok.1 h
  rw [lookup_enqueueChannels outputs.nodupKeys h, lookup_enqueueChannels inputs.nodupKeys h₁]
  simp [AList.lookup]

theorem enqueueChannels_eq_error :
    ∀ {queues : NameMap (List Value)} {l : List (Σ _ : String, List Value)} {e : SetupError},
      enqueueChannels queues l = .error e → e = .checkFailed "!channel_value_queues.contains(name)"
  | _, [], _, h => by cases h
  | _, ⟨_, _⟩ :: _, _, h => by
    rw [enqueueChannels] at h
    split at h
    · cases h
      rfl
    · exact enqueueChannels_eq_error h

/-- Filling `channel_value_queues` fails only at its `CHECK`. -/
theorem prepareQueues_eq_error {inputs outputs : NameMap (List Value)} {e : SetupError}
    (h : prepareQueues inputs outputs = .error e) : e = .checkFailed "!channel_value_queues.contains(name)" := by
  unfold prepareQueues at h
  cases h₁ : enqueueChannels ∅ inputs.entries with
  | error e' =>
    simp only [h₁, except_error_bind, Except.error.injEq] at h
    exact h ▸ enqueueChannels_eq_error h₁
  | ok queues =>
    simp only [h₁, except_ok_bind] at h
    exact enqueueChannels_eq_error h

variable {ramInfo : NameMap (StandardRamInfo String)} {inputPortType : String → Option Ty}
  {modelMemories : NameMap (Int × Value)}

theorem makeMemory_eq_ok {memory : Σ _ : String, Int × Value} {r : Option (String × MemoryModel)}
    (h : makeMemory ramInfo inputPortType memory = .ok r) :
    ∃ info ty, ramInfo.lookup memory.1 = some info ∧ inputPortType info.rdData = some ty ∧
      r = some (memory.1, MemoryModel.mk' memory.1 memory.2.1.toNat memory.2.2 (allOnesOfType ty)) := by
  unfold makeMemory at h
  split at h
  · cases h
  rename_i info hinfo
  split at h
  · cases h
  rename_i ty hty
  cases h
  exact ⟨info, ty, hinfo, hty, rfl⟩

/-- Each memory starts as a new `MemoryModel` of its size and initial value,
    reading disabled as all ones of its read-data port's type. -/
theorem lookup_makeMemories {memories : NameMap MemoryModel} {size : Int} {initialValue : Value}
    (h : makeMemories ramInfo inputPortType modelMemories = .ok memories)
    (hm : modelMemories.lookup name = some (size, initialValue)) :
    ∃ info ty, ramInfo.lookup name = some info ∧ inputPortType info.rdData = some ty ∧
      memories.lookup name = some (MemoryModel.mk' name size.toNat initialValue (allOnesOfType ty)) := by
  have he := AList.mem_lookup_iff.1 hm
  obtain ⟨r, hr⟩ := exists_insertEach_eq_ok_iff.1 ⟨_, h⟩ _ he
  obtain ⟨info, ty, hi, ht, rfl⟩ := makeMemory_eq_ok hr
  obtain ⟨m, hlm⟩ := Option.isSome_iff_exists.1 (AList.lookup_isSome.2 (mem_of_insertEach h (.inr ⟨_, he, _, hr⟩)))
  refine ⟨info, ty, hi, ht, hlm.trans ?_⟩
  rcases lookup_of_insertEach h hlm with h0 | ⟨x, hx, hrx⟩
  · simp at h0
  obtain ⟨info', ty', hi', ht', hxm⟩ := makeMemory_eq_ok hrx
  obtain ⟨rfl, rfl⟩ := Prod.mk.inj (Option.some.inj hxm)
  have hx₂ : x.2 = (size, initialValue) := Option.some.inj ((AList.mem_lookup_iff.2 hx).symm.trans hm)
  obtain rfl := Option.some.inj (hi.symm.trans hi')
  obtain rfl := Option.some.inj (ht.symm.trans ht')
  rw [hx₂]

end Resources

/-- The options of `RunBlock` its cycle loop reads. -/
structure RunBlockOptions where
  maxCyclesNoOutput : Int
  failOnAssert : Bool

/-- `ChannelInfo{}`, what `channel_info.at` gives no channel the loop asks for
    (`runBlockSetup_spec`). -/
def noChannelInfo : ChannelInfo String := ⟨-1, false, false, "", "", ""⟩

/-- `StandardRamInfo{}`. -/
def noRamInfo : StandardRamInfo String := ⟨"", "", "", "", "", ""⟩

/-- `RunBlock` up to its cycle loop: the testbench and the first state, from
    the signature, the two maps, the memories, the block's input ports
    (`GetPortTypeOrNull`) and the options. -/
def runBlockSetup (signature : ModuleSignature) (inputs outputs : NameMap (List Value))
    (modelMemories : NameMap (Int × Value)) (inputPortType : String → Option Ty) (options : RunBlockOptions) :
    Except SetupError (Testbench String × RunState String) := do
  let channelInfo ← interpretBlockSignature signature inputs.keys outputs.keys
  let ramInfo ← getRamInfoMap signature
  let queues ← prepareQueues inputs outputs
  let memories ← makeMemories ramInfo inputPortType modelMemories
  pure ({ channelInfo := fun name => (channelInfo.lookup name).getD noChannelInfo
          inputChannels := inputs.keys
          outputChannels := outputs.keys
          reset := if signature.reset.name.isEmpty then none else some (signature.reset.name, signature.reset.activeLow)
          ramInfo := fun name => (ramInfo.lookup name).getD noRamInfo
          memories := modelMemories.keys
          inputPortType := inputPortType
          maxCyclesNoOutput := options.maxCyclesNoOutput
          failOnAssert := options.failOnAssert },
        { queues := fun name => (queues.lookup name).getD []
          memories := fun name => (memories.lookup name).getD (MemoryModel.mk' name 0 .token .token)
          lastOutputCycle := 0
          matchedOutputs := 0 })

/-! ## The set-up -/

/-- The channels of the input map are the input channels, and those of the
    expected-output map the output channels. -/
structure MapsMatch (channelInfo : NameMap (ChannelInfo String)) (inputs outputs : List String) : Prop where
  inputs : ∀ name, name ∈ inputs ↔ ∃ info, channelInfo.lookup name = some info ∧ info.portInput = true
  outputs : ∀ name, name ∈ outputs ↔ ∃ info, channelInfo.lookup name = some info ∧ info.portInput = false

section Setup

variable {signature : ModuleSignature} {inputs outputs : NameMap (List Value)}
  {modelMemories : NameMap (Int × Value)} {inputPortType : String → Option Ty} {options : RunBlockOptions}

/-- The checks of `InterpretBlockSignature` and the `CHECK`s filling the
    queues together say that the maps' channels are the input and the output
    channels. -/
theorem mapsMatch_iff {channelInfo : NameMap (ChannelInfo String)} {inputs outputs : List String} :
    MapsMatch channelInfo inputs outputs ↔
      (∀ name info, channelInfo.lookup name = some info → name ∈ (if info.portInput then inputs else outputs)) ∧
      (∀ name ∈ inputs, name ∈ channelInfo) ∧ (∀ name ∈ outputs, name ∈ channelInfo) ∧
      ∀ name ∈ inputs, name ∉ outputs := by
  have hmem : ∀ {name info}, channelInfo.lookup name = some info → name ∈ channelInfo := fun hl =>
    AList.lookup_isSome.1 (by simp [hl])
  constructor
  · rintro ⟨hin, hout⟩
    refine ⟨fun name info hl => ?_, fun name hn => ?_, fun name hn => ?_, fun name hi ho => ?_⟩
    · cases hp : info.portInput
      · simpa using (hout name).2 ⟨info, hl, hp⟩
      · simpa using (hin name).2 ⟨info, hl, hp⟩
    · obtain ⟨_, hl, -⟩ := (hin name).1 hn
      exact hmem hl
    · obtain ⟨_, hl, -⟩ := (hout name).1 hn
      exact hmem hl
    · obtain ⟨_, hl, hp⟩ := (hin name).1 hi
      obtain ⟨_, hl', hp'⟩ := (hout name).1 ho
      cases hl.symm.trans hl'
      exact Bool.noConfusion (hp.symm.trans hp')
  · rintro ⟨hdir, hin, hout, hdisj⟩
    refine ⟨fun name => ⟨fun hn => ?_, fun ⟨info, hl, hp⟩ => by simpa [hp] using hdir name info hl⟩,
      fun name => ⟨fun hn => ?_, fun ⟨info, hl, hp⟩ => by simpa [hp] using hdir name info hl⟩⟩
    · obtain ⟨info, hl⟩ := Option.isSome_iff_exists.1 (AList.lookup_isSome.2 (hin name hn))
      refine ⟨info, hl, ?_⟩
      cases hp : info.portInput
      · exact absurd (by simpa [hp] using hdir name info hl) (hdisj name hn)
      · rfl
    · obtain ⟨info, hl⟩ := Option.isSome_iff_exists.1 (AList.lookup_isSome.2 (hout name hn))
      refine ⟨info, hl, ?_⟩
      cases hp : info.portInput
      · rfl
      · exact absurd hn (hdisj name (by simpa [hp] using hdir name info hl))

/-- After the set-up of `RunBlock`, the testbench's channels are distinct (the
    hypothesis of the run theorems), each channel of the input map is an
    input channel of the signature and each of the expected-output map an
    output channel, with the ports the signature maps it to; each queue holds
    its map's values, each memory is new, and no output has been seen. -/
theorem runBlockSetup_spec {tb : Testbench String} {s₀ : RunState String}
    (h : runBlockSetup signature inputs outputs modelMemories inputPortType options = .ok (tb, s₀)) :
    tb.ChannelsDistinct ∧
      (∀ name ∈ tb.inputChannels, (tb.channelInfo name).portInput = true ∧
        SignatureChannel signature name (tb.channelInfo name)) ∧
      (∀ name ∈ tb.outputChannels, (tb.channelInfo name).portInput = false ∧
        SignatureChannel signature name (tb.channelInfo name)) ∧
      (∀ name values, inputs.lookup name = some values ∨ outputs.lookup name = some values →
        s₀.queues name = values) ∧
      (∀ name ∈ tb.memories, ∃ size initialValue ty, modelMemories.lookup name = some (size, initialValue) ∧
        tb.inputPortType (tb.ramInfo name).rdData = some ty ∧
        s₀.memories name = MemoryModel.mk' name size.toNat initialValue (allOnesOfType ty)) ∧
      s₀.lastOutputCycle = 0 ∧ s₀.matchedOutputs = 0 := by
  obtain ⟨channelInfo, hci, h⟩ := except_bind_eq_ok.1 h
  obtain ⟨ramInfo, hri, h⟩ := except_bind_eq_ok.1 h
  obtain ⟨queues, hq, h⟩ := except_bind_eq_ok.1 h
  obtain ⟨memories, hm, h⟩ := except_bind_eq_ok.1 h
  cases h
  obtain ⟨hsig, hdir, hin, hout⟩ := interpretBlockSignature_eq_ok_iff.1 hci
  have hdisj := exists_prepareQueues_eq_ok_iff.1 ⟨queues, hq⟩
  have hdisj' : ∀ name ∈ inputs.keys, name ∉ outputs.keys := fun name hi ho =>
    hdisj name (AList.mem_keys.2 hi) (AList.mem_keys.2 ho)
  obtain ⟨hmin, hmout⟩ := mapsMatch_iff.2 ⟨hdir, hin, hout, hdisj'⟩
  refine ⟨⟨inputs.keys_nodup, outputs.keys_nodup, hdisj'⟩, fun name hn => ?_, fun name hn => ?_,
    fun name values hv => ?_, fun name hn => ?_, rfl, rfl⟩
  · obtain ⟨info, hl, hp⟩ := (hmin name).1 hn
    simp only [hl, Option.getD_some]
    exact ⟨hp, signatureChannel_of_lookup hsig hl⟩
  · obtain ⟨info, hl, hp⟩ := (hmout name).1 hn
    simp only [hl, Option.getD_some]
    exact ⟨hp, signatureChannel_of_lookup hsig hl⟩
  · simp only [lookup_prepareQueues hq]
    rcases hv with hv | hv
    · have ho : outputs.lookup name = none :=
        AList.lookup_eq_none.2 (hdisj name (AList.lookup_isSome.1 (by simp [hv])))
      simp [ho, hv]
    · simp [hv]
  · obtain ⟨⟨size, initialValue⟩, hv⟩ := Option.isSome_iff_exists.1 (AList.lookup_isSome.2 (AList.mem_keys.2 hn))
    obtain ⟨info, ty, hi, ht, hl⟩ := lookup_makeMemories hm hv
    exact ⟨size, initialValue, ty, hv, by simp [hi, ht], by simp [hl]⟩

/-- A block with two ready/valid input channels `a` and `b` of eight bits,
    both mapped to the ports `d`, `r` and `v`. -/
def sharedPortSignature : ModuleSignature where
  dataChannels := [⟨"a", .receiveOnly, .readyValid, [⟨some "d", some "r", some "v"⟩]⟩,
    ⟨"b", .receiveOnly, .readyValid, [⟨some "d", some "r", some "v"⟩]⟩]
  dataPorts := [⟨"d", .input, 8⟩]
  rams := []
  reset := ⟨"rst", false⟩

/-- No values to send on `a` and `b`. -/
def sharedPortInputs : NameMap (List Value) := (AList.singleton "a" []).insert "b" []

theorem runBlockSetup_spec_sharedPortSignature :
    ∃ tb s₀, runBlockSetup sharedPortSignature sharedPortInputs ∅ ∅ (fun _ => some (.bits 8)) ⟨100, true⟩ =
        .ok (tb, s₀) ∧ tb.ChannelsDistinct ∧ ¬ tb.PortsDistinct :=
  ⟨_, _, rfl, (runBlockSetup_spec (rfl : runBlockSetup sharedPortSignature sharedPortInputs ∅ ∅
    (fun _ => some (.bits 8)) ⟨100, true⟩ = _)).1, by decide⟩

/-- A channel named in both maps aborts the set-up at the `CHECK` filling the
    queues, also when `InterpretBlockSignature` accepts the maps, as it does
    for an output channel: it checks that each entry of the input map is a
    channel, not that it is an input channel. -/
theorem runBlockSetup_shared_channel {channelInfo : NameMap (ChannelInfo String)}
    {ramInfo : NameMap (StandardRamInfo String)}
    (hci : interpretBlockSignature signature inputs.keys outputs.keys = .ok channelInfo)
    (hri : getRamInfoMap signature = .ok ramInfo) {name : String} (hi : name ∈ inputs) (ho : name ∈ outputs) :
    runBlockSetup signature inputs outputs modelMemories inputPortType options =
      .error (.checkFailed "!channel_value_queues.contains(name)") := by
  simp only [runBlockSetup, hci, hri, except_ok_bind]
  cases hq : prepareQueues inputs outputs with
  | ok queues => exact absurd ho (exists_prepareQueues_eq_ok_iff.1 ⟨queues, hq⟩ name hi)
  | error e =>
    rw [prepareQueues_eq_error hq]
    rfl

/-- A block with one ready/valid output channel `out` of eight bits. -/
def senderSignature : ModuleSignature where
  dataChannels := [⟨"out", .sendOnly, .readyValid, [⟨some "out_data", some "out_rdy", some "out_vld"⟩]⟩]
  dataPorts := [⟨"out_data", .output, 8⟩]
  rams := []
  reset := ⟨"rst", false⟩

theorem runBlockSetup_shared_channel_sender :
    ∃ channelInfo, interpretBlockSignature senderSignature ["out"] ["out"] = .ok channelInfo ∧
      runBlockSetup senderSignature (AList.singleton "out" []) (AList.singleton "out" []) ∅ (fun _ => none)
        ⟨100, true⟩ = .error (.checkFailed "!channel_value_queues.contains(name)") :=
  let ⟨channelInfo, hci⟩ : ∃ channelInfo,
      interpretBlockSignature senderSignature ["out"] ["out"] = .ok channelInfo := ⟨_, rfl⟩
  have hout : "out" ∈ AList.singleton "out" ([] : List Value) := by decide
  ⟨channelInfo, hci, runBlockSetup_shared_channel hci rfl hout hout⟩

end Setup

end Xls.EvalProcMain
