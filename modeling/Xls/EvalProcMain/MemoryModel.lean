import Xls.Value

/-!
# The memory model

`MemoryModel` of `eval_proc_main`: the RAM a block simulation attaches to a
block's memory ports. It holds its cells and, for the current tick, at most one
staged read (the value read, `readThisTick`) and one staged write
(`writeThisTick`). `Tick` commits the write and moves the read to
`readLastTick`, which the block sees in the next cycle (`getValueReadLastTick`,
or `readDisabledValue` after a tick without a read).

`Read` and `Write` are methods that check and then assign members, so they are
modelled in `EStateM`: a failing call returns its error with the object as it
then is. They fail on an address out of range, on a second read or write in one
tick, and (for a write) on a value of another flat bit count than the cells'.

* `read_run`, `write_run`: what each call does, on success and on failure;
* `serve_spec`: in a tick, the memory takes the first read in range and the
  first write in range of the cells' width, and stages them;
* `Refines.tick_serve`: one tick of the memory model is one cycle of a synchronous
  RAM (`SyncRam`) that commits the write and returns the word read as it was
  before the write, one cycle later; `Refines.runTicks` extends it to every run.
-/

namespace Xls

/-- `Value::GetFlatBitCount`: the total width of the leaves. -/
def Value.flatBitCount (v : Value) : Nat := (v.leaves.map List.length).sum

/-- `MemoryModel`. -/
structure MemoryModel where
  name : String
  readDisabledValue : Value
  cells : List Value
  writeThisTick : Option (Nat × Value)
  readThisTick : Option Value
  readLastTick : Option Value

namespace MemoryModel

/-- The constructor: `size` cells of `initialValue`, nothing staged. -/
def mk' (name : String) (size : Nat) (initialValue readDisabledValue : Value) : MemoryModel :=
  ⟨name, readDisabledValue, List.replicate size initialValue, none, none, none⟩

/-- An address of a cell of a memory of `n` cells. -/
def InRange (n : Nat) (addr : Int) : Prop := 0 ≤ addr ∧ addr < n

instance (n : Nat) (addr : Int) : Decidable (InRange n addr) := inferInstanceAs (Decidable (_ ∧ _))

/-- The flat bit count a write must have: that of `cells_[0]`. -/
def width (m : MemoryModel) : Nat := (m.cells.getD 0 default).flatBitCount

/-- `MemoryModel::Read`. -/
def read (addr : Int) : EStateM String MemoryModel Unit := do
  let m ← get
  if addr < 0 ∨ m.cells.length ≤ addr then
    throw ("Memory " ++ m.name ++ " read out of range at " ++ toString addr)
  if m.readThisTick.isSome then
    throw ("Memory " ++ m.name ++ " double read in tick at " ++ toString addr)
  set { m with readThisTick := some (m.cells.getD addr.toNat default) }

/-- `MemoryModel::GetValueReadLastTick`. -/
def getValueReadLastTick (m : MemoryModel) : Value := m.readLastTick.getD m.readDisabledValue

/-- `MemoryModel::Write`. -/
def write (addr : Int) (value : Value) : EStateM String MemoryModel Unit := do
  let m ← get
  if addr < 0 ∨ m.cells.length ≤ addr then
    throw ("Memory " ++ m.name ++ " write out of range at " ++ toString addr)
  if m.writeThisTick.isSome then
    throw ("Memory " ++ m.name ++ " double write in tick at " ++ toString addr)
  if value.flatBitCount ≠ (m.cells.getD 0 default).flatBitCount then
    throw ("Memory " ++ m.name ++ " write value at " ++ toString addr ++
      " with wrong bit count " ++ toString value.flatBitCount ++ ", expected " ++
      toString (m.cells.getD 0 default).flatBitCount)
  set { m with writeThisTick := some (addr.toNat, value) }

/-- `MemoryModel::Tick`: commit the staged write, latch the staged read. It
    always returns `OkStatus`. -/
def tick (m : MemoryModel) : MemoryModel :=
  { m with
    cells := match m.writeThisTick with
      | some (addr, v) => m.cells.set addr v
      | none => m.cells
    writeThisTick := none
    readLastTick := m.readThisTick
    readThisTick := none }

@[simp] theorem tick_readThisTick (m : MemoryModel) : m.tick.readThisTick = none := rfl
@[simp] theorem tick_writeThisTick (m : MemoryModel) : m.tick.writeThisTick = none := rfl
@[simp] theorem tick_readLastTick (m : MemoryModel) : m.tick.readLastTick = m.readThisTick := rfl
@[simp] theorem tick_readDisabledValue (m : MemoryModel) : m.tick.readDisabledValue = m.readDisabledValue := rfl

@[simp] theorem length_tick_cells (m : MemoryModel) : m.tick.cells.length = m.cells.length := by
  unfold tick; split <;> simp

/-! ## What one call does -/

/-- `Read` checks the address, then that no read is staged, and only then
    stages the cell's value. -/
theorem read_run (m : MemoryModel) (addr : Int) : (read addr).run m =
    if InRange m.cells.length addr then
      if m.readThisTick.isSome then .error ("Memory " ++ m.name ++ " double read in tick at " ++ toString addr) m
      else .ok () { m with readThisTick := some (m.cells.getD addr.toNat default) }
    else .error ("Memory " ++ m.name ++ " read out of range at " ++ toString addr) m := by
  show read addr m = _
  simp only [read, bind, EStateM.bind, get, getThe, MonadStateOf.get, EStateM.get, throw,
    throwThe, MonadExceptOf.throw, EStateM.throw, set, EStateM.set, InRange]
  by_cases hr : 0 ≤ addr ∧ addr < m.cells.length
  · rw [if_neg (by omega), if_pos hr]
    cases m.readThisTick <;> rfl
  · rw [if_pos (by omega), if_neg hr]
    rfl

/-- `Write` checks the address, then that no write is staged, then the
    value's width, and only then stages the write. -/
theorem write_run (m : MemoryModel) (addr : Int) (value : Value) : (write addr value).run m =
    if InRange m.cells.length addr then
      if m.writeThisTick.isSome then .error ("Memory " ++ m.name ++ " double write in tick at " ++ toString addr) m
      else if value.flatBitCount ≠ m.width then
        .error ("Memory " ++ m.name ++ " write value at " ++ toString addr ++ " with wrong bit count " ++
          toString value.flatBitCount ++ ", expected " ++ toString m.width) m
      else .ok () { m with writeThisTick := some (addr.toNat, value) }
    else .error ("Memory " ++ m.name ++ " write out of range at " ++ toString addr) m := by
  show write addr value m = _
  simp only [write, bind, EStateM.bind, get, getThe, MonadStateOf.get, EStateM.get, throw,
    throwThe, MonadExceptOf.throw, EStateM.throw, set, EStateM.set, InRange, width]
  by_cases hr : 0 ≤ addr ∧ addr < m.cells.length
  · rw [if_neg (by omega), if_pos hr]
    cases m.writeThisTick
    · by_cases hw : value.flatBitCount = (m.cells.getD 0 default).flatBitCount <;>
        simp only [hw, ne_eq, not_true_eq_false, not_false_eq_true, if_true, if_false] <;> rfl
    · rfl
  · rw [if_pos (by omega), if_neg hr]
    rfl
/-- A request a block makes of a memory in a tick. -/
inductive Request where
  | read (addr : Int)
  | write (addr : Int) (value : Value)

namespace Request

/-- The call a request makes. -/
def call : Request → EStateM String MemoryModel Unit
  | .read addr => MemoryModel.read addr
  | .write addr value => MemoryModel.write addr value

/-- The cell a request reads. -/
def readAddr : Request → Option Nat
  | .read addr => some addr.toNat
  | .write _ _ => none

/-- The cell and value a request writes. -/
def written : Request → Option (Nat × Value)
  | .read _ => none
  | .write addr value => some (addr.toNat, value)

/-- Why a call fails: an address out of range, a read (a write) already staged
    in the tick, a write of another flat bit count than the cells'. -/
def Fails (m : MemoryModel) : Request → Prop
  | .read addr => ¬InRange m.cells.length addr ∨ m.readThisTick.isSome
  | .write addr value => ¬InRange m.cells.length addr ∨ m.writeThisTick.isSome ∨ value.flatBitCount ≠ m.width

end Request

/-- What a successful call stages: its read's cell value, its write. -/
def stage (m : MemoryModel) (r : Request) : MemoryModel :=
  { m with
    readThisTick := m.readThisTick.or (r.readAddr.map fun a => m.cells.getD a default)
    writeThisTick := m.writeThisTick.or r.written }

@[simp] theorem stage_cells (m : MemoryModel) (r : Request) : (m.stage r).cells = m.cells := rfl
@[simp] theorem stage_readLastTick (m : MemoryModel) (r : Request) : (m.stage r).readLastTick = m.readLastTick := rfl
@[simp] theorem stage_readDisabledValue (m : MemoryModel) (r : Request) :
    (m.stage r).readDisabledValue = m.readDisabledValue := rfl
@[simp] theorem stage_readThisTick (m : MemoryModel) (r : Request) :
    (m.stage r).readThisTick = m.readThisTick.or (r.readAddr.map fun a => m.cells.getD a default) := rfl
@[simp] theorem stage_writeThisTick (m : MemoryModel) (r : Request) :
    (m.stage r).writeThisTick = m.writeThisTick.or r.written := rfl
@[simp] theorem width_stage (m : MemoryModel) (r : Request) : (m.stage r).width = m.width := rfl

/-- A call fails exactly for one of the reasons of `Fails`, and a failed call
    leaves the object as it was: every check comes before the assignment. -/
theorem call_run (m : MemoryModel) (r : Request) :
    (¬r.Fails m ∧ r.call.run m = .ok () (m.stage r)) ∨
      (r.Fails m ∧ ∃ e, r.call.run m = .error e m) := by
  cases r with
  | read addr =>
    rw [Request.call, read_run]
    by_cases hr : InRange m.cells.length addr <;> cases hm : m.readThisTick <;>
      simp [hr, hm, Request.Fails, Request.readAddr, Request.written, stage]
  | write addr value =>
    rw [Request.call, write_run]
    by_cases hr : InRange m.cells.length addr <;> cases hm : m.writeThisTick <;>
      by_cases hw : value.flatBitCount = m.width <;>
      simp [hr, hm, hw, Request.Fails, Request.readAddr, Request.written, stage]

/-! ## One tick -/

/-- The requests of one tick, each called on the object the one before left,
    whatever its status: the object after them, and the requests that
    succeeded. -/
def serve : List Request → MemoryModel → MemoryModel × List Request
  | [], m => (m, [])
  | r :: rs, m =>
    match r.call.run m with
    | .ok _ m' => ((serve rs m').1, r :: (serve rs m').2)
    | .error _ m' => serve rs m'

/-- What a tick's requests stage: the first read and the first write that
    succeed, unless one was staged before; nothing else changes. -/
theorem serve_spec : ∀ (rs : List Request) (m : MemoryModel),
    (serve rs m).1.cells = m.cells ∧ (serve rs m).1.readLastTick = m.readLastTick ∧
      (serve rs m).1.readDisabledValue = m.readDisabledValue ∧
      (serve rs m).1.readThisTick =
        m.readThisTick.or (((serve rs m).2.findSome? Request.readAddr).map fun a => m.cells.getD a default) ∧
      (serve rs m).1.writeThisTick = m.writeThisTick.or ((serve rs m).2.findSome? Request.written)
  | [], m => by simp [serve]
  | r :: rs, m => by
    rcases call_run m r with ⟨-, hok⟩ | ⟨-, e, herr⟩
    · obtain ⟨ih₁, ih₂, ih₃, ih₄, ih₅⟩ := serve_spec rs (m.stage r)
      simp only [serve, hok, ih₁, ih₂, ih₃, ih₄, ih₅, stage_cells, stage_readLastTick, stage_readDisabledValue,
        stage_readThisTick, stage_writeThisTick, true_and]
      cases r <;> cases m.readThisTick <;> cases m.writeThisTick <;> simp [Request.readAddr, Request.written]
    · simpa only [serve, herr] using serve_spec rs m

/-- In a tick at most one read and at most one write succeed, and none when
    one was staged before. -/
theorem serve_succeeded_le : ∀ (rs : List Request) (m : MemoryModel),
    ((serve rs m).2.filterMap Request.readAddr).length ≤ (if m.readThisTick.isSome then 0 else 1) ∧
      ((serve rs m).2.filterMap Request.written).length ≤ (if m.writeThisTick.isSome then 0 else 1)
  | [], m => by simp [serve]
  | r :: rs, m => by
    rcases call_run m r with ⟨hf, hok⟩ | ⟨-, e, herr⟩
    · have ih := serve_succeeded_le rs (m.stage r)
      simp only [serve, hok]
      cases r <;> cases hm : m.readThisTick <;> cases hm' : m.writeThisTick <;>
        simp_all [Request.Fails, Request.readAddr, Request.written]
    · simpa only [serve, herr] using serve_succeeded_le rs m

theorem serve_cons_of_not_fails {m : MemoryModel} {r : Request} (h : ¬r.Fails m) (rs : List Request) :
    serve (r :: rs) m = ((serve rs (m.stage r)).1, r :: (serve rs (m.stage r)).2) := by
  rcases call_run m r with ⟨-, hok⟩ | ⟨hf, -⟩
  · simp only [serve, hok]
  · exact absurd hf h

/-- The memory model is a RAM of one read and one write per tick: a call fails
    exactly when its check fails, and a failed call leaves the model as it was;
    of any requests in one tick at most one read and one write succeed; and
    after `Tick` a read in range and a write in range of the cells' width both
    succeed, in either order. -/
theorem memory_one_read_one_write_per_tick :
    (∀ (m : MemoryModel) (r : Request) (e : String) (m' : MemoryModel),
        r.call.run m = .error e m' → m' = m ∧ r.Fails m) ∧
      (∀ (m : MemoryModel) (r : Request), r.Fails m → ∃ e, r.call.run m = .error e m) ∧
      (∀ (m : MemoryModel) (rs : List Request), ((serve rs m).2.filterMap Request.readAddr).length ≤ 1 ∧
        ((serve rs m).2.filterMap Request.written).length ≤ 1) ∧
      (∀ (m : MemoryModel) (addr addr' : Int) (value : Value), InRange m.cells.length addr →
        InRange m.cells.length addr' → value.flatBitCount = m.tick.width →
        (serve [.read addr, .write addr' value] m.tick).2 = [.read addr, .write addr' value] ∧
        (serve [.write addr' value, .read addr] m.tick).2 = [.write addr' value, .read addr]) := by
  refine ⟨fun m r e m' h => ?_, fun m r hf => ?_, fun m rs => ?_, fun m addr addr' value ha ha' hw => ?_⟩
  · rcases call_run m r with ⟨-, hok⟩ | ⟨hf, e', herr⟩
    · cases h.symm.trans hok
    · cases h.symm.trans herr
      exact ⟨rfl, hf⟩
  · rcases call_run m r with ⟨hn, -⟩ | ⟨-, h⟩
    · exact absurd hf hn
    · exact h
  · have h := serve_succeeded_le rs m
    exact ⟨h.1.trans (by split <;> omega), h.2.trans (by split <;> omega)⟩
  · have h₁ : ¬(Request.read addr).Fails m.tick := by simp [Request.Fails, ha]
    have h₂ : ¬(Request.write addr' value).Fails m.tick := by simp [Request.Fails, ha', hw]
    have h₃ : ¬(Request.write addr' value).Fails (m.tick.stage (.read addr)) := by
      simp [Request.Fails, Request.written, ha', hw]
    have h₄ : ¬(Request.read addr).Fails (m.tick.stage (.write addr' value)) := by
      simp [Request.Fails, Request.readAddr, ha]
    rw [serve_cons_of_not_fails h₁, serve_cons_of_not_fails h₃, serve_cons_of_not_fails h₂,
      serve_cons_of_not_fails h₄]
    exact ⟨rfl, rfl⟩

/-! ## A synchronous RAM -/

/-- A synchronous RAM with one cycle of read latency, what the memory model is
    for: in each cycle it takes at most one read address and at most one write;
    at the clock edge it commits the write and presents the word read as it was
    before the write. -/
structure SyncRam where
  cells : List Value
  readData : Option Value

namespace SyncRam

/-- One cycle of the RAM. -/
def cycle (r : SyncRam) (rd : Option Nat) (wr : Option (Nat × Value)) : SyncRam where
  cells := match wr with
    | some (addr, v) => r.cells.set addr v
    | none => r.cells
  readData := rd.map fun addr => r.cells.getD addr default

/-- The RAM through cycles, each given by the requests it took. -/
def run (r : SyncRam) : List (List Request) → SyncRam
  | [] => r
  | took :: rest => (r.cycle (took.findSome? Request.readAddr) (took.findSome? Request.written)).run rest

end SyncRam

/-- A run of the memory model: in each tick the block's requests, then `Tick`.
    The object after the run, and the requests each tick took. -/
def runTicks (m : MemoryModel) : List (List Request) → MemoryModel × List (List Request)
  | [] => (m, [])
  | rs :: ts => ((runTicks (serve rs m).1.tick ts).1, (serve rs m).2 :: (runTicks (serve rs m).1.tick ts).2)

/-- The memory model at a tick boundary stands for the RAM: the same cells, the
    word read last tick as the RAM's read data, nothing staged. -/
structure Refines (m : MemoryModel) (r : SyncRam) : Prop where
  cells : m.cells = r.cells
  readLastTick : m.readLastTick = r.readData
  noRead : m.readThisTick = none
  noWrite : m.writeThisTick = none

theorem Refines.tick_serve {m : MemoryModel} {r : SyncRam} (h : Refines m r) (rs : List Request) :
    Refines (serve rs m).1.tick
      (r.cycle ((serve rs m).2.findSome? Request.readAddr) ((serve rs m).2.findSome? Request.written)) := by
  obtain ⟨hc, -, -, hr, hw⟩ := serve_spec rs m
  refine ⟨?_, ?_, rfl, rfl⟩
  · simp only [tick, SyncRam.cycle, hw, hc, h.noWrite, h.cells, Option.none_or]
  · simp [tick, SyncRam.cycle, hr, h.noRead, h.cells]

/-- Every run of the memory model refines the RAM's run on the requests each
    tick took. -/
theorem Refines.runTicks {m : MemoryModel} {r : SyncRam} (h : Refines m r) :
    ∀ ts, Refines (m.runTicks ts).1 (r.run (m.runTicks ts).2)
  | [] => h
  | rs :: ts => (h.tick_serve rs).runTicks ts

theorem runTicks_readDisabledValue (m : MemoryModel) :
    ∀ ts, (m.runTicks ts).1.readDisabledValue = m.readDisabledValue
  | [] => rfl
  | rs :: ts => (runTicks_readDisabledValue _ ts).trans (serve_spec rs m).2.2.1

/-- The memory model is a synchronous RAM: after any run of ticks its cells are
    the initial ones updated, tick by tick, by the write each tick took, and
    the value read last tick is the word the tick's read addressed as it stood
    before that tick's write, or the read-disabled value after a tick without
    a read. -/
theorem runTicks_refines_syncRam (name : String) (n : Nat) (v0 rdv : Value) (ts : List (List Request)) :
    let run := runTicks (mk' name n v0 rdv) ts
    let ram := SyncRam.run ⟨List.replicate n v0, none⟩ run.2
    run.1.cells = ram.cells ∧ run.1.getValueReadLastTick = ram.readData.getD rdv := by
  have h := Refines.runTicks (m := mk' name n v0 rdv) (r := ⟨List.replicate n v0, none⟩) ⟨rfl, rfl, rfl, rfl⟩ ts
  refine ⟨h.cells, ?_⟩
  simp only [getValueReadLastTick, h.readLastTick, runTicks_readDisabledValue]
  rfl

end MemoryModel

end Xls
