import Gpio.Controller.Refusal
import Gpio.Proofs.Block.Writes

/-!
# What a block holds about its pins

A controller keeps nothing of its own: what it has been told about a pin is in nine
registers of its block, and the other pins have their bits in the same words. `PinRecord` is
what these nine bits mean together. The requests of a controller are stated again on records,
without any register (`PinRecords.fault?`, `PinRecord.update`, `PinRecords.answer`), and a
block that represents records goes on to represent them after every request.
-/

namespace Gpio

/-- What has been asked for a pin since the initialization, and the value that it drives. -/
structure PinRecord where
  /-- A pin that has not been configured has no direction. -/
  direction : Option Direction := none
  invert : Bool := false
  pullUp : Bool := false
  trigger : Option Trigger := none
  /-- The driven value, which an initialization keeps. -/
  output : Bool
  deriving DecidableEq

namespace PinRecord

/-- The registers in which a record has its bits. -/
def registers : List Register := .outputValue :: Register.cleared

theorem notMem_registers_of_mem_pending {r : Register} (latches : r ∈ Register.pending) :
    r ∉ registers := by
  revert r
  decide

/-- Whether a record sets the bit of its pin in a register. -/
def bit (record : PinRecord) : Register → Bool
  | .inputEnable => record.direction = some .input
  | .outputEnable => record.direction = some .output
  | .outputValue => record.output
  | .pullUpEnable => record.pullUp
  | .riseEnable => record.trigger = some (.edge .double) ∨ record.trigger = some (.edge .activeHigh)
  | .fallEnable => record.trigger = some (.edge .double) ∨ record.trigger = some (.edge .activeLow)
  | .highEnable => record.trigger = some (.level .activeHigh)
  | .lowEnable => record.trigger = some (.level .activeLow)
  | .invert => record.invert
  | _ => false

/-- The record that has given bits. -/
def ofBits (bit : Register → Bool) : PinRecord where
  direction :=
    if bit .inputEnable then some .input
    else if bit .outputEnable then some .output
    else none
  invert := bit .invert
  pullUp := bit .pullUpEnable
  trigger :=
    if bit .riseEnable then some (.edge (if bit .fallEnable then .double else .activeHigh))
    else if bit .fallEnable then some (.edge .activeLow)
    else if bit .highEnable then some (.level .activeHigh)
    else if bit .lowEnable then some (.level .activeLow)
    else none
  output := bit .outputValue

theorem ofBits_bit (record : PinRecord) : ofBits record.bit = record := by
  rcases record with ⟨_ | _ | _, invert, pullUp, _ | (_ | _ | _) | _ | _, output⟩ <;> rfl

theorem ofBits_congr {first second : Register → Bool}
    (same : ∀ r ∈ registers, first r = second r) : ofBits first = ofBits second := by
  simp only [registers, Register.cleared, List.forall_mem_cons] at same
  simp only [ofBits, same]

/-- A record is known from its bits. -/
theorem eq_of_bit {first second : PinRecord} (same : ∀ r ∈ registers, first.bit r = second.bit r) :
    first = second := by
  rw [← ofBits_bit first, ofBits_congr same, ofBits_bit]

/-- An output keeps its pull-up, and an input its polarity. -/
def configure (record : PinRecord) (config : PinConfig) : PinRecord where
  direction := some config.direction
  invert := if config.direction = .output then config.invert else record.invert
  pullUp := if config.direction = .input then config.pull = .up else record.pullUp
  trigger := config.interrupt.or record.trigger
  output := record.output

/-- The level of the pin: the driven value of an output, the sampled one of any other. -/
def level (record : PinRecord) (sampled : Bool) : Bool :=
  if record.direction = some .output then record.output else sampled

/-- The record of a pin after a request that is granted. -/
def update (record : PinRecord) (p : Pin) : Request → PinRecord
  | .bringUp => { output := record.output }
  | .configure pin config => if pin.toNat = p.val then record.configure config else record
  | .write pin value => if pin.toNat = p.val then { record with output := value } else record
  | .read _ | .enableInterrupt _ | .disableInterrupt _ => record

theorem bit_configure (record : PinRecord) (config : PinConfig) (r : Register) :
    (record.configure config).bit r = (config.settings.lookup r).getD (record.bit r) := by
  rcases config with ⟨_ | _, invert, pull, _ | (_ | _ | _) | _ | _⟩ <;> cases r <;> rfl

theorem bit_initialized (output : Bool) (r : Register) :
    ({ output := output } : PinRecord).bit r = (decide (.outputValue = r) && output) := by
  cases r <;> rfl

theorem bit_output (record : PinRecord) (value : Bool) (r : Register) :
    ({ record with output := value } : PinRecord).bit r =
      if .outputValue = r then value else record.bit r := by
  cases r <;> rfl

end PinRecord

/-- A reply with a level as a number. -/
def Reply.toNumber : Reply → Reply
  | .answer given => .answer given.toNumber
  | .refusal fault => .refusal fault

/-- The records of all pins. -/
abbrev PinRecords := Pin → PinRecord

namespace PinRecords

/-- Why a request is refused, if it is, by a controller whose pins have ids from a base on. -/
def fault? (base : Irq) (records : PinRecords) : Request → Option Fault
  | .bringUp => if base.toNat + (pinCount - 1) < UInt32.size then none else some .invalidConfig
  | .configure pin config => if pin.toNat < pinCount then config.fault? else some .invalidPin
  | .read pin => if pin.toNat < pinCount then none else some .invalidPin
  | .write pin _ =>
      if pin.toNat < pinCount then
        if ∃ p : Pin, pin.toNat = p.val ∧ (records p).direction = some .input then some .pinIsInput
        else none
      else some .invalidPin
  | .enableInterrupt pin | .disableInterrupt pin =>
      if pin.toNat < pinCount then
        if base.toNat + pin.toNat < UInt32.size then none else some .invalidConfig
      else some .invalidPin

/-- The answer to a granted request, for given levels of the pins that are not driven. -/
def answer (records : PinRecords) (sampled : Pin → Bool) : Request → Answer
  | .read pin =>
      if h : pin.toNat < pinCount then
        .flag ((records ⟨pin.toNat, h⟩).level (sampled ⟨pin.toNat, h⟩))
      else .done
  | _ => .done

def reply (base : Irq) (records : PinRecords) (sampled : Pin → Bool) (request : Request) :
    Reply :=
  match records.fault? base request with
  | some fault => .refusal fault
  | none => .answer (records.answer sampled request)

/-- The records after a request. One that is refused changes none. -/
def after (base : Irq) (records : PinRecords) (request : Request) : PinRecords :=
  match records.fault? base request with
  | some _ => records
  | none => fun p => (records p).update p request

/-- The reply to a request by flag words and numbers, which has to be about a single pin. -/
def accessReply (base : Irq) (records : PinRecords) (sampled : Pin → Bool)
    (request : AccessRequest) : Reply :=
  match request.mode with
  | .all => .refusal .unsupportedOperation
  | .single => (records.reply base sampled request.toRequest).toNumber

def afterAccess (base : Irq) (records : PinRecords) (request : AccessRequest) : PinRecords :=
  match request.mode with
  | .all => records
  | .single => records.after base request.toRequest

end PinRecords

/-- The bits of a block are those of the records. -/
def Block.Represents {words : Nat} (b : Block words) (m : Memory words) (records : PinRecords) :
    Prop :=
  ∀ p, ∀ r ∈ PinRecord.registers, b.isSet m r p = (records p).bit r

namespace Block.Represents

variable {words : Nat} {b : Block words} {m : Memory words} {records : PinRecords}

/-- The bits of a block belong to no other records. -/
theorem unique (represents : b.Represents m records) {others : PinRecords}
    (again : b.Represents m others) : records = others := by
  funext p
  apply PinRecord.eq_of_bit
  intro r mem
  rw [← represents p r mem, again p r mem]

theorem isSet_inputEnable (represents : b.Represents m records) (p : Pin) :
    b.isSet m .inputEnable p ↔ (records p).direction = some .input := by
  rw [represents p .inputEnable (by decide), PinRecord.bit, decide_eq_true_iff]

theorem isSet_outputEnable (represents : b.Represents m records) (p : Pin) :
    b.isSet m .outputEnable p ↔ (records p).direction = some .output := by
  rw [represents p .outputEnable (by decide), PinRecord.bit, decide_eq_true_iff]

theorem congr (represents : b.Represents m records) {n : Memory words}
    (same : ∀ r ∈ PinRecord.registers, b.read n r = b.read m r) : b.Represents n records := by
  intro p r mem
  rw [← represents p r mem, Block.isSet, same r mem, Block.isSet]

/-- Whatever a block holds, an initialization leaves the driven values. -/
theorem initialized (b : Block words) (m : Memory words) :
    b.Represents (b.writeAll m (Register.cleared.map .reset)) fun p =>
      { output := b.isSet m .outputValue p } := by
  intro p r mem
  rw [b.isSet_writeAll_resets m (by decide), PinRecord.bit_initialized]
  rcases List.mem_cons.mp mem with rfl | cleared
  · rfl
  · have other : .outputValue ≠ r := by
      rintro rfl
      exact absurd cleared (by decide)
    rw [if_pos cleared, decide_eq_false other, Bool.false_and]

theorem bringUp (represents : b.Represents m records) :
    b.Represents (b.writeAll m (Register.cleared.map .reset)) fun p =>
      (records p).update p .bringUp := by
  have same : (fun p => { output := b.isSet m .outputValue p }) =
      fun p => (records p).update p .bringUp := by
    funext p
    rw [represents p .outputValue (by decide)]
    rfl
  exact same ▸ initialized b m

theorem configure (represents : b.Represents m records) {pin : UInt32} {p : Pin}
    (number : pin.toNat = p.val) (config : PinConfig) :
    b.Represents (b.writeAll m (config.writes p)) fun q =>
      (records q).update q (.configure pin config) := by
  intro q r mem
  rw [config.isSet_writeAll_writes, represents q r mem]
  simp only [PinRecord.update, number]
  by_cases same : p = q
  · rw [if_pos same, if_pos (congrArg Fin.val same), PinRecord.bit_configure]
  · rw [if_neg same, if_neg fun equal => same (Fin.ext equal)]

theorem write (represents : b.Represents m records) {pin : UInt32} {p : Pin}
    (number : pin.toNat = p.val) (value : Bool) :
    b.Represents (b.write m (.bit .outputValue p value)) fun q =>
      (records q).update q (.write pin value) := by
  intro q r mem
  rw [b.isSet_write_bit, represents q r mem]
  simp only [PinRecord.update, number]
  by_cases same : p = q
  · rw [if_pos (congrArg Fin.val same), PinRecord.bit_output (records q) value r]
    by_cases output : .outputValue = r
    · rw [if_pos ⟨rfl, output, same⟩, if_pos output]
    · rw [if_neg fun all => output all.2.1, if_neg output]
  · rw [if_neg fun all => same all.2.2, if_neg fun equal => same (Fin.ext equal)]

end Block.Represents

end Gpio
