import Gpio.Action

/-!
# Controllers

A controller serves the pins of one block. `Controller.respond` is the one place where a
request is judged: it says which requests are refused, and lists what a granted one does.
Servicing an interrupt has two parts of its own, between which the callbacks are called:
finding the pin (`Controller.pin?`) and the acknowledgement (`Controller.acknowledge`).
-/

namespace Gpio

/-- Where a controller is to be made. -/
structure ControllerConfig where
  baseAddress : UInt64
  /-- The interrupt id of pin 0. -/
  irqBase : Irq
  deriving DecidableEq

namespace ControllerConfig

def irqs (config : ControllerConfig) : Except Fault IrqRange := IrqRange.ofBase config.irqBase

/-- What is wrong with a configuration: the address has to be that of a word, but not
zero, and every pin needs an interrupt id. -/
def fault? (config : ControllerConfig) : Option Fault :=
  if config.baseAddress = 0 ∨ config.baseAddress % 4 ≠ 0 then some .invalidConfig
  else
    match config.irqs with
    | .ok _ => none
    | .error fault => some fault

end ControllerConfig

structure Controller (words : Nat) where
  block : Block words
  irqBase : Irq
  deriving DecidableEq

/-- What can be asked of a controller. Pins are given by number. -/
inductive Request where
  /-- Clear the block and take over its interrupt ids. -/
  | bringUp
  | configure (pin : UInt32) (config : PinConfig)
  | read (pin : UInt32)
  | write (pin : UInt32) (value : Bool)
  | enableInterrupt (pin : UInt32)
  | disableInterrupt (pin : UInt32)
  deriving DecidableEq

namespace Controller

variable {words : Nat}

/-- The controller that a configuration describes, in a memory that starts at `origin`:
a fault if the configuration is refused, and none if its block is not in memory. -/
def ofConfig (words : Nat) (origin : UInt64) (config : ControllerConfig) :
    Except Fault (Option (Controller words)) :=
  match config.fault? with
  | some fault => .error fault
  | none =>
      .ok <| (Block.ofAddress? words origin config.baseAddress).map fun block =>
        ⟨block, config.irqBase⟩

/-- The interrupt id of a pin that is given by number. -/
def irqOf (c : Controller words) (pin : UInt32) : Except Fault Irq := do
  let p ← Pin.ofIndex pin
  match p.irq? c.irqBase with
  | some irq => return irq
  | none => throw .invalidConfig

/-- The level of a pin: the driven value of an output, the sampled one of any other. -/
def level (c : Controller words) (m : Memory words) (p : Pin) : Bool :=
  if c.block.isSet m .outputEnable p then c.block.isSet m .outputValue p
  else c.block.isSet m .inputValue p

/-- What an initialization does: it clears registers, and takes over the interrupt ids. -/
def initialization (range : IrqRange) : List Action :=
  Register.cleared.map (fun r => .write (.reset r)) ++ range.ids.map .install ++
    [.log (.initialized range)]

/-- What a configuration of a pin does. -/
def configuration (p : Pin) (config : PinConfig) : List Action :=
  (config.writes p).map .write ++ [.log (.configured p config.direction config.interrupt)]

def respond (c : Controller words) (m : Memory words) : Request → Except Fault Response
  | .bringUp => do
      let range ← IrqRange.ofBase c.irqBase
      return { actions := initialization range }
  | .configure pin config => do
      let p ← Pin.ofIndex pin
      match config.fault? with
      | some fault => throw fault
      | none => return { actions := configuration p config }
  | .read pin => do
      let p ← Pin.ofIndex pin
      return { answer := .flag (c.level m p) }
  | .write pin value => do
      let p ← Pin.ofIndex pin
      if c.block.isSet m .inputEnable p then throw .pinIsInput
      else return { actions := [.write (.bit .outputValue p value)] }
  | .enableInterrupt pin => do
      let irq ← c.irqOf pin
      return { actions := [.unmask irq] }
  | .disableInterrupt pin => do
      let irq ← c.irqOf pin
      return { actions := [.mask irq] }

/-- The pin that an interrupt id stands for. -/
def pin? (c : Controller words) (irq : Irq) : Option Pin := Pin.ofIrq? c.irqBase irq

/-- The first register in which an interrupt of a pin is latched. -/
def latched? (c : Controller words) (m : Memory words) (p : Pin) : Option Register :=
  Register.pending.find? fun r => c.block.isSet m r p

/-- What ends the service of a pin's interrupt. -/
def acknowledge (c : Controller words) (m : Memory words) (p : Pin) : Action :=
  match c.latched? m p with
  | some r => .write (.acknowledge r p)
  | none => .log (.nothingPending p)

end Controller

end Gpio
