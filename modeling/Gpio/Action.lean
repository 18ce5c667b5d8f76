import Gpio.Interrupt
import Gpio.PinConfig.Basic
import Gpio.Reply

/-!
# Actions

What a controller does to the world around it: it writes registers, calls the interrupt
controller and logs. A request that is granted is answered, and has a list of actions
(`Response`); one that is refused has none.
-/

namespace Gpio

inductive LogLevel where
  | trace
  | debug
  | warn
  deriving DecidableEq

def LogLevel.name : LogLevel → String
  | .trace => "TRACE"
  | .debug => "DEBUG"
  | .warn => "WARN"

inductive LogEntry where
  /-- A controller has taken over its interrupt ids. -/
  | initialized (range : IrqRange)
  | configured (p : Pin) (direction : Direction) (trigger? : Option Trigger)
  /-- An interrupt is about to be dispatched. -/
  | interrupt (irq : Irq) (p : Pin)
  /-- An interrupt has reached a controller that has no pin for it. -/
  | foreign (irq : Irq)
  /-- After a dispatch there was nothing to acknowledge. -/
  | nothingPending (p : Pin)
  deriving DecidableEq

namespace LogEntry

def level : LogEntry → LogLevel
  | initialized _ => .debug
  | configured _ _ _ => .debug
  | interrupt _ _ => .trace
  | foreign _ => .warn
  | nothingPending _ => .warn

def text : LogEntry → String
  | initialized range => s!"gpio: initialized, interrupts {range.first}..={range.last}"
  | configured p direction none => s!"gpio: pin {p} configured {direction.name}"
  | configured p direction (some trigger) =>
      s!"gpio: pin {p} configured {direction.name} with trigger {trigger.name}"
  | interrupt irq p => s!"gpio: interrupt {irq} on pin {p}"
  | foreign irq => s!"gpio: interrupt {irq} is not a pin of this controller"
  | nothingPending p => s!"gpio: no pending bit for pin {p}"

end LogEntry

inductive Action where
  | write (w : RegisterWrite)
  | mask (irq : Irq)
  | unmask (irq : Irq)
  /-- Become the handler of an interrupt id. -/
  | install (irq : Irq)
  | log (entry : LogEntry)
  deriving DecidableEq

/-- What a granted request does, in order, and its answer. -/
structure Response where
  actions : List Action := []
  answer : Answer := .done
  deriving DecidableEq

end Gpio
