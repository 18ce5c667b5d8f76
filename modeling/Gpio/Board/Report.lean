import Gpio.Board.Basic

/-!
# Reports

What a user of a board is told of the events. Register writes are left out, since the
memory shows them, and handlers that are installed for consecutive ids are told of once.
-/

namespace Gpio

inductive Report (L : Layout) where
  | fired (call : Call L)
  | did (reply : Reply)
  | mask (irq : Irq)
  | unmask (irq : Irq)
  | installed (range : IrqRange)
  | log (level : LogLevel) (text : String)
  deriving DecidableEq

namespace Report

variable {L : Layout}

/-- The report of one event, if there is one. -/
def ofEvent? : Event L → Option (Report L)
  | .acted _ (.write _) => none
  | .acted _ (.mask irq) => some (mask irq)
  | .acted _ (.unmask irq) => some (unmask irq)
  | .acted _ (.install irq) => some (installed ⟨irq, irq⟩)
  | .acted _ (.log entry) => some (log entry.level entry.text)
  | .wrote _ _ => none
  | .fired call => some (fired call)
  | .did reply => some (did reply)

/-- Put a report before others, as one with the first of them if both are about
installations and the ids are consecutive. -/
def join (report : Report L) (reports : List (Report L)) : List (Report L) :=
  match report, reports with
  | installed low, installed high :: rest =>
      if low.last.toNat + 1 = high.first.toNat then installed ⟨low.first, high.last⟩ :: rest
      else report :: reports
  | _, _ => report :: reports

/-- The reports of events, in order. -/
def ofEvents (events : List (Event L)) : List (Report L) :=
  (events.filterMap ofEvent?).foldr join []

end Report

end Gpio
