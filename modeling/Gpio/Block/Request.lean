import Gpio.Block.Basic
import Gpio.Reply

/-!
# Direct use of a block

The registers of a block can be read and written without a controller. Pins are given by
number, and a request about a pin that does not exist is refused.
-/

namespace Gpio

inductive BlockRequest where
  | get (r : Register)
  | reset (r : Register)
  | isSet (r : Register) (pin : UInt32)
  | writeBit (r : Register) (pin : UInt32) (value : Bool)
  | acknowledge (r : Register) (pin : UInt32)
  deriving DecidableEq

/-- The register write of a granted request, if it is one that writes, and its answer. -/
structure BlockResponse where
  write? : Option RegisterWrite := none
  answer : Answer := .done
  deriving DecidableEq

def Block.respond {words : Nat} (b : Block words) (m : Memory words) :
    BlockRequest → Except Fault BlockResponse
  | .get r => .ok { answer := .number (b.read m r).toNat }
  | .reset r => .ok { write? := some (.reset r) }
  | .isSet r pin => do
      let p ← Pin.ofIndex pin
      return { answer := .flag (b.isSet m r p) }
  | .writeBit r pin value => do
      let p ← Pin.ofIndex pin
      return { write? := some (.bit r p value) }
  | .acknowledge r pin => do
      let p ← Pin.ofIndex pin
      return { write? := some (.acknowledge r p) }

end Gpio
