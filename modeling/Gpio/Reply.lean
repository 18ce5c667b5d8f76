import Gpio.Fault

/-!
# Replies

Every request is either granted, with an answer, or refused, with a fault.
-/

namespace Gpio

/-- What a granted request gives back. -/
inductive Answer where
  | done
  | flag (value : Bool)
  | number (value : Nat)
  deriving DecidableEq

/-- A flag as a number. Other answers stay. -/
def Answer.toNumber : Answer → Answer
  | .flag value => .number value.toNat
  | other => other

inductive Reply where
  | answer (answer : Answer)
  | refusal (fault : Fault)
  deriving DecidableEq

end Gpio
