/-!
# Faults

The reasons for which a request is refused. A refused request has done nothing.
-/

namespace Gpio

/-- Why a request was refused. -/
inductive Fault where
  | invalidPin
  | unsupportedOperation
  | pinIsInput
  | unsupportedPolarityForInput
  | unsupportedPullDown
  | interruptNotSupportedOnOutput
  | invalidConfig
  deriving DecidableEq

namespace Fault

/-- The number of a fault: its place in the list of faults, from 0. -/
def code : Fault → Nat
  | invalidPin => 0
  | unsupportedOperation => 1
  | pinIsInput => 2
  | unsupportedPolarityForInput => 3
  | unsupportedPullDown => 4
  | interruptNotSupportedOnOutput => 5
  | invalidConfig => 6

def message : Fault → String
  | invalidPin => "pin index out of range"
  | unsupportedOperation => "access mode not supported"
  | pinIsInput => "pin is configured as input"
  | unsupportedPolarityForInput => "polarity inversion is only supported on outputs"
  | unsupportedPullDown => "pull-down is not supported"
  | interruptNotSupportedOnOutput => "interrupts are not supported on outputs"
  | invalidConfig => "invalid controller configuration"

/-- Every fault, in the order of the codes. -/
def all : List Fault :=
  [invalidPin, unsupportedOperation, pinIsInput, unsupportedPolarityForInput,
    unsupportedPullDown, interruptNotSupportedOnOutput, invalidConfig]

end Fault

end Gpio
