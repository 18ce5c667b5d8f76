import Gpio.Controller.Basic
import Gpio.PinConfig.Flags

/-!
# Access by flag words and numbers

A generic way to use a controller: configurations are flag words, levels are numbers, and
every request says whether it is about one pin or all of them at once. Only single pins are
served. Apart from that, such a request is one of the controller's own requests.
-/

namespace Gpio

/-- How a request addresses pins. -/
inductive AccessMode where
  | single
  | all
  deriving DecidableEq

inductive AccessRequest where
  | config (mode : AccessMode) (pin : UInt32) (flags : Word)
  /-- Any number but zero drives the pin high. -/
  | write (mode : AccessMode) (pin : UInt32) (value : UInt32)
  | read (mode : AccessMode) (pin : UInt32)
  | enableCallback (mode : AccessMode) (pin : UInt32)
  | disableCallback (mode : AccessMode) (pin : UInt32)
  deriving DecidableEq

namespace AccessRequest

def mode : AccessRequest → AccessMode
  | config mode _ _ => mode
  | write mode _ _ => mode
  | read mode _ => mode
  | enableCallback mode _ => mode
  | disableCallback mode _ => mode

/-- The request for the addressed pin. -/
def toRequest : AccessRequest → Request
  | config _ pin flags => .configure pin (PinConfig.ofFlags flags)
  | write _ pin value => .write pin (value != 0)
  | read _ pin => .read pin
  | enableCallback _ pin => .enableInterrupt pin
  | disableCallback _ pin => .disableInterrupt pin

end AccessRequest

/-- The response to a request for one pin, with a level as a number. -/
def Controller.respondAccess {words : Nat} (c : Controller words) (m : Memory words)
    (request : AccessRequest) : Except Fault Response :=
  match request.mode with
  | .all => .error .unsupportedOperation
  | .single => do
      let response ← c.respond m request.toRequest
      return { response with answer := response.answer.toNumber }

end Gpio
