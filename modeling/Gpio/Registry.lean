import Gpio.Links.Edit
import Gpio.Reply

/-!
# Registries

A registry is a list of callbacks in the order of their registration. A callback is a
node, and a registry a list, of chained lists. An edit registers a callback at the end,
unless it is in the registry already, or takes callbacks out.
-/

namespace Gpio

/-- A user of interrupts, as registered: whom to call, and with which context. -/
structure Callback (clients : Nat) where
  client : Fin clients
  context : UInt64
  deriving DecidableEq

inductive RegistryEdit (clients callbacks : Nat) where
  | register (callback : Fin callbacks)
  /-- Take out every callback of a client. -/
  | unregister (client : Fin clients)
  /-- Register a callback, or take it out. -/
  | manage (callback : Fin callbacks) (present : Bool)
  deriving DecidableEq

inductive RegistryQuery (callbacks : Nat) where
  | length
  | isEmpty
  | contains (callback : Fin callbacks)
  deriving DecidableEq

namespace Registry

variable {registries callbacks clients : Nat}

def contains (h : Links registries callbacks) (r : Fin registries) (callback : Fin callbacks) :
    Bool :=
  decide (callback ∈ h.walk r)

def length (h : Links registries callbacks) (r : Fin registries) : Nat := (h.walk r).length

def isEmpty (h : Links registries callbacks) (r : Fin registries) : Bool := (h.first? r).isNone

/-- A callback that is registered already keeps its place. -/
def register (h : Links registries callbacks) (r : Fin registries) (callback : Fin callbacks) :
    Links registries callbacks :=
  if contains h r callback then h else h.pushTail r callback

def remove (h : Links registries callbacks) (r : Fin registries) (callback : Fin callbacks) :
    Links registries callbacks :=
  h.removeWhere r fun other => other = callback

def unregister (h : Links registries callbacks) (clientOf : Fin callbacks → Fin clients)
    (r : Fin registries) (client : Fin clients) : Links registries callbacks :=
  h.removeWhere r fun callback => clientOf callback = client

def edit (h : Links registries callbacks) (clientOf : Fin callbacks → Fin clients)
    (r : Fin registries) : RegistryEdit clients callbacks → Links registries callbacks
  | .register callback => register h r callback
  | .unregister client => unregister h clientOf r client
  | .manage callback true => register h r callback
  | .manage callback false => remove h r callback

/-- The answer to a question about a registry. -/
def ask (h : Links registries callbacks) (r : Fin registries) : RegistryQuery callbacks → Answer
  | .length => .number (length h r)
  | .isEmpty => .flag (isEmpty h r)
  | .contains callback => .flag (contains h r callback)

end Registry

end Gpio
