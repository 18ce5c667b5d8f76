import Gpio.Block.Request
import Gpio.Controller.Access
import Gpio.Registry

/-!
# Boards

A board is one memory with controllers and bare register maps over it, one interrupt
controller, registries, and callbacks of clients. Every controller has a registry of its
own, and there may be others. A client is a script: each time it is called it uses up the
next entry of its script, a list of commands that it gives to the board from inside the
call.

This module holds the parts of a board that stay (`Board`), its state (`State`), what can
be asked of it (`Command`), and what is seen of it (`Event`).
-/

namespace Gpio

/-- How many there are of everything on a board. -/
structure Layout where
  /-- The words of memory. -/
  words : Nat
  controllers : Nat
  /-- The blocks that are used without a controller. -/
  maps : Nat
  /-- The registries that belong to no controller. -/
  registries : Nat
  clients : Nat
  callbacks : Nat

/-- The number of all registries. -/
abbrev Layout.lists (L : Layout) : Nat := L.controllers + L.registries

/-- The parts of a board that stay as they are. -/
structure Board (L : Layout) where
  controllers : Fin L.controllers → Controller L.words
  maps : Fin L.maps → Block L.words
  callbacks : Fin L.callbacks → Callback L.clients

variable {L : Layout}

namespace Board

/-- The registry of a controller. -/
def ownRegistry (c : Fin L.controllers) : Fin L.lists := Fin.castAdd L.registries c

/-- A registry that belongs to no controller. -/
def bareRegistry (r : Fin L.registries) : Fin L.lists := Fin.natAdd L.controllers r

def clientOf (B : Board L) (callback : Fin L.callbacks) : Fin L.clients :=
  (B.callbacks callback).client

end Board

/-- The commands during which no client is called. -/
inductive Operation (L : Layout) where
  | request (c : Fin L.controllers) (request : Request)
  | access (c : Fin L.controllers) (request : AccessRequest)
  | map (m : Fin L.maps) (request : BlockRequest)
  | edit (r : Fin L.lists) (edit : RegistryEdit L.clients L.callbacks)
  | query (r : Fin L.lists) (query : RegistryQuery L.callbacks)
  | pinMask (callback : Fin L.callbacks)
  | context (callback : Fin L.callbacks)
  | setPinMask (callback : Fin L.callbacks) (mask : Word)
  | setPending (irq : Irq)
  | peek (word : Fin L.words)
  | poke (word : Fin L.words) (value : Word)
  /-- Give every word of memory one value. -/
  | fill (value : Word)

inductive Command (L : Layout) where
  | operation (operation : Operation L)
  /-- Call the callbacks of a registry that listen to some of these pins. -/
  | dispatch (r : Fin L.lists) (pins : Word)
  /-- Let a controller service the pending interrupt. -/
  | service (c : Fin L.controllers)
  /-- Signal an interrupt, which is delivered if it is unmasked and has a handler. -/
  | raise (irq : Irq)

/-- What a client does each time that it is called. -/
abbrev Script (L : Layout) := List (List (Command L))

structure State (L : Layout) where
  memory : Memory L.words
  links : Links L.lists L.callbacks
  /-- The pins to which each callback listens. -/
  masks : Vector Word L.callbacks
  interrupts : InterruptController L.controllers
  /-- The entries that the clients have not used yet. -/
  scripts : Vector (Script L) L.clients

namespace State

/-- All registries are empty, every interrupt is masked and has no handler. -/
def start (memory : Memory L.words) (masks : Vector Word L.callbacks)
    (scripts : Vector (Script L) L.clients) : State L where
  memory := memory
  links := .empty L.lists L.callbacks
  masks := masks
  interrupts := {}
  scripts := scripts

def mask (s : State L) (callback : Fin L.callbacks) : Word := s.masks[callback.val]

def setMask (s : State L) (callback : Fin L.callbacks) (mask : Word) : State L :=
  { s with masks := s.masks.set callback.val mask callback.isLt }

def script (s : State L) (client : Fin L.clients) : Script L := s.scripts[client.val]

def setScript (s : State L) (client : Fin L.clients) (script : Script L) : State L :=
  { s with scripts := s.scripts.set client.val script client.isLt }

/-- The number of script entries that are left. -/
def entriesLeft (s : State L) : Nat := s.scripts.toList.flatten.length

/-- Use up the next entry of a client's script. -/
def takeNext? (s : State L) (client : Fin L.clients) : Option (List (Command L) × State L) :=
  match s.script client with
  | [] => none
  | entry :: rest => some (entry, s.setScript client rest)

theorem mask_setMask (s : State L) (callback other : Fin L.callbacks) (mask : Word) :
    (s.setMask callback mask).mask other = if callback = other then mask else s.mask other := by
  simp only [State.mask, setMask, Vector.getElem_set, Fin.ext_iff]

theorem script_setScript (s : State L) (client other : Fin L.clients) (script : Script L) :
    (s.setScript client script).script other =
      if client = other then script else s.script other := by
  simp only [State.script, setScript, Vector.getElem_set, Fin.ext_iff]

end State

/-- One call of a client. -/
structure Call (L : Layout) where
  callback : Fin L.callbacks
  client : Fin L.clients
  /-- The pins that fired, as far as the callback listens to them. -/
  pins : Word
  context : UInt64
  deriving DecidableEq

inductive Event (L : Layout) where
  | acted (c : Fin L.controllers) (action : Action)
  /-- A bare register map has written a register. -/
  | wrote (m : Fin L.maps) (write : RegisterWrite)
  | fired (call : Call L)
  /-- A client that is being called has finished a command. -/
  | did (reply : Reply)
  deriving DecidableEq

/-- What a command leads to. -/
structure Effect (L : Layout) where
  state : State L
  /-- What happened meanwhile, in order. -/
  events : List (Event L) := []
  reply : Reply := .answer .done

end Gpio
