import Gpio.Board.Operation

/-!
# Delivery

A dispatch walks a registry and calls the clients whose callbacks listen to the pins
given. It reads a callback's mask when it gets there, and the link to the next one when
the call has returned, so what a client does from inside a call shows in the rest of the
walk.

A dispatch is defined for clients of any behaviour (`Clients`), and the clients of a board
are scripts (`clientsAt`). Every nested call with commands in it uses up a script entry, so
the number of entries left bounds the nesting. Between two uses of an entry no link changes
and a walk meets no callback twice, which bounds the turns of a dispatch
(`dispatchBudget`). A result of `none` means that one of these bounds was too small.
-/

namespace Gpio

variable {L : Layout}

/-- What the clients do when called: the state that a call leaves and what happened in it. -/
abbrev Clients (L : Layout) := Call L → State L → Option (State L × List (Event L))

/-- A call made by a dispatch itself, with all that happened within it. -/
structure Firing (L : Layout) where
  call : Call L
  within : List (Event L)

def Firing.events (firing : Firing L) : List (Event L) := .fired firing.call :: firing.within

namespace Board

/-- The call of a callback for some pins. -/
def callOf (B : Board L) (callback : Fin L.callbacks) (pins : Word) : Call L where
  callback := callback
  client := (B.callbacks callback).client
  pins := pins
  context := (B.callbacks callback).context

/-- The rest of a dispatch that stands at a link, with a budget for its turns. -/
def dispatchFrom (B : Board L) (clients : Clients L) (pins : Word) :
    Nat → Link L.lists L.callbacks → State L → Option (State L × List (Firing L))
  | 0, _, _ => none
  | budget + 1, link, s =>
      match s.links.read link with
      | none => some (s, [])
      | some callback =>
          if s.mask callback &&& pins = 0 then
            B.dispatchFrom clients pins budget (.next callback) s
          else do
            let call := B.callOf callback (s.mask callback &&& pins)
            let (afterCall, within) ← clients call s
            let (final, firings) ← B.dispatchFrom clients pins budget (.next callback) afterCall
            return (final, ⟨call, within⟩ :: firings)

/-- A bound on the turns of a dispatch: all callbacks once before every use of a script
entry and once after the last, and a turn at the end. -/
def dispatchBudget (s : State L) : Nat := L.callbacks * (s.entriesLeft + 1) + 1

/-- Call the callbacks of a registry that listen to some of the pins. -/
def dispatch (B : Board L) (clients : Clients L) (r : Fin L.lists) (pins : Word) (s : State L) :
    Option (State L × List (Firing L)) :=
  B.dispatchFrom clients pins (dispatchBudget s) (.head r) s

/-- Let a controller service the pending interrupt: dispatch its pin to the controller's
registry, and acknowledge it in the memory that the clients left. -/
def service (B : Board L) (clients : Clients L) (c : Fin L.controllers) (s : State L) :
    Option (State L × List (Event L)) :=
  let irq := s.interrupts.pending
  match (B.controllers c).pin? irq with
  | none => some (s, [.acted c (.log (.foreign irq))])
  | some p => do
      let (afterCalls, firings) ← B.dispatch clients (ownRegistry c) p.mask s
      let closing := (B.controllers c).acknowledge afterCalls.memory p
      return (B.act c afterCalls closing,
        .acted c (.log (.interrupt irq p)) ::
          (firings.flatMap Firing.events ++ [.acted c closing]))

/-- The effect of a command, for clients of any behaviour. -/
def execWith (B : Board L) (clients : Clients L) (s : State L) : Command L → Option (Effect L)
  | .operation operation => some (B.operate s operation)
  | .dispatch r pins => do
      let (final, firings) ← B.dispatch clients r pins s
      return { state := final, events := firings.flatMap Firing.events }
  | .service c => do
      let (final, events) ← B.service clients c s
      return { state := final, events := events }
  | .raise irq =>
      match s.interrupts.receiver? irq with
      | none => some { state := s, reply := .answer (.flag false) }
      | some c => do
          let delivered := { s with interrupts := { s.interrupts with pending := irq } }
          let (final, events) ← B.service clients c delivered
          return { state := final, events := events, reply := .answer (.flag true) }

/-- Carry out the commands of a script entry. The reply to each of them is seen. -/
def runEntry (exec : State L → Command L → Option (Effect L)) :
    List (Command L) → State L → Option (State L × List (Event L))
  | [], s => some (s, [])
  | command :: rest, s => do
      let effect ← exec s command
      let (final, events) ← runEntry exec rest effect.state
      return (final, effect.events ++ .did effect.reply :: events)

/-- The scripted clients, with calls nested to a given depth. A client whose script has
come to its end does nothing. -/
def clientsAt (B : Board L) : Nat → Clients L
  | 0 => fun call s =>
      match s.takeNext? call.client with
      | none => some (s, [])
      | some _ => none
  | depth + 1 => fun call s =>
      match s.takeNext? call.client with
      | none => some (s, [])
      | some (entry, s) => runEntry (B.execWith (B.clientsAt depth)) entry s

/-- The effect of a command on a board with scripted clients. -/
def exec (B : Board L) (s : State L) (command : Command L) : Option (Effect L) :=
  B.execWith (B.clientsAt s.entriesLeft) s command

/-- The effects of commands that are given one after another. -/
def execAll (B : Board L) (s : State L) : List (Command L) → Option (List (Effect L))
  | [] => some []
  | command :: rest => do
      let effect ← B.exec s command
      let effects ← B.execAll effect.state rest
      return effect :: effects

end Board

end Gpio
