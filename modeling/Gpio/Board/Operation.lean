import Gpio.Board.Basic

/-!
# Operations

The effect of the commands that call no client. A refused request changes nothing and is
not seen: its effect is the old state with the fault as the reply.
-/

namespace Gpio

variable {L : Layout}

namespace Board

/-- The change that one action of a controller makes to the state. -/
def act (B : Board L) (c : Fin L.controllers) (s : State L) : Action → State L
  | .write w => { s with memory := (B.controllers c).block.write s.memory w }
  | .mask irq => { s with interrupts := s.interrupts.mask irq }
  | .unmask irq => { s with interrupts := s.interrupts.unmask irq }
  | .install irq => { s with interrupts := s.interrupts.install irq c }
  | .log _ => s

/-- The change that a controller's actions make one after another. -/
def actAll (B : Board L) (c : Fin L.controllers) (s : State L) (actions : List Action) :
    State L :=
  actions.foldl (B.act c) s

/-- Carry out what a controller decided about a request. -/
def carryOut (B : Board L) (c : Fin L.controllers) (s : State L) :
    Except Fault Response → Effect L
  | .error fault => { state := s, reply := .refusal fault }
  | .ok response =>
      { state := B.actAll c s response.actions
        events := response.actions.map (.acted c)
        reply := .answer response.answer }

/-- Carry out what was decided about a request to a bare register map. -/
def carryOutMap (B : Board L) (m : Fin L.maps) (s : State L) :
    Except Fault BlockResponse → Effect L
  | .error fault => { state := s, reply := .refusal fault }
  | .ok ⟨none, answer⟩ => { state := s, reply := .answer answer }
  | .ok ⟨some w, answer⟩ =>
      { state := { s with memory := (B.maps m).write s.memory w }
        events := [.wrote m w]
        reply := .answer answer }

def operate (B : Board L) (s : State L) : Operation L → Effect L
  | .request c request => B.carryOut c s ((B.controllers c).respond s.memory request)
  | .access c request => B.carryOut c s ((B.controllers c).respondAccess s.memory request)
  | .map m request => B.carryOutMap m s ((B.maps m).respond s.memory request)
  | .edit r edit => { state := { s with links := Registry.edit s.links B.clientOf r edit } }
  | .query r query => { state := s, reply := .answer (Registry.ask s.links r query) }
  | .pinMask callback => { state := s, reply := .answer (.number (s.mask callback).toNat) }
  | .context callback =>
      { state := s, reply := .answer (.number (B.callbacks callback).context.toNat) }
  | .setPinMask callback mask => { state := s.setMask callback mask }
  | .setPending irq => { state := { s with interrupts := { s.interrupts with pending := irq } } }
  | .peek word => { state := s, reply := .answer (.number (s.memory.load word).toNat) }
  | .poke word value => { state := { s with memory := s.memory.store word value } }
  | .fill value => { state := { s with memory := .filled L.words value } }

end Board

end Gpio
