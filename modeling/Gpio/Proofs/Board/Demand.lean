import Gpio.Board.Frame
import Gpio.Proofs.Controller.Demand

/-!
# Demands on a board

A demand on a controller is refused, and then nothing on the board is changed and nothing is
seen of it, or it is granted and carried out as a list of actions (`Board.operate_demand`). Which
of the two it is, and with which fault, is decided by the objections to it
(`Board.operate_eq_of_objections`).
-/

namespace Gpio

variable {L : Layout}

/-- What is seen of a command. -/
def Effect.seen (effect : Effect L) : List (Event L) × Reply := (effect.events, effect.reply)

/-- A demand as an operation of a board. -/
def Demand.operation (c : Fin L.controllers) : Demand → Operation L
  | plain request => .request c request
  | coded request => .access c request

/-- The demand that an operation is, and on which controller. -/
def Operation.demand? : Operation L → Option (Fin L.controllers × Demand)
  | .request c plain => some (c, .plain plain)
  | .access c coded => some (c, .coded coded)
  | _ => none

theorem Operation.eq_of_demand? {operation : Operation L} {c : Fin L.controllers}
    {demand : Demand} (demands : operation.demand? = some (c, demand)) :
    operation = demand.operation c := by
  cases operation with
  | request d plain =>
      obtain ⟨rfl, rfl⟩ := Prod.mk.inj (Option.some.inj demands)
      rfl
  | access d coded =>
      obtain ⟨rfl, rfl⟩ := Prod.mk.inj (Option.some.inj demands)
      rfl
  | _ => exact nomatch demands

namespace Board

theorem state_carryOut (B : Board L) (c : Fin L.controllers) (s : State L)
    (outcome : Except Fault Response) :
    (B.carryOut c s outcome).state = B.actAll c s (actionsOf outcome) := by
  cases outcome <;> rfl

/-- What is seen of a request depends on what is decided about it. -/
theorem seen_carryOut (B : Board L) (c : Fin L.controllers) (s t : State L)
    (outcome : Except Fault Response) :
    (B.carryOut c s outcome).seen = (B.carryOut c t outcome).seen := by
  cases outcome <;> rfl

variable (B : Board L) (c : Fin L.controllers) (s : State L) (demand : Demand)

theorem operate_demand :
    B.operate s (demand.operation c) =
      B.carryOut c s ((B.controllers c).respondTo s.memory demand) := by
  cases demand <;> rfl

variable {B c s demand}

theorem operate_demand_of_error {fault : Fault}
    (refused : (B.controllers c).respondTo s.memory demand = .error fault) :
    B.operate s (demand.operation c) = { state := s, reply := .refusal fault } := by
  rw [operate_demand, refused]
  rfl

theorem operate_demand_of_ok {response : Response}
    (granted : (B.controllers c).respondTo s.memory demand = .ok response) :
    B.operate s (demand.operation c) =
      { state := B.actAll c s response.actions
        events := response.actions.map (.acted c)
        reply := .answer response.answer } := by
  rw [operate_demand, granted]
  rfl

/-- A demand that is answered has been granted. -/
theorem exists_grants_of_reply {answer : Answer}
    (answered : (B.operate s (demand.operation c)).reply = .answer answer) :
    ∃ response, (B.controllers c).Grants s.memory demand.request response ∧
      (B.operate s (demand.operation c)).state = B.actAll c s response.actions := by
  cases responded : (B.controllers c).respondTo s.memory demand with
  | error fault =>
      rw [operate_demand_of_error responded] at answered
      exact nomatch answered
  | ok response =>
      obtain ⟨given, grants⟩ := Controller.exists_grants_of_respondTo responded
      exact ⟨_, grants, by rw [operate_demand_of_ok responded]⟩

end Board

end Gpio
