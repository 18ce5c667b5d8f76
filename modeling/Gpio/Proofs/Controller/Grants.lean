import Gpio.Controller.Access

/-!
# Granted requests

`Controller.Grants` lists what a controller may respond to a request that it does not refuse,
with the conditions under which it does. All that is proved about granted requests goes by its
cases (`Controller.grants_of_respond`).
-/

namespace Gpio

def Action.write? : Action → Option RegisterWrite
  | .write w => some w
  | _ => none

/-- The register writes among the actions of a response, in order. -/
def Response.writes (response : Response) : List RegisterWrite :=
  response.actions.filterMap Action.write?

namespace Controller

variable {words : Nat} {c : Controller words} {m : Memory words}

/-- A request and the response to it. -/
inductive Grants (c : Controller words) (m : Memory words) : Request → Response → Prop where
  | bringUp {range : IrqRange} (ids : IrqRange.ofBase c.irqBase = .ok range) :
      Grants c m .bringUp { actions := initialization range }
  | configure {pin : UInt32} {p : Pin} {config : PinConfig} (number : pin.toNat = p.val)
      (acceptable : config.fault? = none) :
      Grants c m (.configure pin config) { actions := configuration p config }
  | read {pin : UInt32} {p : Pin} (number : pin.toNat = p.val) :
      Grants c m (.read pin) { answer := .flag (c.level m p) }
  | write {pin : UInt32} {p : Pin} {value : Bool} (number : pin.toNat = p.val)
      (driven : ¬c.block.isSet m .inputEnable p) :
      Grants c m (.write pin value) { actions := [.write (.bit .outputValue p value)] }
  | enableInterrupt {pin : UInt32} {irq : Irq} (id : c.irqOf pin = .ok irq) :
      Grants c m (.enableInterrupt pin) { actions := [.unmask irq] }
  | disableInterrupt {pin : UInt32} {irq : Irq} (id : c.irqOf pin = .ok irq) :
      Grants c m (.disableInterrupt pin) { actions := [.mask irq] }

theorem grants_of_respond {request : Request} {response : Response}
    (granted : c.respond m request = .ok response) : c.Grants m request response := by
  cases request with
  | bringUp =>
      cases ids : IrqRange.ofBase c.irqBase with
      | error fault =>
          rw [respond, ids] at granted
          exact nomatch granted
      | ok range =>
          rw [respond, ids] at granted
          obtain rfl := Except.ok.inj granted
          exact .bringUp ids
  | configure pin config =>
      obtain ⟨p, number, granted⟩ := Pin.bind_ofIndex_eq_ok_iff.mp granted
      split at granted
      · exact nomatch granted
      · rename_i acceptable
        obtain rfl := Except.ok.inj granted
        exact .configure number acceptable
  | read pin =>
      obtain ⟨p, number, granted⟩ := Pin.bind_ofIndex_eq_ok_iff.mp granted
      obtain rfl := Except.ok.inj granted
      exact .read number
  | write pin value =>
      obtain ⟨p, number, granted⟩ := Pin.bind_ofIndex_eq_ok_iff.mp granted
      split at granted
      · exact nomatch granted
      · rename_i driven
        obtain rfl := Except.ok.inj granted
        exact .write number driven
  | enableInterrupt pin =>
      cases id : c.irqOf pin with
      | error fault =>
          rw [respond, id] at granted
          exact nomatch granted
      | ok irq =>
          rw [respond, id] at granted
          obtain rfl := Except.ok.inj granted
          exact .enableInterrupt id
  | disableInterrupt pin =>
      cases id : c.irqOf pin with
      | error fault =>
          rw [respond, id] at granted
          exact nomatch granted
      | ok irq =>
          rw [respond, id] at granted
          obtain rfl := Except.ok.inj granted
          exact .disableInterrupt id

theorem respondAccess_eq_ok_iff {request : AccessRequest} {response : Response} :
    c.respondAccess m request = .ok response ↔
      request.mode = .single ∧ ∃ plain, c.respond m request.toRequest = .ok plain ∧
        response = { plain with answer := plain.answer.toNumber } := by
  rw [respondAccess]
  cases request.mode with
  | all => exact ⟨nofun, fun both => nomatch both.1⟩
  | single =>
      cases c.respond m request.toRequest with
      | error fault => exact ⟨nofun, fun ⟨_, _, granted, _⟩ => nomatch granted⟩
      | ok plain =>
          constructor
          · intro granted
            exact ⟨rfl, plain, rfl, (Except.ok.inj granted).symm⟩
          · rintro ⟨_, _, granted, rfl⟩
            obtain rfl := Except.ok.inj granted
            rfl

theorem writes_initialization (range : IrqRange) (answer : Answer) :
    Response.writes ⟨initialization range, answer⟩ = Register.cleared.map .reset := by
  have resets : (Register.cleared.map fun r => Action.write (.reset r)).filterMap Action.write? =
      Register.cleared.map .reset := rfl
  have installs : (range.ids.map Action.install).filterMap Action.write? = [] := by
    rw [List.filterMap_map, List.filterMap_eq_nil_iff]
    exact fun _ _ => rfl
  rw [Response.writes, initialization, List.filterMap_append, List.filterMap_append, resets,
    installs]
  rfl

theorem writes_of_bringUp {response : Response} (granted : c.respond m .bringUp = .ok response) :
    response.writes = Register.cleared.map .reset := by
  cases grants_of_respond granted with
  | bringUp ids => exact writes_initialization _ _

theorem writes_configuration (p : Pin) (config : PinConfig) (answer : Answer) :
    Response.writes ⟨configuration p config, answer⟩ = config.writes p := by
  have writes : ((config.writes p).map Action.write).filterMap Action.write? =
      config.writes p := by
    rw [List.filterMap_map]
    exact List.filterMap_some
  rw [Response.writes, configuration, List.filterMap_append, writes]
  exact List.append_nil _

end Controller

end Gpio
