import Gpio.Controller.Access

/-!
# Refused requests

For every request, the exact conditions under which a controller refuses it. That a pin
does not exist goes before everything else that may be wrong with a request, and that all
pins are addressed at once goes before that.
-/

namespace Gpio.Controller

variable {words : Nat} (c : Controller words) (m : Memory words)

theorem irqOf_eq_ok_iff {pin : UInt32} {irq : Irq} :
    c.irqOf pin = .ok irq ↔
      pin.toNat < pinCount ∧ irq.toNat = c.irqBase.toNat + pin.toNat := by
  rw [irqOf, Pin.bind_ofIndex_eq_ok_iff]
  constructor
  · rintro ⟨p, number, succeeded⟩
    split at succeeded
    · rename_i other found
      obtain rfl := Except.ok.inj succeeded
      exact ⟨number ▸ p.isLt, number ▸ Pin.irq?_eq_some_iff.mp found⟩
    · exact nomatch succeeded
  · rintro ⟨inside, sum⟩
    refine ⟨⟨pin.toNat, inside⟩, rfl, ?_⟩
    rw [Pin.irq?_eq_some_iff.mpr sum]
    rfl

theorem irqOf_eq_error_iff {pin : UInt32} {fault : Fault} :
    c.irqOf pin = .error fault ↔
      fault = .invalidPin ∧ pinCount ≤ pin.toNat ∨
      fault = .invalidConfig ∧ pin.toNat < pinCount ∧
        UInt32.size ≤ c.irqBase.toNat + pin.toNat := by
  rw [irqOf, Pin.bind_ofIndex_eq_error_iff]
  refine or_congr Iff.rfl ⟨?_, ?_⟩
  · rintro ⟨p, number, failed⟩
    split at failed
    · exact nomatch failed
    · rename_i missing
      refine ⟨(Except.error.inj failed).symm, number ▸ p.isLt, ?_⟩
      rw [number]
      exact Irq.above?_eq_none_iff.mp missing
  · rintro ⟨rfl, inside, large⟩
    refine ⟨⟨pin.toNat, inside⟩, rfl, ?_⟩
    rw [Pin.irq?, Irq.above?_eq_none_iff.mpr large]
    rfl

theorem respond_bringUp_eq_error_iff {fault : Fault} :
    c.respond m .bringUp = .error fault ↔
      fault = .invalidConfig ∧ UInt32.size ≤ c.irqBase.toNat + (pinCount - 1) := by
  rw [respond, IrqRange.ofBase, ← Irq.above?_eq_none_iff]
  cases Irq.above? c.irqBase (pinCount - 1) with
  | none => exact ⟨fun failed => ⟨(Except.error.inj failed).symm, rfl⟩, fun both => both.1 ▸ rfl⟩
  | some last => exact ⟨fun failed => (nomatch failed), fun both => (nomatch both.2)⟩

theorem respond_configure_eq_error_iff {pin : UInt32} {config : PinConfig} {fault : Fault} :
    c.respond m (.configure pin config) = .error fault ↔
      fault = .invalidPin ∧ pinCount ≤ pin.toNat ∨
      pin.toNat < pinCount ∧ config.fault? = some fault := by
  rw [respond, Pin.bind_ofIndex_eq_error_iff]
  refine or_congr Iff.rfl ⟨?_, ?_⟩
  · rintro ⟨p, number, failed⟩
    refine ⟨number ▸ p.isLt, ?_⟩
    split at failed
    · rename_i other wrong
      rw [wrong, Except.error.inj failed]
    · exact nomatch failed
  · rintro ⟨inside, wrong⟩
    refine ⟨⟨pin.toNat, inside⟩, rfl, ?_⟩
    rw [wrong]
    rfl

theorem respond_read_eq_error_iff {pin : UInt32} {fault : Fault} :
    c.respond m (.read pin) = .error fault ↔ fault = .invalidPin ∧ pinCount ≤ pin.toNat := by
  rw [respond, Pin.bind_ofIndex_eq_error_iff]
  exact ⟨fun either => either.elim id fun ⟨_, _, failed⟩ => (nomatch failed), Or.inl⟩

theorem respond_write_eq_error_iff {pin : UInt32} {value : Bool} {fault : Fault} :
    c.respond m (.write pin value) = .error fault ↔
      fault = .invalidPin ∧ pinCount ≤ pin.toNat ∨
      fault = .pinIsInput ∧ ∃ p : Pin, pin.toNat = p.val ∧ c.block.isSet m .inputEnable p := by
  rw [respond, Pin.bind_ofIndex_eq_error_iff]
  refine or_congr Iff.rfl ⟨?_, ?_⟩
  · rintro ⟨p, number, failed⟩
    split at failed
    · rename_i input
      exact ⟨(Except.error.inj failed).symm, p, number, input⟩
    · exact nomatch failed
  · rintro ⟨rfl, p, number, input⟩
    refine ⟨p, number, ?_⟩
    rw [if_pos input]
    rfl

theorem respond_enableInterrupt_eq_error_iff {pin : UInt32} {fault : Fault} :
    c.respond m (.enableInterrupt pin) = .error fault ↔ c.irqOf pin = .error fault := by
  rw [respond]
  cases c.irqOf pin with
  | error other =>
      exact ⟨fun failed => congrArg Except.error (Except.error.inj failed),
        fun failed => congrArg Except.error (Except.error.inj failed)⟩
  | ok irq => exact ⟨fun failed => (nomatch failed), fun failed => (nomatch failed)⟩

theorem respond_disableInterrupt_eq_error_iff {pin : UInt32} {fault : Fault} :
    c.respond m (.disableInterrupt pin) = .error fault ↔ c.irqOf pin = .error fault := by
  rw [respond]
  cases c.irqOf pin with
  | error other =>
      exact ⟨fun failed => congrArg Except.error (Except.error.inj failed),
        fun failed => congrArg Except.error (Except.error.inj failed)⟩
  | ok irq => exact ⟨fun failed => (nomatch failed), fun failed => (nomatch failed)⟩

theorem respondAccess_eq_error_iff {request : AccessRequest} {fault : Fault} :
    c.respondAccess m request = .error fault ↔
      request.mode = .all ∧ fault = .unsupportedOperation ∨
      request.mode = .single ∧ c.respond m request.toRequest = .error fault := by
  rw [respondAccess]
  cases request.mode with
  | all =>
      constructor
      · exact fun failed => Or.inl ⟨rfl, (Except.error.inj failed).symm⟩
      · rintro (⟨_, rfl⟩ | ⟨other, _⟩)
        · rfl
        · exact nomatch other
  | single =>
      cases c.respond m request.toRequest with
      | error other =>
          constructor
          · exact fun failed => Or.inr ⟨rfl, failed⟩
          · rintro (⟨other, _⟩ | ⟨_, failed⟩)
            · exact nomatch other
            · exact failed
      | ok response =>
          constructor
          · exact fun failed => nomatch failed
          · rintro (⟨other, _⟩ | ⟨_, failed⟩)
            · exact nomatch other
            · exact nomatch failed

end Gpio.Controller
