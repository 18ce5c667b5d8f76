import Gpio.Proofs.Controller.Grants
import Gpio.Proofs.Controller.Records

/-!
# Controllers refine records

When a block represents records, its controller refuses the requests that the records refuse,
and gives the answers that they give, and what a granted request writes turns the block into
one that represents the records after the request.
-/

namespace Gpio

namespace Controller

variable {words : Nat} {c : Controller words} {m : Memory words} {records : PinRecords}

/-- A check that fails goes before the others. -/
theorem check_eq_some_iff {check : Prop} [Decidable check] {others : Option Fault}
    {wrong fault : Fault} :
    (if check then others else some wrong) = some fault ↔
      fault = wrong ∧ ¬check ∨ check ∧ others = some fault := by
  by_cases passed : check
  · simp [passed]
  · simp [passed, eq_comm]

theorem irqOf_eq_error_iff_check {pin : UInt32} {fault : Fault} :
    c.irqOf pin = .error fault ↔
      (if pin.toNat < pinCount then
        if c.irqBase.toNat + pin.toNat < UInt32.size then none else some Fault.invalidConfig
      else some .invalidPin) = some fault := by
  rw [irqOf_eq_error_iff, check_eq_some_iff, check_eq_some_iff, Nat.not_lt, Nat.not_lt]
  simp [and_left_comm]

theorem respond_eq_error_iff (represents : c.block.Represents m records) {request : Request}
    {fault : Fault} :
    c.respond m request = .error fault ↔ records.fault? c.irqBase request = some fault := by
  cases request with
  | bringUp =>
      rw [respond_bringUp_eq_error_iff, PinRecords.fault?, check_eq_some_iff, Nat.not_lt]
      simp
  | configure pin config =>
      rw [respond_configure_eq_error_iff, PinRecords.fault?, check_eq_some_iff, Nat.not_lt]
  | read pin =>
      rw [respond_read_eq_error_iff, PinRecords.fault?, check_eq_some_iff, Nat.not_lt]
      simp
  | write pin value =>
      rw [respond_write_eq_error_iff, PinRecords.fault?, check_eq_some_iff, Nat.not_lt]
      refine or_congr Iff.rfl ⟨?_, ?_⟩
      · rintro ⟨rfl, p, number, isInput⟩
        refine ⟨number ▸ p.isLt, if_pos ⟨p, number, ?_⟩⟩
        exact (represents.isSet_inputEnable p).mp isInput
      · rintro ⟨_, refused⟩
        split at refused
        · rename_i found
          obtain ⟨p, number, isInput⟩ := found
          have set := (represents.isSet_inputEnable p).mpr isInput
          exact ⟨(Option.some.inj refused).symm, p, number, set⟩
        · exact nomatch refused
  | enableInterrupt pin =>
      rw [respond_enableInterrupt_eq_error_iff, irqOf_eq_error_iff_check, PinRecords.fault?]
  | disableInterrupt pin =>
      rw [respond_disableInterrupt_eq_error_iff, irqOf_eq_error_iff_check, PinRecords.fault?]

theorem fault?_eq_none (represents : c.block.Represents m records) {request : Request}
    {response : Response} (granted : c.respond m request = .ok response) :
    records.fault? c.irqBase request = none := by
  apply Option.eq_none_iff_forall_ne_some.mpr
  intro fault refused
  exact nomatch granted.symm.trans ((respond_eq_error_iff represents).mpr refused)

theorem level_eq (represents : c.block.Represents m records) (p : Pin) :
    c.level m p = (records p).level (c.block.isSet m .inputValue p) := by
  have output : c.block.isSet m .outputValue p = (records p).output :=
    represents p .outputValue (by decide)
  simp only [level, output, PinRecord.level, represents.isSet_outputEnable]

/-- A granted request has the answer of the records, and leaves a block that represents the
records after it. -/
theorem represents_of_respond (represents : c.block.Represents m records) {request : Request}
    {response : Response} (granted : c.respond m request = .ok response) :
    response.answer = records.answer (c.block.isSet m .inputValue) request ∧
      c.block.Represents (c.block.writeAll m response.writes) fun p =>
        (records p).update p request := by
  cases grants_of_respond granted with
  | bringUp ids =>
      rw [writes_initialization]
      exact ⟨rfl, represents.bringUp⟩
  | configure number acceptable =>
      rw [writes_configuration]
      exact ⟨rfl, represents.configure number _⟩
  | @read pin p number =>
      have inside : pin.toNat < pinCount := number ▸ p.isLt
      have same : (⟨pin.toNat, inside⟩ : Pin) = p := Fin.ext number
      refine ⟨?_, represents⟩
      rw [PinRecords.answer, dif_pos inside, same, level_eq represents]
  | write number driven => exact ⟨rfl, represents.write number _⟩
  | enableInterrupt id => exact ⟨rfl, represents⟩
  | disableInterrupt id => exact ⟨rfl, represents⟩

end Controller

end Gpio
