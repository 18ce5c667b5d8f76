import Gpio.Proofs.Board.Interrupts
import Gpio.Proofs.Board.Traces
import Mathlib.Algebra.Group.Nat.Defs

/-!
# Interrupt numberings

The ids of a controller's pins are numbered from its base in four ways: when a pin's interrupt is
enabled or disabled, when an interrupt is delivered, when the controller takes over its ids, and
when a configuration is judged. They agree for every base, up to the last of the 32-bit numbers
(`Board.numberings_agree`).
-/

namespace Gpio

variable {L : Layout}

namespace IrqRange

variable {base : Irq} {range : IrqRange}

/-- There are ids for all pins unless the base is among the last 31 numbers. -/
theorem exists_ofBase_iff : (∃ range, ofBase base = .ok range) ↔ base.toNat ≤ 2 ^ 32 - 32 := by
  rw [ofBase]
  cases above : Irq.above? base (pinCount - 1) with
  | none =>
      have large : 2 ^ 32 ≤ base.toNat + 31 := Irq.above?_eq_none_iff.mp above
      simp only [reduceCtorEq, exists_false, false_iff]
      omega
  | some last =>
      have number : last.toNat = base.toNat + 31 := Irq.above?_eq_some_iff.mp above
      have small : last.toNat < 2 ^ 32 := last.toNat_lt
      simp only [Except.ok.injEq, exists_eq', true_iff]
      omega

/-- The last base of all. -/
example : IrqRange.ofBase 4294967264 = .ok ⟨4294967264, 4294967295⟩ := rfl

theorem nodup_ids (range : IrqRange) : range.ids.Nodup := by
  refine List.pairwise_map.mpr ((List.nodup_range' _).imp_of_mem ?_)
  intro a b inA inB different same
  have small {n : Nat} (mem : n ∈ List.range' range.first.toNat
      (range.last.toNat + 1 - range.first.toNat)) : n < UInt32.size := by
    have last := range.last.toNat_lt_size
    have bounds := List.mem_range'_1.mp mem
    omega
  have numbers := congrArg UInt32.toNat same
  rw [UInt32.toNat_ofNat_of_lt' (small inA), UInt32.toNat_ofNat_of_lt' (small inB)] at numbers
  exact different numbers

theorem length_ids (ids : ofBase base = .ok range) : range.ids.length = 32 := by
  obtain ⟨first, last⟩ := ofBase_eq_ok_iff.mp ids
  have number : range.last.toNat = base.toNat + 31 := last
  rw [IrqRange.ids, List.length_map, List.length_range', first]
  omega

end IrqRange

namespace Controller

variable {words : Nat} {c : Controller words} {m : Memory words}

theorem exists_irqOf_iff {pin : UInt32} :
    (∃ irq, c.irqOf pin = .ok irq) ↔
      pin.toNat < 32 ∧ c.irqBase.toNat + pin.toNat < 2 ^ 32 := by
  simp only [irqOf_eq_ok_iff, exists_and_left]
  refine and_congr_right fun _ => ⟨?_, fun small => ?_⟩
  · rintro ⟨irq, number⟩
    exact number ▸ irq.toNat_lt
  · exact ⟨UInt32.ofNatLT _ small, UInt32.toNat_ofNatLT⟩

theorem mem_ids_iff_pin? {range : IrqRange} (ids : IrqRange.ofBase c.irqBase = .ok range)
    {irq : Irq} : irq ∈ range.ids ↔ ∃ p, c.pin? irq = some p := by
  rw [mem_ids_iff ids, ← serves_iff, Serves]
  simp only [pin?_eq_some_iff]

/-! ## Controllers made from a configuration -/

/-- The controller has been made from a configuration. -/
def Made (c : Controller words) : Prop :=
  ∃ origin config, ofConfig words origin config = .ok (some c)

theorem exists_ofConfig_iff {origin : UInt64} {config : ControllerConfig} :
    (∃ made, ofConfig words origin config = .ok made) ↔
      config.baseAddress ≠ 0 ∧ config.baseAddress % 4 = 0 ∧
        config.irqBase.toNat ≤ 2 ^ 32 - 32 := by
  rw [← IrqRange.exists_ofBase_iff, ofConfig, ControllerConfig.fault?, ControllerConfig.irqs]
  by_cases unfit : config.baseAddress = 0 ∨ config.baseAddress % 4 ≠ 0
  · rw [if_pos unfit]
    simp only [reduceCtorEq, exists_false, false_iff]
    rintro ⟨present, aligned, _⟩
    exact unfit.elim present fun uneven => uneven aligned
  · rw [if_neg unfit]
    obtain ⟨present, aligned⟩ := not_or.mp unfit
    cases IrqRange.ofBase config.irqBase with
    | error fault => simp
    | ok range => simp [present, Decidable.not_not.mp aligned]

theorem Made.irqBase_le (made : c.Made) : c.irqBase.toNat ≤ 2 ^ 32 - 32 := by
  obtain ⟨origin, config, done⟩ := made
  have small := (exists_ofConfig_iff.mp ⟨_, done⟩).2.2
  rw [ofConfig] at done
  split at done
  · exact nomatch done
  · obtain ⟨block, _, rfl⟩ := Option.map_eq_some_iff.mp (Except.ok.inj done)
    exact small

theorem respond_ne_invalidConfig (small : c.irqBase.toNat ≤ 2 ^ 32 - 32) (request : Request) :
    c.respond m request ≠ .error .invalidConfig := by
  have numbered (pin : UInt32) : c.irqOf pin ≠ .error .invalidConfig := by
    intro refused
    rcases c.irqOf_eq_error_iff.mp refused with ⟨other, _⟩ | ⟨_, inside, large⟩
    · exact nomatch other
    · have below : pin.toNat < 32 := inside
      have above : 2 ^ 32 ≤ c.irqBase.toNat + pin.toNat := large
      omega
  intro refused
  cases request with
  | bringUp =>
      have large : 2 ^ 32 ≤ c.irqBase.toNat + 31 :=
        ((c.respond_bringUp_eq_error_iff m).mp refused).2
      omega
  | configure pin config =>
      rw [respond_configure_eq_error_iff, config.fault?_eq_first?] at refused
      simp [PinConfig.objections, Objections.first?_cons_eq_some_iff] at refused
  | read pin => simp [respond_read_eq_error_iff] at refused
  | write pin value => simp [respond_write_eq_error_iff] at refused
  | enableInterrupt pin =>
      exact numbered pin ((c.respond_enableInterrupt_eq_error_iff m).mp refused)
  | disableInterrupt pin =>
      exact numbered pin ((c.respond_disableInterrupt_eq_error_iff m).mp refused)

theorem respondTo_ne_invalidConfig (small : c.irqBase.toNat ≤ 2 ^ 32 - 32) (demand : Demand) :
    c.respondTo m demand ≠ .error .invalidConfig := by
  intro refused
  cases demand with
  | plain request => exact respond_ne_invalidConfig small request refused
  | coded request =>
      rcases (c.respondAccess_eq_error_iff m).mp refused with ⟨_, other⟩ | ⟨_, refused⟩
      · exact nomatch other
      · exact respond_ne_invalidConfig small request.toRequest refused

end Controller

/-- The only thing that can be wrong with the direct use of a block is the pin. -/
theorem Block.fault_of_respond {words : Nat} {b : Block words} {m : Memory words}
    {request : BlockRequest} {fault : Fault} (refused : b.respond m request = .error fault) :
    fault = .invalidPin := by
  cases request with
  | get r => exact nomatch refused
  | reset r => exact nomatch refused
  | isSet r pin | writeBit r pin value | acknowledge r pin =>
      rcases Pin.bind_ofIndex_eq_error_iff.mp refused with ⟨rfl, _⟩ | ⟨_, _, failed⟩
      · rfl
      · exact nomatch failed

/-- The controller and the interrupt id that an event tells to be installed. -/
def Event.installed? : Event L → Option (Fin L.controllers × Irq)
  | .acted c (.install irq) => some (c, irq)
  | _ => none

namespace Board

variable (B : Board L) (c : Fin L.controllers) (s : State L)

theorem operate_of_irqOf {pin : UInt32} {irq : Irq}
    (id : (B.controllers c).irqOf pin = .ok irq) :
    B.operate s (.request c (.enableInterrupt pin)) =
        { state := { s with interrupts := s.interrupts.unmask irq }
          events := [.acted c (.unmask irq)] } ∧
      B.operate s (.request c (.disableInterrupt pin)) =
        { state := { s with interrupts := s.interrupts.mask irq }
          events := [.acted c (.mask irq)] } := by
  constructor <;>
    · rw [operate, Controller.respond, id]
      rfl

theorem operate_bringUp {range : IrqRange}
    (ids : IrqRange.ofBase (B.controllers c).irqBase = .ok range) :
    B.operate s (.request c .bringUp) =
      { state := B.actAll c s (Controller.initialization range)
        events := (Controller.initialization range).map (.acted c) } := by
  rw [operate, Controller.respond, ids]
  rfl

variable {B c s}

theorem reply_enableInterrupt_iff {pin : UInt32} :
    (B.operate s (.request c (.enableInterrupt pin))).reply = .answer .done ↔
      ∃ irq, (B.controllers c).irqOf pin = .ok irq := by
  cases id : (B.controllers c).irqOf pin with
  | ok irq => simp [(B.operate_of_irqOf c s id).1]
  | error fault =>
      have refused := ((B.controllers c).respond_enableInterrupt_eq_error_iff s.memory).mpr id
      rw [operate, refused]
      simp [carryOut]

/-- There is an id for every pin if there is one for the last of them. -/
theorem reply_enableInterrupt_all_iff :
    (∀ pin : UInt32, pin.toNat < 32 →
      (B.operate s (.request c (.enableInterrupt pin))).reply = .answer .done) ↔
      (B.controllers c).irqBase.toNat ≤ 2 ^ 32 - 32 := by
  simp only [reply_enableInterrupt_iff, Controller.exists_irqOf_iff]
  constructor
  · intro all
    have last : (B.controllers c).irqBase.toNat + 31 < 2 ^ 32 := (all 31 (by decide)).2
    omega
  · intro small pin inside
    exact ⟨inside, by omega⟩

theorem reply_bringUp_iff :
    (B.operate s (.request c .bringUp)).reply = .answer .done ↔
      (B.controllers c).irqBase.toNat ≤ 2 ^ 32 - 32 := by
  rw [← IrqRange.exists_ofBase_iff]
  cases ids : IrqRange.ofBase (B.controllers c).irqBase with
  | ok range => simp [B.operate_bringUp c s ids]
  | error fault =>
      have refused : (B.controllers c).respond s.memory .bringUp = .error fault := by
        rw [Controller.respond, ids]
        rfl
      rw [operate, refused]
      simp [carryOut]

theorem irqOf_of_unmasks {pin : UInt32} {irq : Irq}
    (unmasks : .acted c (.unmask irq) ∈ (B.operate s (.request c (.enableInterrupt pin))).events) :
    (B.controllers c).irqOf pin = .ok irq := by
  cases id : (B.controllers c).irqOf pin with
  | ok other =>
      rw [(B.operate_of_irqOf c s id).1] at unmasks
      obtain rfl := Action.unmask.inj (Event.acted.inj (List.mem_singleton.mp unmasks)).2
      rfl
  | error fault =>
      have refused := ((B.controllers c).respond_enableInterrupt_eq_error_iff s.memory).mpr id
      rw [operate, refused] at unmasks
      exact absurd unmasks List.not_mem_nil

theorem installed_initialization (c : Fin L.controllers) (range : IrqRange) :
    ((Controller.initialization range).map (Event.acted c)).filterMap Event.installed? =
      range.ids.map (c, ·) := by
  have resets : ((Register.cleared.map fun r => Action.write (.reset r)).map
      (Event.acted c)).filterMap Event.installed? = [] := rfl
  have installs : ((range.ids.map Action.install).map (Event.acted c)).filterMap
      Event.installed? = range.ids.map (c, ·) := by
    rw [List.map_map, List.filterMap_map]
    exact congrFun List.filterMap_eq_map' range.ids
  rw [Controller.initialization, List.map_append, List.map_append, List.filterMap_append,
    List.filterMap_append, resets, installs]
  exact List.append_nil _

/-- Controllers that a command asks for something have been made from a configuration. -/
def AsksMade (B : Board L) (command : Command L) : Prop :=
  ∀ c demand, command = .operation (Demand.operation c demand) → (B.controllers c).Made

theorem demand_ne_invalidConfig (made : (B.controllers c).Made) (s : State L) (demand : Demand) :
    (B.operate s (demand.operation c)).reply ≠ .refusal .invalidConfig := by
  intro refused
  rw [operate_demand] at refused
  cases responded : (B.controllers c).respondTo s.memory demand with
  | ok response =>
      rw [responded] at refused
      cases refused
  | error fault =>
      rw [responded] at refused
      obtain rfl := Reply.refusal.inj refused
      exact Controller.respondTo_ne_invalidConfig made.irqBase_le demand responded

theorem operate_ne_invalidConfig {operation : Operation L}
    (asks : B.AsksMade (.operation operation)) (s : State L) :
    (B.operate s operation).reply ≠ .refusal .invalidConfig := by
  cases operation with
  | request c request =>
      exact demand_ne_invalidConfig (asks c (.plain request) rfl) s (.plain request)
  | access c request =>
      exact demand_ne_invalidConfig (asks c (.coded request) rfl) s (.coded request)
  | map m request =>
      intro refused
      rw [operate] at refused
      cases responded : (B.maps m).respond s.memory request with
      | ok response =>
          obtain ⟨_ | w, answer⟩ := response <;> simp [responded, carryOutMap] at refused
      | error fault =>
          obtain rfl := Block.fault_of_respond responded
          simp [responded, carryOutMap] at refused
  | _ => simp [operate]

theorem replies_ne_invalidConfig {reply : Reply} (replies : B.Replies B.AsksMade reply) :
    reply ≠ .refusal .invalidConfig := by
  rcases replies with ⟨answer, rfl⟩ | ⟨s, operation, asks, rfl⟩
  · simp
  · exact operate_ne_invalidConfig asks s

/-- An id that is unmasked for a pin is the base plus the number of the pin, and stands for the pin.
What is done for the pin for which an id stands is done to this id. A controller can be
initialized if its configuration has ids, and if every pin can be enabled: unless the base is among
the last 31 numbers. It then takes over every id that stands for one of its pins once. A
configuration with another base is not accepted, and so nothing that is asked of controllers made
from configurations is refused because of their configuration, in any session. -/
theorem numberings_agree (B : Board L) (c : Fin L.controllers) :
    (∀ s pin irq,
      .acted c (.unmask irq) ∈ (B.operate s (.request c (.enableInterrupt pin))).events →
        irq.toNat = (B.controllers c).irqBase.toNat + pin.toNat ∧
        ∃ p : Pin, (B.controllers c).pin? irq = some p ∧ p.val = pin.toNat) ∧
    (∀ s (pin : UInt32) irq p, (B.controllers c).pin? irq = some p → pin.toNat = p.val →
      B.operate s (.request c (.enableInterrupt pin)) =
        { state := { s with interrupts := s.interrupts.unmask irq }
          events := [.acted c (.unmask irq)], reply := .answer .done } ∧
      B.operate s (.request c (.disableInterrupt pin)) =
        { state := { s with interrupts := s.interrupts.mask irq }
          events := [.acted c (.mask irq)], reply := .answer .done }) ∧
    (∀ s address,
      ((B.operate s (.request c .bringUp)).reply = .answer .done ↔
        (B.controllers c).irqBase.toNat ≤ 2 ^ 32 - 32) ∧
      ((∃ range, ControllerConfig.irqs ⟨address, (B.controllers c).irqBase⟩ = .ok range) ↔
        (B.controllers c).irqBase.toNat ≤ 2 ^ 32 - 32) ∧
      ((∀ pin : UInt32, pin.toNat < 32 →
          (B.operate s (.request c (.enableInterrupt pin))).reply = .answer .done) ↔
        (B.controllers c).irqBase.toNat ≤ 2 ^ 32 - 32) ∧
      ∀ range, ControllerConfig.irqs ⟨address, (B.controllers c).irqBase⟩ = .ok range →
        (B.operate s (.request c .bringUp)).events.filterMap Event.installed? =
          range.ids.map (c, ·) ∧
        range.ids.Nodup ∧ range.ids.length = 32 ∧
        (∀ irq, irq ∈ range.ids ↔ ∃ p, (B.controllers c).pin? irq = some p) ∧
        ∀ irq, (B.operate s (.request c .bringUp)).state.interrupts.handler irq =
          if irq ∈ range.ids then some c else s.interrupts.handler irq) ∧
    (∀ origin config, (∃ made, Controller.ofConfig L.words origin config = .ok made) ↔
      config.baseAddress ≠ 0 ∧ config.baseAddress % 4 = 0 ∧
        config.irqBase.toNat ≤ 2 ^ 32 - 32) ∧
    ((B.controllers c).Made → ∀ s (demand : Demand),
      (B.operate s (demand.operation c)).reply ≠ .refusal .invalidConfig) ∧
    ∀ memory masks scripts commands, (∀ command ∈ commands, B.AsksMade command) →
      (State.start memory masks scripts).Scripted B.AsksMade →
      ∃ effects, B.execAll (.start memory masks scripts) commands = some effects ∧
        ∀ effect ∈ effects, effect.reply ≠ .refusal .invalidConfig ∧
          .did (.refusal .invalidConfig) ∉ effect.events := by
  refine ⟨?_, ?_, ?_, ?_, ?_, ?_⟩
  · intro s pin irq unmasks
    obtain ⟨inside, number⟩ :=
      (B.controllers c).irqOf_eq_ok_iff.mp (irqOf_of_unmasks unmasks)
    exact ⟨number, ⟨pin.toNat, inside⟩, Controller.pin?_eq_some_iff.mpr number, rfl⟩
  · intro s pin irq p stands number
    have sum := Controller.pin?_eq_some_iff.mp stands
    exact B.operate_of_irqOf c s
      ((B.controllers c).irqOf_eq_ok_iff.mpr ⟨number ▸ p.isLt, number ▸ sum⟩)
  · intro s address
    refine ⟨reply_bringUp_iff, IrqRange.exists_ofBase_iff, reply_enableInterrupt_all_iff, ?_⟩
    intro range ids
    rw [B.operate_bringUp c s ids]
    exact ⟨installed_initialization c range, range.nodup_ids, IrqRange.length_ids ids,
      fun irq => Controller.mem_ids_iff_pin? ids,
      (B.interrupts_actAll_initialization c s range).2⟩
  · intro origin config
    exact Controller.exists_ofConfig_iff
  · exact fun made s demand => demand_ne_invalidConfig made s demand
  · intro memory masks scripts commands asks scripted
    have grounded : (State.start memory masks scripts).links.Grounded := Links.grounded_empty _ _
    obtain ⟨effects, done⟩ := B.exists_execAll grounded commands
    refine ⟨effects, done, fun effect mem => ?_⟩
    obtain ⟨reply, told⟩ := replies_execAll scripted asks done mem
    exact ⟨replies_ne_invalidConfig reply,
      fun did => replies_ne_invalidConfig (told _ did) rfl⟩

end Board

end Gpio
