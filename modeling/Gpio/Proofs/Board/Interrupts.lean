import Gpio.Board.Frame
import Gpio.Controller.Refusal
import Gpio.Proofs.Controller.Grants

/-!
# What requests do to the interrupt controller

Of the requests that a controller grants, an initialization installs the controller for the
ids of its pins, and a request to enable or disable a pin's interrupt unmasks or masks its id.
Apart from that, requests leave the interrupt controller as it is
(`Board.unmasked_of_grants`, `Board.handler_of_grants`).
-/

namespace Gpio

variable {L : Layout}

namespace IrqRange

theorem ofBase_eq_ok_iff {base : Irq} {range : IrqRange} :
    ofBase base = .ok range ↔
      range.first = base ∧ range.last.toNat = base.toNat + (pinCount - 1) := by
  obtain ⟨first, last⟩ := range
  rw [ofBase, ← Irq.above?_eq_some_iff]
  cases Irq.above? base (pinCount - 1) <;> simp [eq_comm]

theorem mem_ids {range : IrqRange} {irq : Irq} :
    irq ∈ range.ids ↔ range.first.toNat ≤ irq.toNat ∧ irq.toNat ≤ range.last.toNat := by
  rw [ids, List.mem_map]
  constructor
  · rintro ⟨n, mem, rfl⟩
    obtain ⟨low, high⟩ := List.mem_range'_1.mp mem
    have small : n < UInt32.size := Nat.lt_of_le_of_lt (by omega) range.last.toNat_lt_size
    rw [UInt32.toNat_ofNat_of_lt' small]
    omega
  · rintro ⟨low, high⟩
    exact ⟨irq.toNat, List.mem_range'_1.mpr (by omega), UInt32.ofNat_toNat⟩

end IrqRange

/-- The interrupt id with which an action is concerned. -/
def Action.irq? : Action → Option Irq
  | .mask irq | .unmask irq | .install irq => some irq
  | .write _ | .log _ => none

theorem Controller.pin?_eq_some_iff {words : Nat} {c : Controller words} {irq : Irq} {p : Pin} :
    c.pin? irq = some p ↔ irq.toNat = c.irqBase.toNat + p.val :=
  Pin.ofIrq?_eq_some_iff

theorem Controller.irq?_acknowledge {words : Nat} (c : Controller words) (m : Memory words)
    (p : Pin) : (c.acknowledge m p).irq? = none := by
  rw [acknowledge]
  split <;> rfl

theorem Controller.acknowledge_ne_foreign {words : Nat} (c : Controller words)
    (m : Memory words) (p : Pin) (irq : Irq) : c.acknowledge m p ≠ .log (.foreign irq) := by
  rw [acknowledge]
  split <;> exact nofun

/-- The mask that a request gives to an interrupt id when it is granted, if it is about the id:
whether the id may be delivered. -/
def Controller.switch? {words : Nat} (c : Controller words) (irq : Irq) : Request → Option Bool
  | .enableInterrupt pin =>
      if c.irqBase.toNat + pin.toNat = irq.toNat then some true else none
  | .disableInterrupt pin =>
      if c.irqBase.toNat + pin.toNat = irq.toNat then some false else none
  | _ => none

/-- The request is an initialization, and the interrupt id is in the range of the controller. -/
def Controller.TakesOver {words : Nat} (c : Controller words) (irq : Irq) (request : Request) :
    Prop :=
  request = .bringUp ∧ c.irqBase.toNat ≤ irq.toNat ∧
    irq.toNat ≤ c.irqBase.toNat + (pinCount - 1)

instance {words : Nat} (c : Controller words) (irq : Irq) (request : Request) :
    Decidable (c.TakesOver irq request) :=
  inferInstanceAs (Decidable (_ ∧ _ ∧ _))

/-- The interrupt id is that of a pin of the controller. -/
def Controller.Serves {words : Nat} (c : Controller words) (irq : Irq) : Prop :=
  ∃ p : Pin, irq.toNat = c.irqBase.toNat + p.val

theorem Controller.serves_iff {words : Nat} {c : Controller words} {irq : Irq} :
    c.Serves irq ↔
      c.irqBase.toNat ≤ irq.toNat ∧ irq.toNat ≤ c.irqBase.toNat + (pinCount - 1) := by
  have some_pin : 0 < pinCount := Nat.zero_lt_succ _
  constructor
  · rintro ⟨⟨p, inside⟩, number⟩
    dsimp only at number
    omega
  · rintro ⟨low, high⟩
    have inside : irq.toNat - c.irqBase.toNat < pinCount := by omega
    exact ⟨⟨_, inside⟩, (Nat.add_sub_of_le low).symm⟩

/-- A controller that can be initialized takes over the ids of its pins. -/
theorem Controller.mem_ids_iff {words : Nat} {c : Controller words} {range : IrqRange}
    (ids : IrqRange.ofBase c.irqBase = .ok range) {irq : Irq} :
    irq ∈ range.ids ↔
      c.irqBase.toNat ≤ irq.toNat ∧ irq.toNat ≤ c.irqBase.toNat + (pinCount - 1) := by
  obtain ⟨first, last⟩ := IrqRange.ofBase_eq_ok_iff.mp ids
  rw [IrqRange.mem_ids, first, last]

/-- An initialization is about the interrupt ids of the controller only. -/
theorem Controller.serves_of_mem_initialization {words : Nat} {c : Controller words}
    {range : IrqRange} (ids : IrqRange.ofBase c.irqBase = .ok range) {action : Action}
    (mem : action ∈ initialization range) {irq : Irq} (about : irq ∈ action.irq?) :
    c.Serves irq := by
  rcases List.mem_append.mp mem with mem | mem
  · rcases List.mem_append.mp mem with mem | mem
    · obtain ⟨r, _, rfl⟩ := List.mem_map.mp mem
      exact nomatch about
    · obtain ⟨id, inside, rfl⟩ := List.mem_map.mp mem
      obtain rfl := Option.some.inj about
      exact serves_iff.mpr ((mem_ids_iff ids).mp inside)
  · obtain rfl := List.mem_singleton.mp mem
    exact nomatch about

namespace Board

variable {B : Board L} {c : Fin L.controllers} {s : State L}

theorem interrupts_act_of_silent {action : Action} (silent : action.irq? = none) :
    (B.act c s action).interrupts = s.interrupts := by
  cases action with
  | write _ => rfl
  | log _ => rfl
  | mask _ => exact nomatch silent
  | unmask _ => exact nomatch silent
  | install _ => exact nomatch silent

theorem interrupts_actAll_installs (B : Board L) (c : Fin L.controllers) (s : State L)
    (ids : List Irq) :
    (B.actAll c s (ids.map .install)).interrupts.unmasked = s.interrupts.unmasked ∧
      ∀ irq, (B.actAll c s (ids.map .install)).interrupts.handler irq =
        if irq ∈ ids then some c else s.interrupts.handler irq := by
  induction ids generalizing s with
  | nil => simp [actAll]
  | cons id rest ih =>
      obtain ⟨unmasked, handler⟩ := ih (B.act c s (.install id))
      refine ⟨unmasked, ?_⟩
      intro irq
      refine (handler irq).trans ?_
      change (if irq ∈ rest then some c else (s.interrupts.install id c).handler irq) = _
      rw [InterruptController.handler_install]
      by_cases same : irq = id <;> simp [same]

/-- An initialization installs the controller for the ids of its range. -/
theorem interrupts_actAll_initialization (B : Board L) (c : Fin L.controllers) (s : State L)
    (range : IrqRange) :
    (B.actAll c s (Controller.initialization range)).interrupts.unmasked =
        s.interrupts.unmasked ∧
      ∀ irq, (B.actAll c s (Controller.initialization range)).interrupts.handler irq =
        if irq ∈ range.ids then some c else s.interrupts.handler irq := by
  have reset : (B.actAll c s (Register.cleared.map fun r => .write (.reset r))).interrupts =
      s.interrupts := by
    have resets : (Register.cleared.map fun r => Action.write (.reset r)) =
        (Register.cleared.map .reset).map .write := rfl
    rw [resets, actAll_writes]
  have logged (t : State L) : B.actAll c t [.log (.initialized range)] = t := rfl
  rw [Controller.initialization, actAll_append, actAll_append, logged, ← reset]
  exact interrupts_actAll_installs B c _ range.ids

variable {m : Memory L.words} {request : Request} {response : Response}

/-- An id is unmasked or masked by a request about the pin that has it. -/
theorem unmasked_of_grants (grants : (B.controllers c).Grants m request response) (irq : Irq) :
    (B.actAll c s response.actions).interrupts.unmasked irq =
      ((B.controllers c).switch? irq request).getD (s.interrupts.unmasked irq) := by
  cases grants with
  | @bringUp range ids =>
      rw [(interrupts_actAll_initialization B c s range).1]
      rfl
  | configure number acceptable =>
      rw [actAll_configuration]
      rfl
  | read number => rfl
  | write number driven => rfl
  | @enableInterrupt pin id found =>
      have number := ((B.controllers c).irqOf_eq_ok_iff.mp found).2
      refine (s.interrupts.unmasked_unmask id irq).trans ?_
      simp only [Controller.switch?, ← number, UInt32.toNat_inj, eq_comm (a := id)]
      split <;> rfl
  | @disableInterrupt pin id found =>
      have number := ((B.controllers c).irqOf_eq_ok_iff.mp found).2
      refine (s.interrupts.unmasked_mask id irq).trans ?_
      simp only [Controller.switch?, ← number, UInt32.toNat_inj, eq_comm (a := id)]
      split <;> rfl

/-- An id gets another handler by an initialization of a controller in whose range it is. -/
theorem handler_of_grants (grants : (B.controllers c).Grants m request response) (irq : Irq) :
    (B.actAll c s response.actions).interrupts.handler irq =
      if (B.controllers c).TakesOver irq request then some c else s.interrupts.handler irq := by
  cases grants with
  | @bringUp range ids =>
      rw [(interrupts_actAll_initialization B c s range).2]
      simp only [Controller.mem_ids_iff ids, Controller.TakesOver, true_and]
  | configure number acceptable =>
      rw [actAll_configuration]
      rfl
  | read number => rfl
  | write number driven => rfl
  | enableInterrupt found => rfl
  | disableInterrupt found => rfl

end Board

end Gpio
