import Gpio.Proofs.Board.Demand
import Gpio.Proofs.Board.Purge
import Gpio.Proofs.Controller.Pins

/-!
# Pins do not interfere

What is demanded of a controller for other pins changes nothing for a pin: its bits in all
registers, and whether its interrupt is unmasked, are as they would be without these demands,
and so is what its own demands get (`Board.unwinds_pin`). Demands for different pins can be
made in either order (`Board.operate_comm`).
-/

namespace Gpio

variable {L : Layout}

namespace InterruptController

variable {handlers : Nat} (i : InterruptController handlers)

theorem mask_comm (first second : Irq) :
    (i.mask first).mask second = (i.mask second).mask first := by
  simp only [mask, Bool.and_left_comm]

theorem unmask_comm (first second : Irq) :
    (i.unmask first).unmask second = (i.unmask second).unmask first := by
  simp only [unmask, Bool.or_left_comm]

theorem unmask_mask_comm {first second : Irq} (different : first ≠ second) :
    (i.unmask first).mask second = (i.mask second).unmask first := by
  simp only [mask, unmask, mk.injEq, and_true]
  funext other
  by_cases same : other = first
  · simp [same, different]
  · simp [beq_eq_false_iff_ne.mpr same]

end InterruptController

namespace Board

variable {B : Board L} {c : Fin L.controllers} {p q : Pin} {s t : State L}

/-- Two states agree on a pin of a controller: on its bit in every register, and on whether its
interrupt id is unmasked, if it has one. -/
structure AgreeOnPin (B : Board L) (c : Fin L.controllers) (p : Pin) (s t : State L) : Prop where
  registers : ∀ r,
    (B.controllers c).block.isSet s.memory r p = (B.controllers c).block.isSet t.memory r p
  unmasked : ∀ irq, p.irq? (B.controllers c).irqBase = some irq →
    s.interrupts.unmasked irq = t.interrupts.unmasked irq

namespace AgreeOnPin

theorem refl (B : Board L) (c : Fin L.controllers) (p : Pin) (s : State L) :
    B.AgreeOnPin c p s s where
  registers := fun _ => rfl
  unmasked := fun _ _ => rfl

/-- An action does the same to the pin in both states. -/
theorem act (agree : B.AgreeOnPin c p s t) (action : Action) :
    B.AgreeOnPin c p (B.act c s action) (B.act c t action) := by
  cases action with
  | write w => exact ⟨Block.AgreeOn.write agree.registers w, agree.unmasked⟩
  | mask id =>
      refine ⟨agree.registers, fun irq own => ?_⟩
      simp only [Board.act, InterruptController.unmasked_mask, agree.unmasked irq own]
  | unmask id =>
      refine ⟨agree.registers, fun irq own => ?_⟩
      simp only [Board.act, InterruptController.unmasked_unmask, agree.unmasked irq own]
  | install id => exact ⟨agree.registers, agree.unmasked⟩
  | log entry => exact agree

theorem actAll (agree : B.AgreeOnPin c p s t) (actions : List Action) :
    B.AgreeOnPin c p (B.actAll c s actions) (B.actAll c t actions) := by
  induction actions generalizing s t with
  | nil => exact agree
  | cons action rest ih => exact ih (agree.act action)

/-- What is done to another pin is not noticed. -/
theorem act_left (agree : B.AgreeOnPin c p s t) (other : q ≠ p) {action : Action}
    (isFor : action.IsFor (B.controllers c) q) : B.AgreeOnPin c p (B.act c s action) t := by
  have apart {id irq : Irq} (its : id.toNat = (B.controllers c).irqBase.toNat + q.val)
      (own : p.irq? (B.controllers c).irqBase = some irq) : irq ≠ id := by
    rintro rfl
    exact other (Fin.ext (Nat.add_left_cancel (its.symm.trans (Pin.irq?_eq_some_iff.mp own))))
  cases action with
  | write w =>
      obtain ⟨r, value, rfl⟩ := isFor
      exact ⟨Block.AgreeOn.write_bit_left agree.registers other r value, agree.unmasked⟩
  | mask id =>
      refine ⟨agree.registers, fun irq own => ?_⟩
      rw [← agree.unmasked irq own]
      exact (s.interrupts.unmasked_mask id irq).trans (if_neg (apart isFor own))
  | unmask id =>
      refine ⟨agree.registers, fun irq own => ?_⟩
      rw [← agree.unmasked irq own]
      exact (s.interrupts.unmasked_unmask id irq).trans (if_neg (apart isFor own))
  | install id => exact isFor.elim
  | log entry => exact agree

theorem actAll_left (agree : B.AgreeOnPin c p s t) {actions : List Action}
    (others : ∀ action ∈ actions, ∃ q ≠ p, action.IsFor (B.controllers c) q) :
    B.AgreeOnPin c p (B.actAll c s actions) t := by
  induction actions generalizing s with
  | nil => exact agree
  | cons action rest ih =>
      obtain ⟨⟨q, other, isFor⟩, others⟩ := List.forall_mem_cons.mp others
      exact ih (agree.act_left other isFor) others

end AgreeOnPin

/-! ## Runs without what is demanded for other pins -/

/-- The command by which a demand is made. -/
def demandOf (c : Fin L.controllers) (demand : Demand) : Command L :=
  .operation (demand.operation c)

theorem exec_demandOf (B : Board L) (c : Fin L.controllers) (s : State L) (demand : Demand) :
    B.exec s (demandOf c demand) =
      some (B.carryOut c s ((B.controllers c).respondTo s.memory demand)) := by
  rw [← operate_demand]
  rfl

theorem concerns_iff {demand : Demand} {pin : UInt32} (about : demand.request.pin? = some pin) :
    demand.concerns p ↔ pin.toNat = p.val := by
  rw [Demand.concerns, about, decide_eq_true_eq]

/-- Demands for a pin, and initializations, do the same to it and get the same where two states
agree on the pin, and demands for other pins leave them in agreement. -/
theorem unwinds_pin (B : Board L) (c : Fin L.controllers) (p : Pin) :
    B.Unwinds (demandOf c) (Demand.concerns p) (B.AgreeOnPin c p) where
  same := by
    intro demand s t first second own agree executed repeated
    rw [exec_demandOf] at executed repeated
    have same : (B.controllers c).respondTo s.memory demand =
        (B.controllers c).respondTo t.memory demand := by
      apply Controller.respondTo_congr
      intro pin about q number
      obtain rfl : p = q := Fin.ext (((concerns_iff about).mp own).symm.trans number)
      exact agree.registers
    obtain rfl := Option.some.inj executed
    obtain rfl := Option.some.inj repeated
    rw [same, state_carryOut, state_carryOut]
    exact ⟨B.seen_carryOut c s t _, agree.actAll _⟩
  other := by
    intro demand s t effect other agree executed
    rw [exec_demandOf] at executed
    obtain rfl := Option.some.inj executed
    rw [state_carryOut]
    apply agree.actAll_left
    intro action mem
    cases about : demand.request.pin? with
    | none =>
        rw [Demand.concerns, about] at other
        exact absurd rfl other
    | some pin =>
        obtain ⟨q, number, isFor⟩ := Controller.isFor_of_mem_actionsOf about mem
        refine ⟨q, fun same => other ?_, isFor⟩
        exact (concerns_iff about).mpr (same ▸ number)

/-! ## The order of demands for different pins -/

/-- Two operations get the same in either order, and leave the same state. -/
def Commute (B : Board L) (s : State L) (first second : Operation L) : Prop :=
  let before := B.operate s first
  let after := B.operate before.state second
  let before' := B.operate s second
  let after' := B.operate before'.state first
  before.seen = after'.seen ∧ after.seen = before'.seen ∧ after.state = after'.state

theorem act_comm (B : Board L) (c : Fin L.controllers) (s : State L) {first second : Action}
    {p q : Pin} (different : p ≠ q) (one : first.IsFor (B.controllers c) p)
    (two : second.IsFor (B.controllers c) q) :
    B.act c (B.act c s first) second = B.act c (B.act c s second) first := by
  have apart {id irq : Irq} (its : id.toNat = (B.controllers c).irqBase.toNat + p.val)
      (own : irq.toNat = (B.controllers c).irqBase.toNat + q.val) : id ≠ irq := by
    rintro rfl
    exact different (Fin.ext (Nat.add_left_cancel (its.symm.trans own)))
  have interrupts {i j : InterruptController L.controllers} (same : i = j) :
      { s with interrupts := i } = { s with interrupts := j } := same ▸ rfl
  cases first with
  | write w =>
      obtain ⟨r, v, rfl⟩ := one
      cases second with
      | write w =>
          obtain ⟨r', v', rfl⟩ := two
          simp only [act, Block.write_bit_comm _ _ different]
      | install id => exact two.elim
      | _ => rfl
  | mask id =>
      cases second with
      | mask other => exact interrupts (s.interrupts.mask_comm id other)
      | unmask other => exact interrupts (s.interrupts.unmask_mask_comm (apart one two).symm).symm
      | install other => exact two.elim
      | _ => rfl
  | unmask id =>
      cases second with
      | mask other => exact interrupts (s.interrupts.unmask_mask_comm (apart one two))
      | unmask other => exact interrupts (s.interrupts.unmask_comm id other)
      | install other => exact two.elim
      | _ => rfl
  | install id => exact one.elim
  | log entry => rfl

theorem actAll_act_comm (B : Board L) (c : Fin L.controllers) (s : State L) {action : Action}
    {actions : List Action}
    (apart : ∀ other ∈ actions, ∃ p q : Pin, p ≠ q ∧ action.IsFor (B.controllers c) p ∧
      other.IsFor (B.controllers c) q) :
    B.actAll c (B.act c s action) actions = B.act c (B.actAll c s actions) action := by
  induction actions generalizing s with
  | nil => rfl
  | cons other rest ih =>
      obtain ⟨⟨p, q, different, one, two⟩, apart⟩ := List.forall_mem_cons.mp apart
      have swapped := B.act_comm c s different one two
      exact (congrArg (B.actAll c · rest) swapped).trans (ih (B.act c s other) apart)

theorem actAll_comm (B : Board L) (c : Fin L.controllers) (s : State L)
    {first second : List Action}
    (apart : ∀ action ∈ first, ∀ other ∈ second, ∃ p q : Pin, p ≠ q ∧
      action.IsFor (B.controllers c) p ∧ other.IsFor (B.controllers c) q) :
    B.actAll c (B.actAll c s first) second = B.actAll c (B.actAll c s second) first := by
  induction first generalizing s with
  | nil => rfl
  | cons action rest ih =>
      obtain ⟨one, apart⟩ := List.forall_mem_cons.mp apart
      have swapped := B.actAll_act_comm c s one
      exact (ih (B.act c s action) apart).trans (congrArg (B.actAll c · rest) swapped)

/-- The decision about a demand does not depend on what has been done for other pins. -/
theorem respondTo_actAll (B : Board L) (c : Fin L.controllers) (s : State L) {demand : Demand}
    {actions : List Action}
    (others : ∀ action ∈ actions, ∃ q, ¬demand.concerns q ∧ action.IsFor (B.controllers c) q) :
    (B.controllers c).respondTo (B.actAll c s actions).memory demand =
      (B.controllers c).respondTo s.memory demand := by
  apply Controller.respondTo_congr
  intro pin about p number
  refine ((AgreeOnPin.refl B c p s).actAll_left fun action mem => ?_).registers
  obtain ⟨q, unconcerned, isFor⟩ := others action mem
  refine ⟨q, ?_, isFor⟩
  rintro rfl
  exact unconcerned ((concerns_iff about).mpr number)

/-- The decision about a demand does not depend on what a demand for another pin has done. -/
theorem respondTo_operate (B : Board L) (c : Fin L.controllers) (s : State L)
    {first second : Demand} {one two : UInt32} (about : first.request.pin? = some one)
    (about' : second.request.pin? = some two) (different : one ≠ two) :
    (B.controllers c).respondTo (B.operate s (first.operation c)).state.memory second =
      (B.controllers c).respondTo s.memory second := by
  rw [operate_demand, state_carryOut]
  apply respondTo_actAll
  intro action mem
  obtain ⟨p, number, isFor⟩ := Controller.isFor_of_mem_actionsOf about mem
  refine ⟨p, fun concerned => different (UInt32.toNat_inj.mp ?_), isFor⟩
  exact number.trans ((concerns_iff about').mp concerned).symm

/-- Demands for different pins get the same in either order, and leave the same state. -/
theorem operate_comm (B : Board L) (c : Fin L.controllers) (s : State L) {first second : Demand}
    {one two : UInt32} (about : first.request.pin? = some one)
    (about' : second.request.pin? = some two) (different : one ≠ two) :
    B.Commute s (first.operation c) (second.operation c) := by
  have later := B.respondTo_operate c s about about' different
  have later' := B.respondTo_operate c s about' about different.symm
  rw [operate_demand, state_carryOut] at later later'
  simp only [Commute, operate_demand, state_carryOut, later, later']
  refine ⟨B.seen_carryOut c _ _ _, B.seen_carryOut c _ _ _, B.actAll_comm c s ?_⟩
  intro action mem other mem'
  obtain ⟨p, number, isFor⟩ := Controller.isFor_of_mem_actionsOf about mem
  obtain ⟨q, number', isFor'⟩ := Controller.isFor_of_mem_actionsOf about' mem'
  refine ⟨p, q, ?_, isFor, isFor'⟩
  rintro rfl
  exact different (UInt32.toNat_inj.mp (number.trans number'.symm))

/-! ## Independence -/

theorem exists_execAll_demands (B : Board L) (c : Fin L.controllers) (s : State L)
    (demands : List Demand) :
    ∃ effects, B.execAll s (demands.map (demandOf c)) = some effects := by
  induction demands generalizing s with
  | nil => exact ⟨[], rfl⟩
  | cons demand demands ih =>
      obtain ⟨effects, onward⟩ := ih (B.operate s (demand.operation c)).state
      exact ⟨_, execAll_cons_eq_some_iff.mpr ⟨_, effects, rfl, onward, rfl⟩⟩

/-- Whatever is demanded of a controller: without the demands that are for other pins, the
demands for a pin get the same, and in the end the pin has the same bit in every register and
its interrupt is unmasked or not as it would be. So demands for different pins commute. -/
theorem pins_are_independent (B : Board L) (c : Fin L.controllers) (s : State L) :
    (∀ (p : Pin) (demands : List Demand), ∃ effects alone,
      B.execAll s (demands.map (demandOf c)) = some effects ∧
      B.execAll s ((demands.filter (Demand.concerns p)).map (demandOf c)) = some alone ∧
      seenOf (Demand.concerns p) demands effects = alone.map Effect.seen ∧
      B.AgreeOnPin c p (lastState s effects) (lastState s alone)) ∧
    ∀ (first second : Demand) (one two : UInt32), first.request.pin? = some one →
      second.request.pin? = some two → one ≠ two →
      B.Commute s (first.operation c) (second.operation c) := by
  constructor
  · intro p demands
    obtain ⟨effects, all⟩ := B.exists_execAll_demands c s demands
    obtain ⟨alone, purged⟩ :=
      B.exists_execAll_demands c s (demands.filter (Demand.concerns p))
    obtain ⟨seen, agree⟩ := (B.unwinds_pin c p).execAll (AgreeOnPin.refl B c p s) all purged
    exact ⟨effects, alone, all, purged, seen, agree⟩
  · intro first second one two about about' different
    exact B.operate_comm c s about about' different

end Board

end Gpio
