import Gpio.Controller.Refusal
import Gpio.Proofs.Block.Writes
import Gpio.Proofs.Controller.Demand

/-!
# Requests about one pin

A register write reads and changes the bits of each pin on their own (`Block.AgreeOn.write`).
What is responded to a request about a pin depends on the bits of that pin only
(`Controller.respondTo_congr`), and all that is done for it is done to that pin
(`Controller.Grants.isFor`).
-/

namespace Gpio

/-- The pin that a request is about. An initialization is not about a single pin. -/
def Request.pin? : Request → Option UInt32
  | .bringUp => none
  | .configure pin _ | .read pin | .write pin _ | .enableInterrupt pin | .disableInterrupt pin =>
      some pin

/-- Whether a demand is about a pin, as an initialization is about every pin. -/
def Demand.concerns (p : Pin) (demand : Demand) : Bool :=
  match demand.request.pin? with
  | none => true
  | some pin => pin.toNat = p.val

theorem Word.writeBit_comm {p q : Pin} (different : p ≠ q) (old : Word) (v w : Bool) :
    (old.writeBit p v).writeBit q w = (old.writeBit q w).writeBit p v := by
  apply Word.ext
  intro other
  simp only [bit_writeBit]
  by_cases first : p = other
  · have second : q ≠ other := fun same => different (first.trans same.symm)
    simp only [first, second, if_true, if_false]
  · simp only [first, if_false]

namespace Block

variable {words : Nat} {b : Block words} {m n : Memory words} {p : Pin}

/-- All registers hold the same bit of a pin in both memories. -/
def AgreeOn (b : Block words) (p : Pin) (m n : Memory words) : Prop :=
  ∀ r, b.isSet m r p = b.isSet n r p

/-- The bit of a pin that is stored depends on the bit of that pin only. -/
theorem bit_result_congr {old new : Word} (same : old.bit p = new.bit p) (w : RegisterWrite) :
    (w.result old).bit p = (w.result new).bit p := by
  cases w with
  | bit r q value => rw [RegisterWrite.result, RegisterWrite.result, Word.bit_writeBit,
      Word.bit_writeBit, same]
  | acknowledge r q => rfl
  | reset r => rfl

theorem AgreeOn.write (agree : b.AgreeOn p m n) (w : RegisterWrite) :
    b.AgreeOn p (b.write m w) (b.write n w) := by
  intro r
  rw [isSet, isSet, read_write, read_write]
  split
  · exact bit_result_congr (agree r) w
  · exact agree r

/-- A bit update of another pin is not noticed. -/
theorem AgreeOn.write_bit_left (agree : b.AgreeOn p m n) {q : Pin} (other : q ≠ p) (r : Register)
    (value : Bool) : b.AgreeOn p (b.write m (.bit r q value)) n := by
  intro s
  rw [isSet_write_bit, if_neg fun all => other all.2.2]
  exact agree s

/-- Bit updates of two pins can be made in either order. -/
theorem write_bit_comm (b : Block words) (m : Memory words) {p q : Pin} (different : p ≠ q)
    (r s : Register) (v w : Bool) :
    b.write (b.write m (.bit r p v)) (.bit s q w) =
      b.write (b.write m (.bit s q w)) (.bit r p v) := by
  apply Memory.ext
  intro i
  simp only [load_write, RegisterWrite.register, RegisterWrite.result]
  by_cases first : r.isWritable ∧ b.word r = i <;>
    by_cases second : s.isWritable ∧ b.word s = i <;>
      simp only [first, second, and_self, if_true, if_false, Word.writeBit_comm different]

end Block

namespace Controller

variable {words : Nat} {c : Controller words} {m n : Memory words}

theorem level_congr {p : Pin} (agree : c.block.AgreeOn p m n) : c.level m p = c.level n p := by
  rw [level, level, agree .outputEnable, agree .outputValue, agree .inputValue]

theorem acknowledge_congr {p : Pin} (agree : c.block.AgreeOn p m n) :
    c.acknowledge m p = c.acknowledge n p := by
  have latched : c.latched? m p = c.latched? n p :=
    congrArg Register.pending.find? (funext agree)
  rw [acknowledge, acknowledge, latched]

/-- Computations on a pin that is given by number agree if they agree on the pin. -/
theorem bind_ofIndex_congr {α : Type} {pin : UInt32} {first second : Pin → Except Fault α}
    (same : ∀ p : Pin, pin.toNat = p.val → first p = second p) :
    (Pin.ofIndex pin >>= first) = Pin.ofIndex pin >>= second := by
  cases found : Pin.ofIndex pin with
  | error fault => rfl
  | ok p => exact same p (Pin.ofIndex_eq_ok_iff.mp found)

/-- The response to a request depends on the bits of the pins that it is about. -/
theorem respond_congr {request : Request}
    (agree : ∀ pin ∈ request.pin?, ∀ p : Pin, pin.toNat = p.val → c.block.AgreeOn p m n) :
    c.respond m request = c.respond n request := by
  cases request with
  | read pin =>
      apply bind_ofIndex_congr
      intro p number
      rw [level_congr (agree pin rfl p number)]
  | write pin value =>
      apply bind_ofIndex_congr
      intro p number
      rw [agree pin rfl p number .inputEnable]
  | _ => rfl

theorem respondTo_congr {demand : Demand}
    (agree : ∀ pin ∈ demand.request.pin?, ∀ p : Pin, pin.toNat = p.val → c.block.AgreeOn p m n) :
    c.respondTo m demand = c.respondTo n demand := by
  cases demand with
  | plain request => exact respond_congr agree
  | coded request =>
      have same : c.respond m request.toRequest = c.respond n request.toRequest :=
        respond_congr agree
      rw [respondTo, respondTo, respondAccess, respondAccess, same]

end Controller

/-- An action is done to a single pin, or to its interrupt id, or to none. -/
def Action.IsFor {words : Nat} (c : Controller words) (p : Pin) : Action → Prop
  | .write w => ∃ r value, w = .bit r p value
  | .mask irq | .unmask irq => irq.toNat = c.irqBase.toNat + p.val
  | .install _ => False
  | .log _ => True

/-- All that is done for a request about a pin is done to that pin. -/
theorem Controller.Grants.isFor {words : Nat} {c : Controller words} {m : Memory words}
    {request : Request} {response : Response} (grants : c.Grants m request response)
    {pin : UInt32} (about : request.pin? = some pin) :
    ∃ p : Pin, pin.toNat = p.val ∧ ∀ action ∈ response.actions, action.IsFor c p := by
  cases grants with
  | bringUp ids => exact nomatch about
  | @configure _ p config number acceptable =>
      obtain rfl := Option.some.inj about
      refine ⟨p, number, fun action mem => ?_⟩
      rcases List.mem_append.mp mem with mem | mem
      · obtain ⟨w, written, rfl⟩ := List.mem_map.mp mem
        obtain ⟨setting, _, rfl⟩ := List.mem_map.mp written
        exact ⟨setting.1, setting.2, rfl⟩
      · obtain rfl := List.mem_singleton.mp mem
        trivial
  | @read _ p number =>
      obtain rfl := Option.some.inj about
      exact ⟨p, number, nofun⟩
  | @write _ p value number driven =>
      obtain rfl := Option.some.inj about
      refine ⟨p, number, fun action mem => ?_⟩
      obtain rfl := List.mem_singleton.mp mem
      exact ⟨_, _, rfl⟩
  | enableInterrupt id | disableInterrupt id =>
      obtain rfl := Option.some.inj about
      obtain ⟨inside, number⟩ := c.irqOf_eq_ok_iff.mp id
      refine ⟨⟨_, inside⟩, rfl, fun action mem => ?_⟩
      obtain rfl := List.mem_singleton.mp mem
      exact number

theorem Controller.isFor_of_mem_actionsOf {words : Nat} {c : Controller words} {m : Memory words}
    {demand : Demand} {pin : UInt32} (about : demand.request.pin? = some pin) {action : Action}
    (mem : action ∈ actionsOf (c.respondTo m demand)) :
    ∃ p : Pin, pin.toNat = p.val ∧ action.IsFor c p := by
  obtain ⟨response, grants, mem⟩ := exists_grants_of_mem_actionsOf mem
  obtain ⟨p, number, isFor⟩ := grants.isFor about
  exact ⟨p, number, isFor action mem⟩

end Gpio
