import Gpio.Pin

/-!
# Interrupt ids and their controller

Every pin of a block has an interrupt id of its own: the id of pin 0, which is the base
of the block, and the pin's number above it. Ids are 32-bit numbers, and a base near
their end leaves no ids for the last pins. `Pin.irq?` and `Pin.ofIrq?` number the pins
in both directions, and by `Pin.irq?_eq_some_iff` and `Pin.ofIrq?_eq_some_iff` they say
the same.

The interrupt controller, which all blocks share, delivers an id that is unmasked and
has a handler.
-/

namespace Gpio

abbrev Irq := UInt32

/-- The id that lies some way above another one, if there is one. -/
def Irq.above? (base : Irq) (offset : Nat) : Option Irq :=
  if h : base.toNat + offset < UInt32.size then some (UInt32.ofNatLT _ h) else none

theorem Irq.above?_eq_some_iff {base irq : Irq} {offset : Nat} :
    Irq.above? base offset = some irq ↔ irq.toNat = base.toNat + offset := by
  unfold Irq.above?
  split
  · rename_i inside
    rw [Option.some.injEq, ← UInt32.toNat_inj, UInt32.toNat_ofNatLT]
    exact eq_comm
  · rename_i outside
    simp only [reduceCtorEq, false_iff]
    exact fun same => outside (same ▸ irq.toNat_lt)

theorem Irq.above?_eq_none_iff {base : Irq} {offset : Nat} :
    Irq.above? base offset = none ↔ UInt32.size ≤ base.toNat + offset := by
  unfold Irq.above?
  split
  · rename_i inside
    simp only [reduceCtorEq, false_iff]
    exact Nat.not_le_of_lt inside
  · rename_i outside
    exact ⟨fun _ => Nat.le_of_not_lt outside, fun _ => rfl⟩

/-- Consecutive interrupt ids, both ends included. -/
structure IrqRange where
  first : Irq
  last : Irq
  deriving DecidableEq

namespace IrqRange

/-- The ids of the pins of a block, all of which have to exist. -/
def ofBase (base : Irq) : Except Fault IrqRange :=
  match Irq.above? base (pinCount - 1) with
  | some last => .ok ⟨base, last⟩
  | none => .error .invalidConfig

/-- The ids of a range, ascending. -/
def ids (range : IrqRange) : List Irq :=
  (List.range' range.first.toNat (range.last.toNat + 1 - range.first.toNat)).map UInt32.ofNat

end IrqRange

namespace Pin

/-- The interrupt id of a pin. -/
def irq? (base : Irq) (p : Pin) : Option Irq := Irq.above? base p.val

/-- The pin that has a given interrupt id. -/
def ofIrq? (base irq : Irq) : Option Pin :=
  if h : base.toNat ≤ irq.toNat ∧ irq.toNat - base.toNat < pinCount then
    some ⟨irq.toNat - base.toNat, h.2⟩
  else none

theorem irq?_eq_some_iff {base irq : Irq} {p : Pin} :
    irq? base p = some irq ↔ irq.toNat = base.toNat + p.val :=
  Irq.above?_eq_some_iff

theorem ofIrq?_eq_some_iff {base irq : Irq} {p : Pin} :
    ofIrq? base irq = some p ↔ irq.toNat = base.toNat + p.val := by
  unfold ofIrq?
  split
  · rename_i inside
    rw [Option.some.injEq, Fin.ext_iff]
    change irq.toNat - base.toNat = p.val ↔ irq.toNat = base.toNat + p.val
    omega
  · rename_i outside
    simp only [reduceCtorEq, false_iff]
    refine fun same => outside ⟨same ▸ Nat.le_add_right _ _, ?_⟩
    rw [same, Nat.add_sub_cancel_left]
    exact p.isLt

end Pin

/-- The interrupt controller of a board whose handlers are numbered. -/
structure InterruptController (handlers : Nat) where
  /-- The ids that may be delivered. -/
  unmasked : Irq → Bool := fun _ => false
  handler : Irq → Option (Fin handlers) := fun _ => none
  /-- The id that is being delivered. -/
  pending : Irq := 0

namespace InterruptController

variable {handlers : Nat}

def mask (i : InterruptController handlers) (irq : Irq) : InterruptController handlers :=
  { i with unmasked := fun other => other != irq && i.unmasked other }

def unmask (i : InterruptController handlers) (irq : Irq) : InterruptController handlers :=
  { i with unmasked := fun other => other == irq || i.unmasked other }

/-- Give an id to a handler, in place of the one that it has. -/
def install (i : InterruptController handlers) (irq : Irq) (handler : Fin handlers) :
    InterruptController handlers :=
  { i with handler := fun other => if other = irq then some handler else i.handler other }

/-- The handler to which an id is delivered, if it is. -/
def receiver? (i : InterruptController handlers) (irq : Irq) : Option (Fin handlers) :=
  if i.unmasked irq then i.handler irq else none

theorem receiver?_eq_some_iff {i : InterruptController handlers} {irq : Irq}
    {handler : Fin handlers} :
    i.receiver? irq = some handler ↔ i.unmasked irq ∧ i.handler irq = some handler :=
  Option.ite_none_right_eq_some

theorem unmasked_mask (i : InterruptController handlers) (irq other : Irq) :
    (i.mask irq).unmasked other = if other = irq then false else i.unmasked other := by
  by_cases same : other = irq <;> simp [mask, same]

theorem unmasked_unmask (i : InterruptController handlers) (irq other : Irq) :
    (i.unmask irq).unmasked other = if other = irq then true else i.unmasked other := by
  by_cases same : other = irq <;> simp [unmask, same]

theorem handler_install (i : InterruptController handlers) (irq other : Irq)
    (handler : Fin handlers) :
    (i.install irq handler).handler other =
      if other = irq then some handler else i.handler other := rfl

end InterruptController

end Gpio
