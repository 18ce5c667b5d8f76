import Gpio.Fault

/-!
# Pins and words

A block serves 32 pins and keeps one bit of every register for each of them, so a
register is a 32-bit word whose bit `p` belongs to pin `p`. The one law needed of
a bit update is `Word.bit_writeBit`: it changes the named pin's bit and no other.
-/

namespace Gpio

/-- The number of pins of a block. -/
abbrev pinCount : Nat := 32

/-- A pin of a block, counted from 0. -/
abbrev Pin := Fin pinCount

/-- The contents of one register, or a set of pins. -/
abbrev Word := BitVec pinCount

namespace Pin

/-- The pin with a given number, which has to be below the number of pins. -/
def ofIndex (index : UInt32) : Except Fault Pin :=
  if h : index.toNat < pinCount then .ok ⟨index.toNat, h⟩ else .error .invalidPin

/-- The word in which only this pin's bit is set. -/
def mask (p : Pin) : Word := BitVec.twoPow pinCount p

theorem ofIndex_eq_ok_iff {index : UInt32} {p : Pin} :
    ofIndex index = .ok p ↔ index.toNat = p.val := by
  unfold ofIndex
  split
  · simp [Fin.ext_iff]
  · rename_i outside
    simp only [reduceCtorEq, false_iff]
    exact fun same => outside (same ▸ p.isLt)

theorem ofIndex_eq_error_iff {index : UInt32} {fault : Fault} :
    ofIndex index = .error fault ↔ fault = .invalidPin ∧ pinCount ≤ index.toNat := by
  unfold ofIndex
  split
  · rename_i inside
    simp only [reduceCtorEq, false_iff]
    exact fun outside => Nat.not_le_of_lt inside outside.2
  · rename_i outside
    simp only [Except.error.injEq]
    exact ⟨fun same => ⟨same.symm, Nat.le_of_not_lt outside⟩, fun both => both.1.symm⟩

/-- A computation on a pin given by number fails because there is no such pin, or of its
own accord. -/
theorem bind_ofIndex_eq_error_iff {α : Type} {index : UInt32} {next : Pin → Except Fault α}
    {fault : Fault} :
    (ofIndex index >>= next) = .error fault ↔
      fault = .invalidPin ∧ pinCount ≤ index.toNat ∨
      ∃ p : Pin, index.toNat = p.val ∧ next p = .error fault := by
  cases found : ofIndex index with
  | error other =>
      obtain ⟨rfl, outside⟩ := ofIndex_eq_error_iff.mp found
      constructor
      · intro failed
        exact Or.inl ⟨(Except.error.inj failed).symm, outside⟩
      · rintro (⟨rfl, _⟩ | ⟨p, number, _⟩)
        · rfl
        · exact absurd p.isLt (Nat.not_lt_of_le (number ▸ outside))
  | ok p =>
      have number := ofIndex_eq_ok_iff.mp found
      constructor
      · intro failed
        exact Or.inr ⟨p, number, failed⟩
      · rintro (⟨_, outside⟩ | ⟨q, same, failed⟩)
        · exact absurd (number ▸ p.isLt) (Nat.not_lt_of_le outside)
        · obtain rfl : p = q := Fin.ext (number.symm.trans same)
          exact failed

theorem bind_ofIndex_eq_ok_iff {α : Type} {index : UInt32} {next : Pin → Except Fault α}
    {result : α} :
    (ofIndex index >>= next) = .ok result ↔
      ∃ p : Pin, index.toNat = p.val ∧ next p = .ok result := by
  cases found : ofIndex index with
  | error other =>
      have outside := (ofIndex_eq_error_iff.mp found).2
      constructor
      · exact fun succeeded => nomatch succeeded
      · rintro ⟨p, number, _⟩
        exact absurd p.isLt (Nat.not_lt_of_le (number ▸ outside))
  | ok p =>
      have number := ofIndex_eq_ok_iff.mp found
      constructor
      · exact fun succeeded => ⟨p, number, succeeded⟩
      · rintro ⟨q, same, succeeded⟩
        obtain rfl : p = q := Fin.ext (number.symm.trans same)
        exact succeeded

end Pin

namespace Word

/-- Whether the bit of a pin is set. -/
def bit (w : Word) (p : Pin) : Bool := w.getLsbD p

/-- Change the bit of one pin. -/
def writeBit (w : Word) (p : Pin) (value : Bool) : Word :=
  if value then w ||| p.mask else w &&& ~~~p.mask

theorem ext {v w : Word} (same : ∀ p, v.bit p = w.bit p) : v = w :=
  BitVec.eq_of_getLsbD_eq fun i inside => same ⟨i, inside⟩

@[simp]
theorem bit_zero (p : Pin) : bit 0 p = false := by
  simp [bit]

@[simp]
theorem bit_mask (p q : Pin) : p.mask.bit q = decide (p = q) := by
  rw [bit, Pin.mask, BitVec.getLsbD_twoPow, decide_eq_true p.isLt, Bool.true_and]
  exact decide_eq_decide.mpr Fin.ext_iff.symm

@[simp]
theorem bit_not (w : Word) (p : Pin) : bit (~~~w) p = !w.bit p := by
  rw [bit, BitVec.getLsbD_not, decide_eq_true p.isLt, Bool.true_and, bit]

@[simp]
theorem bit_and (v w : Word) (p : Pin) : bit (v &&& w) p = (v.bit p && w.bit p) :=
  BitVec.getLsbD_and

@[simp]
theorem bit_or (v w : Word) (p : Pin) : bit (v ||| w) p = (v.bit p || w.bit p) :=
  BitVec.getLsbD_or

theorem bit_writeBit (w : Word) (p q : Pin) (value : Bool) :
    (w.writeBit p value).bit q = if p = q then value else w.bit q := by
  cases value <;> by_cases same : p = q <;> simp [writeBit, same]

end Word

end Gpio
