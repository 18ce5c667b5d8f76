import Gpio.Register

/-!
# Memory and register blocks

Memory is a row of words, and a block is a place in it with room for the seventeen
registers. Blocks may overlap. What a user does to a block is a `RegisterWrite`: a
bit update of one pin, an acknowledgement, or a reset. `Block.read_write` says what
each of them leaves in every register of its block, and `Block.load_write` that
it touches no other word.
-/

namespace Gpio

abbrev Memory (words : Nat) := Vector Word words

namespace Memory

variable {words : Nat}

/-- Memory in which every word has one value. -/
def filled (words : Nat) (value : Word) : Memory words := Vector.replicate words value

def load (m : Memory words) (i : Fin words) : Word := getElem m i.val i.isLt

def store (m : Memory words) (i : Fin words) (value : Word) : Memory words :=
  m.set i.val value i.isLt

/-- The words in which two memories differ, ascending, with their values in the second. -/
def changes (before after : Memory words) : List (Fin words × Word) :=
  (List.finRange words).filterMap fun i =>
    if before.load i = after.load i then none else some (i, after.load i)

theorem ext {m n : Memory words} (same : ∀ i, m.load i = n.load i) : m = n :=
  Vector.ext fun i inside => same ⟨i, inside⟩

theorem load_store (m : Memory words) (i j : Fin words) (value : Word) :
    (m.store i value).load j = if i = j then value else m.load j := by
  simp only [load, store, Vector.getElem_set, Fin.ext_iff]

end Memory

/-- One change of one register. -/
inductive RegisterWrite where
  /-- Read the register, change one pin's bit, and store the result. -/
  | bit (r : Register) (p : Pin) (value : Bool)
  /-- Store the pin's mask. The register is not read, so in one that clears the bits
  stored to it as ones, the pending bits of other pins stay. -/
  | acknowledge (r : Register) (p : Pin)
  /-- Store zero. -/
  | reset (r : Register)
  deriving DecidableEq

namespace RegisterWrite

def register : RegisterWrite → Register
  | bit r _ _ => r
  | acknowledge r _ => r
  | reset r => r

/-- The word that is stored when the register holds `old`. -/
def result (old : Word) : RegisterWrite → Word
  | bit _ p value => old.writeBit p value
  | acknowledge _ p => p.mask
  | reset _ => 0

end RegisterWrite

/-- A place in memory with room for the registers. -/
structure Block (words : Nat) where
  /-- The number of the first word. -/
  base : Nat
  fits : base + registerCount ≤ words := by decide
  deriving DecidableEq

namespace Block

variable {words : Nat}

/-- The block that starts at a given word, if it lies in memory. -/
def ofWord? (words base : Nat) : Option (Block words) :=
  if h : base + registerCount ≤ words then some ⟨base, h⟩ else none

/-- The block at an address, in a memory that starts at `origin`. -/
def ofAddress? (words : Nat) (origin address : UInt64) : Option (Block words) :=
  if origin ≤ address ∧ (address - origin) % 4 = 0 then
    ofWord? words ((address - origin) / 4).toNat
  else none

/-- The word that holds a register. -/
def word (b : Block words) (r : Register) : Fin words :=
  ⟨b.base + r.index, Nat.lt_of_lt_of_le (Nat.add_lt_add_left r.index.isLt b.base) b.fits⟩

def read (b : Block words) (m : Memory words) (r : Register) : Word := m.load (b.word r)

def isSet (b : Block words) (m : Memory words) (r : Register) (p : Pin) : Bool :=
  (b.read m r).bit p

/-- Carry out a change. A change of the read-only register is ignored. -/
def write (b : Block words) (m : Memory words) (w : RegisterWrite) : Memory words :=
  if w.register.isWritable then
    m.store (b.word w.register) (w.result (b.read m w.register))
  else m

/-- Carry out changes one after another. -/
def writeAll (b : Block words) (m : Memory words) (ws : List RegisterWrite) : Memory words :=
  ws.foldl b.write m

theorem word_inj (b : Block words) {r s : Register} (same : b.word r = b.word s) : r = s :=
  Register.index_inj (Nat.add_left_cancel (Fin.val_eq_of_eq same))

theorem load_write (b : Block words) (m : Memory words) (w : RegisterWrite) (i : Fin words) :
    (b.write m w).load i =
      if w.register.isWritable ∧ b.word w.register = i then w.result (m.load i)
      else m.load i := by
  unfold write
  by_cases writable : w.register.isWritable
  · rw [if_pos writable, Memory.load_store]
    by_cases same : b.word w.register = i
    · rw [if_pos same, if_pos ⟨writable, same⟩, read, same]
    · rw [if_neg same, if_neg fun both => same both.2]
  · rw [if_neg writable, if_neg fun both => writable both.1]

theorem read_write (b : Block words) (m : Memory words) (w : RegisterWrite) (r : Register) :
    b.read (b.write m w) r =
      if w.register.isWritable ∧ w.register = r then w.result (b.read m r) else b.read m r := by
  rw [read, load_write]
  by_cases same : w.register = r
  · subst same
    simp only [and_true, read]
  · rw [if_neg fun both => same (b.word_inj both.2), if_neg fun both => same both.2, read]

theorem isSet_write_bit (b : Block words) (m : Memory words) (r s : Register) (p q : Pin)
    (value : Bool) :
    b.isSet (b.write m (.bit r p value)) s q =
      if r.isWritable ∧ r = s ∧ p = q then value else b.isSet m s q := by
  rw [isSet, read_write]
  by_cases changed : r.isWritable ∧ r = s
  · rw [RegisterWrite.register, if_pos changed, RegisterWrite.result, Word.bit_writeBit]
    by_cases same : p = q
    · rw [if_pos same, if_pos ⟨changed.1, changed.2, same⟩]
    · rw [if_neg same, if_neg fun all => same all.2.2, isSet]
  · rw [RegisterWrite.register, if_neg changed, if_neg fun all => changed ⟨all.1, all.2.1⟩, isSet]

end Block

end Gpio
