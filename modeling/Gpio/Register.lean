import Gpio.Pin

/-!
# Registers

A block is seventeen consecutive words, one for each register. Four of them latch
interrupts (`Register.pending`), and eight of them are cleared when a controller is
initialized (`Register.cleared`).
-/

namespace Gpio

/-- The number of registers of a block. -/
abbrev registerCount : Nat := 17

inductive Register where
  | inputValue
  | inputEnable
  | outputEnable
  | outputValue
  | pullUpEnable
  | driveStrength
  | riseEnable
  | risePending
  | fallEnable
  | fallPending
  | highEnable
  | highPending
  | lowEnable
  | lowPending
  | iofEnable
  | iofSelect
  | invert
  deriving DecidableEq

namespace Register

/-- The place of a register in its block, in words. -/
def index : Register → Fin registerCount
  | inputValue => 0
  | inputEnable => 1
  | outputEnable => 2
  | outputValue => 3
  | pullUpEnable => 4
  | driveStrength => 5
  | riseEnable => 6
  | risePending => 7
  | fallEnable => 8
  | fallPending => 9
  | highEnable => 10
  | highPending => 11
  | lowEnable => 12
  | lowPending => 13
  | iofEnable => 14
  | iofSelect => 15
  | invert => 16

/-- Every register, in the order of the block. -/
def all : List Register :=
  [inputValue, inputEnable, outputEnable, outputValue, pullUpEnable, driveStrength,
    riseEnable, risePending, fallEnable, fallPending, highEnable, highPending,
    lowEnable, lowPending, iofEnable, iofSelect, invert]

/-- The registers that latch an interrupt, in the order in which they are acknowledged. -/
def pending : List Register :=
  [risePending, fallPending, highPending, lowPending]

/-- The registers that an initialization clears. -/
def cleared : List Register :=
  [inputEnable, outputEnable, pullUpEnable, riseEnable, fallEnable, highEnable, lowEnable, invert]

/-- The sampled input is read-only. Every other register can be written. -/
def isWritable (r : Register) : Bool := r != inputValue

def name : Register → String
  | inputValue => "InputValue"
  | inputEnable => "InputEnable"
  | outputEnable => "OutputEnable"
  | outputValue => "OutputValue"
  | pullUpEnable => "PullUpEnable"
  | driveStrength => "DriveStrength"
  | riseEnable => "RiseEnable"
  | risePending => "RisePending"
  | fallEnable => "FallEnable"
  | fallPending => "FallPending"
  | highEnable => "HighEnable"
  | highPending => "HighPending"
  | lowEnable => "LowEnable"
  | lowPending => "LowPending"
  | iofEnable => "IofEnable"
  | iofSelect => "IofSelect"
  | invert => "Invert"

def ofName? (name : String) : Option Register :=
  all.find? fun r => r.name == name

theorem all_getElem?_index (r : Register) : all[r.index.val]? = some r := by
  cases r <;> rfl

theorem index_inj {r s : Register} (same : r.index.val = s.index.val) : r = s := by
  have found := all_getElem?_index r
  rw [same, all_getElem?_index] at found
  exact (Option.some.inj found).symm

theorem mem_all (r : Register) : r ∈ all :=
  List.mem_of_getElem? (all_getElem?_index r)

theorem isWritable_of_mem_pending {r : Register} (latches : r ∈ pending) : r.isWritable := by
  revert r
  decide

end Register

end Gpio
