import Gpio.PinConfig.Basic

/-!
# Flag words

A configuration can be packed into a word. `Flag` names the fields of that word with
their places, `FlagConstant` the values that users combine, and `PinConfig.ofFlags`
reads a configuration back. Bits that belong to no field are ignored, and the fields
that describe a trigger count only when an interrupt is asked for.
-/

namespace Gpio

/-- The fields of a flag word. -/
inductive Flag where
  | direction
  | interrupt
  | activeHigh
  | edge
  | doubleEdge
  | invert
  | pull
  deriving DecidableEq

namespace Flag

/-- The lowest bit of a field. -/
def offset : Flag → Nat
  | direction => 0
  | interrupt => 1
  | activeHigh => 2
  | edge => 5
  | doubleEdge => 6
  | invert => 7
  | pull => 8

/-- The number of bits of a field. -/
def width : Flag → Nat
  | pull => 2
  | _ => 1

def all : List Flag := [direction, interrupt, activeHigh, edge, doubleEdge, invert, pull]

def name : Flag → String
  | direction => "DIR"
  | interrupt => "INT"
  | activeHigh => "INT_ACTIVE_HIGH"
  | edge => "INT_EDGE"
  | doubleEdge => "INT_DOUBLE_EDGE"
  | invert => "POL_INV"
  | pull => "PUD"

/-- The value of a field in a flag word. -/
def read (flag : Flag) (flags : Word) : BitVec flag.width :=
  flags.extractLsb' flag.offset flag.width

/-- Whether the lowest bit of a field is set, which says all about a field of one bit. -/
def isSet (flag : Flag) (flags : Word) : Bool := flags.getLsbD flag.offset

theorem getLsbD_read (flag : Flag) (flags : Word) (i : Nat) :
    (flag.read flags).getLsbD i = (decide (i < flag.width) && flags.getLsbD (flag.offset + i)) :=
  BitVec.getLsbD_extractLsb' ..

end Flag

/-- The constants from which flag words are put together: the named values of the
fields, and for every field all of its bits or none. -/
inductive FlagConstant where
  | input
  | output
  | level
  | edge
  | noPull
  | pullUp
  | pullDown
  | set (flag : Flag)
  | clear (flag : Flag)
  deriving DecidableEq

namespace FlagConstant

def flag : FlagConstant → Flag
  | input | output => .direction
  | level | edge => .edge
  | noPull | pullUp | pullDown => .pull
  | set flag => flag
  | clear flag => flag

/-- The value that a constant gives to its field. -/
def value : (constant : FlagConstant) → BitVec constant.flag.width
  | input => 0
  | output => 1
  | level => 0
  | edge => 1
  | noPull => 0
  | pullUp => 1
  | pullDown => 2
  | set flag => BitVec.allOnes flag.width
  | clear _ => 0

def name : FlagConstant → String
  | input => "In"
  | output => "Out"
  | level => "Level"
  | edge => "Edge"
  | noPull => "Normal"
  | pullUp => "PullUp"
  | pullDown => "PullDown"
  | set _ => "SET"
  | clear _ => "CLEAR"

def all : List FlagConstant :=
  [input, output, level, edge, noPull, pullUp, pullDown] ++ Flag.all.map set ++ Flag.all.map clear

/-- The constant of a field that has a given name. -/
def ofNames? (flagName constantName : String) : Option FlagConstant :=
  all.find? fun constant => constant.flag.name == flagName && constant.name == constantName

/-- A constant as a flag word. -/
def word (constant : FlagConstant) : Word :=
  constant.value.setWidth pinCount <<< constant.flag.offset

/-- The flag word of several constants, each of which adds its bits. -/
def sum (constants : List FlagConstant) : Word :=
  constants.foldl (fun flags constant => flags ||| constant.word) 0

end FlagConstant

/-- Neither both bits nor no bit of the field asks for a pull resistor. -/
def Pull.ofFlags (flags : Word) : Pull :=
  if Flag.pull.read flags = 1 then .up
  else if Flag.pull.read flags = 2 then .down
  else .none

/-- The trigger that a flag word describes. Both edges go before a single one. -/
def Trigger.ofFlags (flags : Word) : Trigger :=
  if Flag.edge.isSet flags then
    .edge <|
      if Flag.doubleEdge.isSet flags then .double
      else if Flag.activeHigh.isSet flags then .activeHigh
      else .activeLow
  else
    .level <| if Flag.activeHigh.isSet flags then .activeHigh else .activeLow

/-- The configuration that a flag word describes. -/
def PinConfig.ofFlags (flags : Word) : PinConfig where
  direction := if Flag.direction.isSet flags then .output else .input
  invert := Flag.invert.isSet flags
  pull := Pull.ofFlags flags
  interrupt := if Flag.interrupt.isSet flags then some (Trigger.ofFlags flags) else none

end Gpio
