import Gpio.Block.Basic

/-!
# Pin configurations

A configuration chooses a pin's direction, polarity, pull resistor and interrupt
trigger. It can express more than a block can do: only outputs are inverted, only
inputs are pulled, and only up, and only inputs raise interrupts.
`PinConfig.fault?` finds what is wrong with a configuration, and `PinConfig.writes`
lists the register writes that give a pin an acceptable one.
-/

namespace Gpio

inductive Direction where
  | input
  | output
  deriving DecidableEq

def Direction.name : Direction → String
  | .input => "Input"
  | .output => "Output"

/-- The pull resistor of an input. A block has no pull-down. -/
inductive Pull where
  | none
  | up
  | down
  deriving DecidableEq

namespace Pull

instance : Inhabited Pull := ⟨none⟩

def name : Pull → String
  | none => "None"
  | up => "Up"
  | down => "Down"

def ofName? (text : String) : Option Pull :=
  [none, up, down].find? fun pull => pull.name == text

end Pull

/-- Which change of a pin's level triggers an interrupt. -/
inductive EdgeMode where
  | double
  | activeHigh
  | activeLow
  deriving DecidableEq

namespace EdgeMode

instance : Inhabited EdgeMode := ⟨activeLow⟩

def name : EdgeMode → String
  | double => "Double"
  | activeHigh => "ActiveHigh"
  | activeLow => "ActiveLow"

/-- Whether a rising edge triggers. -/
def onRise : EdgeMode → Bool
  | double => true
  | activeHigh => true
  | activeLow => false

/-- Whether a falling edge triggers. -/
def onFall : EdgeMode → Bool
  | double => true
  | activeHigh => false
  | activeLow => true

end EdgeMode

/-- Which level of a pin triggers an interrupt. -/
inductive LevelMode where
  | activeHigh
  | activeLow
  deriving DecidableEq

namespace LevelMode

instance : Inhabited LevelMode := ⟨activeLow⟩

def name : LevelMode → String
  | activeHigh => "ActiveHigh"
  | activeLow => "ActiveLow"

/-- Whether the high level triggers. The low level triggers if it does not. -/
def onHigh : LevelMode → Bool
  | activeHigh => true
  | activeLow => false

end LevelMode

/-- The condition that latches a pin's interrupt. -/
inductive Trigger where
  | edge (mode : EdgeMode)
  | level (mode : LevelMode)
  deriving DecidableEq

namespace Trigger

instance : Inhabited Trigger := ⟨edge default⟩

def all : List Trigger :=
  [edge .double, edge .activeHigh, edge .activeLow, level .activeHigh, level .activeLow]

def name : Trigger → String
  | edge mode => "Edge(" ++ mode.name ++ ")"
  | level mode => "Level(" ++ mode.name ++ ")"

def ofName? (text : String) : Option Trigger :=
  all.find? fun trigger => trigger.name == text

theorem mem_all (trigger : Trigger) : trigger ∈ all := by
  rcases trigger with mode | mode <;> cases mode <;> decide

/-- The bits that select a trigger: no condition of the other kind, and of its own kind
the conditions of its mode. -/
def settings : Trigger → List (Register × Bool)
  | edge mode =>
      [(.highEnable, false), (.lowEnable, false),
        (.riseEnable, mode.onRise), (.fallEnable, mode.onFall)]
  | level mode =>
      [(.riseEnable, false), (.fallEnable, false),
        (.highEnable, mode.onHigh), (.lowEnable, !mode.onHigh)]

end Trigger

structure PinConfig where
  direction : Direction := .input
  /-- Invert the driven value. -/
  invert : Bool := false
  pull : Pull := .none
  /-- Without a trigger the pin keeps the one it has. -/
  interrupt : Option Trigger := none
  deriving DecidableEq

namespace PinConfig

/-- A plain input. -/
def input : PinConfig := { direction := .input }

/-- A plain output. -/
def output : PinConfig := { direction := .output }

def inverted (config : PinConfig) : PinConfig := { config with invert := true }

def withPull (config : PinConfig) (pull : Pull) : PinConfig := { config with pull := pull }

def withInterrupt (config : PinConfig) (trigger : Trigger) : PinConfig :=
  { config with interrupt := some trigger }

/-- What a block cannot do about a configuration. For an input, the polarity is looked
at before the pull resistor; the pull resistor of an output does not matter. -/
def fault? (config : PinConfig) : Option Fault :=
  match config.direction with
  | .output => if config.interrupt.isSome then some .interruptNotSupportedOnOutput else none
  | .input =>
      if config.invert then some .unsupportedPolarityForInput
      else if config.pull = .down then some .unsupportedPullDown
      else none

/-- The bits that select the direction, and the polarity of an output or the pull-up of
an input. -/
def directionSettings (config : PinConfig) : List (Register × Bool) :=
  match config.direction with
  | .output =>
      [(.inputEnable, false), (.outputEnable, true), (.invert, config.invert)]
  | .input =>
      [(.outputEnable, false), (.inputEnable, true), (.pullUpEnable, config.pull = .up)]

/-- The bits that a configuration gives to a pin, in the order in which they are written:
the direction goes before the trigger. -/
def settings (config : PinConfig) : List (Register × Bool) :=
  config.directionSettings ++
    match config.interrupt with
    | none => []
    | some trigger => trigger.settings

/-- The register writes that configure a pin. -/
def writes (config : PinConfig) (p : Pin) : List RegisterWrite :=
  config.settings.map fun setting => .bit setting.1 p setting.2

theorem fault?_output {config : PinConfig} (direction : config.direction = .output) :
    config.fault? = none ↔ config.interrupt = none := by
  cases chosen : config.interrupt <;> simp [fault?, direction, chosen]

end PinConfig

end Gpio
