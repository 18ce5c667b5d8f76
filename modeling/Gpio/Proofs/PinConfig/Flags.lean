import Gpio.PinConfig.Flags

/-!
# Flag words that are put together

A constant adds to a flag word the bits that it has in its field, and so a bit of the word is
set if a constant with this bit occurs, however often and wherever it does
(`FlagConstant.getLsbD_sum_iff`). No bit belongs to two fields
(`FlagConstant.flag_of_mem_withBit`), so that the fields of the word are put together each on its
own, and what is read back is told by the constants that occur (`FlagConstant.decoded_by_field`).
-/

namespace Gpio

variable {flags others : Word}

/-! ## Reading a flag word by its bits -/

namespace Flag

theorem isSet_eq_read (flag : Flag) (flags : Word) :
    flag.isSet flags = (flag.read flags).getLsbD 0 := by
  have nonempty : 0 < flag.width := by cases flag <;> decide
  rw [getLsbD_read, decide_eq_true nonempty, Bool.true_and]
  rfl

/-- Words that agree on the bits of a field agree on the field. -/
theorem read_congr {flag : Flag}
    (same : ∀ i < flag.width, flags.getLsbD (flag.offset + i) = others.getLsbD (flag.offset + i)) :
    flag.read flags = flag.read others := by
  apply BitVec.eq_of_getLsbD_eq
  intro i inside
  rw [getLsbD_read, getLsbD_read, same i inside]

end Flag

namespace Pull

/-- A single bit of the field asks for a pull resistor, the lower one for a pull-up. -/
theorem ofFlags_eq (flags : Word) :
    ofFlags flags =
      if flags.getLsbD 8 = flags.getLsbD 9 then none else if flags.getLsbD 8 then up else down := by
  have fields : ∀ field : BitVec 2,
      (if field = 1 then up else if field = 2 then down else none) =
        if field.getLsbD 0 = field.getLsbD 1 then none
        else if field.getLsbD 0 then up else down := by
    decide
  have low : (Flag.pull.read flags).getLsbD 0 = flags.getLsbD 8 := Flag.pull.getLsbD_read flags 0
  have high : (Flag.pull.read flags).getLsbD 1 = flags.getLsbD 9 := Flag.pull.getLsbD_read flags 1
  rw [← low, ← high]
  exact fields (Flag.pull.read flags)

theorem ofFlags_eq_up_iff : ofFlags flags = .up ↔ flags.getLsbD 8 ∧ ¬flags.getLsbD 9 := by
  rw [ofFlags_eq]
  cases flags.getLsbD 8 <;> cases flags.getLsbD 9 <;> decide

theorem ofFlags_eq_down_iff : ofFlags flags = .down ↔ flags.getLsbD 9 ∧ ¬flags.getLsbD 8 := by
  rw [ofFlags_eq]
  cases flags.getLsbD 8 <;> cases flags.getLsbD 9 <;> decide

end Pull

/-- What a field of one bit decides about a trigger, if anything: whether it is on edges, whether
an edge trigger is on both of them, and whether any other trigger is on the rising edge or on the
high level. -/
def Trigger.decided? : Flag → Trigger → Option Bool
  | .edge, .edge _ => some true
  | .edge, .level _ => some false
  | .doubleEdge, .edge mode => some (mode = .double)
  | .activeHigh, .edge .activeHigh => some true
  | .activeHigh, .edge .activeLow => some false
  | .activeHigh, .level mode => some mode.onHigh
  | _, _ => none

theorem Trigger.decided?_ofFlags {flag : Flag} {value : Bool}
    (decided : value ∈ decided? flag (ofFlags flags)) : value = flag.isSet flags := by
  rw [ofFlags] at decided
  cases flag <;>
    cases edge : Flag.edge.isSet flags <;>
      cases double : Flag.doubleEdge.isSet flags <;>
        cases high : Flag.activeHigh.isSet flags <;>
          simp_all [decided?, LevelMode.onHigh]

namespace PinConfig

/-- What a field of one bit decides about a configuration, if anything. The fields that describe
a trigger decide nothing if there is no interrupt. -/
def decided? (config : PinConfig) : Flag → Option Bool
  | .direction => some (config.direction = .output)
  | .interrupt => some config.interrupt.isSome
  | .invert => some config.invert
  | .pull => none
  | flag => config.interrupt.bind (Trigger.decided? flag)

/-- A field decides what its bit says, whatever the other fields say. -/
theorem decided?_ofFlags {flag : Flag} {value : Bool}
    (decided : value ∈ (ofFlags flags).decided? flag) : value = flag.isSet flags := by
  cases flag with
  | direction =>
      obtain rfl := Option.some.inj decided
      cases set : Flag.direction.isSet flags <;> simp [ofFlags, set]
  | interrupt =>
      obtain rfl := Option.some.inj decided
      cases set : Flag.interrupt.isSet flags <;> simp [ofFlags, set]
  | invert => exact (Option.some.inj decided).symm
  | pull => exact nomatch decided
  | _ =>
      obtain ⟨trigger, chosen, decides⟩ := Option.bind_eq_some_iff.mp decided
      obtain ⟨_, same⟩ := Option.ite_none_right_eq_some.mp chosen
      obtain rfl := Option.some.inj same
      exact Trigger.decided?_ofFlags decides

theorem direction_ofFlags_eq_iff : (ofFlags flags).direction = .output ↔ flags.getLsbD 0 := by
  simp [ofFlags, Flag.isSet, Flag.offset]

theorem interrupt_ofFlags_eq_some_iff {trigger : Trigger} :
    (ofFlags flags).interrupt = some trigger ↔
      flags.getLsbD 1 ∧ Trigger.ofFlags flags = trigger := by
  simp only [ofFlags, Option.ite_none_right_eq_some, Option.some.injEq]
  rfl

/-- Bits that belong to no field do not matter. -/
theorem ofFlags_congr (same : ∀ flag : Flag, flag.read flags = flag.read others) :
    ofFlags flags = ofFlags others := by
  have set (flag : Flag) : flag.isSet flags = flag.isSet others := by
    rw [flag.isSet_eq_read, flag.isSet_eq_read, same]
  simp only [ofFlags, Pull.ofFlags, Trigger.ofFlags, same, set]

/-- Two configurations agree on what a field decides in both. -/
def AgreeOn (flag : Flag) (first second : PinConfig) : Prop :=
  (flag = .pull → first.pull = second.pull) ∧
    ∀ one ∈ first.decided? flag, ∀ two ∈ second.decided? flag, one = two

theorem agreeOn_ofFlags {flag : Flag} (same : flag.read flags = flag.read others) :
    AgreeOn flag (ofFlags flags) (ofFlags others) := by
  constructor
  · rintro rfl
    simp only [ofFlags, Pull.ofFlags, same]
  · intro one first two second
    rw [decided?_ofFlags first, decided?_ofFlags second, flag.isSet_eq_read, flag.isSet_eq_read,
      same]

end PinConfig

/-! ## Putting a flag word together -/

namespace FlagConstant

variable {constants rest : List FlagConstant}

theorem mem_all (constant : FlagConstant) : constant ∈ all := by
  cases constant with
  | set flag => cases flag <;> decide
  | clear flag => cases flag <;> decide
  | _ => decide

/-- The constants that have a bit. All bits of a flag word that belong to a field are named. -/
def withBit : Nat → List FlagConstant
  | 0 => [output, set .direction]
  | 1 => [set .interrupt]
  | 2 => [set .activeHigh]
  | 5 => [edge, set .edge]
  | 6 => [set .doubleEdge]
  | 7 => [set .invert]
  | 8 => [pullUp, set .pull]
  | 9 => [pullDown, set .pull]
  | _ => []

theorem getLsbD_word_iff {constant : FlagConstant} {i : Nat} (inside : i < 10) :
    constant.word.getLsbD i ↔ constant ∈ withBit i := by
  have table : ∀ constant ∈ all, ∀ i < 10,
      (constant.word.getLsbD i ↔ constant ∈ withBit i) := by decide +kernel
  exact table constant constant.mem_all i inside

/-- No bit belongs to two fields. -/
theorem flag_of_mem_withBit {constant : FlagConstant} {flag : Flag} {i : Nat}
    (inside : i < flag.width) (mem : constant ∈ withBit (flag.offset + i)) :
    constant.flag = flag := by
  have table : ∀ flag ∈ Flag.all, ∀ i < flag.width, ∀ constant ∈ withBit (flag.offset + i),
      constant.flag = flag := by decide
  exact table flag (by cases flag <;> decide) i inside constant mem

/-- A bit is set if a constant that has it occurs. -/
theorem getLsbD_sum_iff {i : Nat} :
    (sum constants).getLsbD i ↔ ∃ constant ∈ constants, constant.word.getLsbD i := by
  have added (flags : Word) :
      (constants.foldl (fun flags constant => flags ||| constant.word) flags).getLsbD i ↔
        flags.getLsbD i ∨ ∃ constant ∈ constants, constant.word.getLsbD i := by
    induction constants generalizing flags with
    | nil => simp
    | cons constant rest ih =>
        rw [List.foldl_cons, ih, BitVec.getLsbD_or, Bool.or_eq_true, or_assoc]
        simp only [List.mem_cons, exists_eq_or_imp]
  have start : ¬(0 : Word).getLsbD i := by simp
  rw [sum, added, or_iff_right start]

/-- Order and repetition do not matter. -/
theorem sum_congr (same : ∀ constant, constant ∈ constants ↔ constant ∈ rest) :
    sum constants = sum rest := by
  apply BitVec.eq_of_getLsbD_eq
  intro i _
  rw [Bool.eq_iff_iff, getLsbD_sum_iff, getLsbD_sum_iff]
  simp only [same]

theorem getLsbD_sum_iff_withBit (constants : List FlagConstant) {i : Nat} (inside : i < 10) :
    (sum constants).getLsbD i ↔ ∃ constant ∈ withBit i, constant ∈ constants := by
  rw [getLsbD_sum_iff]
  simp only [getLsbD_word_iff inside, and_comm]

end FlagConstant

/-- The same constants of a field occur in two lists. -/
def Flag.SameIn (flag : Flag) (constants others : List FlagConstant) : Prop :=
  ∀ constant : FlagConstant, constant.flag = flag → (constant ∈ constants ↔ constant ∈ others)

/-- A field is put together from its own constants. -/
theorem Flag.SameIn.read_sum {flag : Flag} {constants others : List FlagConstant}
    (same : flag.SameIn constants others) :
    flag.read (FlagConstant.sum constants) = flag.read (FlagConstant.sum others) := by
  apply read_congr
  intro i inside
  have small : flag.offset + i < 10 := by
    have ends : flag.offset + flag.width ≤ 10 := by cases flag <;> decide
    omega
  rw [Bool.eq_iff_iff, FlagConstant.getLsbD_sum_iff_withBit _ small,
    FlagConstant.getLsbD_sum_iff_withBit _ small]
  refine exists_congr fun constant => and_congr_right fun mem => ?_
  exact same constant (FlagConstant.flag_of_mem_withBit inside mem)

namespace FlagConstant

variable {constants : List FlagConstant} {config : PinConfig}

/-- The constants ask for a trigger on edges. -/
def OnEdges (constants : List FlagConstant) : Prop := .edge ∈ constants ∨ .set .edge ∈ constants

/-- What constants have to say for a trigger to be chosen. -/
def Choose (constants : List FlagConstant) : Trigger → Prop
  | .edge .double => OnEdges constants ∧ .set .doubleEdge ∈ constants
  | .edge .activeHigh =>
      OnEdges constants ∧ .set .doubleEdge ∉ constants ∧ .set .activeHigh ∈ constants
  | .edge .activeLow =>
      OnEdges constants ∧ .set .doubleEdge ∉ constants ∧ .set .activeHigh ∉ constants
  | .level .activeHigh => ¬OnEdges constants ∧ .set .activeHigh ∈ constants
  | .level .activeLow => ¬OnEdges constants ∧ .set .activeHigh ∉ constants

/-- The configuration that constants describe, told by those that occur. -/
structure Describe (constants : List FlagConstant) (config : PinConfig) : Prop where
  direction : config.direction = .output ↔ .output ∈ constants ∨ .set .direction ∈ constants
  invert : config.invert ↔ .set .invert ∈ constants
  up : config.pull = .up ↔ .pullUp ∈ constants ∧ .pullDown ∉ constants ∧ .set .pull ∉ constants
  down : config.pull = .down ↔ .pullDown ∈ constants ∧ .pullUp ∉ constants ∧ .set .pull ∉ constants
  interrupt : config.interrupt ≠ none ↔ .set .interrupt ∈ constants
  trigger : ∀ trigger ∈ config.interrupt, Choose constants trigger

/-- Constants choose a single trigger. -/
theorem Choose.eq {first second : Trigger} (one : Choose constants first)
    (two : Choose constants second) : first = second := by
  rcases first with (_ | _ | _) | (_ | _) <;> rcases second with (_ | _ | _) | (_ | _) <;>
    first | rfl | simp_all [Choose]

/-- Constants describe a single configuration. -/
theorem Describe.eq {other : PinConfig} (one : Describe constants config)
    (two : Describe constants other) : config = other := by
  obtain ⟨direction, invert, pull, interrupt⟩ := config
  obtain ⟨direction', invert', pull', interrupt'⟩ := other
  have directions : direction = .output ↔ direction' = .output :=
    one.direction.trans two.direction.symm
  have inverts : invert ↔ invert' := one.invert.trans two.invert.symm
  have ups : pull = .up ↔ pull' = .up := one.up.trans two.up.symm
  have downs : pull = .down ↔ pull' = .down := one.down.trans two.down.symm
  have raised : interrupt ≠ none ↔ interrupt' ≠ none := one.interrupt.trans two.interrupt.symm
  obtain rfl : direction = direction' := by
    cases direction <;> cases direction' <;> simp at directions ⊢
  obtain rfl : invert = invert' := Bool.eq_iff_iff.mpr inverts
  obtain rfl : pull = pull' := by
    cases pull <;> cases pull' <;> simp at ups downs ⊢
  obtain rfl : interrupt = interrupt' := by
    rcases interrupt with _ | first <;> rcases interrupt' with _ | second
    · rfl
    · simp at raised
    · simp at raised
    · rw [(one.trigger first rfl).eq (two.trigger second rfl)]
  rfl

theorem choose_ofFlags (constants : List FlagConstant) :
    Choose constants (Trigger.ofFlags (sum constants)) := by
  have edge : Flag.edge.isSet (sum constants) ↔ OnEdges constants :=
    (getLsbD_sum_iff_withBit constants (show 5 < 10 by decide)).trans (by simp [withBit, OnEdges])
  have double : Flag.doubleEdge.isSet (sum constants) ↔ .set .doubleEdge ∈ constants :=
    (getLsbD_sum_iff_withBit constants (show 6 < 10 by decide)).trans (by simp [withBit])
  have high : Flag.activeHigh.isSet (sum constants) ↔ .set .activeHigh ∈ constants :=
    (getLsbD_sum_iff_withBit constants (show 2 < 10 by decide)).trans (by simp [withBit])
  rw [Trigger.ofFlags]
  cases onEdges : Flag.edge.isSet (sum constants) <;>
    cases onBoth : Flag.doubleEdge.isSet (sum constants) <;>
      cases onHigh : Flag.activeHigh.isSet (sum constants) <;>
        simp_all [Choose]

theorem describe_ofFlags (constants : List FlagConstant) :
    Describe constants (PinConfig.ofFlags (sum constants)) := by
  have direction := getLsbD_sum_iff_withBit constants (show 0 < 10 by decide)
  have interrupt := getLsbD_sum_iff_withBit constants (show 1 < 10 by decide)
  have invert := getLsbD_sum_iff_withBit constants (show 7 < 10 by decide)
  have up := getLsbD_sum_iff_withBit constants (show 8 < 10 by decide)
  have down := getLsbD_sum_iff_withBit constants (show 9 < 10 by decide)
  simp only [withBit, List.mem_cons, exists_eq_or_imp, List.not_mem_nil, or_false,
    exists_eq_left] at direction interrupt invert up down
  constructor
  · rw [← direction, PinConfig.direction_ofFlags_eq_iff]
  · exact invert
  · refine Pull.ofFlags_eq_up_iff.trans ?_
    rw [up, down]
    grind
  · refine Pull.ofFlags_eq_down_iff.trans ?_
    rw [up, down]
    grind
  · rw [← interrupt, Option.ne_none_iff_exists']
    simp only [PinConfig.interrupt_ofFlags_eq_some_iff, exists_and_left, exists_eq', and_true]
  · intro trigger chosen
    obtain ⟨_, rfl⟩ := PinConfig.interrupt_ofFlags_eq_some_iff.mp chosen
    exact choose_ofFlags constants

/-- A flag word depends on the constants that occur and not on their order or repetition, and it
stands for the one configuration that they describe. Constants of other fields change neither a
field nor what it decides. -/
theorem decoded_by_field (constants : List FlagConstant) :
    (∀ config, config = PinConfig.ofFlags (sum constants) ↔ Describe constants config) ∧
    ∀ others,
      ((∀ constant, constant ∈ constants ↔ constant ∈ others) → sum constants = sum others) ∧
      ∀ flag : Flag, flag.SameIn constants others →
        flag.read (sum constants) = flag.read (sum others) ∧
        PinConfig.AgreeOn flag (PinConfig.ofFlags (sum constants))
          (PinConfig.ofFlags (sum others)) := by
  refine ⟨fun config => ⟨?_, fun described => described.eq (describe_ofFlags constants)⟩, ?_⟩
  · rintro rfl
    exact describe_ofFlags constants
  · intro others
    refine ⟨sum_congr, fun flag same => ⟨same.read_sum, ?_⟩⟩
    exact PinConfig.agreeOn_ofFlags same.read_sum

/-- Two pull resistors are none, and a falling edge is meant if nothing else is said. -/
example :
    PinConfig.ofFlags (sum [.pullUp, .edge, .set .interrupt, .pullDown]) =
      { interrupt := some (.edge .activeLow) } := by decide

end FlagConstant

end Gpio
