import Gpio.Proofs.Board.Demand
import Gpio.Proofs.Board.Footprint
import Gpio.Proofs.PinConfig.Flags

/-!
# Configuring a pin by a flag word

What a flag word does to a pin is told by its bits: with which fault it is refused
(`FlagWord.refusal?`), and otherwise which bits it gives to the pin (`FlagWord.bit?`). No other
bit of memory is changed, and no other bit of the flag word matters
(`Board.configured_by_flags`).
-/

namespace Gpio

variable {L : Layout} {flags others : Word}

namespace FlagWord

/-- What is wrong with a flag word. An output has no interrupt, and an input is neither inverted
nor pulled down. -/
def fault? (flags : Word) : Option Fault :=
  if flags.getLsbD 0 then
    if flags.getLsbD 1 then some .interruptNotSupportedOnOutput else none
  else if flags.getLsbD 7 then some .unsupportedPolarityForInput
  else if flags.getLsbD 9 ∧ ¬flags.getLsbD 8 then some .unsupportedPullDown
  else none

/-- With which fault it is refused to configure a pin by a flag word. -/
def refusal? (mode : AccessMode) (pin : UInt32) (flags : Word) : Option Fault :=
  if mode = .all then some .unsupportedOperation
  else if 32 ≤ pin.toNat then some .invalidPin
  else fault? flags

/-- The bit that a flag word gives to a pin in a register, if it gives one. -/
def bit? (flags : Word) : Register → Option Bool
  | .inputEnable => some (!flags.getLsbD 0)
  | .outputEnable => some (flags.getLsbD 0)
  | .invert => if flags.getLsbD 0 then some (flags.getLsbD 7) else none
  | .pullUpEnable =>
      if flags.getLsbD 0 then none else some (flags.getLsbD 8 && !flags.getLsbD 9)
  | .riseEnable =>
      if flags.getLsbD 1 then some (flags.getLsbD 5 && (flags.getLsbD 6 || flags.getLsbD 2))
      else none
  | .fallEnable =>
      if flags.getLsbD 1 then some (flags.getLsbD 5 && (flags.getLsbD 6 || !flags.getLsbD 2))
      else none
  | .highEnable => if flags.getLsbD 1 then some (!flags.getLsbD 5 && flags.getLsbD 2) else none
  | .lowEnable => if flags.getLsbD 1 then some (!flags.getLsbD 5 && !flags.getLsbD 2) else none
  | _ => none

/-- Two flag words have the same bits in all places that belong to a field. -/
def Same (flags others : Word) : Prop :=
  ∀ i < 10, i ≠ 3 → i ≠ 4 → flags.getLsbD i = others.getLsbD i

end FlagWord

namespace PinConfig

/-- The configuration that a flag word describes, by the bits of the word. -/
theorem ofFlags_eq (flags : Word) :
    ofFlags flags =
      { direction := if flags.getLsbD 0 then .output else .input
        invert := flags.getLsbD 7
        pull :=
          if flags.getLsbD 8 = flags.getLsbD 9 then .none
          else if flags.getLsbD 8 then .up else .down
        interrupt :=
          if flags.getLsbD 1 then
            some <|
              if flags.getLsbD 5 then
                .edge <|
                  if flags.getLsbD 6 then .double
                  else if flags.getLsbD 2 then .activeHigh else .activeLow
              else .level <| if flags.getLsbD 2 then .activeHigh else .activeLow
          else none } := by
  rw [ofFlags, Pull.ofFlags_eq]
  rfl

theorem fault?_ofFlags (flags : Word) : (ofFlags flags).fault? = FlagWord.fault? flags := by
  rw [ofFlags_eq, FlagWord.fault?]
  generalize flags.getLsbD = bit
  cases bit 0 <;> cases bit 1 <;> cases bit 7 <;> cases bit 8 <;> cases bit 9 <;> rfl

theorem lookup_directionSettings (flags : Word) (r : Register) :
    (ofFlags flags).directionSettings.lookup r =
      match r with
      | .inputEnable | .outputEnable | .invert | .pullUpEnable => FlagWord.bit? flags r
      | _ => none := by
  rw [ofFlags_eq]
  unfold FlagWord.bit?
  generalize flags.getLsbD = bit
  cases bit 0 <;> cases bit 8 <;> cases bit 9 <;> cases r <;> rfl

theorem lookup_triggerSettings (flags : Word) (r : Register) :
    ((ofFlags flags).interrupt.elim [] Trigger.settings).lookup r =
      match r with
      | .riseEnable | .fallEnable | .highEnable | .lowEnable => FlagWord.bit? flags r
      | _ => none := by
  rw [ofFlags_eq]
  unfold FlagWord.bit?
  generalize flags.getLsbD = bit
  cases bit 1
  · cases r <;> rfl
  · cases bit 2 <;> cases bit 5 <;> cases bit 6 <;> cases r <;> rfl

theorem settings_eq (config : PinConfig) :
    config.settings = config.directionSettings ++ config.interrupt.elim [] Trigger.settings := by
  rw [settings]
  cases config.interrupt <;> rfl

/-- The bits that a flag word gives are those of the configuration. -/
theorem lookup_settings (flags : Word) (r : Register) :
    (ofFlags flags).settings.lookup r = FlagWord.bit? flags r := by
  rw [settings_eq, List.lookup_append, lookup_directionSettings, lookup_triggerSettings]
  cases r <;> simp [FlagWord.bit?]

/-- Bits that belong to no field do not matter. -/
theorem ofFlags_eq_of_same (same : FlagWord.Same flags others) :
    ofFlags flags = ofFlags others := by
  have places : ∀ flag ∈ Flag.all, ∀ i < flag.width,
      flag.offset + i < 10 ∧ flag.offset + i ≠ 3 ∧ flag.offset + i ≠ 4 := by decide
  refine ofFlags_congr fun flag => Flag.read_congr fun i inside => ?_
  obtain ⟨small, third, fourth⟩ := places flag (by cases flag <;> decide) i inside
  exact same _ small third fourth

end PinConfig

namespace Block

variable {words : Nat} (b : Block words) (m : Memory words)

/-- A configuration of a pin changes no bit but those that it gives to the pin. -/
theorem bit_load_writeAll_writes (config : PinConfig) (p q : Pin) {word : Fin words}
    (away : ¬(q = p ∧ ∃ r, b.word r = word ∧ config.settings.lookup r ≠ none)) :
    ((b.writeAll m (config.writes p)).load word).bit q = (m.load word).bit q := by
  by_cases own : ∃ r, b.word r = word
  · obtain ⟨r, rfl⟩ := own
    refine (config.isSet_writeAll_writes b m p q r).trans ?_
    by_cases pin : p = q
    · have unset : config.settings.lookup r = none :=
        Decidable.byContradiction fun given => away ⟨pin.symm, r, rfl, given⟩
      rw [if_pos pin, unset]
      rfl
    · exact if_neg pin
  · rw [b.load_writeAll m fun w _ same => own ⟨w.register, same⟩]

end Block

namespace Controller

variable {words : Nat} (c : Controller words) (m : Memory words)

theorem respondAccess_config_eq_error_iff {mode : AccessMode} {pin : UInt32} {fault : Fault} :
    c.respondAccess m (.config mode pin flags) = .error fault ↔
      FlagWord.refusal? mode pin flags = some fault := by
  rw [respondAccess_eq_error_iff, AccessRequest.toRequest, respond_configure_eq_error_iff,
    PinConfig.fault?_ofFlags, FlagWord.refusal?]
  cases mode with
  | all => simp [AccessRequest.mode, eq_comm]
  | single =>
      by_cases outside : 32 ≤ pin.toNat
      · simp [AccessRequest.mode, outside, Nat.not_lt.mpr outside, eq_comm]
      · simp [AccessRequest.mode, outside, Nat.not_le.mp outside]

theorem exists_respondAccess_config {mode : AccessMode} {pin : UInt32}
    (accepted : FlagWord.refusal? mode pin flags = none) :
    ∃ p : Pin, pin.toNat = p.val ∧ c.respondAccess m (.config mode pin flags) =
      .ok { actions := configuration p (PinConfig.ofFlags flags) } := by
  cases responded : c.respondAccess m (.config mode pin flags) with
  | error fault =>
      rw [respondAccess_config_eq_error_iff, accepted] at responded
      exact nomatch responded
  | ok response =>
      obtain ⟨_, plain, granted, rfl⟩ := respondAccess_eq_ok_iff.mp responded
      cases grants_of_respond granted with
      | configure number acceptable => exact ⟨_, number, rfl⟩

end Controller

/-- An effect that gives a pin of a block bits in some registers, and changes no other bit of
memory and nothing else. -/
structure Effect.GivesBits (effect : Effect L) (b : Block L.words) (p : Pin)
    (bit? : Register → Option Bool) (s : State L) : Prop where
  reply : effect.reply = .answer .done
  state : effect.state = { s with memory := effect.state.memory }
  bits : ∀ r, b.isSet effect.state.memory r p = (bit? r).getD (b.isSet s.memory r p)
  others : ∀ word q, ¬(q = p ∧ ∃ r, b.word r = word ∧ bit? r ≠ none) →
    (effect.state.memory.load word).bit q = (s.memory.load word).bit q

namespace Board

variable (B : Board L) (c : Fin L.controllers) (s : State L)

theorem givesBits_of_granted {request : AccessRequest} {p : Pin}
    (granted : (B.controllers c).respondAccess s.memory request =
      .ok { actions := Controller.configuration p (PinConfig.ofFlags flags) }) :
    (B.operate s (.access c request)).GivesBits (B.controllers c).block p
      (FlagWord.bit? flags) s := by
  have effect : B.operate s (.access c request) =
      { state := B.actAll c s (Controller.configuration p (PinConfig.ofFlags flags))
        events := (Controller.configuration p (PinConfig.ofFlags flags)).map (.acted c) } := by
    rw [operate, granted]
    rfl
  rw [effect, actAll_configuration]
  refine ⟨rfl, rfl, fun r => ?_, fun word q away => ?_⟩
  · refine (PinConfig.isSet_writeAll_writes _ _ _ p p r).trans ?_
    rw [if_pos rfl, PinConfig.lookup_settings]
  · apply Block.bit_load_writeAll_writes
    simpa only [PinConfig.lookup_settings] using away

/-- A pin is configured by a flag word as its bits say, or the flag word is refused for the first
thing that is wrong with it and nothing is changed. The bits that belong to no field never
matter. -/
theorem configured_by_flags (mode : AccessMode) (pin : UInt32) (flags : Word) :
    (match FlagWord.refusal? mode pin flags with
      | some fault =>
          B.operate s (.access c (.config mode pin flags)) =
            { state := s, events := [], reply := .refusal fault }
      | none =>
          ∃ p : Pin, pin.toNat = p.val ∧
            (B.operate s (.access c (.config mode pin flags))).GivesBits (B.controllers c).block p
              (FlagWord.bit? flags) s) ∧
    ∀ others, FlagWord.Same flags others →
      B.operate s (.access c (.config mode pin others)) =
        B.operate s (.access c (.config mode pin flags)) := by
  constructor
  · split
    · rename_i fault wrong
      have refused :=
        ((B.controllers c).respondAccess_config_eq_error_iff s.memory).mpr wrong
      rw [operate, refused]
      rfl
    · rename_i accepted
      obtain ⟨p, number, granted⟩ :=
        (B.controllers c).exists_respondAccess_config s.memory accepted
      exact ⟨p, number, B.givesBits_of_granted c s granted⟩
  · intro others same
    rw [operate, operate, Controller.respondAccess, Controller.respondAccess]
    rw [AccessRequest.toRequest, AccessRequest.toRequest, PinConfig.ofFlags_eq_of_same same]
    rfl

end Board

end Gpio
