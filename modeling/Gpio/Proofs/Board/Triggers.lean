import Gpio.Proofs.Board.Records

/-!
# Triggers of outputs

No configuration that is accepted makes a pin an output and gives it a trigger. An output can
have a trigger all the same: a configuration without one leaves the registers of the trigger as
they are, so the pin keeps what it was given as an input. `Board.Runs.triggers_of_outputs` says
that this is the only way. What a pin is given is found by going back to the last configuration
that makes a choice (`Board.choice_foldl_eq_some_iff`).
-/

namespace Gpio

variable {L : Layout} {α : Type}

/-- A pin that is given a trigger is made an input. -/
theorem PinConfig.direction_of_interrupt {config : PinConfig} {trigger : Trigger}
    (acceptable : config.fault? = none) (chosen : config.interrupt = some trigger) :
    config.direction = .input := by
  cases direction : config.direction with
  | input => rfl
  | output =>
      have none := (fault?_output direction).mp acceptable
      exact nomatch chosen.symm.trans none

/-! ## Choices -/

/-- A field of records that configurations choose, if they do, and that nothing else but an
initialization changes. -/
structure PinRecord.Keeps (field : PinRecord → Option α) (choice : PinConfig → Option α) :
    Prop where
  configured : ∀ record config,
    field (record.configure config) = (choice config).or (field record)
  initialized : ∀ output, field { output := output } = none
  driven : ∀ record output, field { record with output := output } = field record

theorem PinRecord.keeps_direction :
    PinRecord.Keeps PinRecord.direction fun config => some config.direction :=
  ⟨fun _ _ => rfl, fun _ => rfl, fun _ _ => rfl⟩

theorem PinRecord.keeps_trigger : PinRecord.Keeps PinRecord.trigger PinConfig.interrupt :=
  ⟨fun _ _ => rfl, fun _ => rfl, fun _ _ => rfl⟩

/-- The bits of a record that select its trigger. -/
theorem PinRecord.bit_enable {record : PinRecord} {r : Register}
    (enables : r ∈ [.riseEnable, .fallEnable, .highEnable, .lowEnable]) :
    record.bit r ↔ ∃ trigger, record.trigger = some trigger ∧ (r, true) ∈ trigger.settings := by
  simp only [List.mem_cons, List.not_mem_nil, or_false] at enables
  rcases record with ⟨_, _, _, _ | (_ | _ | _) | _ | _, _⟩ <;>
    rcases enables with rfl | rfl | rfl | rfl <;>
    simp [bit, Trigger.settings, EdgeMode.onRise, EdgeMode.onFall, LevelMode.onHigh]

namespace Deed

variable {c : Fin L.controllers} {p : Pin} {deed : Deed L} {choice : PinConfig → Option α}

/-- The request that a deed makes of a controller, as it is or by flag words and numbers. -/
def request? (c : Fin L.controllers) : Deed L → Option Request
  | .operation (.request d request) => if d = c then some request else none
  | .operation (.access d request) =>
      if d = c ∧ request.mode = .single then some request.toRequest else none
  | _ => none

/-- An accepted configuration of a pin. -/
def Configures (c : Fin L.controllers) (p : Pin) (config : PinConfig) (deed : Deed L) : Prop :=
  config.fault? = none ∧
    ∃ pin : UInt32, pin.toNat = p.val ∧ deed.request? c = some (.configure pin config)

/-- What a request makes of a pin's choice, if it is granted. An initialization forgets it. -/
def choiceOf? (choice : PinConfig → Option α) (p : Pin) : Request → Option (Option α)
  | .bringUp => some none
  | .configure pin config =>
      if pin.toNat = p.val ∧ config.fault? = none then (choice config).map some else none
  | _ => none

/-- What a deed makes of a pin's choice. -/
def choice? (choice : PinConfig → Option α) (c : Fin L.controllers) (p : Pin) (deed : Deed L) :
    Option (Option α) :=
  (deed.request? c).bind (choiceOf? choice p)

theorem Configures.unique {config other : PinConfig} (configures : deed.Configures c p config)
    (again : deed.Configures c p other) : config = other := by
  obtain ⟨_, _, _, asked⟩ := configures
  obtain ⟨_, _, _, same⟩ := again
  exact (Request.configure.inj (Option.some.inj (asked.symm.trans same))).2

/-- A configuration of an output gives no trigger. -/
theorem Configures.keeps_trigger {config : PinConfig} (configures : deed.Configures c p config)
    (direction : config.direction = .output) :
    deed.request? c ≠ some .bringUp ∧
      ∀ other, deed.Configures c p other → other.interrupt = none := by
  constructor
  · intro initializes
    obtain ⟨_, pin, _, asked⟩ := configures
    exact nomatch asked.symm.trans initializes
  · intro other again
    obtain rfl := configures.unique again
    exact (PinConfig.fault?_output direction).mp configures.1

theorem choice?_eq_some_some_iff {value : α} :
    deed.choice? choice c p = some (some value) ↔
      ∃ config, deed.Configures c p config ∧ choice config = some value := by
  rw [choice?, Option.bind_eq_some_iff]
  constructor
  · rintro ⟨request, asked, given⟩
    cases request with
    | configure pin config =>
        rw [choiceOf?] at given
        split at given
        · rename_i accepted
          obtain ⟨chosen, chooses, same⟩ := Option.map_eq_some_iff.mp given
          obtain rfl := Option.some.inj same
          exact ⟨config, ⟨accepted.2, pin, accepted.1, asked⟩, chooses⟩
        · exact nomatch given
    | bringUp => exact nomatch Option.some.inj given
    | _ => exact nomatch given
  · rintro ⟨config, ⟨acceptable, pin, number, asked⟩, chooses⟩
    refine ⟨_, asked, ?_⟩
    rw [choiceOf?, if_pos ⟨number, acceptable⟩, chooses]
    rfl

theorem choice?_eq_none_iff :
    deed.choice? choice c p = none ↔ deed.request? c ≠ some .bringUp ∧
      ∀ config, deed.Configures c p config → choice config = none := by
  rw [choice?, Option.bind_eq_none_iff]
  constructor
  · intro silent
    refine ⟨fun initializes => Option.some_ne_none _ (silent _ initializes), ?_⟩
    rintro config ⟨acceptable, pin, number, asked⟩
    have none := silent _ asked
    rw [choiceOf?, if_pos ⟨number, acceptable⟩] at none
    exact Option.map_eq_none_iff.mp none
  · rintro ⟨other, silent⟩ request asked
    cases request with
    | bringUp => exact absurd asked other
    | configure pin config =>
        rw [choiceOf?]
        split
        · rename_i accepted
          rw [silent config ⟨accepted.2, pin, accepted.1, asked⟩]
          rfl
        · rfl
    | _ => rfl

end Deed

namespace Board

variable {B : Board L} {c : Fin L.controllers} {records : PinRecords}
  {field : PinRecord → Option α} {choice : PinConfig → Option α} {p : Pin}

/-- Whatever the state, a configuration of a pin that there is counts as accepted exactly if it
gets an answer. -/
theorem configures_iff_answered (B : Board L) (s : State L) {operation : Operation L}
    {pin : UInt32} {config : PinConfig} (number : pin.toNat = p.val)
    (asked : (Deed.operation operation).request? c = some (.configure pin config)) :
    (Deed.operation operation).Configures c p config ↔
      ∃ answer, (B.operate s operation).reply = .answer answer := by
  have configures : (Deed.operation operation).Configures c p config ↔ config.fault? = none :=
    ⟨And.left, fun acceptable => ⟨acceptable, pin, number, asked⟩⟩
  have plain : config.fault? = none ↔
      ∃ answer, (B.operate s (.request c (.configure pin config))).reply = .answer answer := by
    rw [operate]
    cases responded : (B.controllers c).respond s.memory (.configure pin config) with
    | error fault =>
        rcases (Controller.respond_configure_eq_error_iff _ _).mp responded with
          ⟨_, outside⟩ | ⟨_, wrong⟩
        · exact absurd p.isLt (Nat.not_lt_of_le (number ▸ outside))
        · simp [carryOut, wrong]
    | ok response =>
        cases Controller.grants_of_respond responded with
        | configure _ acceptable => simp [carryOut, acceptable]
  rw [configures, plain]
  cases operation with
  | request d request =>
      obtain ⟨rfl, meant⟩ := Option.ite_none_right_eq_some.mp asked
      rw [Option.some.inj meant]
  | access d request =>
      obtain ⟨⟨rfl, single⟩, meant⟩ := Option.ite_none_right_eq_some.mp asked
      rw [(operate_access_single B d s single).2, Option.some.inj meant]
      cases (B.operate s (.request d (.configure pin config))).reply <;> simp [Reply.toNumber]
  | _ => exact absurd asked.symm (Option.some_ne_none _)

theorem recordsAfter_eq (deed : Deed L) :
    B.recordsAfter c records deed =
      match deed.request? c with
      | some request => records.after (B.controllers c).irqBase request
      | none => records := by
  cases deed with
  | closing d p => rfl
  | operation operation =>
      cases operation with
      | request d request =>
          rw [recordsAfter, Deed.request?]
          split <;> rfl
      | access d request =>
          rw [recordsAfter, Deed.request?, PinRecords.afterAccess]
          by_cases own : d = c <;> cases request.mode <;> simp [own]
      | _ => rfl

/-- A request changes the choice of a pin as it says, or is refused. -/
theorem field_after (keeps : PinRecord.Keeps field choice) {base : Irq}
    (up : base.toNat + (pinCount - 1) < UInt32.size) (request : Request) :
    field (records.after base request p) =
      (Deed.choiceOf? choice p request).getD (field (records p)) := by
  rw [PinRecords.after]
  cases refused : records.fault? base request with
  | some fault =>
      cases request with
      | bringUp =>
          rw [PinRecords.fault?, if_pos up] at refused
          cases refused
      | configure pin config =>
          have rejected : ¬(pin.toNat = p.val ∧ config.fault? = none) := by
            rintro ⟨number, acceptable⟩
            rw [PinRecords.fault?, if_pos (number ▸ p.isLt), acceptable] at refused
            cases refused
          rw [Deed.choiceOf?, if_neg rejected]
          rfl
      | _ => rfl
  | none =>
      cases request with
      | bringUp => exact keeps.initialized _
      | configure pin config =>
          simp only [Deed.choiceOf?, PinRecord.update]
          by_cases number : pin.toNat = p.val
          · rw [PinRecords.fault?, if_pos (number ▸ p.isLt)] at refused
            rw [if_pos number, if_pos ⟨number, refused⟩, keeps.configured]
            cases choice config <;> rfl
          · rw [if_neg number, if_neg fun accepted => number accepted.1]
            rfl
      | write pin value =>
          simp only [Deed.choiceOf?, PinRecord.update]
          split
          · exact keeps.driven _ _
          · rfl
      | _ => rfl

theorem field_foldl (keeps : PinRecord.Keeps field choice)
    (up : (B.controllers c).irqBase.toNat + (pinCount - 1) < UInt32.size)
    (deeds : List (Deed L)) :
    field (deeds.foldl (B.recordsAfter c) records p) =
      (deeds.reverse.findSome? (Deed.choice? choice c p)).getD (field (records p)) := by
  induction deeds generalizing records with
  | nil => rfl
  | cons deed rest ih =>
      have turn : field (B.recordsAfter c records deed p) =
          (deed.choice? choice c p).getD (field (records p)) := by
        rw [recordsAfter_eq, Deed.choice?]
        cases deed.request? c with
        | none => rfl
        | some request => exact field_after keeps up request
      rw [List.foldl_cons, ih, turn, List.reverse_cons, List.findSome?_append,
        List.findSome?_singleton, Option.getD_or]

/-- The choice of a pin is that of the last accepted configuration which makes one, if no
initialization comes after it. -/
theorem choice_foldl_eq_some_iff (keeps : PinRecord.Keeps field choice)
    (up : (B.controllers c).irqBase.toNat + (pinCount - 1) < UInt32.size)
    (unset : field (records p) = none) (deeds : List (Deed L)) (value : α) :
    field (deeds.foldl (B.recordsAfter c) records p) = some value ↔
      ∃ before given after config, deeds = before ++ given :: after ∧
        given.Configures c p config ∧ choice config = some value ∧
        ∀ deed ∈ after, deed.request? c ≠ some .bringUp ∧
          ∀ other, deed.Configures c p other → choice other = none := by
  rw [field_foldl keeps up, unset]
  constructor
  · intro chosen
    cases last : deeds.reverse.findSome? (Deed.choice? choice c p) with
    | none => exact nomatch last ▸ chosen
    | some found =>
        obtain rfl : found = some value := by rwa [last] at chosen
        obtain ⟨after, given, before, split, gives, silent⟩ := List.findSome?_eq_some_iff.mp last
        obtain ⟨config, configures, chooses⟩ := Deed.choice?_eq_some_some_iff.mp gives
        refine ⟨before.reverse, given, after.reverse, config, ?_, configures, chooses, ?_⟩
        · rw [List.reverse_eq_iff.mp split]
          simp
        · intro deed mem
          exact Deed.choice?_eq_none_iff.mp (silent deed (List.mem_reverse.mp mem))
  · rintro ⟨before, given, after, config, rfl, configures, chooses, silent⟩
    have last : (before ++ given :: after).reverse.findSome? (Deed.choice? choice c p) =
        some (some value) := by
      refine List.findSome?_eq_some_iff.mpr ⟨after.reverse, given, before.reverse, by simp,
        Deed.choice?_eq_some_some_iff.mpr ⟨config, configures, chooses⟩, fun deed mem => ?_⟩
      exact Deed.choice?_eq_none_iff.mpr (silent deed (List.mem_reverse.mp mem))
    rw [last]
    rfl

/-- Of two members of a list, the one that does not come later comes first. -/
theorem exists_between {β : Type} {before after earlier later : List β} {x y : β}
    (split : before ++ y :: after = earlier ++ x :: later) (differ : x ≠ y) (gone : x ∉ after) :
    ∃ between, before = earlier ++ x :: between ∧ later = between ++ y :: after := by
  rcases List.append_eq_append_iff.mp split with
    ⟨_ | ⟨_, more⟩, _, tail⟩ | ⟨_ | ⟨_, between⟩, head, tail⟩
  · exact absurd (List.cons.inj tail).1.symm differ
  · have rest : after = more ++ x :: later := (List.cons.inj tail).2
    exact absurd (rest ▸ List.mem_append_right more List.mem_cons_self) gone
  · exact absurd (List.cons.inj tail).1 differ
  · obtain ⟨rfl, rest⟩ := List.cons.inj tail
    exact ⟨between, head, rest⟩

theorem fits_of_granted {s : State L}
    (granted : (B.operate s (.request c .bringUp)).reply = .answer .done) :
    (B.controllers c).irqBase.toNat + (pinCount - 1) < UInt32.size := by
  have again := (operate_request (represents_bringUp granted) .bringUp).1
  rw [B.reply_bringUp c _ s, granted, PinRecords.reply] at again
  refine Decidable.byContradiction fun large => ?_
  rw [PinRecords.fault?, if_neg large] at again
  cases again

/-- The records after a run that begins with a successful initialization. -/
theorem Runs.represents_of_granted {m last : Machine L} {deeds : List (Deed L)}
    (granted : (B.operate m.state (.request c .bringUp)).reply = .answer .done)
    (runs : B.Runs m (.operation (.request c .bringUp) :: deeds) last)
    (undisturbed : B.Undisturbed c deeds) :
    ∃ records : PinRecords, (∀ p, records p = { output := (records p).output }) ∧
      (B.controllers c).block.Represents last.state.memory
        (deeds.foldl (B.recordsAfter c) records) := by
  obtain ⟨s, next, _, performed, later⟩ := runs.exists_of_cons
  have initialized := represents_bringUp ((B.reply_bringUp c s m.state).trans granted)
  rw [← perform, ← performed] at initialized
  exact ⟨_, fun _ => rfl, later.represents initialized undisturbed⟩

/-- In every state of a run that begins with a successful initialization, a pin is an output with
a condition that triggers interrupts exactly if it was made an input with a trigger that has this
condition, and later an output, by accepted configurations since the last initialization, none of
which gave it another trigger in between or configured it again after that. -/
theorem Runs.triggers_of_outputs {m last : Machine L} {deeds : List (Deed L)}
    (granted : (B.operate m.state (.request c .bringUp)).reply = .answer .done)
    (runs : B.Runs m (.operation (.request c .bringUp) :: deeds) last)
    (undisturbed : B.Undisturbed c deeds) (p : Pin) {r : Register}
    (enables : r ∈ [.riseEnable, .fallEnable, .highEnable, .lowEnable]) :
    let block := (B.controllers c).block
    block.isSet last.state.memory .outputEnable p ∧ block.isSet last.state.memory r p ↔
      ∃ before given between turned after input output trigger,
        deeds = before ++ given :: (between ++ turned :: after) ∧
          (given.Configures c p input ∧ input.direction = .input ∧
            input.interrupt = some trigger ∧ (r, true) ∈ trigger.settings) ∧
          (∀ deed ∈ between, deed.request? c ≠ some .bringUp ∧
            ∀ other, deed.Configures c p other → other.interrupt = none) ∧
          (turned.Configures c p output ∧ output.direction = .output) ∧
          ∀ deed ∈ after, deed.request? c ≠ some .bringUp ∧
            ∀ other, ¬deed.Configures c p other := by
  intro block
  obtain ⟨records, fresh, represents⟩ := runs.represents_of_granted granted undisturbed
  have up := fits_of_granted granted
  have isRecord : r ∈ PinRecord.registers := by
    revert r
    decide
  have undirected : (records p).direction = none := fresh p ▸ rfl
  have untriggered : (records p).trigger = none := fresh p ▸ rfl
  rw [represents.isSet_outputEnable, represents p r isRecord, PinRecord.bit_enable enables,
    choice_foldl_eq_some_iff PinRecord.keeps_direction up undirected]
  simp only [choice_foldl_eq_some_iff PinRecord.keeps_trigger up untriggered]
  constructor
  · rintro ⟨⟨before, turned, after, output, split, turns, direction, silent⟩, trigger,
      ⟨earlier, given, later, input, again, gives, chosen, quiet⟩, condition⟩
    have inward := PinConfig.direction_of_interrupt gives.1 chosen
    have outward := Option.some.inj direction
    have differ : given ≠ turned := by
      rintro rfl
      obtain rfl := gives.unique turns
      exact nomatch inward.symm.trans outward
    have gone : given ∉ after := fun mem => Option.some_ne_none _ ((silent given mem).2 input gives)
    obtain ⟨between, rfl, rfl⟩ := exists_between (split.symm.trans again) differ gone
    refine ⟨earlier, given, between, turned, after, input, output, trigger, again,
      ⟨gives, inward, chosen, condition⟩, fun deed mem => quiet deed (List.mem_append_left _ mem),
      ⟨turns, outward⟩, fun deed mem => ⟨(silent deed mem).1, fun other configures => ?_⟩⟩
    exact Option.some_ne_none _ ((silent deed mem).2 other configures)
  · rintro ⟨before, given, between, turned, after, input, output, trigger, rfl,
      ⟨gives, inward, chosen, condition⟩, quiet, ⟨turns, outward⟩, silent⟩
    refine ⟨⟨before ++ given :: between, turned, after, output, by simp, turns,
      congrArg some outward, fun deed mem => ⟨(silent deed mem).1, fun other configures => ?_⟩⟩,
      trigger, ⟨before, given, _, input, rfl, gives, chosen, fun deed mem => ?_⟩, condition⟩
    · exact absurd configures ((silent deed mem).2 other)
    · rcases List.mem_append.mp mem with mem | mem
      · exact quiet deed mem
      · rcases List.mem_cons.mp mem with rfl | mem
        · exact turns.keeps_trigger outward
        · exact ⟨(silent deed mem).1, fun other configures =>
            absurd configures ((silent deed mem).2 other)⟩

/-- The pin that its client makes an output keeps the falling edge that it had as an input. -/
theorem triggers_of_outputs_nestedDeeds : ∃ last,
    ((nestedBoard 0).operate (nestedMachine 0 0).state (.request 0 .bringUp)).reply =
        .answer .done ∧
      (nestedBoard 0).Runs (nestedMachine 0 0)
        (.operation (.request 0 .bringUp) :: nestedDeeds 0 0 3) last ∧
      (nestedBoard 0).Undisturbed 0 (nestedDeeds 0 0 3) ∧
      ((nestedBoard 0).controllers 0).block.isSet last.state.memory .outputEnable 3 ∧
      ((nestedBoard 0).controllers 0).block.isSet last.state.memory .fallEnable 3 := by
  obtain ⟨last, runs⟩ := runs_nestedMachine
  have granted : ((nestedBoard 0).operate (nestedMachine 0 0).state (.request 0 .bringUp)).reply =
      .answer .done := rfl
  have enables : Register.fallEnable ∈
      [Register.riseEnable, .fallEnable, .highEnable, .lowEnable] := by decide
  have quiet : ∀ deed ∈ [Deed.operation (L := nestedLayout)
      (.edit (ownRegistry 0) (.register 0))], deed.request? 0 ≠ some .bringUp ∧
        ∀ other, deed.Configures 0 3 other → other.interrupt = none := by
    rintro deed mem
    obtain rfl := List.mem_singleton.mp mem
    exact ⟨nofun, fun _ ⟨_, _, _, asked⟩ => nomatch asked⟩
  have silent : ∀ deed ∈ [Deed.operation (L := nestedLayout) (.request 0 (.write 3 false)),
      .closing 0 3], deed.request? 0 ≠ some .bringUp ∧ ∀ other, ¬deed.Configures 0 3 other := by
    rintro deed mem
    simp only [List.mem_cons, List.not_mem_nil, or_false] at mem
    rcases mem with rfl | rfl <;> exact ⟨nofun, fun _ ⟨_, _, _, asked⟩ => nomatch asked⟩
  have both := (runs.triggers_of_outputs granted undisturbed_nestedDeeds 3 enables).mpr
    ⟨[], _, _, _, _, nestedInput, PinConfig.output.inverted, .edge .activeLow, rfl,
      ⟨⟨rfl, 3, rfl, rfl⟩, rfl, rfl, by decide⟩, quiet, ⟨⟨rfl, 3, rfl, rfl⟩, rfl⟩, silent⟩
  exact ⟨last, granted, runs, undisturbed_nestedDeeds, both⟩

/-! ## An output with a trigger -/

/-- A pin becomes an input with a trigger, and then an output. -/
def turnedDeeds (c : Fin 1) : List (Deed nestedLayout) :=
  [.operation (.request c (.configure 3 nestedInput)),
    .operation (.request c (.configure 3 .output))]

def turnedMachine (c : Fin 1) : Machine nestedLayout where
  state := .start (.filled 17 0) #v[0] #v[[]]
  tasks :=
    [.commands [.operation (.request c .bringUp),
      .operation (.request c (.configure 3 nestedInput)),
      .operation (.request c (.configure 3 .output))]]

/-- After two accepted configurations the pin is an output, and falling edges still trigger. -/
theorem output_with_trigger_turnedDeeds : ∃ last,
    ((nestedBoard 0).operate (turnedMachine 0).state (.request 0 .bringUp)).reply =
        .answer .done ∧
      (nestedBoard 0).Runs (turnedMachine 0)
        (.operation (.request 0 .bringUp) :: turnedDeeds 0) last ∧
      (nestedBoard 0).Undisturbed 0 (turnedDeeds 0) ∧
      (∀ deed ∈ turnedDeeds 0, ∃ config, deed.Configures 0 3 config) ∧
      ((nestedBoard 0).controllers 0).block.isSet last.state.memory .outputEnable 3 ∧
      ((nestedBoard 0).controllers 0).block.isSet last.state.memory .fallEnable 3 := by
  have own : ∀ deed ∈ turnedDeeds 0, deed.Through 0 ∧ ∃ config, deed.Configures 0 3 config := by
    intro deed mem
    simp only [turnedDeeds, List.mem_cons, List.not_mem_nil, or_false] at mem
    rcases mem with rfl | rfl
    · exact ⟨rfl, nestedInput, rfl, 3, rfl, rfl⟩
    · exact ⟨rfl, .output, rfl, 3, rfl, rfl⟩
  have runs : (nestedBoard 0).Runs (turnedMachine 0)
      (.operation (.request 0 .bringUp) :: turnedDeeds 0) _ :=
    .step (.operate _ _ _ _) <| .step (.operate _ _ _ _) <| .step (.operate _ _ _ _) <| .refl _
  exact ⟨_, rfl, runs, undisturbed_of_through fun deed mem => (own deed mem).1,
    fun deed mem => (own deed mem).2, by decide +kernel, by decide +kernel⟩

end Board

end Gpio
