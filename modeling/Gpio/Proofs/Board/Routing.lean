import Gpio.Proofs.Board.Budget
import Gpio.Proofs.Board.Demand
import Gpio.Proofs.Board.History
import Gpio.Proofs.Board.Interrupts

/-!
# Where raised interrupts go

Among the steps of a board, those that grant a demand are the only ones that change which ids
are unmasked and who handles them. So in every state of a session the last request that was
granted about an id says whether it is unmasked, and the last initialization of a controller
in whose range the id lies says who handles it (`Passes.some_unmasked`, `Passes.handler`). A
raised interrupt is delivered accordingly (`Passes.exec_raise`).
-/

namespace Gpio

variable {L : Layout}

namespace Board

/-- The request that an operation grants, and the controller that grants it. -/
def granted? (B : Board L) (s : State L) (operation : Operation L) :
    Option (Fin L.controllers × Request) :=
  match operation.demand?, (B.operate s operation).reply with
  | some (c, demand), .answer _ => some (c, demand.request)
  | _, _ => none

end Board

namespace Machine

variable (B : Board L)

/-- The request that the next step grants, and the controller that grants it. -/
def granted? (m : Machine L) : Option (Fin L.controllers × Request) :=
  match m.tasks with
  | .commands (.operation operation :: _) :: _ => B.granted? m.state operation
  | _ => none

/-- Whether the id may be delivered, if the next step decides that. -/
def switch? (irq : Irq) (m : Machine L) : Option Bool :=
  (m.granted? B).bind fun (c, request) => (B.controllers c).switch? irq request

/-- The controller that takes over the id, if the next step initializes one that does. -/
def takeover? (irq : Irq) (m : Machine L) : Option (Fin L.controllers) :=
  (m.granted? B).bind fun (c, request) =>
    if (B.controllers c).TakesOver irq request then some c else none

theorem serves_of_takeover? {B : Board L} {irq : Irq} {m : Machine L} {c : Fin L.controllers}
    (takes : m.takeover? B irq = some c) : (B.controllers c).Serves irq := by
  obtain ⟨⟨d, request⟩, _, takes⟩ := Option.bind_eq_some_iff.mp takes
  obtain ⟨⟨_, inside⟩, same⟩ := Option.ite_none_right_eq_some.mp takes
  obtain rfl := Option.some.inj same
  exact Controller.serves_iff.mpr inside

end Machine

namespace Board

variable {B : Board L}

theorem interrupts_carryOutMap (B : Board L) (m : Fin L.maps) (s : State L)
    (outcome : Except Fault BlockResponse) :
    (B.carryOutMap m s outcome).state.interrupts = s.interrupts := by
  rcases outcome with fault | ⟨_ | w, answer⟩ <;> rfl

/-- An operation grants a demand, and carries out what is granted, or it leaves masks and
handlers of interrupts as they are. -/
theorem granted?_cases (B : Board L) (s : State L) (operation : Operation L) :
    (∃ c request response, B.granted? s operation = some (c, request) ∧
      (B.controllers c).Grants s.memory request response ∧
      (B.operate s operation).state = B.actAll c s response.actions) ∨
    B.granted? s operation = none ∧
      (B.operate s operation).state.interrupts.unmasked = s.interrupts.unmasked ∧
      (B.operate s operation).state.interrupts.handler = s.interrupts.handler := by
  cases demands : operation.demand? with
  | some demanded =>
      obtain ⟨c, demand⟩ := demanded
      obtain rfl := Operation.eq_of_demand? demands
      cases replied : (B.operate s (demand.operation c)).reply with
      | refusal fault =>
          refine Or.inr ⟨by rw [granted?, demands, replied], ?_⟩
          rw [operate_demand] at replied ⊢
          rw [B.carryOut_of_refusal c s replied]
          exact ⟨rfl, rfl⟩
      | answer answer =>
          obtain ⟨response, grants, state⟩ := exists_grants_of_reply replied
          exact Or.inl ⟨c, demand.request, response, by rw [granted?, demands, replied], grants,
            state⟩
  | none =>
      refine Or.inr ⟨by rw [granted?, demands], ?_⟩
      cases operation with
      | map m request =>
          have same := B.interrupts_carryOutMap m s ((B.maps m).respond s.memory request)
          exact ⟨congrArg (·.unmasked) same, congrArg (·.handler) same⟩
      | request c request => exact nomatch demands
      | access c request => exact nomatch demands
      | _ => exact ⟨rfl, rfl⟩

/-- A step that switches an id decides whether it is unmasked, and no other step does. -/
theorem Step.some_unmasked {m next : Machine L} {deeds : List (Deed L)}
    (step : B.Step m deeds next) (irq : Irq) :
    some (next.state.interrupts.unmasked irq) =
      (m.switch? B irq).or (some (m.state.interrupts.unmasked irq)) := by
  cases step with
  | operate s operation rest tasks =>
      rcases B.granted?_cases s operation with
        ⟨c, request, response, granted, grants, state⟩ | ⟨granted, unmasked, _⟩
      · simp only [Machine.switch?, Machine.granted?, granted, Option.bind_some, state,
          unmasked_of_grants grants]
        cases (B.controllers c).switch? irq request <;> rfl
      · simp only [Machine.switch?, Machine.granted?, granted, Option.bind_none, unmasked,
          Option.none_or]
  | call tasks found listens taken =>
      rw [State.interrupts_takeNext? taken]
      rfl
  | acknowledge s c p tasks =>
      rw [interrupts_act_of_silent (Controller.irq?_acknowledge _ _ p)]
      rfl
  | _ => rfl

/-- A step that takes over an id decides who handles it, and no other step does. -/
theorem Step.handler {m next : Machine L} {deeds : List (Deed L)}
    (step : B.Step m deeds next) (irq : Irq) :
    next.state.interrupts.handler irq =
      (m.takeover? B irq).or (m.state.interrupts.handler irq) := by
  cases step with
  | operate s operation rest tasks =>
      rcases B.granted?_cases s operation with
        ⟨c, request, response, granted, grants, state⟩ | ⟨granted, _, handler⟩
      · simp only [Machine.takeover?, Machine.granted?, granted, Option.bind_some, state,
          handler_of_grants grants]
        split <;> rfl
      · simp only [Machine.takeover?, Machine.granted?, granted, Option.bind_none, handler,
          Option.none_or]
  | call tasks found listens taken =>
      rw [State.interrupts_takeNext? taken]
      rfl
  | acknowledge s c p tasks =>
      rw [interrupts_act_of_silent (Controller.irq?_acknowledge _ _ p)]
      rfl
  | _ => rfl

/-- A raised interrupt is delivered to a controller as that of a pin: while it is pending, the
pin is dispatched to the controller's registry, and afterwards it is acknowledged. -/
def Delivers (B : Board L) (clients : Clients L) (s : State L) (irq : Irq)
    (c : Fin L.controllers) (p : Pin) (effect : Effect L) : Prop :=
  ∃ t firings closing,
    B.dispatch clients (ownRegistry c) p.mask
        { s with interrupts := { s.interrupts with pending := irq } } = some (t, firings) ∧
      closing = (B.controllers c).acknowledge t.memory p ∧
      (∀ other, closing ≠ .log (.foreign other)) ∧
      effect =
        { state := B.act c t closing
          events := .acted c (.log (.interrupt irq p)) ::
            (firings.flatMap Firing.events ++ [.acted c closing])
          reply := .answer (.flag true) }

/-- A raise of an id that has a receiver is delivered to it. -/
theorem exists_delivers {s : State L} {depth : Nat} {irq : Irq} {c : Fin L.controllers} {p : Pin}
    (grounded : s.links.Grounded) (few : s.entriesLeft ≤ depth)
    (receiver : s.interrupts.receiver? irq = some c)
    (own : irq.toNat = (B.controllers c).irqBase.toNat + p.val) :
    ∃ effect, B.execWith (B.clientsAt depth) s (.raise irq) = some effect ∧
      B.Delivers (B.clientsAt depth) s irq c p effect := by
  let delivered : State L := { s with interrupts := { s.interrupts with pending := irq } }
  obtain ⟨t, firings, done⟩ :=
    B.exists_dispatch (s := delivered) grounded few (ownRegistry c) p.mask
  have pin : (B.controllers c).pin? irq = some p := Controller.pin?_eq_some_iff.mpr own
  refine ⟨_, ?_, t, firings, _, done, rfl, Controller.acknowledge_ne_foreign _ _ p, rfl⟩
  simp only [execWith, receiver, service, pin, delivered, done, Option.bind_eq_bind,
    Option.bind_some]
  rfl

variable {memory : Memory L.words} {masks : Vector Word L.callbacks}
  {scripts : Vector (Script L) L.clients} {commands : List (Command L)}
  {history : List (Machine L)}

/-- An id is unmasked if it was enabled by the last request that was granted about it. -/
theorem Passes.unmasked_iff {last : Machine L}
    (passes : B.Passes ⟨.start memory masks scripts, [.commands commands]⟩ history last)
    (irq : Irq) :
    last.state.interrupts.unmasked irq ↔
      latest? (Machine.switch? B irq) history = some true := by
  have cell := passes.eq_latest? (fun s => some (s.interrupts.unmasked irq))
    (Machine.switch? B irq) fun step => step.some_unmasked irq
  change _ = (latest? (Machine.switch? B irq) history).or (some false) at cell
  cases sets : latest? (Machine.switch? B irq) history <;> simp_all

/-- An id is handled by the controller that took it over last. -/
theorem Passes.handler_eq {last : Machine L}
    (passes : B.Passes ⟨.start memory masks scripts, [.commands commands]⟩ history last)
    (irq : Irq) :
    last.state.interrupts.handler irq = latest? (Machine.takeover? B irq) history :=
  (passes.eq_latest? (fun s => s.interrupts.handler irq) (Machine.takeover? B irq)
    fun step => step.handler irq).trans Option.or_none

/-- A raised interrupt is delivered exactly if it was enabled by the last request that was
granted about it and a controller has been initialized in whose range it is. It is delivered to
the one of these that was initialized last, as the interrupt of the pin that has the id there.
If it is not delivered, nothing happens. -/
theorem Passes.exec_raise {s : State L} {irq : Irq} {rest : List (Command L)}
    {tasks : List (Task L)}
    (passes : B.Passes ⟨.start memory masks scripts, [.commands commands]⟩ history
      ⟨s, .commands (.raise irq :: rest) :: tasks⟩)
    {depth : Nat} (few : s.entriesLeft ≤ depth) :
    ∃ effect, B.execWith (B.clientsAt depth) s (.raise irq) = some effect ∧
      (effect.reply = .answer (.flag true) ↔
        latest? (Machine.switch? B irq) history = some true ∧
          ∃ m ∈ history, ∃ c, m.takeover? B irq = some c) ∧
      (effect.reply = .answer (.flag true) →
        ∃ c p, latest? (Machine.takeover? B irq) history = some c ∧
          irq.toNat = (B.controllers c).irqBase.toNat + p.val ∧
          B.Delivers (B.clientsAt depth) s irq c p effect) ∧
      (effect.reply ≠ .answer (.flag true) →
        effect = { state := s, events := [], reply := .answer (.flag false) }) := by
  have unmasked := passes.unmasked_iff irq
  have handler := passes.handler_eq irq
  -- Whether there is a receiver is read off the history in both cases.
  cases receiver : s.interrupts.receiver? irq with
  | none =>
      have undelivered : ¬(latest? (Machine.switch? B irq) history = some true ∧
          ∃ m ∈ history, ∃ c, m.takeover? B irq = some c) := by
        rintro ⟨enabled, taken⟩
        obtain ⟨c, last⟩ := exists_latest?_iff.mpr taken
        have received := InterruptController.receiver?_eq_some_iff.mpr
          ⟨unmasked.mpr enabled, handler.trans last⟩
        exact nomatch receiver.symm.trans received
      have silent : (Reply.answer (.flag false)) ≠ .answer (.flag true) := by decide
      refine ⟨{ state := s, reply := .answer (.flag false) }, ?_,
        iff_of_false silent undelivered, fun delivered => absurd delivered silent, fun _ => rfl⟩
      simp only [execWith, receiver]
  | some c =>
      obtain ⟨enabled, handled⟩ := InterruptController.receiver?_eq_some_iff.mp receiver
      have last := handler.symm.trans handled
      obtain ⟨m, mem, takes⟩ := exists_mem_of_latest? last
      obtain ⟨p, own⟩ := Machine.serves_of_takeover? takes
      have grounded := passes.grounded (Links.grounded_empty _ _)
      obtain ⟨effect, executed, delivers⟩ := exists_delivers grounded few receiver own
      have replied : effect.reply = .answer (.flag true) := by
        obtain ⟨t, firings, closing, _, _, _, rfl⟩ := delivers
        rfl
      refine ⟨effect, executed, ?_, fun _ => ⟨c, p, last, own, delivers⟩,
        fun silent => absurd replied silent⟩
      exact ⟨fun _ => ⟨unmasked.mp enabled, m, mem, c, takes⟩, fun _ => replied⟩

/-! ## Two controllers with ids in common -/

/-- Two controllers and a callback. -/
abbrev overlapLayout : Layout where
  words := 34
  controllers := 2
  maps := 0
  registries := 0
  clients := 1
  callbacks := 1

/-- The first controller has the ids from 8 to 39, and the second one those from 20 to 51. -/
def overlapBoard (client : Fin 1) : Board overlapLayout where
  controllers := fun c => if c.val = 0 then ⟨⟨0, by decide⟩, 8⟩ else ⟨⟨17, by decide⟩, 20⟩
  maps := nofun
  callbacks := fun _ => ⟨client, 0⟩

/-- Both controllers are initialized, and the id 25 is enabled by the first one, disabled by
the second one, and enabled again. -/
def overlapCommands (first second : Fin 2) : List (Command overlapLayout) :=
  [.operation (.request first .bringUp), .operation (.request second .bringUp),
    .operation (.access first (.enableCallback .single 17)),
    .operation (.request second (.disableInterrupt 5)),
    .operation (.request first (.enableInterrupt 17)), .raise 25]

theorem passes_overlapCommands :
    ∃ history s, (overlapBoard 0).Passes
        ⟨.start (.filled 34 0) #v[0] #v[[]], [.commands (overlapCommands 0 1)]⟩ history
        ⟨s, [.commands [.raise 25]]⟩ ∧
      s.entriesLeft ≤ 0 ∧
      latest? (Machine.switch? (overlapBoard 0) 25) history = some true ∧
      latest? (Machine.takeover? (overlapBoard 0) 25) history = some 1 :=
  ⟨_, _, .step (.operate _ _ _ _) <| .step (.operate _ _ _ _) <| .step (.operate _ _ _ _) <|
    .step (.operate _ _ _ _) <| .step (.operate _ _ _ _) <| .refl _,
    by decide +kernel, by decide +kernel, by decide +kernel⟩

/-- The controller that was initialized last gets the interrupt, as that of its pin 5. -/
theorem exec_raise_overlapCommands :
    ∃ history s, (overlapBoard 0).Passes
        ⟨.start (.filled 34 0) #v[0] #v[[]], [.commands (overlapCommands 0 1)]⟩ history
        ⟨s, [.commands [.raise 25]]⟩ ∧
      s.entriesLeft ≤ 0 ∧
      ∃ effect, (overlapBoard 0).execWith ((overlapBoard 0).clientsAt 0) s (.raise 25) =
          some effect ∧
        (overlapBoard 0).Delivers ((overlapBoard 0).clientsAt 0) s 25 1 5 effect := by
  obtain ⟨history, s, passes, few, enabled, last⟩ := passes_overlapCommands
  obtain ⟨effect, executed, delivered, served, _⟩ := passes.exec_raise few
  have taken := exists_latest?_iff.mp ⟨_, last⟩
  obtain ⟨c, p, owner, own, delivers⟩ := served (delivered.mpr ⟨enabled, taken⟩)
  obtain rfl := Option.some.inj (last.symm.trans owner)
  obtain rfl : p = 5 := Fin.ext (Nat.add_left_cancel (own.symm.trans rfl))
  exact ⟨history, s, passes, few, effect, executed, delivers⟩

end Board

end Gpio
