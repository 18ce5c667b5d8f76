import Gpio.Board.Delivery
import Gpio.Board.Frame

/-!
# A board step by step

The effect of a command takes a whole execution together, with all that clients do from
inside their calls. Here a board is run one step at a time, and what is still to be done
while a client is called is kept on a stack of tasks. So every state through which a board
passes is the state of some machine, and the operations stand in the order in which they
are carried out, at whatever depth (`Deed`).
-/

namespace Gpio

variable {L : Layout}

/-- Something that is still to be done. -/
inductive Task (L : Layout) where
  /-- Give commands to the board. -/
  | commands (commands : List (Command L))
  /-- Go on with a dispatch that stands at a link. -/
  | walk (pins : Word) (link : Link L.lists L.callbacks)
  /-- Acknowledge the interrupt of a pin. -/
  | acknowledge (c : Fin L.controllers) (p : Pin)

/-- A board with its tasks, of which the first one is under way. -/
structure Machine (L : Layout) where
  state : State L
  tasks : List (Task L)

/-- What a step does to a board, apart from choosing what comes next. -/
inductive Deed (L : Layout) where
  | operation (operation : Operation L)
  /-- The end of the service of an interrupt. -/
  | closing (c : Fin L.controllers) (p : Pin)

namespace Board

/-- One step of a board. A raised interrupt that is delivered becomes a service of its
receiver. -/
inductive Step (B : Board L) : Machine L → List (Deed L) → Machine L → Prop where
  | operate (s : State L) (operation : Operation L) (rest : List (Command L))
      (tasks : List (Task L)) :
      Step B ⟨s, .commands (.operation operation :: rest) :: tasks⟩ [.operation operation]
        ⟨(B.operate s operation).state, .commands rest :: tasks⟩
  | dispatch (s : State L) (r : Fin L.lists) (pins : Word) (rest : List (Command L))
      (tasks : List (Task L)) :
      Step B ⟨s, .commands (.dispatch r pins :: rest) :: tasks⟩ []
        ⟨s, .walk pins (.head r) :: .commands rest :: tasks⟩
  | service {s : State L} {c : Fin L.controllers} {p : Pin} (rest : List (Command L))
      (tasks : List (Task L)) (own : (B.controllers c).pin? s.interrupts.pending = some p) :
      Step B ⟨s, .commands (.service c :: rest) :: tasks⟩ []
        ⟨s, .walk p.mask (.head (ownRegistry c)) :: .acknowledge c p :: .commands rest :: tasks⟩
  | foreign {s : State L} {c : Fin L.controllers} (rest : List (Command L))
      (tasks : List (Task L)) (missing : (B.controllers c).pin? s.interrupts.pending = none) :
      Step B ⟨s, .commands (.service c :: rest) :: tasks⟩ [] ⟨s, .commands rest :: tasks⟩
  | deliver {s : State L} {irq : Irq} {c : Fin L.controllers} (rest : List (Command L))
      (tasks : List (Task L)) (receiver : s.interrupts.receiver? irq = some c) :
      Step B ⟨s, .commands (.raise irq :: rest) :: tasks⟩ []
        ⟨{ s with interrupts := { s.interrupts with pending := irq } },
          .commands (.service c :: rest) :: tasks⟩
  | ignore {s : State L} {irq : Irq} (rest : List (Command L)) (tasks : List (Task L))
      (receiver : s.interrupts.receiver? irq = none) :
      Step B ⟨s, .commands (.raise irq :: rest) :: tasks⟩ [] ⟨s, .commands rest :: tasks⟩
  | finish (s : State L) (tasks : List (Task L)) : Step B ⟨s, .commands [] :: tasks⟩ [] ⟨s, tasks⟩
  | stop {s : State L} {link : Link L.lists L.callbacks} (pins : Word) (tasks : List (Task L))
      (empty : s.links.read link = none) : Step B ⟨s, .walk pins link :: tasks⟩ [] ⟨s, tasks⟩
  | pass {s : State L} {link : Link L.lists L.callbacks} {callback : Fin L.callbacks}
      {pins : Word} (tasks : List (Task L)) (found : s.links.read link = some callback)
      (deaf : s.mask callback &&& pins = 0) :
      Step B ⟨s, .walk pins link :: tasks⟩ [] ⟨s, .walk pins (.next callback) :: tasks⟩
  | call {s t : State L} {link : Link L.lists L.callbacks} {callback : Fin L.callbacks}
      {pins : Word} {entry : List (Command L)} (tasks : List (Task L))
      (found : s.links.read link = some callback) (listens : s.mask callback &&& pins ≠ 0)
      (taken : s.takeNext? (B.clientOf callback) = some (entry, t)) :
      Step B ⟨s, .walk pins link :: tasks⟩ []
        ⟨t, .commands entry :: .walk pins (.next callback) :: tasks⟩
  | callIdle {s : State L} {link : Link L.lists L.callbacks} {callback : Fin L.callbacks}
      {pins : Word} (tasks : List (Task L)) (found : s.links.read link = some callback)
      (listens : s.mask callback &&& pins ≠ 0)
      (idle : s.takeNext? (B.clientOf callback) = none) :
      Step B ⟨s, .walk pins link :: tasks⟩ [] ⟨s, .walk pins (.next callback) :: tasks⟩
  | acknowledge (s : State L) (c : Fin L.controllers) (p : Pin) (tasks : List (Task L)) :
      Step B ⟨s, .acknowledge c p :: tasks⟩ [.closing c p]
        ⟨B.act c s ((B.controllers c).acknowledge s.memory p), tasks⟩

/-- Any number of steps, with all that they do. -/
inductive Runs (B : Board L) : Machine L → List (Deed L) → Machine L → Prop where
  | refl (m : Machine L) : Runs B m [] m
  | step {m next last : Machine L} {deeds rest : List (Deed L)} (step : B.Step m deeds next)
      (runs : Runs B next rest last) : Runs B m (deeds ++ rest) last

/-- A state through which a board passes that starts with empty registries, whatever its
memory, masks and scripts are and whatever commands it is given. -/
def Reachable (B : Board L) (s : State L) : Prop :=
  ∃ memory masks scripts commands deeds tasks,
    B.Runs ⟨.start memory masks scripts, [.commands commands]⟩ deeds ⟨s, tasks⟩

variable {B : Board L}

theorem Runs.single {m next : Machine L} {deeds : List (Deed L)} (step : B.Step m deeds next) :
    B.Runs m deeds next := by
  have runs := Runs.step step (.refl next)
  rwa [List.append_nil] at runs

theorem Runs.trans {m middle last : Machine L} {first second : List (Deed L)}
    (before : B.Runs m first middle) (after : B.Runs middle second last) :
    B.Runs m (first ++ second) last := by
  induction before with
  | refl _ => exact after
  | step step _ ih =>
      rw [List.append_assoc]
      exact .step step (ih after)

/-! ## Dispatches and calls without a bound -/

/-- The turns of a dispatch from a link on until it comes to an end, without a bound. -/
inductive Dispatches (B : Board L) (clients : Clients L) (pins : Word) :
    Link L.lists L.callbacks → State L → State L → List (Firing L) → Prop where
  | stop {link : Link L.lists L.callbacks} {s : State L} (empty : s.links.read link = none) :
      Dispatches B clients pins link s s []
  | pass {link : Link L.lists L.callbacks} {s t : State L} {callback : Fin L.callbacks}
      {firings : List (Firing L)} (found : s.links.read link = some callback)
      (deaf : s.mask callback &&& pins = 0)
      (rest : Dispatches B clients pins (.next callback) s t firings) :
      Dispatches B clients pins link s t firings
  | call {link : Link L.lists L.callbacks} {s middle t : State L} {callback : Fin L.callbacks}
      {within : List (Event L)} {firings : List (Firing L)}
      (found : s.links.read link = some callback) (listens : s.mask callback &&& pins ≠ 0)
      (called : clients (B.callOf callback (s.mask callback &&& pins)) s = some (middle, within))
      (rest : Dispatches B clients pins (.next callback) middle t firings) :
      Dispatches B clients pins link s t
        (⟨B.callOf callback (s.mask callback &&& pins), within⟩ :: firings)

theorem dispatches_of_dispatchFrom {clients : Clients L} {pins : Word}
    {budget : Nat} {link : Link L.lists L.callbacks} {s t : State L} {firings : List (Firing L)}
    (done : B.dispatchFrom clients pins budget link s = some (t, firings)) :
    B.Dispatches clients pins link s t firings := by
  induction budget generalizing link s firings with
  | zero => exact nomatch done
  | succ budget ih =>
      rw [dispatchFrom] at done
      split at done
      · rename_i empty
        obtain ⟨rfl, rfl⟩ := Prod.mk.inj (Option.some.inj done)
        exact .stop empty
      · rename_i callback found
        split at done
        · rename_i deaf
          exact .pass found deaf (ih done)
        · rename_i listens
          obtain ⟨⟨middle, within⟩, called, onward⟩ := Option.bind_eq_some_iff.mp done
          obtain ⟨⟨final, more⟩, later, result⟩ := Option.bind_eq_some_iff.mp onward
          obtain ⟨rfl, rfl⟩ := Prod.mk.inj (Option.some.inj result)
          exact .call found listens called (ih later)

/-- A call of a scripted client does nothing if the script has come to its end, and otherwise
runs the next entry of it. -/
theorem clientsAt_cases {depth : Nat} {call : Call L} {s t : State L} {within : List (Event L)}
    (done : B.clientsAt depth call s = some (t, within)) :
    s.takeNext? call.client = none ∧ t = s ∧ within = [] ∨
    ∃ entry taken less, s.takeNext? call.client = some (entry, taken) ∧ depth = less + 1 ∧
      runEntry (B.execWith (B.clientsAt less)) entry taken = some (t, within) := by
  cases takes : s.takeNext? call.client with
  | none =>
      cases depth <;>
        · simp only [clientsAt, takes, Option.some.injEq, Prod.mk.injEq] at done
          obtain ⟨rfl, rfl⟩ := done
          exact Or.inl ⟨rfl, rfl, rfl⟩
  | some used =>
      obtain ⟨entry, taken⟩ := used
      cases depth with
      | zero => simp [clientsAt, takes] at done
      | succ less =>
          simp only [clientsAt, takes] at done
          exact Or.inr ⟨entry, taken, less, rfl, rfl, done⟩

/-- A service warns of an interrupt that is none of the controller's own, or dispatches its pin
and acknowledges it afterwards. -/
theorem service_cases {clients : Clients L} {c : Fin L.controllers} {s t : State L}
    {events : List (Event L)} (done : B.service clients c s = some (t, events)) :
    (B.controllers c).pin? s.interrupts.pending = none ∧ t = s ∧
      events = [.acted c (.log (.foreign s.interrupts.pending))] ∨
    ∃ p middle firings, (B.controllers c).pin? s.interrupts.pending = some p ∧
      B.dispatch clients (ownRegistry c) p.mask s = some (middle, firings) ∧
      t = B.act c middle ((B.controllers c).acknowledge middle.memory p) ∧
      events = .acted c (.log (.interrupt s.interrupts.pending p)) ::
        (firings.flatMap Firing.events ++
          [.acted c ((B.controllers c).acknowledge middle.memory p)]) := by
  cases own : (B.controllers c).pin? s.interrupts.pending with
  | none =>
      simp only [service, own, Option.some.injEq, Prod.mk.injEq] at done
      exact Or.inl ⟨rfl, done.1.symm, done.2.symm⟩
  | some p =>
      simp only [service, own] at done
      obtain ⟨⟨middle, firings⟩, dispatched, result⟩ := Option.bind_eq_some_iff.mp done
      obtain ⟨rfl, rfl⟩ := Prod.mk.inj (Option.some.inj result)
      exact Or.inr ⟨p, middle, firings, rfl, dispatched, rfl, rfl⟩

/-- A script entry goes on from the state that its first command leaves, and its events follow the
reply to the command. -/
theorem runEntry_cons {exec : State L → Command L → Option (Effect L)} {command : Command L}
    {rest : List (Command L)} {s t : State L} {events : List (Event L)}
    (done : runEntry exec (command :: rest) s = some (t, events)) :
    ∃ effect more, exec s command = some effect ∧
      runEntry exec rest effect.state = some (t, more) ∧
      events = effect.events ++ .did effect.reply :: more := by
  obtain ⟨effect, executed, onward⟩ := Option.bind_eq_some_iff.mp done
  obtain ⟨⟨final, more⟩, later, result⟩ := Option.bind_eq_some_iff.mp onward
  obtain ⟨rfl, rfl⟩ := Prod.mk.inj (Option.some.inj result)
  exact ⟨effect, more, executed, later, rfl⟩

end Board

end Gpio
