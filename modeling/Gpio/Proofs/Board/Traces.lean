import Gpio.Proofs.Board.Purge
import Gpio.Proofs.Board.Scripts

/-!
# Induction over what is carried out

A relation between states and the events between them holds of whatever a board carries out, with
all calls that are nested in it, if it holds of the single steps and can be put together
(`Board.Traces`). The commands may be restricted, as long as clients are restricted to the same
ones. In this way the replies that are seen in a session are traced back to operations
(`Board.replies_execAll`).
-/

namespace Gpio

variable {L : Layout}

namespace Board

/-- A reply that a command with a property may get: an answer, or what an operation with this
property gets in some state. -/
def Replies (B : Board L) (p : Command L → Prop) (reply : Reply) : Prop :=
  (∃ answer, reply = .answer answer) ∨
    ∃ s operation, p (.operation operation) ∧ reply = (B.operate s operation).reply

/-- An event that tells of no change: a call, a log entry, or a reply. -/
inductive Notes (B : Board L) (p : Command L → Prop) : Event L → Prop where
  | fired (call : Call L) : Notes B p (.fired call)
  | logged (c : Fin L.controllers) (entry : LogEntry) : Notes B p (.acted c (.log entry))
  | did {reply : Reply} (replies : B.Replies p reply) : Notes B p (.did reply)

/-- The relation holds of the single steps of a board whose clients give commands with a property
only, and of steps that follow one another. -/
structure Traces (B : Board L) (p : Command L → Prop)
    (R : State L → List (Event L) → State L → Prop) : Prop where
  append : ∀ {s t u first second}, R s first t → R t second u → R s (first ++ second) u
  /-- What is not seen leaves memory as it is. -/
  unseen : ∀ {s t}, t.Scripted p → t.memory = s.memory → R s [] t
  note : ∀ {s event}, s.Scripted p → B.Notes p event → R s [event] s
  operate : ∀ {s operation}, s.Scripted p → p (.operation operation) →
    R s (B.operate s operation).events (B.operate s operation).state
  /-- The acknowledgement that ends a service. -/
  close : ∀ {depth s t c q told}, R s told t → t.Scripted p →
    (B.controllers c).pin? s.interrupts.pending = some q →
    B.service (B.clientsAt depth) c s =
      some (B.act c t ((B.controllers c).acknowledge t.memory q),
        told ++ [.acted c ((B.controllers c).acknowledge t.memory q)]) →
    R s (told ++ [.acted c ((B.controllers c).acknowledge t.memory q)])
      (B.act c t ((B.controllers c).acknowledge t.memory q))

variable {B : Board L} {p : Command L → Prop} {R : State L → List (Event L) → State L → Prop}
  {c : Fin L.controllers} {s t : State L} {events : List (Event L)} {command : Command L}
  {depth : Nat}

/-- The reply to a command is an answer if the command is not an operation. -/
theorem replies_execWith {clients : Clients L} {effect : Effect L} (has : p command)
    (done : B.execWith clients s command = some effect) : B.Replies p effect.reply := by
  cases command with
  | operation operation =>
      obtain rfl := Option.some.inj done
      exact Or.inr ⟨s, operation, has, rfl⟩
  | dispatch r pins =>
      obtain ⟨_, _, result⟩ := Option.bind_eq_some_iff.mp done
      obtain rfl := Option.some.inj result
      exact Or.inl ⟨_, rfl⟩
  | service c =>
      obtain ⟨_, _, result⟩ := Option.bind_eq_some_iff.mp done
      obtain rfl := Option.some.inj result
      exact Or.inl ⟨_, rfl⟩
  | raise irq =>
      rw [execWith] at done
      split at done
      · obtain rfl := Option.some.inj done
        exact Or.inl ⟨_, rfl⟩
      · obtain ⟨_, _, result⟩ := Option.bind_eq_some_iff.mp done
        obtain rfl := Option.some.inj result
        exact Or.inl ⟨_, rfl⟩

namespace Traces

/-- The relation holds of the calls of clients, which leave scripts with the property. -/
def Calls (B : Board L) (p : Command L → Prop) (R : State L → List (Event L) → State L → Prop)
    (depth : Nat) : Prop :=
  ∀ ⦃call s t within⦄, s.Scripted p → B.clientsAt depth call s = some (t, within) →
    R s within t ∧ t.Scripted p

theorem dispatch (traces : B.Traces p R) (calls : Calls B p R depth) (scripted : s.Scripted p)
    {r : Fin L.lists} {pins : Word} {firings : List (Firing L)}
    (done : B.dispatch (B.clientsAt depth) r pins s = some (t, firings)) :
    R s (firings.flatMap Firing.events) t ∧ t.Scripted p := by
  have turns := dispatches_of_dispatchFrom done
  generalize Link.head r = link at turns
  clear done
  induction turns with
  | stop empty => exact ⟨traces.unseen scripted rfl, scripted⟩
  | pass found deaf _ ih => exact ih scripted
  | call found listens called _ ih =>
      obtain ⟨within, left⟩ := calls scripted called
      obtain ⟨others, left⟩ := ih left
      exact ⟨traces.append (traces.append (traces.note scripted (.fired _)) within) others, left⟩

theorem service (traces : B.Traces p R) (calls : Calls B p R depth) (scripted : s.Scripted p)
    (done : B.service (B.clientsAt depth) c s = some (t, events)) :
    R s events t ∧ t.Scripted p := by
  have served := done
  rcases service_cases done with ⟨_, rfl, rfl⟩ | ⟨q, middle, firings, own, dispatched, rfl, rfl⟩
  · exact ⟨traces.note scripted (.logged c _), scripted⟩
  · obtain ⟨called, left⟩ := traces.dispatch calls scripted dispatched
    have logged := traces.note scripted (.logged c (.interrupt s.interrupts.pending q))
    have told := traces.append logged called
    exact ⟨traces.close told left own served, left.of_scripts (B.scripts_act c middle _)⟩

theorem execWith (traces : B.Traces p R) (calls : Calls B p R depth) (scripted : s.Scripted p)
    (has : p command) {effect : Effect L}
    (done : B.execWith (B.clientsAt depth) s command = some effect) :
    R s effect.events effect.state ∧ effect.state.Scripted p := by
  cases command with
  | operation operation =>
      obtain rfl := Option.some.inj done
      exact ⟨traces.operate scripted has, scripted.of_scripts (scripts_operate operation)⟩
  | dispatch r pins =>
      obtain ⟨⟨final, firings⟩, dispatched, result⟩ := Option.bind_eq_some_iff.mp done
      obtain rfl := Option.some.inj result
      exact traces.dispatch calls scripted dispatched
  | service c =>
      obtain ⟨⟨final, events⟩, served, result⟩ := Option.bind_eq_some_iff.mp done
      obtain rfl := Option.some.inj result
      exact traces.service calls scripted served
  | raise irq =>
      rw [Board.execWith] at done
      split at done
      · obtain rfl := Option.some.inj done
        exact ⟨traces.unseen scripted rfl, scripted⟩
      · obtain ⟨⟨final, events⟩, served, result⟩ := Option.bind_eq_some_iff.mp done
        obtain rfl := Option.some.inj result
        have ready : State.Scripted
            { s with interrupts := { s.interrupts with pending := irq } } p :=
          scripted.of_scripts rfl
        have delivered : R s [] { s with interrupts := { s.interrupts with pending := irq } } :=
          traces.unseen ready rfl
        obtain ⟨told, left⟩ := traces.service calls ready served
        exact ⟨traces.append delivered told, left⟩

theorem runEntry (traces : B.Traces p R) (calls : Calls B p R depth) {entry : List (Command L)}
    (each : ∀ command ∈ entry, p command) (scripted : s.Scripted p)
    (done : Board.runEntry (B.execWith (B.clientsAt depth)) entry s = some (t, events)) :
    R s events t ∧ t.Scripted p := by
  induction entry generalizing s events with
  | nil =>
      obtain ⟨rfl, rfl⟩ := Prod.mk.inj (Option.some.inj done)
      exact ⟨traces.unseen scripted rfl, scripted⟩
  | cons command rest ih =>
      obtain ⟨effect, more, executed, later, rfl⟩ := runEntry_cons done
      obtain ⟨has, others⟩ := List.forall_mem_cons.mp each
      obtain ⟨first, left⟩ := traces.execWith calls scripted has executed
      obtain ⟨onward, last⟩ := ih others left later
      have replied := traces.note left (.did (replies_execWith has executed))
      exact ⟨traces.append first (traces.append replied onward), last⟩

/-- By induction on the depth to which calls are nested. -/
theorem calls (traces : B.Traces p R) (depth : Nat) : Calls B p R depth := by
  induction depth with
  | zero =>
      intro call s t within scripted done
      rcases clientsAt_cases done with ⟨_, rfl, rfl⟩ | ⟨_, _, _, _, positive, _⟩
      · exact ⟨traces.unseen scripted rfl, scripted⟩
      · exact nomatch positive
  | succ depth ih =>
      intro call s t within scripted done
      rcases clientsAt_cases done with ⟨_, rfl, rfl⟩ | ⟨entry, taken, less, takes, same, runs⟩
      · exact ⟨traces.unseen scripted rfl, scripted⟩
      · obtain rfl := Nat.succ.inj same
        obtain ⟨has, left⟩ := scripted.takeNext? takes
        obtain ⟨told, last⟩ := traces.runEntry ih has left runs
        exact ⟨traces.append (traces.unseen left (State.memory_takeNext? takes)) told, last⟩

theorem execAll (traces : B.Traces p R) (scripted : s.Scripted p) {commands : List (Command L)}
    (each : ∀ command ∈ commands, p command) {effects : List (Effect L)}
    (done : B.execAll s commands = some effects) :
    R s (effects.flatMap Effect.events) (lastState s effects) := by
  induction commands generalizing s effects with
  | nil =>
      obtain rfl := Option.some.inj done
      exact traces.unseen scripted rfl
  | cons command rest ih =>
      obtain ⟨effect, others, executed, onward, rfl⟩ := execAll_cons_eq_some_iff.mp done
      obtain ⟨has, later⟩ := List.forall_mem_cons.mp each
      obtain ⟨first, left⟩ := traces.execWith (traces.calls _) scripted has executed
      exact traces.append first (ih left later onward)

end Traces

/-! ## Replies -/

theorem traces_replies (B : Board L) (p : Command L → Prop) :
    B.Traces p fun _ events _ => ∀ reply, .did reply ∈ events → B.Replies p reply where
  append := by
    intro s t u first second before after reply mem
    exact (List.mem_append.mp mem).elim (before reply) (after reply)
  unseen := by simp
  note := by
    intro s event _ notes reply mem
    obtain rfl := List.mem_singleton.mp mem
    cases notes with
    | did replies => exact replies
  operate := by
    intro s operation _ _ reply mem
    rcases acted_or_wrote_of_mem_operate mem with ⟨_, _, other⟩ | ⟨_, _, other⟩ <;>
      exact nomatch other
  close := by
    intro depth s t c q told before _ _ _ reply mem
    exact before reply (by simpa using mem)

theorem exists_exec_of_mem {commands : List (Command L)} {effects : List (Effect L)}
    (done : B.execAll s commands = some effects) {effect : Effect L} (mem : effect ∈ effects) :
    ∃ command ∈ commands, ∃ t, B.exec t command = some effect := by
  induction commands generalizing s effects with
  | nil =>
      obtain rfl := Option.some.inj done
      exact nomatch mem
  | cons command rest ih =>
      obtain ⟨first, others, executed, onward, rfl⟩ := execAll_cons_eq_some_iff.mp done
      rcases List.mem_cons.mp mem with rfl | later
      · exact ⟨command, List.mem_cons_self, s, executed⟩
      · obtain ⟨other, given, t, executed⟩ := ih onward later
        exact ⟨other, List.mem_cons_of_mem command given, t, executed⟩

/-- Every reply in a session, also one that a client gets while it is being called, is an answer or
what an operation gets in some state. -/
theorem replies_execAll (scripted : s.Scripted p) {commands : List (Command L)}
    (each : ∀ command ∈ commands, p command) {effects : List (Effect L)}
    (done : B.execAll s commands = some effects) {effect : Effect L} (mem : effect ∈ effects) :
    B.Replies p effect.reply ∧ ∀ reply, .did reply ∈ effect.events → B.Replies p reply := by
  constructor
  · obtain ⟨command, given, t, executed⟩ := exists_exec_of_mem done mem
    exact replies_execWith (each command given) executed
  · intro reply told
    exact (B.traces_replies p).execAll scripted each done reply
      (List.mem_flatMap.mpr ⟨effect, mem, told⟩)

end Board

end Gpio
