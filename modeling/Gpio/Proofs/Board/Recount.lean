import Gpio.Proofs.Board.Machine

/-!
# The machine and the effects of commands

The machine does what the effect of a command says (`Runs.exec`). On its way it makes the calls of
which the events of the effect tell, also those that are made within other calls, and in the same
order (`Recounts`).
-/

namespace Gpio

variable {L : Layout}

namespace Machine

/-- The call of a client that the next step makes. -/
def call? (B : Board L) (m : Machine L) : Option (Call L) :=
  match m.tasks with
  | .walk pins link :: _ =>
      (m.state.links.read link).bind fun callback =>
        if m.state.mask callback &&& pins = 0 then none
        else some (B.callOf callback (m.state.mask callback &&& pins))
  | _ => none

/-- The step of a dispatch is about the callback that it finds where it stands. -/
theorem call?_eq {B : Board L} {m : Machine L} {pins : Word} {link : Link L.lists L.callbacks}
    {tasks : List (Task L)} (top : m.tasks = .walk pins link :: tasks) :
    m.call? B = (m.state.links.read link).bind fun callback =>
      if m.state.mask callback &&& pins = 0 then none
      else some (B.callOf callback (m.state.mask callback &&& pins)) := by
  rw [call?, top]

end Machine

/-- The call that an event tells of. -/
def Event.call? : Event L → Option (Call L)
  | .fired call => some call
  | _ => none

/-- The calls that events tell of, in order. -/
def callsIn (events : List (Event L)) : List (Call L) := events.filterMap Event.call?

theorem callsIn_append (first second : List (Event L)) :
    callsIn (first ++ second) = callsIn first ++ callsIn second :=
  List.filterMap_append

namespace Board

/-- No client is called by an operation. -/
theorem callsIn_operate (B : Board L) (s : State L) (operation : Operation L) :
    callsIn (B.operate s operation).events = [] := by
  refine List.filterMap_eq_nil_iff.mpr fun event mem => ?_
  rcases acted_or_wrote_of_mem_operate mem with ⟨c, action, rfl⟩ | ⟨m, w, rfl⟩ <;> rfl

variable {B : Board L} {m middle next last : Machine L} {deeds : List (Deed L)}
  {history : List (Machine L)} {events first second : List (Event L)}

/-! ## Histories -/

/-- A board passes through these machines, taking a step at each of them. -/
inductive Passes (B : Board L) : Machine L → List (Machine L) → Machine L → Prop where
  | refl (m : Machine L) : Passes B m [] m
  | step {m next last : Machine L} {deeds : List (Deed L)} {history : List (Machine L)}
      (step : B.Step m deeds next) (passes : Passes B next history last) :
      Passes B m (m :: history) last

theorem Passes.trans {rest : List (Machine L)} (before : B.Passes m history middle)
    (after : B.Passes middle rest last) : B.Passes m (history ++ rest) last := by
  induction before with
  | refl _ => exact after
  | step step _ ih => exact .step step (ih after)

theorem Passes.exists_runs (passes : B.Passes m history last) : ∃ deeds, B.Runs m deeds last := by
  induction passes with
  | refl m => exact ⟨[], .refl m⟩
  | step step _ ih =>
      obtain ⟨deeds, runs⟩ := ih
      exact ⟨_, .step step runs⟩

/-! ## Calls and events -/

/-- The calls that are made in a history, at whatever depth. -/
def allCalls (B : Board L) (history : List (Machine L)) : List (Call L) :=
  history.filterMap (Machine.call? B)

/-- On the way from one machine to another a board makes the calls that events tell of. -/
def Recounts (B : Board L) (m : Machine L) (events : List (Event L)) (last : Machine L) : Prop :=
  ∃ history, B.Passes m history last ∧ B.allCalls history = callsIn events

namespace Recounts

theorem refl (m : Machine L) : B.Recounts m [] m := ⟨[], .refl m, rfl⟩

theorem trans (before : B.Recounts m first middle) (after : B.Recounts middle second last) :
    B.Recounts m (first ++ second) last := by
  obtain ⟨earlier, passes, told⟩ := before
  obtain ⟨later, onward, more⟩ := after
  refine ⟨earlier ++ later, passes.trans onward, ?_⟩
  rw [allCalls, List.filterMap_append, callsIn_append, ← told, ← more]
  rfl

/-- Events of other kinds do not count. -/
theorem of_callsIn (recounts : B.Recounts m first last) (same : callsIn second = callsIn first) :
    B.Recounts m second last := by
  obtain ⟨history, passes, told⟩ := recounts
  exact ⟨history, passes, told.trans same.symm⟩

theorem exists_runs (recounts : B.Recounts m events last) : ∃ deeds, B.Runs m deeds last := by
  obtain ⟨history, passes, _⟩ := recounts
  exact passes.exists_runs

/-- A step that calls nobody. -/
theorem step (step : B.Step m deeds next) (quiet : m.call? B = none)
    (rest : B.Recounts next events last) : B.Recounts m events last := by
  obtain ⟨history, passes, told⟩ := rest
  exact ⟨m :: history, .step step passes, (List.filterMap_cons_none quiet).trans told⟩

/-- A step that makes a call. -/
theorem call (step : B.Step m deeds next) {call : Call L} (calls : m.call? B = some call)
    (rest : B.Recounts next events last) : B.Recounts m (.fired call :: events) last := by
  obtain ⟨history, passes, told⟩ := rest
  refine ⟨m :: history, .step step passes, (List.filterMap_cons_some calls).trans ?_⟩
  exact congrArg (call :: ·) told

end Recounts

/-- A call of a client does nothing, or uses up an entry whose commands make the calls that are
told of. -/
def Recounted (B : Board L) (clients : Clients L) : Prop :=
  ∀ ⦃call s t within⦄, clients call s = some (t, within) →
    s.takeNext? call.client = none ∧ t = s ∧ within = [] ∨
    ∃ entry taken, s.takeNext? call.client = some (entry, taken) ∧
      ∀ tasks, B.Recounts ⟨taken, .commands entry :: tasks⟩ within ⟨t, tasks⟩

namespace Recounted

variable {clients : Clients L}

theorem dispatch (recounted : B.Recounted clients) {r : Fin L.lists} {pins : Word}
    {s t : State L} {firings : List (Firing L)}
    (done : B.dispatch clients r pins s = some (t, firings)) (tasks : List (Task L)) :
    B.Recounts ⟨s, .walk pins (.head r) :: tasks⟩ (firings.flatMap Firing.events) ⟨t, tasks⟩ := by
  have turns := dispatches_of_dispatchFrom done
  generalize Link.head r = link at turns
  clear done
  induction turns with
  | stop empty =>
      exact .step (.stop pins tasks empty) (by rw [Machine.call?_eq rfl, empty]; rfl) (.refl _)
  | pass found deaf _ ih =>
      refine .step (.pass tasks found deaf) ?_ ih
      rw [Machine.call?_eq rfl, found, Option.bind_some, if_pos deaf]
  | @call link s _ _ callback within firings found listens called _ ih =>
      have calls : Machine.call? B ⟨s, .walk pins link :: tasks⟩ =
          some (B.callOf callback (s.mask callback &&& pins)) := by
        rw [Machine.call?_eq rfl, found, Option.bind_some, if_neg listens]
      rcases recounted called with ⟨idle, rfl, rfl⟩ | ⟨entry, taken, takes, inside⟩
      · exact .call (.callIdle tasks found listens idle) calls ih
      · exact .call (.call tasks found listens takes) calls ((inside _).trans ih)

theorem service (recounted : B.Recounted clients) {c : Fin L.controllers} {s t : State L}
    (done : B.service clients c s = some (t, events)) (rest : List (Command L))
    (tasks : List (Task L)) :
    B.Recounts ⟨s, .commands (.service c :: rest) :: tasks⟩ events
      ⟨t, .commands rest :: tasks⟩ := by
  rcases service_cases done with
    ⟨missing, rfl, rfl⟩ | ⟨p, middle, firings, own, dispatched, rfl, rfl⟩
  · exact .of_callsIn (.step (.foreign rest tasks missing) rfl (.refl _)) rfl
  · have calls := recounted.dispatch dispatched (.acknowledge c p :: .commands rest :: tasks)
    have closes : B.Recounts ⟨middle, .acknowledge c p :: .commands rest :: tasks⟩
        [.acted c ((B.controllers c).acknowledge middle.memory p)]
        ⟨B.act c middle ((B.controllers c).acknowledge middle.memory p),
          .commands rest :: tasks⟩ :=
      .of_callsIn (.step (.acknowledge middle c p _) rfl (.refl _)) rfl
    exact .of_callsIn (.step (.service rest tasks own) rfl (calls.trans closes)) rfl

theorem execWith (recounted : B.Recounted clients) {s : State L} {command : Command L}
    {effect : Effect L} (done : B.execWith clients s command = some effect)
    (rest : List (Command L)) (tasks : List (Task L)) :
    B.Recounts ⟨s, .commands (command :: rest) :: tasks⟩ effect.events
      ⟨effect.state, .commands rest :: tasks⟩ := by
  cases command with
  | operation operation =>
      obtain rfl := Option.some.inj done
      exact .of_callsIn (.step (.operate s operation rest tasks) rfl (.refl _))
        (B.callsIn_operate s operation)
  | dispatch r pins =>
      obtain ⟨⟨final, firings⟩, dispatched, result⟩ := Option.bind_eq_some_iff.mp done
      obtain rfl := Option.some.inj result
      exact .step (.dispatch s r pins rest tasks) rfl (recounted.dispatch dispatched _)
  | service c =>
      obtain ⟨⟨final, events⟩, served, result⟩ := Option.bind_eq_some_iff.mp done
      obtain rfl := Option.some.inj result
      exact recounted.service served rest tasks
  | raise irq =>
      simp only [Board.execWith] at done
      split at done
      · rename_i receiver
        obtain rfl := Option.some.inj done
        exact .step (.ignore rest tasks receiver) rfl (.refl _)
      · rename_i c receiver
        obtain ⟨⟨final, events⟩, served, result⟩ := Option.bind_eq_some_iff.mp done
        obtain rfl := Option.some.inj result
        exact .step (.deliver rest tasks receiver) rfl (recounted.service served rest tasks)

theorem runEntry (recounted : B.Recounted clients) {entry : List (Command L)} {s t : State L}
    (done : Board.runEntry (B.execWith clients) entry s = some (t, events))
    (tasks : List (Task L)) :
    B.Recounts ⟨s, .commands entry :: tasks⟩ events ⟨t, tasks⟩ := by
  induction entry generalizing s events with
  | nil =>
      obtain ⟨rfl, rfl⟩ := Prod.mk.inj (Option.some.inj done)
      exact .step (.finish s tasks) rfl (.refl _)
  | cons command rest ih =>
      obtain ⟨effect, more, executed, later, rfl⟩ := runEntry_cons done
      have recounts := (recounted.execWith executed rest tasks).trans (ih later)
      refine recounts.of_callsIn ?_
      rw [callsIn_append, callsIn_append]
      rfl

end Recounted

/-- The calls of scripted clients are told of, at any depth. -/
theorem recounted_clientsAt (B : Board L) (depth : Nat) : B.Recounted (B.clientsAt depth) := by
  induction depth with
  | zero =>
      intro call s t within done
      rcases clientsAt_cases done with idle | ⟨_, _, _, _, positive, _⟩
      · exact Or.inl idle
      · exact nomatch positive
  | succ depth ih =>
      intro call s t within done
      rcases clientsAt_cases done with idle | ⟨entry, taken, less, takes, same, runs⟩
      · exact Or.inl idle
      · obtain rfl := Nat.succ.inj same
        exact Or.inr ⟨entry, taken, takes, ih.runEntry runs⟩

/-- A call of a client does nothing, or uses up an entry and carries out its commands. -/
def PlaysOut (B : Board L) (clients : Clients L) : Prop :=
  ∀ ⦃call s t within⦄, clients call s = some (t, within) →
    s.takeNext? call.client = none ∧ t = s ∨
    ∃ entry taken, s.takeNext? call.client = some (entry, taken) ∧
      ∀ tasks, ∃ deeds, B.Runs ⟨taken, .commands entry :: tasks⟩ deeds ⟨t, tasks⟩

theorem playsOut_clientsAt (B : Board L) (depth : Nat) : B.PlaysOut (B.clientsAt depth) := by
  intro call s t within done
  rcases B.recounted_clientsAt depth done with ⟨idle, rfl, _⟩ | ⟨entry, taken, takes, plays⟩
  · exact Or.inl ⟨idle, rfl⟩
  · exact Or.inr ⟨entry, taken, takes, fun tasks => (plays tasks).exists_runs⟩

/-- The machine carries out a command as its effect says. -/
theorem Runs.exec {s : State L} {command : Command L} {effect : Effect L}
    (done : B.exec s command = some effect) (rest : List (Command L)) (tasks : List (Task L)) :
    ∃ deeds, B.Runs ⟨s, .commands (command :: rest) :: tasks⟩ deeds
      ⟨effect.state, .commands rest :: tasks⟩ :=
  ((B.recounted_clientsAt s.entriesLeft).execWith done rest tasks).exists_runs

theorem Runs.execAll {s : State L} {commands : List (Command L)} {effects : List (Effect L)}
    (done : B.execAll s commands = some effects) {effect : Effect L} (mem : effect ∈ effects)
    (tasks : List (Task L)) :
    ∃ deeds rest, B.Runs ⟨s, .commands commands :: tasks⟩ deeds
      ⟨effect.state, .commands rest :: tasks⟩ := by
  induction commands generalizing s effects with
  | nil =>
      obtain rfl := Option.some.inj done
      exact nomatch mem
  | cons command rest ih =>
      obtain ⟨first, executed, onward⟩ := Option.bind_eq_some_iff.mp done
      obtain ⟨others, later, result⟩ := Option.bind_eq_some_iff.mp onward
      obtain rfl := Option.some.inj result
      obtain ⟨deeds, runs⟩ := Runs.exec executed rest tasks
      rcases List.mem_cons.mp mem with rfl | mem
      · exact ⟨deeds, rest, runs⟩
      · obtain ⟨more, left, after⟩ := ih later mem
        exact ⟨_, left, runs.trans after⟩

/-- The states after the commands of a session are reachable. -/
theorem reachable_of_execAll {memory : Memory L.words} {masks : Vector Word L.callbacks}
    {scripts : Vector (Script L) L.clients} {commands : List (Command L)}
    {effects : List (Effect L)}
    (done : B.execAll (.start memory masks scripts) commands = some effects) {effect : Effect L}
    (mem : effect ∈ effects) : B.Reachable effect.state := by
  obtain ⟨deeds, rest, runs⟩ := Runs.execAll done mem []
  exact ⟨memory, masks, scripts, commands, deeds, _, runs⟩

end Board

end Gpio
