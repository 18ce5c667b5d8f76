import Gpio.Proofs.Board.Acyclic
import Gpio.Proofs.Board.Recount
import Gpio.Proofs.Registry.Moves
import Mathlib.Data.List.TakeWhile

/-!
# Histories of a board

A history is the list of machines at which a board takes its steps, one after another. What a
step is about to do shows in its machine: the edit of a registry that it makes (`change?`), the
call of a client (`call?`), and where the dispatches stand that are under way (`dispatch?`).
A dispatch is known by its depth, the number of tasks below it, and the calls that it makes
itself are those of the steps in which it is the task on top (`ownCalls`). They are the calls
that the effect of the dispatch tells of (`PlaysOut.passes_of_dispatchFrom`).
-/

namespace Gpio

open Links

variable {L : Layout}

namespace Machine

/-- The edit of a registry that the next step makes. -/
def change? (m : Machine L) : Option (RegistryChange L.lists L.callbacks L.clients) :=
  match m.tasks with
  | .commands (.operation (.edit r edit) :: _) :: _ => some ⟨r, edit⟩
  | _ => none

/-- The dispatch under way that has so many tasks below it: its pins, and where it stands. -/
def dispatch? (m : Machine L) (depth : Nat) : Option (Word × Link L.lists L.callbacks) :=
  match m.tasks.reverse[depth]? with
  | some (.walk pins link) => some (pins, link)
  | _ => none

/-- With the next step a callback comes into a registry. -/
def Enters (B : Board L) (m : Machine L) (callback : Fin L.callbacks) : Prop :=
  ∃ change ∈ m.change?, change.Enters B.clientOf m.state.links callback

/-- With the next step a callback goes out of a registry. -/
def Leaves (B : Board L) (m : Machine L) (callback : Fin L.callbacks) : Prop :=
  ∃ change ∈ m.change?, change.Leaves B.clientOf m.state.links callback

/-- The machine with tasks put below its own. -/
def atop (m : Machine L) (tasks : List (Task L)) : Machine L :=
  { m with tasks := m.tasks ++ tasks }

/-- Only a dispatch makes calls, each of the callback that it finds where it stands. -/
theorem exists_walk_of_call? {B : Board L} {m : Machine L} {call : Call L}
    (calls : m.call? B = some call) :
    ∃ pins link tasks, m.tasks = .walk pins link :: tasks ∧
      m.state.links.read link = some call.callback := by
  rw [call?] at calls
  split at calls
  · rename_i pins link tasks top
    obtain ⟨callback, found, calls⟩ := Option.bind_eq_some_iff.mp calls
    split at calls
    · cases calls
    · obtain rfl := Option.some.inj calls
      exact ⟨pins, link, tasks, top, found⟩
  · cases calls

/-- An edit is given by a command, so the step that makes it is not the turn of a dispatch. -/
theorem call?_eq_none_of_enters {B : Board L} {m : Machine L} {callback : Fin L.callbacks}
    (enters : m.Enters B callback) : m.call? B = none := by
  obtain ⟨change, edits, _⟩ := enters
  rw [Option.eq_none_iff_forall_ne_some]
  intro call calls
  obtain ⟨pins, link, tasks, top, _⟩ := exists_walk_of_call? calls
  rw [change?, top] at edits
  exact nomatch edits

theorem dispatch?_of_append {m : Machine L} {above below : List (Task L)} {depth : Nat}
    (split : m.tasks = above ++ below) (inside : depth < below.length) :
    m.dispatch? depth = dispatch? ⟨m.state, below⟩ depth := by
  have same : m.tasks.reverse[depth]? = below.reverse[depth]? := by
    rw [split, List.reverse_append, List.getElem?_append_left (by rwa [List.length_reverse])]
  rw [dispatch?, dispatch?, same]

theorem dispatch?_cons (s : State L) (task : Task L) (tasks : List (Task L)) :
    dispatch? ⟨s, task :: tasks⟩ tasks.length =
      match task with
      | .walk pins link => some (pins, link)
      | _ => none := by
  have top : (task :: tasks).reverse[tasks.length]? = some task := by
    rw [List.reverse_cons, List.getElem?_append_right (by rw [List.length_reverse]),
      List.length_reverse, Nat.sub_self, List.getElem?_cons_zero]
  rw [dispatch?, top]
  cases task <;> rfl

theorem dispatch?_of_walk {m : Machine L} {pins : Word} {link : Link L.lists L.callbacks}
    {tasks : List (Task L)} (top : m.tasks = .walk pins link :: tasks) :
    m.dispatch? tasks.length = some (pins, link) := by
  obtain ⟨s, _⟩ := m
  obtain rfl := top
  exact dispatch?_cons s (.walk pins link) tasks

theorem lt_length_of_dispatch? {m : Machine L} {depth : Nat}
    {place : Word × Link L.lists L.callbacks} (dispatches : m.dispatch? depth = some place) :
    depth < m.tasks.length := by
  rw [dispatch?] at dispatches
  split at dispatches
  · rename_i found
    simpa using (List.getElem?_eq_some_iff.mp found).1
  · exact nomatch dispatches

/-- A dispatch that has all other tasks below it is the task on top. -/
theorem eq_walk_of_dispatch? {s : State L} {task : Task L} {tasks : List (Task L)} {pins : Word}
    {link : Link L.lists L.callbacks}
    (dispatches : dispatch? ⟨s, task :: tasks⟩ tasks.length = some (pins, link)) :
    task = .walk pins link := by
  rw [dispatch?_cons] at dispatches
  cases task with
  | walk others place =>
      obtain ⟨rfl, rfl⟩ := Prod.mk.inj (Option.some.inj dispatches)
      rfl
  | commands commands => exact nomatch dispatches
  | acknowledge c p => exact nomatch dispatches

end Machine

/-- What is set last in a history. -/
def latest? {α : Type} (sets? : Machine L → Option α) (history : List (Machine L)) : Option α :=
  (history.filterMap sets?).getLast?

section Latest

variable {α : Type} {sets? : Machine L → Option α}

theorem latest?_cons (m : Machine L) (history : List (Machine L)) :
    latest? sets? (m :: history) = (latest? sets? history).or (sets? m) := by
  rw [latest?, latest?, List.filterMap_cons]
  cases sets? m with
  | none => exact Option.or_none.symm
  | some first => simp [List.getLast?_cons]

theorem latest?_eq_none {history : List (Machine L)} (unset : ∀ m ∈ history, sets? m = none) :
    latest? sets? history = none := by
  rw [latest?, List.filterMap_eq_nil_iff.mpr unset, List.getLast?_nil]

theorem exists_mem_of_latest? {history : List (Machine L)} {last : α}
    (sets : latest? sets? history = some last) : ∃ m ∈ history, sets? m = some last :=
  List.mem_filterMap.mp (List.mem_of_getLast? sets)

theorem exists_latest?_iff {history : List (Machine L)} :
    (∃ last, latest? sets? history = some last) ↔ ∃ m ∈ history, ∃ value, sets? m = some value := by
  constructor
  · rintro ⟨last, sets⟩
    obtain ⟨m, mem, set⟩ := exists_mem_of_latest? sets
    exact ⟨m, mem, last, set⟩
  · rintro ⟨m, mem, value, set⟩
    have met := List.mem_filterMap.mpr ⟨m, mem, set⟩
    exact ⟨_, List.getLast?_eq_some_getLast (List.ne_nil_of_mem met)⟩

end Latest

namespace Board

variable {B : Board L}

/-! ## What a step does -/

/-- A step is taken by the task on top, and leaves those below it. It puts no dispatch below
another task, except for the one that makes a call. -/
theorem Step.tasks_eq {m next : Machine L} {deeds : List (Deed L)} (step : B.Step m deeds next) :
    ∃ task above below, m.tasks = task :: below ∧ next.tasks = above ++ below ∧
      ∀ pins link, .walk pins link ∈ above.tail →
        above.tail = [.walk pins link] ∧ (m.call? B).isSome := by
  cases step with
  | operate s operation rest tasks => exact ⟨_, [.commands rest], tasks, rfl, rfl, by simp⟩
  | dispatch s r pins rest tasks =>
      exact ⟨_, [.walk pins (.head r), .commands rest], tasks, rfl, rfl, by simp⟩
  | @service s c p rest tasks own =>
      exact ⟨_, [.walk p.mask (.head (ownRegistry c)), .acknowledge c p, .commands rest], tasks,
        rfl, rfl, by simp⟩
  | foreign rest tasks missing => exact ⟨_, [.commands rest], tasks, rfl, rfl, by simp⟩
  | @deliver s irq c rest tasks receiver =>
      exact ⟨_, [.commands (.service c :: rest)], tasks, rfl, rfl, by simp⟩
  | ignore rest tasks receiver => exact ⟨_, [.commands rest], tasks, rfl, rfl, by simp⟩
  | finish s tasks => exact ⟨_, [], tasks, rfl, rfl, by simp⟩
  | stop pins tasks empty => exact ⟨_, [], tasks, rfl, rfl, by simp⟩
  | @pass s link callback pins tasks found deaf =>
      exact ⟨_, [.walk pins (.next callback)], tasks, rfl, rfl, by simp⟩
  | @call s t link callback pins entry tasks found listens taken =>
      refine ⟨_, [.commands entry, .walk pins (.next callback)], tasks, rfl, rfl, ?_⟩
      simpa [Machine.call?, found] using listens
  | @callIdle s link callback pins tasks found listens idle =>
      exact ⟨_, [.walk pins (.next callback)], tasks, rfl, rfl, by simp⟩
  | acknowledge s c p tasks => exact ⟨_, [], tasks, rfl, rfl, by simp⟩

/-- A step changes links by the edit that it makes, if it makes one. -/
theorem Step.links_eq {m next : Machine L} {deeds : List (Deed L)} (step : B.Step m deeds next) :
    next.state.links =
      match m.change? with
      | some change => change.apply B.clientOf m.state.links
      | none => m.state.links := by
  cases step with
  | operate s operation rest tasks =>
      rw [links_operate]
      cases operation <;> rfl
  | acknowledge s c p tasks => exact B.links_act c s _
  | call tasks found listens taken => exact State.links_takeNext? taken
  | _ => rfl

/-- A turn of a dispatch ends it, or takes it past a callback, which may be called meanwhile. -/
theorem Step.walk_cases {s : State L} {pins : Word} {link : Link L.lists L.callbacks}
    {tasks : List (Task L)} {next : Machine L} {deeds : List (Deed L)}
    (step : B.Step ⟨s, .walk pins link :: tasks⟩ deeds next) :
    s.links.read link = none ∧ next.tasks = tasks ∨
      ∃ callback above, s.links.read link = some callback ∧ next.state.links = s.links ∧
        next.tasks = above ++ .walk pins (.next callback) :: tasks := by
  cases step with
  | stop pins tasks empty => exact Or.inl ⟨empty, rfl⟩
  | @pass s link callback pins tasks found deaf => exact Or.inr ⟨callback, [], found, rfl, rfl⟩
  | @call s t link callback pins entry tasks found listens taken =>
      exact Or.inr ⟨callback, [.commands entry], found, State.links_takeNext? taken, rfl⟩
  | @callIdle s link callback pins tasks found listens idle =>
      exact Or.inr ⟨callback, [], found, rfl, rfl⟩

/-- What a step does to a dispatch under way: it happens within a call of the dispatch, or
is a turn of the dispatch itself, the last one if there is no callback where it stands. -/
inductive Progress (m next : Machine L) (depth : Nat) (pins : Word)
    (link : Link L.lists L.callbacks) : Prop where
  | within (deeper : depth + 1 < m.tasks.length)
      (dispatches : next.dispatch? depth = some (pins, link))
  | stop (tasks : List (Task L)) (top : m.tasks = .walk pins link :: tasks)
      (below : tasks.length = depth) (empty : m.state.links.read link = none)
      (ended : next.tasks = tasks)
  | turn (tasks : List (Task L)) (callback : Fin L.callbacks)
      (top : m.tasks = .walk pins link :: tasks) (below : tasks.length = depth)
      (found : m.state.links.read link = some callback)
      (links : next.state.links = m.state.links)
      (dispatches : next.dispatch? depth = some (pins, .next callback))

theorem Step.progress {m next : Machine L} {deeds : List (Deed L)} (step : B.Step m deeds next)
    {depth : Nat} {pins : Word} {link : Link L.lists L.callbacks}
    (dispatches : m.dispatch? depth = some (pins, link)) : Progress m next depth pins link := by
  obtain ⟨task, above, below, before, after, _⟩ := step.tasks_eq
  obtain ⟨s, tasks⟩ := m
  obtain rfl : tasks = task :: below := before
  have inside := Machine.lt_length_of_dispatch? dispatches
  rcases Nat.lt_or_eq_of_le (Nat.le_of_lt_succ inside) with deeper | same
  · refine .within (Nat.succ_lt_succ deeper) ?_
    rw [Machine.dispatch?_of_append after deeper]
    rwa [Machine.dispatch?_of_append (List.singleton_append (x := task)).symm deeper] at dispatches
  · subst same
    obtain rfl := Machine.eq_walk_of_dispatch? dispatches
    rcases step.walk_cases with ⟨empty, ended⟩ | ⟨callback, above, found, links, tasks⟩
    · exact .stop below rfl rfl empty ended
    · refine .turn below callback rfl rfl found links ?_
      rw [Machine.dispatch?_of_append tasks (Nat.lt_succ_self _)]
      exact Machine.dispatch?_cons _ _ below

/-- An edit is made within a call, and does not move the dispatches that are under way. -/
theorem Step.dispatch?_of_edit {m next : Machine L} {deeds : List (Deed L)}
    (step : B.Step m deeds next) {change : RegistryChange L.lists L.callbacks L.clients}
    (edits : m.change? = some change) {depth : Nat} {place : Word × Link L.lists L.callbacks}
    (dispatches : m.dispatch? depth = some place) : next.dispatch? depth = some place := by
  cases step.progress dispatches with
  | within _ still => exact still
  | stop tasks top _ _ _ | turn tasks _ top _ _ _ _ =>
      rw [Machine.change?, top] at edits
      exact nomatch edits

/-- There is one way to go on from a machine. -/
theorem Step.unique {m first second : Machine L} {deeds others : List (Deed L)}
    (left : B.Step m deeds first) (right : B.Step m others second) : first = second := by
  cases left <;> cases right <;> simp_all

theorem Step.atop {m next : Machine L} {deeds : List (Deed L)} (step : B.Step m deeds next)
    (tasks : List (Task L)) : B.Step (m.atop tasks) deeds (next.atop tasks) := by
  cases step with
  | callIdle tasks found listens idle => exact .callIdle _ found listens idle
  | _ => constructor <;> assumption

/-! ## Histories -/

/-- The part of a history until a dispatch ends that has so many tasks below it. -/
def during (depth : Nat) (history : List (Machine L)) : List (Machine L) :=
  history.takeWhile fun m => depth < m.tasks.length

/-- The calls that are made by the dispatch itself that has so many tasks below it. -/
def ownCalls (B : Board L) (depth : Nat) (history : List (Machine L)) : List (Call L) :=
  history.filterMap fun m => if m.tasks.length = depth + 1 then m.call? B else none

theorem underWay_of_mem_during {depth : Nat} {history : List (Machine L)} :
    ∀ m ∈ during depth history, depth < m.tasks.length := by
  intro m mem
  simpa using List.mem_takeWhile_imp mem

theorem during_subset (depth : Nat) (history : List (Machine L)) :
    during depth history ⊆ history :=
  List.takeWhile_subset _

theorem mem_ownCalls {depth : Nat} {history : List (Machine L)} {call : Call L} :
    call ∈ B.ownCalls depth history ↔
      ∃ m ∈ history, m.tasks.length = depth + 1 ∧ m.call? B = some call := by
  simp only [ownCalls, List.mem_filterMap, Option.ite_none_right_eq_some]

theorem mem_ownCalls_cons {m : Machine L} {depth : Nat} {history : List (Machine L)}
    {call : Call L} :
    call ∈ B.ownCalls depth (m :: history) ↔
      m.tasks.length = depth + 1 ∧ m.call? B = some call ∨ call ∈ B.ownCalls depth history := by
  simp only [mem_ownCalls, List.mem_cons, or_and_right, exists_or, exists_eq_left]

/-- A step of another task is no turn of the dispatch. -/
theorem ownCalls_cons_of_ne {m : Machine L} {depth : Nat} (history : List (Machine L))
    (elsewhere : m.tasks.length ≠ depth + 1) :
    B.ownCalls depth (m :: history) = B.ownCalls depth history :=
  List.filterMap_cons_none (if_neg elsewhere)

theorem ownCalls_cons_of_top {m : Machine L} {depth : Nat} (history : List (Machine L))
    (top : m.tasks.length = depth + 1) :
    B.ownCalls depth (m :: history) = (m.call? B).toList ++ B.ownCalls depth history := by
  rw [ownCalls, List.filterMap_cons, if_pos top]
  cases m.call? B <;> rfl

/-- The last turn of a dispatch makes no call. -/
theorem ownCalls_cons_of_stop {m : Machine L} {depth : Nat} {pins : Word}
    {link : Link L.lists L.callbacks} {tasks : List (Task L)} (history : List (Machine L))
    (top : m.tasks = .walk pins link :: tasks) (below : tasks.length = depth)
    (empty : m.state.links.read link = none) :
    B.ownCalls depth (m :: history) = B.ownCalls depth history := by
  have length : m.tasks.length = depth + 1 := by rw [top, List.length_cons, below]
  rw [ownCalls_cons_of_top history length, Machine.call?_eq top, empty]
  rfl

/-- Every other turn makes one, if the callback listens. -/
theorem ownCalls_cons_of_turn {m : Machine L} {depth : Nat} {pins : Word}
    {link : Link L.lists L.callbacks} {tasks : List (Task L)} {callback : Fin L.callbacks}
    (history : List (Machine L)) (top : m.tasks = .walk pins link :: tasks)
    (below : tasks.length = depth) (found : m.state.links.read link = some callback) :
    B.ownCalls depth (m :: history) =
      if m.state.mask callback &&& pins = 0 then B.ownCalls depth history
      else B.callOf callback (m.state.mask callback &&& pins) :: B.ownCalls depth history := by
  have length : m.tasks.length = depth + 1 := by rw [top, List.length_cons, below]
  rw [ownCalls_cons_of_top history length, Machine.call?_eq top, found, Option.bind_some]
  split <;> rfl

theorem ownCalls_append_of_deeper {depth : Nat} {history : List (Machine L)}
    (rest : List (Machine L)) (deeper : ∀ m ∈ history, depth + 1 < m.tasks.length) :
    B.ownCalls depth (history ++ rest) = B.ownCalls depth rest := by
  induction history with
  | nil => rfl
  | cons m history ih =>
      rw [List.cons_append, ownCalls_cons_of_ne _ (Nat.ne_of_gt (deeper m List.mem_cons_self))]
      exact ih fun n mem => deeper n (List.mem_cons_of_mem m mem)

namespace Passes

variable {m middle last : Machine L} {history rest : List (Machine L)}

theorem of_append (passes : B.Passes m (history ++ rest) last) :
    ∃ middle, B.Passes m history middle ∧ B.Passes middle rest last := by
  induction history generalizing m with
  | nil => exact ⟨m, .refl m, passes⟩
  | cons first history ih =>
      cases passes with
      | step step passes =>
          obtain ⟨middle, before, after⟩ := ih passes
          exact ⟨middle, .step step before, after⟩

/-- A board has passed through the machines before one in a history, and goes on from there. -/
theorem of_append_cons {n : Machine L} (passes : B.Passes m (history ++ n :: rest) last) :
    B.Passes m history n ∧ B.Passes n (n :: rest) last := by
  obtain ⟨middle, before, after⟩ := passes.of_append
  obtain rfl : middle = n := by
    cases after
    rfl
  exact ⟨before, after⟩

theorem during (passes : B.Passes m history last) (depth : Nat) :
    ∃ middle, B.Passes m (during depth history) middle := by
  rw [← List.takeWhile_append_dropWhile (p := fun m => depth < m.tasks.length) (l := history)]
    at passes
  obtain ⟨middle, passes, _⟩ := passes.of_append
  exact ⟨middle, passes⟩

/-- What every step preserves holds of all machines that a board passes through. -/
theorem keeps {p : Machine L → Prop}
    (kept : ∀ {m next : Machine L} {deeds : List (Deed L)}, B.Step m deeds next → p m → p next)
    (passes : B.Passes m history last) (start : p m) : (∀ n ∈ history, p n) ∧ p last := by
  induction passes with
  | refl _ => exact ⟨nofun, start⟩
  | step step _ ih =>
      obtain ⟨later, ends⟩ := ih (kept step start)
      exact ⟨List.forall_mem_cons.mpr ⟨start, later⟩, ends⟩

theorem grounded (passes : B.Passes m history last) (start : m.state.links.Grounded) :
    last.state.links.Grounded :=
  (passes.keeps Step.grounded start).2

theorem grounded_of_mem (passes : B.Passes m history last) (start : m.state.links.Grounded) :
    ∀ n ∈ history, n.state.links.Grounded :=
  (passes.keeps Step.grounded start).1

/-- A step is only taken when there is something to be done. -/
theorem length_pos (passes : B.Passes m history last) : ∀ n ∈ history, 0 < n.tasks.length := by
  induction passes with
  | refl _ => exact nofun
  | @step m next last deeds history step _ ih =>
      intro n mem
      rcases List.mem_cons.mp mem with rfl | mem
      · obtain ⟨task, above, below, tasks, _⟩ := step.tasks_eq
        rw [tasks]
        exact Nat.zero_lt_succ _
      · exact ih n mem

theorem during_zero (passes : B.Passes m history last) : Board.during 0 history = history :=
  List.takeWhile_eq_self_iff.mpr fun n mem => decide_eq_true (passes.length_pos n mem)

theorem atop (passes : B.Passes m history last) (tasks : List (Task L)) :
    B.Passes (m.atop tasks) (history.map (Machine.atop · tasks)) (last.atop tasks) := by
  induction passes with
  | refl m => exact .refl _
  | step step _ ih => exact .step (step.atop tasks) ih

/-- A board has one history until there is nothing left to be done. -/
theorem unique {s t : State L} (left : B.Passes m history ⟨s, []⟩)
    (right : B.Passes m rest ⟨t, []⟩) : history = rest ∧ s = t := by
  have stuck {s : State L} {next : Machine L} {deeds : List (Deed L)} :
      ¬B.Step ⟨s, []⟩ deeds next := nofun
  generalize final : (⟨s, []⟩ : Machine L) = last at left
  induction left generalizing rest with
  | refl m =>
      subst final
      cases right with
      | refl _ => exact ⟨rfl, rfl⟩
      | step step _ => exact absurd step stuck
  | step step _ ih =>
      cases right with
      | refl _ => exact absurd step stuck
      | step other right =>
          obtain rfl := step.unique other
          obtain ⟨rfl, rfl⟩ := ih right final
          exact ⟨rfl, rfl⟩

end Passes

/-- What each step leaves or replaces is in the end as it was replaced last. -/
theorem Passes.eq_latest? {α : Type} (cell : State L → Option α) (sets? : Machine L → Option α)
    (turns : ∀ {m next : Machine L} {deeds : List (Deed L)}, B.Step m deeds next →
      cell next.state = (sets? m).or (cell m.state))
    {m last : Machine L} {history : List (Machine L)} (passes : B.Passes m history last) :
    cell last.state = (latest? sets? history).or (cell m.state) := by
  induction passes with
  | refl m => rfl
  | step step _ ih => rw [ih, turns step, latest?_cons, Option.or_assoc]

theorem Runs.exists_passes {m last : Machine L} {deeds : List (Deed L)}
    (runs : B.Runs m deeds last) : ∃ history, B.Passes m history last := by
  induction runs with
  | refl m => exact ⟨[], .refl m⟩
  | step step _ ih =>
      obtain ⟨history, passes⟩ := ih
      exact ⟨_, .step step passes⟩

/-- The calls that a dispatch itself makes in its history are those of its effect. -/
theorem PlaysOut.passes_of_dispatchFrom {clients : Clients L} (plays : B.PlaysOut clients)
    {pins : Word} {budget : Nat} {link : Link L.lists L.callbacks} {s t : State L}
    {firings : List (Firing L)}
    (done : B.dispatchFrom clients pins budget link s = some (t, firings)) :
    ∃ history, B.Passes ⟨s, [.walk pins link]⟩ history ⟨t, []⟩ ∧
      B.ownCalls 0 history = firings.map Firing.call := by
  have turn {s : State L} {link : Link L.lists L.callbacks} {callback : Fin L.callbacks}
      (found : s.links.read link = some callback) (rest : List (Machine L)) :
      B.ownCalls 0 (⟨s, [.walk pins link]⟩ :: rest) =
        if s.mask callback &&& pins = 0 then B.ownCalls 0 rest
        else B.callOf callback (s.mask callback &&& pins) :: B.ownCalls 0 rest :=
    ownCalls_cons_of_turn rest rfl rfl found
  replace done := dispatches_of_dispatchFrom done
  induction done with
  | stop empty =>
      exact ⟨_, .step (.stop pins [] empty) (.refl _), ownCalls_cons_of_stop [] rfl rfl empty⟩
  | pass found deaf _ ih =>
      obtain ⟨history, passes, calls⟩ := ih
      refine ⟨_, .step (.pass [] found deaf) passes, ?_⟩
      rw [turn found, if_pos deaf]
      exact calls
  | @call _ _ _ _ callback _ _ found listens called _ ih =>
      obtain ⟨history, passes, calls⟩ := ih
      rcases plays called with ⟨idle, rfl⟩ | ⟨entry, taken, takes, plays⟩
      · refine ⟨_, .step (.callIdle [] found listens idle) passes, ?_⟩
        rw [turn found, if_neg listens]
        exact congrArg _ calls
      · obtain ⟨deeds, runs⟩ := plays []
        obtain ⟨inner, inside⟩ := runs.exists_passes
        have nested := inside.atop [.walk pins (.next callback)]
        refine ⟨_, .step (.call [] found listens takes) (nested.trans passes), ?_⟩
        rw [turn found, if_neg listens]
        refine congrArg _ ((ownCalls_append_of_deeper history ?_).trans calls)
        intro m mem
        obtain ⟨n, met, rfl⟩ := List.mem_map.mp mem
        have busy := inside.length_pos n met
        simp only [Machine.atop, List.length_append, List.length_singleton]
        omega

/-- The history of a dispatch has the calls of which its effect tells, in the same order. -/
theorem Passes.allCalls_eq {history : List (Machine L)} {s t : State L} {r : Fin L.lists}
    {pins : Word} (passes : B.Passes ⟨s, [.walk pins (.head r)]⟩ history ⟨t, []⟩) {depth : Nat}
    {u : State L} {firings : List (Firing L)}
    (done : B.dispatch (B.clientsAt depth) r pins s = some (u, firings)) :
    B.allCalls history = callsIn (firings.flatMap Firing.events) := by
  obtain ⟨other, told, calls⟩ := (B.recounted_clientsAt depth).dispatch done []
  rw [(passes.unique told).1, calls]

end Board

end Gpio
