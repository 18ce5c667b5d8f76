import Gpio.Proofs.Board.History
import Gpio.Proofs.Board.Rolls
import Gpio.Proofs.Board.Scripts

/-!
# The turns of a dispatch

While no registry is edited, every dispatch takes its turns at the callbacks of its registry, one
after another, whatever else happens within the calls that it makes. It calls each of them by the
mask that it finds when it gets there (`Passes.exists_masks`), and that is the mask that was set
last (`Passes.mask_eq`).

A dispatch that is made while others are under way is made within a call of each of these, and
it comes to its end within the same call (`Passes.exists_caller`).
-/

namespace Gpio

open Links

variable {L : Layout}

/-- Whether a command leaves all registries as they are. -/
def Command.sparesRegistries : Command L → Bool
  | .operation (.edit _ _) => false
  | _ => true

/-- Whether a command leaves all registries and masks as they are. -/
def Command.sparesCallbacks : Command L → Bool
  | .operation (.edit _ _) => false
  | .operation (.setPinMask _ _) => false
  | _ => true

theorem Command.sparesRegistries_of_sparesCallbacks {command : Command L}
    (spares : command.sparesCallbacks) : command.sparesRegistries := by
  cases command with
  | operation operation =>
      cases operation with
      | edit r edit => exact spares
      | _ => rfl
  | _ => rfl

namespace Machine

variable {m : Machine L} {callback : Fin L.callbacks}

/-- The mask that the next step gives to a callback. -/
def remask? (callback : Fin L.callbacks) (m : Machine L) : Option Word :=
  match m.tasks with
  | .commands (.operation (.setPinMask changed mask) :: _) :: _ =>
      if changed = callback then some mask else none
  | _ => none

/-- The next step is the turn at which the dispatch of this depth finds the callback. -/
def Visits (m : Machine L) (depth : Nat) (pins : Word) (callback : Fin L.callbacks) : Prop :=
  ∃ link tasks, m.tasks = .walk pins link :: tasks ∧ tasks.length = depth ∧
    m.state.links.read link = some callback

/-- A command that is about to be carried out is one of those that are still to be. -/
theorem Scripted.of_tasks {p : Command L → Prop} (scripted : m.Scripted p)
    {command : Command L} {rest : List (Command L)} {tasks : List (Task L)}
    (top : m.tasks = .commands (command :: rest) :: tasks) : p command := by
  have given : (Task.commands (command :: rest)).Scripted p :=
    scripted.tasks _ (top ▸ List.mem_cons_self)
  exact given command List.mem_cons_self

theorem Scripted.change?_eq_none
    (scripted : m.Scripted fun command => command.sparesRegistries) : m.change? = none := by
  rw [change?]
  split
  · rename_i top
    exact absurd (scripted.of_tasks top) Bool.false_ne_true
  · rfl

theorem Scripted.remask?_eq_none (scripted : m.Scripted fun command => command.sparesCallbacks)
    (callback : Fin L.callbacks) : m.remask? callback = none := by
  rw [remask?]
  split
  · rename_i top
    exact absurd (scripted.of_tasks top) Bool.false_ne_true
  · rfl

/-- A dispatch of some depth has so many tasks below it, and all others above it. -/
theorem exists_split_of_dispatch? {s : State L} {tasks : List (Task L)} {depth : Nat}
    {pins : Word} {link : Link L.lists L.callbacks}
    (dispatches : dispatch? ⟨s, tasks⟩ depth = some (pins, link)) :
    ∃ above below, tasks = above ++ .walk pins link :: below ∧ below.length = depth := by
  induction tasks with
  | nil => exact absurd (lt_length_of_dispatch? dispatches) (Nat.not_lt_zero _)
  | cons task tasks ih =>
      have inside := lt_length_of_dispatch? dispatches
      rcases Nat.lt_or_eq_of_le (Nat.le_of_lt_succ inside) with deeper | rfl
      · rw [dispatch?_of_append (List.singleton_append (x := task)).symm deeper] at dispatches
        obtain ⟨above, below, rfl, length⟩ := ih dispatches
        exact ⟨task :: above, below, rfl, length⟩
      · obtain rfl := eq_walk_of_dispatch? dispatches
        exact ⟨[], tasks, rfl, rfl⟩

end Machine

namespace Board

variable {B : Board L} {m next last : Machine L} {deeds : List (Deed L)}
  {history : List (Machine L)} {depth : Nat} {pins : Word} {link : Link L.lists L.callbacks}
  {roll : List (Fin L.callbacks)}

theorem callsBy_congr {maskOf others : Fin L.callbacks → Word}
    (same : ∀ callback ∈ roll, maskOf callback = others callback) :
    B.callsBy maskOf pins roll = B.callsBy others pins roll := by
  induction roll with
  | nil => rfl
  | cons callback roll ih =>
      obtain ⟨first, rest⟩ := List.forall_mem_cons.mp same
      rw [callsBy_cons, callsBy_cons, first, ih rest]

theorem callsBy_update (B : Board L) (maskOf : Fin L.callbacks → Word) (pins mask : Word)
    {callback : Fin L.callbacks} (outside : callback ∉ roll) :
    B.callsBy (Function.update maskOf callback mask) pins (callback :: roll) =
      if mask &&& pins = 0 then B.callsBy maskOf pins roll
      else B.callOf callback (mask &&& pins) :: B.callsBy maskOf pins roll := by
  have others : ∀ other ∈ roll, Function.update maskOf callback mask other = maskOf other :=
    fun other mem => Function.update_of_ne (ne_of_mem_of_not_mem mem outside) ..
  rw [callsBy_cons, Function.update_self, callsBy_congr others]

/-! ## Links and masks along a history -/

/-- A step that sets the mask of a callback decides what it is, and no other step does. -/
theorem Step.some_mask (step : B.Step m deeds next) (callback : Fin L.callbacks) :
    some (next.state.mask callback) =
      (m.remask? callback).or (some (m.state.mask callback)) := by
  cases step with
  | operate s operation rest tasks =>
      rw [mask_operate]
      cases operation with
      | setPinMask changed mask =>
          simp only [Machine.remask?]
          split <;> rfl
      | _ => rfl
  | call tasks found listens taken =>
      obtain ⟨rest, _, rfl⟩ := State.takeNext?_eq_some_iff.mp taken
      rfl
  | acknowledge s c p tasks =>
      rw [State.mask, B.masks_act c s _]
      rfl
  | _ => rfl

/-- The mask of a callback is the one that was set last. -/
theorem Passes.mask_eq (passes : B.Passes m history last) (callback : Fin L.callbacks) :
    last.state.mask callback =
      (latest? (Machine.remask? callback) history).getD (m.state.mask callback) := by
  have cell := passes.eq_latest? (fun s => some (s.mask callback)) (Machine.remask? callback)
    fun step => step.some_mask callback
  cases sets : latest? (Machine.remask? callback) history <;> simp_all

theorem Passes.links_eq (passes : B.Passes m history last)
    (fixed : ∀ n ∈ history, n.change? = none) : last.state.links = m.state.links := by
  induction passes with
  | refl _ => rfl
  | step step _ ih =>
      obtain ⟨now, later⟩ := List.forall_mem_cons.mp fixed
      rw [ih later, step.links_eq, now]

/-! ## Turns -/

/-- The part of a history until a dispatch ends leads to where it has ended. -/
theorem Passes.exists_end (passes : B.Passes m history last) (ended : last.tasks.length ≤ depth) :
    ∃ middle, B.Passes m (Board.during depth history) middle ∧ middle.tasks.length ≤ depth := by
  induction passes with
  | refl m => exact ⟨m, .refl m, ended⟩
  | @step m next last deeds history step _ ih =>
      by_cases underWay : depth < m.tasks.length
      · obtain ⟨middle, passes, ended⟩ := ih ended
        refine ⟨middle, ?_, ended⟩
        rw [Board.during, List.takeWhile_cons_of_pos (by simpa using underWay)]
        exact .step step passes
      · refine ⟨m, ?_, Nat.le_of_not_lt underWay⟩
        rw [Board.during, List.takeWhile_cons_of_neg (by simpa using underWay)]
        exact .refl m

/-- While no registry is edited, a dispatch takes its turns at the callbacks that it has ahead,
and calls them by the masks that it finds at these turns. -/
theorem Passes.exists_masks (passes : B.Passes m history last)
    (grounded : m.state.links.Grounded) (fixed : ∀ n ∈ history, n.change? = none)
    (underWay : ∀ n ∈ history, depth < n.tasks.length) (ended : last.tasks.length ≤ depth)
    (dispatches : m.dispatch? depth = some (pins, link)) :
    ∃ maskOf, B.ownCalls depth history = B.callsBy maskOf pins (m.state.links.ahead link) ∧
      ∀ callback ∈ m.state.links.ahead link, ∃ earlier visit later,
        history = earlier ++ visit :: later ∧ visit.Visits depth pins callback ∧
          maskOf callback = visit.state.mask callback := by
  induction passes generalizing link with
  | refl m => exact absurd (Machine.lt_length_of_dispatch? dispatches) (Nat.not_lt_of_le ended)
  | @step m next last deeds history step passes ih =>
      obtain ⟨now, fixed⟩ := List.forall_mem_cons.mp fixed
      obtain ⟨_, under⟩ := List.forall_mem_cons.mp underWay
      have links : next.state.links = m.state.links := by rw [step.links_eq, now]
      rw [links] at ih
      cases step.progress dispatches with
      | within deeper still =>
          obtain ⟨maskOf, calls, visits⟩ := ih grounded fixed under ended still
          refine ⟨maskOf, ?_, fun callback mem => ?_⟩
          · rw [ownCalls_cons_of_ne _ (Nat.ne_of_gt deeper), calls]
          · obtain ⟨earlier, visit, later, rfl, found⟩ := visits callback mem
            exact ⟨m :: earlier, visit, later, rfl, found⟩
      | stop tasks top below empty stopped =>
          -- The dispatch has ended, so there is no further step of it.
          cases passes with
          | refl _ =>
              refine ⟨m.state.mask, ?_, ?_⟩
              · rw [ownCalls_cons_of_stop [] top below empty, ahead_of_read_eq_none empty]
                rfl
              · rw [ahead_of_read_eq_none empty]
                exact nofun
          | step _ _ =>
              have lower := under next List.mem_cons_self
              rw [stopped, below] at lower
              exact absurd lower (Nat.lt_irrefl depth)
      | turn tasks callback top below found _ moved =>
          obtain ⟨maskOf, calls, visits⟩ := ih grounded fixed under ended moved
          have ahead := grounded.ahead_of_read found
          have behind := grounded.notMem_ahead_next callback
          refine ⟨Function.update maskOf callback (m.state.mask callback), ?_, ?_⟩
          · rw [ahead, callsBy_update _ _ _ _ behind, ← calls,
              ownCalls_cons_of_turn _ top below found]
          · have visited : m.Visits depth pins callback := ⟨link, tasks, top, below, found⟩
            rw [ahead]
            refine List.forall_mem_cons.mpr
              ⟨⟨[], m, history, rfl, visited, Function.update_self ..⟩, fun other mem => ?_⟩
            obtain ⟨earlier, visit, later, rfl, visited, mask⟩ := visits other mem
            refine ⟨m :: earlier, visit, later, rfl, visited, ?_⟩
            rw [Function.update_of_ne (ne_of_mem_of_not_mem mem behind), mask]

/-! ## Nesting -/

/-- A dispatch that has tasks above it after a step had some before, or has just made a call. -/
theorem Step.caller (step : B.Step m deeds next) {pins : Word}
    {link : Link L.lists L.callbacks} (dispatches : next.dispatch? depth = some (pins, link))
    (deeper : depth + 1 < next.tasks.length) :
    m.dispatch? depth = some (pins, link) ∧ depth + 1 < m.tasks.length ∨
      m.tasks.length = depth + 1 ∧ (m.call? B).isSome := by
  obtain ⟨task, above, below, before, after, pushed⟩ := step.tasks_eq
  rcases Nat.lt_or_ge depth below.length with inside | outside
  · rw [Machine.dispatch?_of_append after inside] at dispatches
    rw [before, Machine.dispatch?_of_append (before.trans (List.singleton_append).symm) inside]
    exact Or.inl ⟨dispatches, Nat.succ_lt_succ inside⟩
  · -- The step has put the dispatch where it is, and below another task.
    obtain ⟨s, tasks⟩ := next
    obtain ⟨higher, lower, rfl, rfl⟩ := Machine.exists_split_of_dispatch? dispatches
    obtain ⟨first, higher, rfl⟩ : ∃ first rest, higher = first :: rest := by
      refine List.exists_cons_of_ne_nil ?_
      rintro rfl
      simp at deeper
    obtain ⟨more, rfl, rfl⟩ : ∃ more, above = first :: higher ++ .walk pins link :: more ∧
        lower = more ++ below := by
      rcases List.append_eq_append_iff.mp after with ⟨_ | ⟨_, more⟩, rfl, tail⟩ | ⟨more, _, rfl⟩
      · have length := congrArg List.length tail
        simp at length
        omega
      · obtain ⟨rfl, rfl⟩ := List.cons.inj tail
        exact ⟨more, rfl, rfl⟩
      · simp at outside
        omega
    obtain ⟨single, calls⟩ := pushed pins link (by simp)
    have length := congrArg List.length single
    simp at length
    obtain rfl : more = [] := List.eq_nil_of_length_eq_zero (by omega)
    exact Or.inr ⟨by rw [before]; rfl, calls⟩

/-- A dispatch that has tasks above it has made a call, since when it has always had some. -/
theorem Passes.exists_caller (passes : B.Passes m history last) (alone : m.tasks.length ≤ 1)
    {pins : Word} {link : Link L.lists L.callbacks}
    (dispatches : last.dispatch? depth = some (pins, link))
    (deeper : depth + 1 < last.tasks.length) :
    ∃ earlier caller between, history = earlier ++ caller :: between ∧
      caller.tasks.length = depth + 1 ∧ (caller.call? B).isSome ∧
      ∀ n ∈ between, depth + 1 < n.tasks.length := by
  induction history using List.reverseRecOn generalizing last with
  | nil =>
      cases passes
      omega
  | append_singleton history n ih =>
      obtain ⟨middle, passes, final⟩ := passes.of_append
      cases final with
      | step step final =>
          cases final
          rcases step.caller dispatches deeper with ⟨dispatches, deeper⟩ | ⟨top, calls⟩
          · obtain ⟨earlier, caller, between, rfl, length, calls, inside⟩ :=
              ih passes dispatches deeper
            refine ⟨earlier, caller, between ++ [n], by simp, length, calls, ?_⟩
            exact List.forall_mem_append.mpr ⟨inside, List.forall_mem_singleton.mpr deeper⟩
          · exact ⟨history, n, [], rfl, top, calls, nofun⟩

end Board

end Gpio
