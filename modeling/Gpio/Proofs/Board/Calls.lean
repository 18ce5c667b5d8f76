import Gpio.Proofs.Board.Budget
import Gpio.Proofs.Board.Rolls
import Gpio.Proofs.Board.Underway

/-!
# The calls of a dispatch

Clients may edit registries while a dispatch is under way. A callback that they do not touch is
called at most once, however they move the others. It is called at all unless another one is
registered on which the dispatch stands, or which it has ahead: such a callback becomes the last
one of its registry, and the dispatch ends when it has come to it.

A callback that is removed is called no more by any dispatch of the registry that starts later.
One that is under way may still call it, but only if it has strayed: if it stands outside of the
registry and does not come back to it on the way.
-/

namespace Gpio.Board

open Links

variable {L : Layout} {B : Board L}

/-- A dispatch ends, and the calls that it makes itself are told by its history. -/
theorem exists_history (B : Board L) {s : State L} (grounded : s.links.Grounded) {depth : Nat}
    (few : s.entriesLeft ≤ depth) (r : Fin L.lists) (pins : Word) :
    ∃ t firings history, B.dispatch (B.clientsAt depth) r pins s = some (t, firings) ∧
      B.Passes ⟨s, [.walk pins (.head r)]⟩ history ⟨t, []⟩ ∧
      B.ownCalls 0 history = firings.map Firing.call := by
  obtain ⟨t, firings, done⟩ := B.exists_dispatch grounded few r pins
  obtain ⟨history, passes, calls⟩ := (B.playsOut_clientsAt depth).passes_of_dispatchFrom done
  exact ⟨t, firings, history, done, passes, calls⟩

/-! ## Callbacks that are moved during a dispatch -/

theorem runs_editAll (B : Board L) (s : State L)
    (changes : List (RegistryChange L.lists L.callbacks L.clients)) (tasks : List (Task L)) :
    ∃ deeds, B.Runs
      ⟨s, .commands (changes.map fun change => .operation (.edit change.registry change.edit)) ::
        tasks⟩
      deeds ⟨B.editAll s changes, .commands [] :: tasks⟩ := by
  induction changes generalizing s with
  | nil => exact ⟨[], .refl _⟩
  | cons change rest ih =>
      obtain ⟨deeds, runs⟩ := ih (B.operate s (.edit change.registry change.edit)).state
      exact ⟨_, .step (.operate s _ _ tasks) runs⟩

/-- A session may begin with any edits. -/
theorem reachable_editAll (B : Board L) (memory : Memory L.words)
    (masks : Vector Word L.callbacks) (scripts : Vector (Script L) L.clients)
    (changes : List (RegistryChange L.lists L.callbacks L.clients)) :
    B.Reachable (B.editAll (.start memory masks scripts) changes) := by
  obtain ⟨deeds, runs⟩ := B.runs_editAll (.start memory masks scripts) changes []
  exact ⟨memory, masks, scripts, _, deeds, _, runs⟩

def movingEdit (r : Fin 2) (edit : RegistryEdit 2 3) : Command movingLayout :=
  .operation (.edit r edit)

/-- Two callbacks are registered. The client of the second one takes out the first one when it
is called, and registers it again. -/
def movedBehind (B : Board movingLayout) (r : Fin 2) (first second : Fin 3) :
    State movingLayout :=
  B.editAll (.start #v[] #v[1, 1, 1]
      #v[[], [[movingEdit r (.manage first false), movingEdit r (.register first)]]])
    [⟨r, .register first⟩, ⟨r, .register second⟩]

theorem passes_movedBehind :
    let B := movingBoard fun callback => if callback = 1 then 1 else 0
    let s := movedBehind B 0 0 1
    ∃ t history, B.Passes ⟨s, [.walk 1 (.head 0)]⟩ history ⟨t, []⟩ ∧
      (∀ m ∈ history, ¬m.Enters B 1) ∧ (∀ m ∈ history, ¬m.Leaves B 1) ∧
      (∀ m ∈ history, m.state.mask 1 = s.mask 1) ∧
      (∀ m ∈ history, ∀ change ∈ m.change?, Rolls.Admits m.state.links.walk change) ∧
      ∀ m ∈ history, ¬m.CutsOff B 0 1 := by
  intro B s
  have passes : B.Passes ⟨s, [.walk 1 (.head 0)]⟩ _ ⟨_, []⟩ :=
    .step (.callIdle [] (show _ = some 0 by decide +kernel) (by decide +kernel)
      (by decide +kernel)) <|
    .step (.call [] (show _ = some 1 by decide +kernel) (by decide +kernel) rfl) <|
    .step (.operate _ _ _ _) <| .step (.operate _ _ _ _) <| .step (.finish _ _) <|
    .step (.callIdle [] (show _ = some 0 by decide +kernel) (by decide +kernel)
      (by decide +kernel)) <|
    .step (.stop _ _ (by decide +kernel)) <| .refl _
  refine ⟨_, _, passes, ?_, ?_, ?_, ?_, ?_⟩
  · simp only [Machine.Enters, RegistryChange.Enters]
    decide +kernel
  · simp only [Machine.Leaves, RegistryChange.Leaves]
    decide +kernel
  · decide +kernel
  · decide +kernel
  · simp only [Machine.CutsOff, Machine.Enters, RegistryChange.Enters]
    decide +kernel

/-! ## At most once -/

/-- A dispatch ends and has made the calls of its own turns. A callback that does not come into a
registry meanwhile is called by the dispatch itself at most once, whatever becomes of the other
callbacks. -/
theorem Reachable.called_at_most_once {s : State L} (reachable : B.Reachable s) {depth : Nat}
    (few : s.entriesLeft ≤ depth) (r : Fin L.lists) (pins : Word) :
    ∃ t firings history, B.dispatch (B.clientsAt depth) r pins s = some (t, firings) ∧
      B.Passes ⟨s, [.walk pins (.head r)]⟩ history ⟨t, []⟩ ∧
      B.ownCalls 0 history = firings.map Firing.call ∧
      ∀ callback, (∀ m ∈ history, ¬m.Enters B callback) →
        (firings.map fun firing => firing.call.callback).count callback ≤ 1 := by
  obtain ⟨t, firings, history, done, passes, calls⟩ :=
    B.exists_history reachable.grounded few r pins
  refine ⟨t, firings, history, done, passes, calls, ?_⟩
  intro callback away
  have once := passes.count_ownCalls_le_one reachable.grounded away passes.length_pos
  rwa [calls, List.map_map] at once

/-- Callback 0 comes behind the dispatch and is called twice, callback 1 once. -/
theorem called_at_most_once_movedBehind :
    let B := movingBoard fun callback => if callback = 1 then 1 else 0
    let s := movedBehind B 0 0 1
    B.Reachable s ∧ s.entriesLeft ≤ 1 ∧ ∃ t firings history,
      B.dispatch (B.clientsAt 1) 0 1 s = some (t, firings) ∧
      B.Passes ⟨s, [.walk 1 (.head 0)]⟩ history ⟨t, []⟩ ∧
      (firings.map fun firing => firing.call.callback) = [0, 1, 0] ∧
      (∀ m ∈ history, ¬m.Enters B 1) ∧
      (firings.map fun firing => firing.call.callback).count 1 ≤ 1 := by
  intro B s
  have reachable : B.Reachable s := B.reachable_editAll _ _ _ _
  have few : s.entriesLeft ≤ 1 := by decide +kernel
  obtain ⟨t, firings, history, done, passes, _, once⟩ := reachable.called_at_most_once few 0 1
  obtain ⟨_, _, explicit, away, _⟩ := passes_movedBehind
  obtain ⟨rfl, rfl⟩ := passes.unique explicit
  refine ⟨reachable, few, t, firings, history, done, passes, ?_, away, once 1 away⟩
  have calls : (B.dispatch (B.clientsAt 1) 0 1 s).map
      (fun result => result.2.map fun firing => firing.call.callback) = some [0, 1, 0] := by
    decide +kernel
  rw [done] at calls
  exact Option.some.inj calls

/-! ## Calls that are lost -/

/-- In a session in which no callback is in two registries, a callback that is in a registry
when a dispatch of it starts, and is neither removed nor given another mask while the dispatch
is under way, is called with the pins to which it listens and with its own context, unless the
dispatch is cut off from it by the registration of another one. -/
theorem Reachable.called_iff_not_cutOff {s : State L} (reachable : B.Reachable s) {depth : Nat}
    (few : s.entriesLeft ≤ depth) (r : Fin L.lists) (pins : Word) :
    ∃ t firings history, B.dispatch (B.clientsAt depth) r pins s = some (t, firings) ∧
      B.Passes ⟨s, [.walk pins (.head r)]⟩ history ⟨t, []⟩ ∧
      ∀ callback ∈ s.links.walk r, s.mask callback &&& pins ≠ 0 →
        (∀ m ∈ history, ∀ change ∈ m.change?, Rolls.Admits m.state.links.walk change) →
        (∀ m ∈ history, ¬m.Leaves B callback) →
        (∀ m ∈ history, m.state.mask callback = s.mask callback) →
        (({ callback := callback
            client := (B.callbacks callback).client
            pins := s.mask callback &&& pins
            context := (B.callbacks callback).context } : Call L) ∈ firings.map Firing.call ↔
          ∀ m ∈ history, ¬m.CutsOff B 0 callback) := by
  obtain ⟨t, firings, history, done, passes, calls⟩ :=
    B.exists_history reachable.grounded few r pins
  refine ⟨t, firings, history, done, passes, ?_⟩
  intro callback inside listens admits stays masks
  rw [← calls]
  constructor
  · intro called m met cut
    exact passes.notMem_ownCalls_of_cutsOff reachable.grounded passes.length_pos stays admits
      inside met cut (List.mem_map_of_mem called)
  · intro uncut
    exact passes.callOf_mem_ownCalls reachable.grounded (Nat.le_refl 0) rfl stays listens masks
      uncut inside

theorem called_iff_not_cutOff_movedBehind :
    let B := movingBoard fun callback => if callback = 1 then 1 else 0
    let s := movedBehind B 0 0 1
    B.Reachable s ∧ s.entriesLeft ≤ 1 ∧ 1 ∈ s.links.walk 0 ∧ s.mask 1 &&& 1 ≠ 0 ∧
      ∃ t firings history, B.dispatch (B.clientsAt 1) 0 1 s = some (t, firings) ∧
      B.Passes ⟨s, [.walk 1 (.head 0)]⟩ history ⟨t, []⟩ ∧
      (∀ m ∈ history, ∀ change ∈ m.change?, Rolls.Admits m.state.links.walk change) ∧
      (∀ m ∈ history, ¬m.Leaves B 1) ∧ (∀ m ∈ history, m.state.mask 1 = s.mask 1) ∧
      (∀ m ∈ history, ¬m.CutsOff B 0 1) ∧
      { callback := 1, client := 1, pins := 1, context := 101 } ∈ firings.map Firing.call := by
  intro B s
  have reachable : B.Reachable s := B.reachable_editAll _ _ _ _
  have few : s.entriesLeft ≤ 1 := by decide +kernel
  have inside : 1 ∈ s.links.walk 0 := by decide +kernel
  have listens : s.mask 1 &&& 1 ≠ 0 := by decide +kernel
  obtain ⟨t, firings, history, done, passes, called⟩ := reachable.called_iff_not_cutOff few 0 1
  obtain ⟨_, _, explicit, _, stays, masks, admits, uncut⟩ := passes_movedBehind
  obtain ⟨rfl, rfl⟩ := passes.unique explicit
  refine ⟨reachable, few, inside, listens, t, firings, history, done, passes, admits, stays, masks,
    uncut, ?_⟩
  have pins : s.mask 1 &&& 1 = 1 := by decide +kernel
  have call := (called 1 inside listens admits stays masks).mpr uncut
  rwa [pins] at call

/-- Three callbacks are registered. The client of the first two of them takes them out when it is
called, and registers the second one again. -/
def cutOff (B : Board movingLayout) (r : Fin 2) (client : Fin 2) (first second third : Fin 3) :
    State movingLayout :=
  B.editAll (.start #v[] #v[1, 0, 1]
      #v[[[movingEdit r (.unregister client), movingEdit r (.register second)]], []])
    [⟨r, .register first⟩, ⟨r, .register second⟩, ⟨r, .register third⟩]

/-- The dispatch has come to callback 0 and has callbacks 1 and 2 ahead. When callback 1 is put
at the end of the registry, it is still the next one, and the dispatch ends with it. So it does
not call callback 2, which has been in the registry all the time. -/
theorem not_called_of_cutOff :
    let B := movingBoard fun callback => if callback = 2 then 1 else 0
    let s := cutOff B 0 0 0 1 2
    B.Reachable s ∧ s.entriesLeft ≤ 1 ∧ 2 ∈ s.links.walk 0 ∧ s.mask 2 &&& 1 ≠ 0 ∧
      ∃ t firings history, B.dispatch (B.clientsAt 1) 0 1 s = some (t, firings) ∧
      B.Passes ⟨s, [.walk 1 (.head 0)]⟩ history ⟨t, []⟩ ∧
      (∀ m ∈ history, ∀ change ∈ m.change?, Rolls.Admits m.state.links.walk change) ∧
      (∀ m ∈ history, ¬m.Leaves B 2) ∧ (∀ m ∈ history, m.state.mask 2 = s.mask 2) ∧
      firings.map Firing.call = [{ callback := 0, client := 0, pins := 1, context := 100 }] := by
  intro B s
  have reachable : B.Reachable s := B.reachable_editAll _ _ _ _
  have few : s.entriesLeft ≤ 1 := by decide +kernel
  obtain ⟨t, firings, history, done, passes, calls⟩ :=
    B.exists_history reachable.grounded few 0 1
  have explicit : B.Passes ⟨s, [.walk 1 (.head 0)]⟩ _ ⟨_, []⟩ :=
    .step (.call [] (show _ = some 0 by decide +kernel) (by decide +kernel) rfl) <|
    .step (.operate _ _ _ _) <| .step (.operate _ _ _ _) <| .step (.finish _ _) <|
    .step (.pass [] (show _ = some 1 by decide +kernel) (by decide +kernel)) <|
    .step (.stop _ _ (by decide +kernel)) <| .refl _
  obtain ⟨rfl, rfl⟩ := passes.unique explicit
  refine ⟨reachable, few, by decide +kernel, by decide +kernel, _, firings, _, done, passes, ?_,
    ?_, ?_, ?_⟩
  · decide +kernel
  · simp only [Machine.Leaves, RegistryChange.Leaves]
    decide +kernel
  · decide +kernel
  · rw [← calls]
    decide +kernel

/-! ## Callbacks that are removed -/

/-- A callback that is removed is not called by any dispatch of the registry that starts later,
until it is registered again. A dispatch of any registry that is under way, at whatever depth,
calls it only if it strays to it from where it stands. -/
theorem Reachable.removed_called_astray {m last : Machine L} {after : List (Machine L)}
    (reachable : B.Reachable m.state) (passes : B.Passes m (m :: after) last)
    {change : RegistryChange L.lists L.callbacks L.clients} (edits : m.change? = some change)
    {callback : Fin L.callbacks} (leaves : change.Leaves B.clientOf m.state.links callback)
    (away : ∀ n ∈ after, ¬n.Enters B callback) :
    (∀ depth pins link, m.dispatch? depth = some (pins, link) →
      callback ∈ (B.ownCalls depth (during depth after)).map Call.callback →
      (change.apply B.clientOf m.state.links).Strays change.registry link callback) ∧
    ∀ before first later pins below, after = before ++ first :: later →
      first.tasks = .walk pins (.head change.registry) :: below →
      callback ∉ (B.ownCalls below.length (during below.length (first :: later))).map
        Call.callback := by
  have grounded := reachable.grounded
  cases passes with
  | @step _ next _ _ _ step passes =>
      have links := step.links_eq
      rw [edits] at links
      have groundedNext := step.grounded grounded
      constructor
      · intro depth pins link dispatches called
        have still := step.dispatch?_of_edit edits dispatches
        by_cases mem : callback ∈ (change.apply B.clientOf m.state.links).ahead link
        · exact (RegistryChange.grounded_apply grounded).strays leaves.2 mem
        · exact absurd called (passes.notMem_ownCalls_during groundedNext away
            ⟨pins, link, still, links ▸ mem⟩)
      · rintro before first later pins below rfl starts
        obtain ⟨middle, earlier, onward⟩ := passes.of_append
        obtain ⟨awayBefore, awayAfter⟩ := List.forall_mem_append.mp away
        have clear : callback ∉ middle.state.links.ahead (.head change.registry) :=
          earlier.notMem_ahead groundedNext awayBefore (links ▸ leaves.2)
        cases onward with
        | step onward later =>
            exact Passes.notMem_ownCalls_during (.step onward later)
              (earlier.grounded groundedNext) awayAfter
              ⟨pins, _, Machine.dispatch?_of_walk starts, clear⟩

/-- Two callbacks are registered, and the client of the first one takes out both when it is
called, one after the other. -/
def removedTogether (r : Fin 2) (first second : Fin 3) : Machine movingLayout where
  state := .start #v[] #v[1, 1, 1]
    #v[[[movingEdit r (.manage first false), movingEdit r (.manage second false)]], []]
  tasks := [.commands [movingEdit r (.register first), movingEdit r (.register second),
    .dispatch r 1, .dispatch r 1]]

theorem runs_removedTogether :
    let B := movingBoard fun callback => if callback = 1 then 1 else 0
    ∃ deeds m before first last, B.Runs (removedTogether 0 0 1) deeds m ∧
      B.Reachable m.state ∧ B.Passes m (m :: (before ++ [first])) last ∧
      m.change? = some ⟨0, .manage 1 false⟩ ∧
      RegistryChange.Leaves B.clientOf m.state.links ⟨0, .manage 1 false⟩ 1 ∧
      (∀ n ∈ before ++ [first], ¬n.Enters B 1) ∧
      m.dispatch? 1 = some (1, .next 0) ∧
      1 ∈ (B.ownCalls 1 (during 1 (before ++ [first]))).map Call.callback ∧
      first.tasks = [.walk 1 (.head 0), .commands []] := by
  intro B
  have runs : B.Runs (removedTogether 0 0 1) _ _ :=
    .step (.operate _ _ _ _) <| .step (.operate _ _ _ _) <| .step (.dispatch _ _ _ _ _) <|
    .step (.call _ (show _ = some 0 by decide +kernel) (by decide +kernel) rfl) <|
    .step (.operate _ _ _ _) <| .refl _
  refine ⟨_, _, [_, _, _, _], _, _, runs, ⟨_, _, _, _, _, _, runs⟩,
    .step (.operate _ _ _ _) <| .step (.finish _ _) <|
    .step (.callIdle _ (show _ = some 1 by decide +kernel) (by decide +kernel)
      (by decide +kernel)) <|
    .step (.stop _ _ (by decide +kernel)) <| .step (.dispatch _ _ _ _ _) <|
    .step (.stop _ _ (by decide +kernel)) <| .refl _, ?_, ?_, ?_, ?_, ?_, ?_⟩
  · rfl
  · simp only [RegistryChange.Leaves]
    decide +kernel
  · simp only [Machine.Enters, RegistryChange.Enters]
    decide +kernel
  · decide +kernel
  · decide +kernel
  · rfl

/-- The dispatch strays to the callback that is removed second. The next dispatch of the
registry does not call it. -/
theorem removed_called_astray_removedTogether :
    let B := movingBoard fun callback => if callback = 1 then 1 else 0
    ∃ m before first last, B.Reachable m.state ∧ B.Passes m (m :: (before ++ [first])) last ∧
      m.change? = some ⟨0, .manage 1 false⟩ ∧
      RegistryChange.Leaves B.clientOf m.state.links ⟨0, .manage 1 false⟩ 1 ∧
      (∀ n ∈ before ++ [first], ¬n.Enters B 1) ∧
      (RegistryChange.apply B.clientOf m.state.links ⟨0, .manage 1 false⟩).Strays 0 (.next 0) 1 ∧
      1 ∉ (B.ownCalls 1 (during 1 [first])).map Call.callback := by
  intro B
  obtain ⟨_, m, before, first, last, _, reachable, passes, edits, leaves, away, dispatches, called,
    starts⟩ := runs_removedTogether
  obtain ⟨astray, later⟩ := reachable.removed_called_astray passes edits leaves away
  exact ⟨m, before, first, last, reachable, passes, edits, leaves, away,
    astray 1 1 (.next 0) dispatches called, later before first [] 1 [.commands []] rfl starts⟩

/-- The dispatch that is under way calls a callback that has been removed. -/
theorem removed_called_removedTogether :
    let B := movingBoard fun callback => if callback = 1 then 1 else 0
    ∃ deeds m after last, B.Runs (removedTogether 0 0 1) deeds m ∧
      B.Passes m (m :: after) last ∧ m.change? = some ⟨0, .manage 1 false⟩ ∧
      RegistryChange.Leaves B.clientOf m.state.links ⟨0, .manage 1 false⟩ 1 ∧
      (∀ n ∈ after, ¬n.Enters B 1) ∧ m.dispatch? 1 = some (1, .next 0) ∧
      1 ∈ (B.ownCalls 1 (during 1 after)).map Call.callback := by
  intro B
  obtain ⟨deeds, m, _, _, last, runs, _, passes, edits, leaves, away, dispatches, called, _⟩ :=
    runs_removedTogether
  exact ⟨deeds, m, _, last, runs, passes, edits, leaves, away, dispatches, called⟩

end Gpio.Board
