import Gpio.Proofs.Board.Calls
import Gpio.Proofs.Board.Turns

/-!
# Dispatches within dispatches

A client that is called may start further dispatches, also of the registry whose dispatch calls
it, and so may the clients that are called by these. As long as no client edits a registry, each
of all these dispatches calls the callbacks of its registry in order, by the masks that were set
last before it has got to them (`Reachable.called_by_latest_masks`). If no mask is changed either,
then every dispatch makes exactly the calls that it would make alone, and makes all of them within
one call of each dispatch that is under way (`Reachable.reentrant_dispatch`).
-/

namespace Gpio.Board

open Links

variable {L : Layout} {B : Board L}

/-- A dispatch that starts after some steps, and takes some more, calls the callbacks of a roll,
each by the mask that was set last before the dispatch has got to it. -/
def ByLatestMasks (B : Board L) (s : State L) (before own : List (Machine L)) (depth : Nat)
    (pins : Word) (roll : List (Fin L.callbacks)) : Prop :=
  ∃ maskOf, B.ownCalls depth own = B.callsBy maskOf pins roll ∧
    ∀ callback ∈ roll, ∃ earlier visit later, own = earlier ++ visit :: later ∧
      visit.Visits depth pins callback ∧
      maskOf callback =
        (latest? (Machine.remask? callback) (before ++ earlier)).getD (s.mask callback)

/-- Where no mask has been set they are those of the state before. -/
theorem ByLatestMasks.ownCalls_eq {s : State L} {before own : List (Machine L)} {depth : Nat}
    {pins : Word} {roll : List (Fin L.callbacks)}
    (latest : B.ByLatestMasks s before own depth pins roll)
    (unset : ∀ m ∈ before ++ own, ∀ callback, m.remask? callback = none) :
    B.ownCalls depth own = B.callsOf s pins roll := by
  obtain ⟨maskOf, calls, visits⟩ := latest
  rw [calls]
  refine callsBy_congr fun callback mem => ?_
  obtain ⟨earlier, visit, later, rfl, _, mask⟩ := visits callback mem
  rw [mask, latest?_eq_none fun m met => unset m (by simp at met ⊢; tauto) callback]
  rfl

/-- While no registry is edited, every dispatch that starts in a history calls the callbacks of its
registry by the latest masks. -/
theorem Passes.byLatestMasks {m first : Machine L} {t : State L}
    {before after : List (Machine L)} {pins : Word} {r : Fin L.lists} {below : List (Task L)}
    (passes : B.Passes m (before ++ first :: after) ⟨t, []⟩) (grounded : m.state.links.Grounded)
    (fixed : ∀ n ∈ before ++ first :: after, n.change? = none)
    (starts : first.tasks = .walk pins (.head r) :: below) :
    B.ByLatestMasks m.state before (Board.during below.length (first :: after)) below.length pins
      (m.state.links.walk r) := by
  obtain ⟨earlier, onward⟩ := passes.of_append_cons
  obtain ⟨fixedBefore, fixed⟩ := List.forall_mem_append.mp fixed
  have links := earlier.links_eq fixedBefore
  obtain ⟨last, inside, ended⟩ := onward.exists_end (Nat.zero_le below.length)
  obtain ⟨maskOf, calls, visits⟩ := inside.exists_masks (links ▸ grounded)
    (fun n mem => fixed n (during_subset _ _ mem)) underWay_of_mem_during ended
    (Machine.dispatch?_of_walk starts)
  rw [links] at calls visits
  refine ⟨maskOf, calls, fun callback mem => ?_⟩
  obtain ⟨others, visit, later, split, visited, mask⟩ := visits callback mem
  refine ⟨others, visit, later, split, visited, ?_⟩
  rw [split] at inside
  rw [mask, (earlier.trans inside.of_append_cons.1).mask_eq callback]

/-- So does the dispatch of which the whole history is. -/
theorem Passes.byLatestMasks_all {s t : State L} {history : List (Machine L)} {pins : Word}
    {r : Fin L.lists} (passes : B.Passes ⟨s, [.walk pins (.head r)]⟩ history ⟨t, []⟩)
    (grounded : s.links.Grounded) (fixed : ∀ n ∈ history, n.change? = none) :
    B.ByLatestMasks s [] history 0 pins (s.links.walk r) := by
  obtain ⟨after, rfl⟩ : ∃ after, history = ⟨s, [.walk pins (.head r)]⟩ :: after := by
    cases passes
    exact ⟨_, rfl⟩
  have whole : B.Passes ⟨s, [.walk pins (.head r)]⟩
      ([] ++ ⟨s, [.walk pins (.head r)]⟩ :: after) ⟨t, []⟩ := passes
  have own := whole.byLatestMasks grounded fixed rfl
  rwa [List.length_nil, passes.during_zero] at own

/-- A dispatch is given no other commands than those in the scripts. -/
theorem Passes.scripted {s : State L} {last : Machine L} {history : List (Machine L)}
    {pins : Word} {link : Link L.lists L.callbacks}
    (passes : B.Passes ⟨s, [.walk pins link]⟩ history last) {p : Command L → Prop}
    (scripted : s.Scripted p) (serves : ∀ c, p (.service c)) : ∀ n ∈ history, n.Scripted p :=
  (passes.keeps (fun step => step.scripted serves)
    ⟨scripted, List.forall_mem_singleton.mpr trivial⟩).1

/-! ## Masks that change -/

/-- When clients edit no registry, every dispatch calls the callbacks of its registry in order,
each by the mask that was set last before the dispatch has got to it: the dispatch that is given,
and every one that is made within its calls. -/
theorem Reachable.called_by_latest_masks {s : State L} (reachable : B.Reachable s)
    (spares : s.Scripted fun command => command.sparesRegistries) {depth : Nat}
    (few : s.entriesLeft ≤ depth) (r : Fin L.lists) (pins : Word) :
    ∃ t firings history, B.dispatch (B.clientsAt depth) r pins s = some (t, firings) ∧
      B.Passes ⟨s, [.walk pins (.head r)]⟩ history ⟨t, []⟩ ∧
      B.allCalls history = callsIn (firings.flatMap Firing.events) ∧
      B.ownCalls 0 history = firings.map Firing.call ∧
      B.ByLatestMasks s [] history 0 pins (s.links.walk r) ∧
      ∀ before first after others list below, history = before ++ first :: after →
        first.tasks = .walk others (.head list) :: below →
        B.ByLatestMasks s before (during below.length (first :: after)) below.length others
          (s.links.walk list) := by
  obtain ⟨t, firings, history, done, passes, calls⟩ :=
    B.exists_history reachable.grounded few r pins
  have fixed : ∀ n ∈ history, n.change? = none := fun n mem =>
    (passes.scripted spares (fun _ => rfl) n mem).change?_eq_none
  refine ⟨t, firings, history, done, passes, passes.allCalls_eq done, calls,
    passes.byLatestMasks_all reachable.grounded fixed, ?_⟩
  rintro before first after others list below rfl starts
  exact passes.byLatestMasks reachable.grounded fixed starts

/-- Two callbacks are registered. The client of the first one takes all pins from the second one
when it is called. -/
def remasking (B : Board movingLayout) (r : Fin 2) (first second : Fin 3) : State movingLayout :=
  B.editAll
    (.start (.filled 0 0) (.replicate 3 1) #v[[[.operation (.setPinMask second 0)]], []])
    [⟨r, .register first⟩, ⟨r, .register second⟩]

theorem calls_remasking :
    let B := movingBoard fun callback => if callback = 1 then 1 else 0
    let s := remasking B 0 0 1
    B.Reachable s ∧ (s.Scripted fun command => command.sparesRegistries) ∧ s.entriesLeft ≤ 1 ∧
      s.links.walk 0 = [0, 1] ∧
      (B.dispatch (B.clientsAt 1) 0 1 s).map (fun result => result.2.map Firing.call) =
        some [{ callback := 0, client := 0, pins := 1, context := 100 }] := by
  intro B s
  refine ⟨B.reachable_editAll _ _ _ _, ?_, by decide +kernel, by decide +kernel,
    by decide +kernel⟩
  simp only [State.Scripted]
  decide +kernel

/-- The dispatch gets to callback 1 when it has no pins any more, and does not call it. -/
theorem called_by_latest_masks_remasking :
    let B := movingBoard fun callback => if callback = 1 then 1 else 0
    let s := remasking B 0 0 1
    B.Reachable s ∧ (s.Scripted fun command => command.sparesRegistries) ∧ s.entriesLeft ≤ 1 ∧
      ∃ t firings history, B.dispatch (B.clientsAt 1) 0 1 s = some (t, firings) ∧
        B.Passes ⟨s, [.walk 1 (.head 0)]⟩ history ⟨t, []⟩ ∧
        B.ByLatestMasks s [] history 0 1 [0, 1] ∧
        B.ownCalls 0 history = [{ callback := 0, client := 0, pins := 1, context := 100 }] := by
  intro B s
  obtain ⟨reachable, spares, few, roll, result⟩ := calls_remasking
  obtain ⟨t, firings, history, done, passes, _, calls, latest, _⟩ :=
    reachable.called_by_latest_masks spares few 0 1
  rw [done] at result
  rw [roll] at latest
  exact ⟨reachable, spares, few, t, firings, history, done, passes, latest,
    calls.trans (Option.some.inj result)⟩

/-- By the masks at the start of the dispatch it would have called both callbacks. -/
theorem not_called_by_starting_masks :
    let B := movingBoard fun callback => if callback = 1 then 1 else 0
    let s := remasking B 0 0 1
    B.Reachable s ∧ (s.Scripted fun command => command.sparesRegistries) ∧ s.entriesLeft ≤ 1 ∧
      B.callsOf s 1 (s.links.walk 0) =
        [{ callback := 0, client := 0, pins := 1, context := 100 },
          { callback := 1, client := 1, pins := 1, context := 101 }] ∧
      ∃ t firings, B.dispatch (B.clientsAt 1) 0 1 s = some (t, firings) ∧
        firings.map Firing.call = [{ callback := 0, client := 0, pins := 1, context := 100 }] := by
  intro B s
  obtain ⟨reachable, spares, few, roll, result⟩ := calls_remasking
  obtain ⟨⟨t, firings⟩, done, calls⟩ := Option.map_eq_some_iff.mp result
  refine ⟨reachable, spares, few, ?_, t, firings, done, calls⟩
  rw [roll]
  decide +kernel

/-! ## Masks that stay -/

/-- Steps are taken within a call of the dispatch of some depth: the dispatch has made it before
them, and has not taken a turn again. -/
def WithinCall (B : Board L) (depth : Nat) (before own : List (Machine L)) : Prop :=
  ∃ earlier caller between, before = earlier ++ caller :: between ∧
    caller.tasks.length = depth + 1 ∧ (caller.call? B).isSome ∧
    ∀ m ∈ between ++ own, depth + 1 < m.tasks.length

theorem Passes.withinCall {s : State L} {first last : Machine L}
    {before after : List (Machine L)} {pins others : Word} {link place : Link L.lists L.callbacks}
    {below : List (Task L)}
    (passes : B.Passes ⟨s, [.walk pins link]⟩ (before ++ first :: after) last)
    (top : first.tasks = .walk others place :: below) {outer : Nat} (deeper : outer < below.length)
    (dispatches : (first.dispatch? outer).isSome) :
    B.WithinCall outer before (Board.during below.length (first :: after)) := by
  obtain ⟨⟨pins, link⟩, dispatches⟩ := Option.isSome_iff_exists.mp dispatches
  obtain ⟨earlier, caller, between, rfl, length, calls, inside⟩ :=
    passes.of_append_cons.1.exists_caller (Nat.le_refl 1) dispatches
      (by rw [top]; exact Nat.succ_lt_succ deeper)
  refine ⟨earlier, caller, between, rfl, length, calls, List.forall_mem_append.mpr ⟨inside, ?_⟩⟩
  intro m mem
  exact Nat.lt_of_le_of_lt deeper (underWay_of_mem_during m mem)

/-- When clients edit no registry and change no mask, every dispatch calls exactly the callbacks
of its registry that listen to some of its pins, each once and in order, with these pins and with
the context of the callback, and leaves all links and masks as they are. So does every dispatch
that is made within its calls, whichever registry it is of, and it makes all its calls within one
call of each dispatch that is under way then. -/
theorem Reachable.reentrant_dispatch {s : State L} (reachable : B.Reachable s)
    (spares : s.Scripted fun command => command.sparesCallbacks) {depth : Nat}
    (few : s.entriesLeft ≤ depth) (r : Fin L.lists) (pins : Word) :
    let calls (list : Fin L.lists) (pins : Word) : List (Call L) :=
      ((s.links.walk list).filter fun callback => s.mask callback &&& pins ≠ 0).map
        fun callback =>
          { callback := callback
            client := (B.callbacks callback).client
            pins := s.mask callback &&& pins
            context := (B.callbacks callback).context }
    ∃ t firings history, B.dispatch (B.clientsAt depth) r pins s = some (t, firings) ∧
      B.Passes ⟨s, [.walk pins (.head r)]⟩ history ⟨t, []⟩ ∧
      B.allCalls history = callsIn (firings.flatMap Firing.events) ∧
      firings.map Firing.call = calls r pins ∧
      (s.links.walk r).Nodup ∧
      (∀ firing ∈ firings, s.mask firing.call.callback &&& pins ≠ 0) ∧
      t.links = s.links ∧ t.masks = s.masks ∧
      ∀ before first after others list below, history = before ++ first :: after →
        first.tasks = .walk others (.head list) :: below →
        B.ownCalls below.length (during below.length (first :: after)) = calls list others ∧
          ∀ outer < below.length, (first.dispatch? outer).isSome →
            B.WithinCall outer before (during below.length (first :: after)) := by
  intro calls
  obtain ⟨t, firings, history, done, passes, made⟩ :=
    B.exists_history reachable.grounded few r pins
  have sparesRegistries := spares.mono fun _ => Command.sparesRegistries_of_sparesCallbacks
  have fixed : ∀ n ∈ history, n.change? = none := fun n mem =>
    (passes.scripted sparesRegistries (fun _ => rfl) n mem).change?_eq_none
  have unset : ∀ n ∈ history, ∀ callback, n.remask? callback = none := fun n mem =>
    (passes.scripted spares (fun _ => rfl) n mem).remask?_eq_none
  have own := (passes.byLatestMasks_all reachable.grounded fixed).ownCalls_eq unset
  rw [made] at own
  refine ⟨t, firings, history, done, passes, passes.allCalls_eq done, own,
    (reachable.grounded.follows_walk r).nodup, ?_, passes.links_eq fixed, ?_, ?_⟩
  · intro firing mem
    have called := List.mem_map_of_mem (f := Call.callback) (own ▸ List.mem_map_of_mem mem)
    rw [callsOf, map_callback_callsBy] at called
    simpa using (List.mem_filter.mp called).2
  · refine Vector.ext fun i inside => ?_
    have mask := passes.mask_eq ⟨i, inside⟩
    rwa [latest?_eq_none fun n mem => unset n mem _] at mask
  · rintro before first after others list below rfl starts
    refine ⟨?_, fun outer deeper => passes.withinCall starts deeper⟩
    refine (passes.byLatestMasks reachable.grounded fixed starts).ownCalls_eq fun n mem => ?_
    refine unset n ?_
    rcases List.mem_append.mp mem with earlier | inside
    · exact List.mem_append_left _ earlier
    · exact List.mem_append_right _ (during_subset _ _ inside)

/-- Three callbacks are registered, one of which listens to nothing, while another one is in two
registries. The client of the first callback dispatches both registries when it is called. -/
def reentering (B : Board movingLayout) (here there : Fin 2) (first second third : Fin 3) :
    State movingLayout :=
  B.editAll
    (.start (.filled 0 0) #v[1, 6, 0] #v[[[.dispatch here 3, .dispatch there 3]], []])
    [⟨here, .register first⟩, ⟨here, .register third⟩, ⟨here, .register second⟩,
      ⟨there, .register second⟩]

/-- The first dispatch that is made in the call of callback 0 makes the same two calls. Both are
of pins 0 and 1, and each callback listens to one of them. -/
theorem reentrant_dispatch_reentering :
    let B := movingBoard fun callback => if callback = 1 then 1 else 0
    let s := reentering B 0 1 0 1 2
    let calls : List (Call movingLayout) :=
      [{ callback := 0, client := 0, pins := 1, context := 100 },
        { callback := 1, client := 1, pins := 2, context := 101 }]
    B.Reachable s ∧ (s.Scripted fun command => command.sparesCallbacks) ∧ s.entriesLeft ≤ 1 ∧
      ∃ t firings history before first after below,
        B.dispatch (B.clientsAt 1) 0 3 s = some (t, firings) ∧
        firings.map Firing.call = calls ∧
        (B.allCalls history).map Call.callback = [0, 0, 1, 1, 1] ∧
        history = before ++ first :: after ∧ first.tasks = .walk 3 (.head 0) :: below ∧
        B.ownCalls below.length (during below.length (first :: after)) = calls ∧
        B.WithinCall 0 before (during below.length (first :: after)) := by
  intro B s calls
  have reachable : B.Reachable s := B.reachable_editAll _ _ _ _
  have spares : s.Scripted fun command => command.sparesCallbacks := by
    simp only [State.Scripted]
    decide +kernel
  have few : s.entriesLeft ≤ 1 := by decide +kernel
  obtain ⟨t, firings, history, done, passes, _, made, _, _, _, _, nested⟩ :=
    reachable.reentrant_dispatch spares few 0 3
  have explicit : B.Passes ⟨s, [.walk 3 (.head 0)]⟩ _ ⟨_, []⟩ :=
    .step (.call [] (show _ = some 0 by decide +kernel) (by decide +kernel) rfl) <|
    .step (.dispatch _ _ _ _ _) <|
    .step (.callIdle _ (show _ = some 0 by decide +kernel) (by decide +kernel)
      (by decide +kernel)) <|
    .step (.pass _ (show _ = some 2 by decide +kernel) (by decide +kernel)) <|
    .step (.callIdle _ (show _ = some 1 by decide +kernel) (by decide +kernel)
      (by decide +kernel)) <|
    .step (.stop _ _ (by decide +kernel)) <|
    .step (.dispatch _ _ _ _ _) <|
    .step (.callIdle _ (show _ = some 1 by decide +kernel) (by decide +kernel)
      (by decide +kernel)) <|
    .step (.stop _ _ (by decide +kernel)) <| .step (.finish _ _) <|
    .step (.pass _ (show _ = some 2 by decide +kernel) (by decide +kernel)) <|
    .step (.callIdle _ (show _ = some 1 by decide +kernel) (by decide +kernel)
      (by decide +kernel)) <|
    .step (.stop _ _ (by decide +kernel)) <| .refl _
  obtain ⟨rfl, rfl⟩ := passes.unique explicit
  obtain ⟨own, within⟩ := nested [_, _] _ _ 3 0 _ rfl rfl
  refine ⟨reachable, spares, few, _, firings, _, [_, _], _, _, _, done, ?_, ?_, rfl, rfl, ?_,
    within 0 (by decide) rfl⟩
  · rw [made]
    decide +kernel
  · decide +kernel
  · rw [own]
    decide +kernel

end Gpio.Board
