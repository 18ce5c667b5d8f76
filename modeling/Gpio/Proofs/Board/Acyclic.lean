import Gpio.Proofs.Board.Machine
import Gpio.Proofs.Registry.Basic

/-!
# The links of a board have no cycles

Among the steps of a board only the edits of registries store into links, and these keep
links grounded. So in every state of a session, in the middle of any number of nested
calls, every walk ends and no callback leads back to itself, whatever registries the
callbacks are in and whatever links the removed ones have kept.
-/

namespace Gpio.Board

open Links

variable {L : Layout} {B : Board L}

theorem grounded_operate {s : State L} (grounded : s.links.Grounded) (operation : Operation L) :
    (B.operate s operation).state.links.Grounded := by
  rw [links_operate]
  split
  · exact Registry.grounded_edit grounded B.clientOf _ _
  · exact grounded

theorem Step.grounded {m next : Machine L} {deeds : List (Deed L)} (step : B.Step m deeds next)
    (grounded : m.state.links.Grounded) : next.state.links.Grounded := by
  cases step with
  | operate s operation rest tasks => exact grounded_operate grounded operation
  | acknowledge s c p tasks => exact (B.links_act c s _).symm ▸ grounded
  | call tasks found listens taken => exact State.links_takeNext? taken ▸ grounded
  | _ => exact grounded

theorem Runs.grounded {m last : Machine L} {deeds : List (Deed L)} (runs : B.Runs m deeds last)
    (grounded : m.state.links.Grounded) : last.state.links.Grounded := by
  induction runs with
  | refl _ => exact grounded
  | step step _ ih => exact ih (step.grounded grounded)

theorem Reachable.grounded {s : State L} (reachable : B.Reachable s) : s.links.Grounded := by
  obtain ⟨memory, masks, scripts, commands, deeds, tasks, runs⟩ := reachable
  exact runs.grounded (grounded_empty L.lists L.callbacks)

/-- In every state of a session the links have no cycle. So every walk of a registry ends
and meets no callback twice, every removal ends, and the answers about a registry agree. -/
theorem Reachable.acyclic_links {s : State L} (reachable : B.Reachable s) :
    s.links.Acyclic ∧
    (∀ r, s.links.Follows (.head r) (s.links.walk r) ∧
      (s.links.walk r).length ≤ L.callbacks ∧ (s.links.walk r).Nodup) ∧
    (∀ r remove, Sweeps remove s.links (.head r) (s.links.looks r remove)) ∧
    (∀ r, Registry.length s.links r =
      (Finset.univ.filter fun callback => Registry.contains s.links r callback).card) ∧
    ∀ r, Registry.isEmpty s.links r ↔ Registry.length s.links r = 0 := by
  have grounded := reachable.grounded
  refine ⟨grounded.acyclic, ?_, ?_, ?_, ?_⟩
  · intro r
    have follows := grounded.follows_walk r
    exact ⟨follows, follows.length_le, follows.nodup⟩
  · intro r remove
    exact (grounded.follows_walk r).sweeps_looks remove
  · intro r
    exact Registry.length_eq_card grounded
  · intro r
    rw [Registry.isEmpty_iff grounded, Registry.length, List.length_eq_zero_iff]

/-! ## Callbacks in two registries -/

/-- Two registries, and three callbacks of one client. -/
abbrev sharedLayout : Layout where
  words := 0
  controllers := 0
  maps := 0
  registries := 2
  clients := 1
  callbacks := 3

def sharedBoard (client : Fin 1) : Board sharedLayout where
  controllers := nofun
  maps := nofun
  callbacks := fun _ => ⟨client, 0⟩

def sharedEdit (r : Fin 2) (edit : RegistryEdit 1 3) : Command sharedLayout :=
  .operation (.edit r edit)

/-- Callback 0 is in both registries, and its client, which is being called, has removed
callback 2. Callback 1 was removed before, and its link still leads to callback 2. -/
theorem acyclic_links_sharedBoard :
    ∃ s : State sharedLayout, (sharedBoard 0).Reachable s ∧ s.links.read (.next 1) = some 2 ∧
      s.links.walk 0 = [0] ∧ s.links.walk 1 = [0] ∧ s.links.Acyclic ∧
      Registry.length s.links 0 =
        (Finset.univ.filter fun callback => Registry.contains s.links 0 callback).card := by
  have reachable : (sharedBoard 0).Reachable _ :=
    ⟨#v[], #v[1, 1, 1], #v[[[sharedEdit 0 (.manage 2 false)]]],
      [sharedEdit 0 (.register 0), sharedEdit 1 (.register 0), sharedEdit 1 (.register 1),
        sharedEdit 0 (.register 2), sharedEdit 1 (.manage 1 false), .dispatch 0 1], _, _,
      .step (.operate _ _ _ _) <| .step (.operate _ _ _ _) <| .step (.operate _ _ _ _) <|
      .step (.operate _ _ _ _) <| .step (.operate _ _ _ _) <| .step (.dispatch _ _ _ _ _) <|
      .step (.call _ (show _ = some 0 from rfl) (by decide) rfl) <|
      .step (.operate _ _ _ _) <| .refl _⟩
  obtain ⟨acyclic, _, _, lengths, _⟩ := reachable.acyclic_links
  exact ⟨_, reachable, rfl, rfl, rfl, acyclic, lengths 0⟩

end Gpio.Board
