import Gpio.Proofs.Board.Machine

/-!
# What clients are going to do

The commands that clients give stand in their scripts from the beginning. So what holds of all
commands in the scripts holds of all that a board does while a client is called
(`Machine.Scripted`), at whatever depth.
-/

namespace Gpio

variable {L : Layout} {p : Command L → Prop}

namespace State

/-- All commands that clients are going to give have a property. -/
def Scripted (s : State L) (p : Command L → Prop) : Prop :=
  ∀ client, ∀ entry ∈ s.script client, ∀ command ∈ entry, p command

theorem Scripted.mono {s : State L} {q : Command L → Prop} (scripted : s.Scripted p)
    (implies : ∀ command, p command → q command) : s.Scripted q :=
  fun client entry left command mem => implies command (scripted client entry left command mem)

theorem Scripted.of_scripts {s t : State L} (scripted : s.Scripted p)
    (same : t.scripts = s.scripts) : t.Scripted p := by
  intro client
  rw [script, same]
  exact scripted client

theorem Scripted.takeNext? {s t : State L} (scripted : s.Scripted p) {client : Fin L.clients}
    {entry : List (Command L)} (taken : s.takeNext? client = some (entry, t)) :
    (∀ command ∈ entry, p command) ∧ t.Scripted p := by
  obtain ⟨rest, script, rfl⟩ := takeNext?_eq_some_iff.mp taken
  have entries := scripted client
  rw [script] at entries
  refine ⟨entries entry List.mem_cons_self, fun other => ?_⟩
  rw [script_setScript]
  split
  · exact fun later mem => entries later (List.mem_cons_of_mem entry mem)
  · exact scripted other

end State

/-- All commands that a task is going to give have a property. -/
def Task.Scripted (p : Command L → Prop) : Task L → Prop
  | .commands given => ∀ command ∈ given, p command
  | .walk _ _ => True
  | .acknowledge _ _ => True

/-- All commands that are still to be carried out have a property. -/
structure Machine.Scripted (m : Machine L) (p : Command L → Prop) : Prop where
  state : m.state.Scripted p
  tasks : ∀ task ∈ m.tasks, task.Scripted p

namespace Board

variable {B : Board L} {m next last : Machine L} {deeds : List (Deed L)}

/-- Whatever a step takes up is in a script or in a task already, except for the service of an
interrupt that is delivered. -/
theorem Step.scripted (step : B.Step m deeds next) (serves : ∀ c, p (.service c))
    (scripted : m.Scripted p) : next.Scripted p := by
  obtain ⟨state, tasks⟩ := scripted
  cases step with
  | operate s operation rest below =>
      exact ⟨state.of_scripts (scripts_operate operation), by simp_all [Task.Scripted]⟩
  | call below found listens taken =>
      obtain ⟨entry, left⟩ := state.takeNext? taken
      exact ⟨left, by simp_all [Task.Scripted]⟩
  | acknowledge s c p below =>
      exact ⟨state.of_scripts (B.scripts_act c s _), by simp_all⟩
  | _ => exact ⟨state, by simp_all [Task.Scripted]⟩

end Board

end Gpio
