import Gpio.Proofs.Board.Budget
import Gpio.Proofs.Board.Demand

/-!
# Runs without some of their steps

An observer who takes part in some steps of a run only is compared with the same observer in
the run that has no other steps. If the steps of others change nothing that bears on his own
(`Unwinds`), he sees the same in both runs (`Unwinds.execAll`).
-/

namespace Gpio

variable {L : Layout}

/-- The state that is left by the last of some effects. -/
def lastState : State L → List (Effect L) → State L
  | s, [] => s
  | _, effect :: effects => lastState effect.state effects

/-- What is seen of the steps that satisfy a test, given the effects of all of them. -/
def seenOf {α : Type} (own : α → Bool) :
    List α → List (Effect L) → List (List (Event L) × Reply)
  | step :: steps, effect :: effects =>
      if own step then effect.seen :: seenOf own steps effects else seenOf own steps effects
  | _, _ => []

namespace Board

variable {B : Board L} {α : Type} {command : α → Command L} {own : α → Bool}
  {R : State L → State L → Prop}

theorem execAll_cons_eq_some_iff {s : State L} {first : Command L} {rest : List (Command L)}
    {effects : List (Effect L)} :
    B.execAll s (first :: rest) = some effects ↔
      ∃ effect others, B.exec s first = some effect ∧
        B.execAll effect.state rest = some others ∧ effects = effect :: others := by
  simp only [execAll, Option.bind_eq_bind, Option.bind_eq_some_iff, Option.pure_def,
    Option.some.injEq]
  constructor
  · rintro ⟨effect, executed, others, onward, rfl⟩
    exact ⟨effect, others, executed, onward, rfl⟩
  · rintro ⟨effect, others, executed, onward, rfl⟩
    exact ⟨effect, executed, others, onward, rfl⟩

/-- Commands that are given to a board whose links are grounded are carried out to their end. -/
theorem exists_execAll (B : Board L) {s : State L} (grounded : s.links.Grounded)
    (commands : List (Command L)) : ∃ effects, B.execAll s commands = some effects := by
  induction commands generalizing s with
  | nil => exact ⟨[], rfl⟩
  | cons first rest ih =>
      obtain ⟨effect, executed, spends⟩ := (B.thrifty_clientsAt (Nat.le_refl _)).execWith B
        (Nat.le_refl _) grounded (Nat.le_refl _) first
      obtain ⟨others, onward⟩ := ih spends.grounded
      exact ⟨_, execAll_cons_eq_some_iff.mpr ⟨effect, others, executed, onward, rfl⟩⟩

/-- A relation between the states of two runs, the second of which lacks the steps of others:
a step of one's own looks the same from both states, and keeps them related, and so does a
step of another in the first run alone. -/
structure Unwinds (B : Board L) (command : α → Command L) (own : α → Bool)
    (R : State L → State L → Prop) : Prop where
  same : ∀ {step s t first second}, own step → R s t → B.exec s (command step) = some first →
    B.exec t (command step) = some second →
    first.seen = second.seen ∧ R first.state second.state
  other : ∀ {step s t effect}, ¬own step → R s t → B.exec s (command step) = some effect →
    R effect.state t

/-- Without the steps of others the same is seen of one's own. -/
theorem Unwinds.execAll (unwinds : B.Unwinds command own R) {s t : State L} (related : R s t)
    {steps : List α} {effects alone : List (Effect L)}
    (all : B.execAll s (steps.map command) = some effects)
    (purged : B.execAll t ((steps.filter own).map command) = some alone) :
    seenOf own steps effects = alone.map Effect.seen ∧
      R (lastState s effects) (lastState t alone) := by
  induction steps generalizing s t effects alone with
  | nil =>
      obtain rfl := Option.some.inj all
      obtain rfl := Option.some.inj purged
      exact ⟨rfl, related⟩
  | cons step steps ih =>
      obtain ⟨first, others, executed, onward, rfl⟩ := execAll_cons_eq_some_iff.mp all
      by_cases mine : own step
      · rw [List.filter_cons_of_pos mine] at purged
        obtain ⟨second, rest, repeated, later, rfl⟩ := execAll_cons_eq_some_iff.mp purged
        obtain ⟨looks, related⟩ := unwinds.same mine related executed repeated
        obtain ⟨seen, final⟩ := ih related onward later
        exact ⟨by rw [seenOf, if_pos mine, seen, looks, List.map_cons], final⟩
      · rw [List.filter_cons_of_neg mine] at purged
        obtain ⟨seen, final⟩ := ih (unwinds.other mine related executed) onward purged
        exact ⟨by rw [seenOf, if_neg mine, seen], final⟩

end Board

end Gpio
