/-!
# Admitted commands

Some commands may only be given in some states. A sequence of commands is admitted when each
of them may be given in the state that those before it have left.
-/

namespace Gpio

variable {σ α : Type} {admits : σ → α → Prop} {step : σ → α → σ}

/-- Each of the commands is admitted when its turn comes. -/
inductive Admitted (admits : σ → α → Prop) (step : σ → α → σ) : σ → List α → Prop where
  | nil (s : σ) : Admitted admits step s []
  | cons {s : σ} {command : α} {commands : List α} (first : admits s command)
      (rest : Admitted admits step (step s command) commands) :
      Admitted admits step s (command :: commands)

namespace Admitted

theorem of_append {s : σ} {first second : List α}
    (admitted : Admitted admits step s (first ++ second)) : Admitted admits step s first := by
  induction first generalizing s with
  | nil => exact .nil s
  | cons command commands ih =>
      cases admitted with
      | cons first rest => exact .cons first (ih rest)

theorem cons_iff {s : σ} {command : α} {commands : List α} :
    Admitted admits step s (command :: commands) ↔
      admits s command ∧ Admitted admits step (step s command) commands := by
  constructor
  · intro admitted
    cases admitted with
    | cons first rest => exact ⟨first, rest⟩
  · exact fun both => .cons both.1 both.2

instance decidable [∀ s command, Decidable (admits s command)] :
    (s : σ) → (commands : List α) → Decidable (Admitted admits step s commands)
  | s, [] => isTrue (.nil s)
  | s, command :: commands =>
      have := decidable (step s command) commands
      decidable_of_iff' _ cons_iff

end Admitted

end Gpio
