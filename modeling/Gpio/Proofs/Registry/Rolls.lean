import Gpio.Proofs.Admission
import Gpio.Proofs.Registry.Basic
import Mathlib.Data.List.Nodup
import Mathlib.Logic.Function.Basic

/-!
# Registries as lists

As long as a callback is registered only while it is in no other registry, registries are
lists of callbacks: an edit changes the list of its registry and no other (`Rolls.edit`).
The invariant is that the walks of the registries are the lists, and that no two lists have
a common callback (`Represents`). The links that removed callbacks have kept do not matter
to it, since no registry leads to them.
-/

namespace Gpio

variable {registries callbacks clients : Nat}

/-- The callback that an edit registers, if it registers one. -/
def RegistryEdit.registers? : RegistryEdit clients callbacks → Option (Fin callbacks)
  | .register callback => some callback
  | .unregister _ => none
  | .manage callback present => if present then some callback else none

/-- An edit of one of several registries. -/
structure RegistryChange (registries callbacks clients : Nat) where
  registry : Fin registries
  edit : RegistryEdit clients callbacks
  deriving DecidableEq

/-- The callbacks of every registry, in order. -/
abbrev Rolls (registries callbacks : Nat) := Fin registries → List (Fin callbacks)

namespace Rolls

def empty (registries callbacks : Nat) : Rolls registries callbacks := fun _ => []

def enter (roll : List (Fin callbacks)) (callback : Fin callbacks) : List (Fin callbacks) :=
  if roll.contains callback then roll else roll ++ [callback]

theorem enter_eq (roll : List (Fin callbacks)) (callback : Fin callbacks) :
    enter roll callback = if callback ∈ roll then roll else roll ++ [callback] := by
  simp only [enter, List.contains_iff_mem]

/-- What an edit makes of the list of its registry. -/
def revise (clientOf : Fin callbacks → Fin clients) (roll : List (Fin callbacks)) :
    RegistryEdit clients callbacks → List (Fin callbacks)
  | .register callback => enter roll callback
  | .unregister client => roll.filter fun callback => clientOf callback ≠ client
  | .manage callback true => enter roll callback
  | .manage callback false => roll.erase callback

def edit (clientOf : Fin callbacks → Fin clients) (rolls : Rolls registries callbacks)
    (change : RegistryChange registries callbacks clients) : Rolls registries callbacks :=
  Function.update rolls change.registry (revise clientOf (rolls change.registry) change.edit)

def editAll (clientOf : Fin callbacks → Fin clients) (rolls : Rolls registries callbacks)
    (changes : List (RegistryChange registries callbacks clients)) : Rolls registries callbacks :=
  changes.foldl (edit clientOf) rolls

/-- A callback may be registered while it is in no other registry. -/
def Admits (rolls : Rolls registries callbacks)
    (change : RegistryChange registries callbacks clients) : Prop :=
  ∀ callback ∈ change.edit.registers?, ∀ other, other ≠ change.registry → callback ∉ rolls other

instance (rolls : Rolls registries callbacks)
    (change : RegistryChange registries callbacks clients) : Decidable (rolls.Admits change) :=
  inferInstanceAs (Decidable (∀ callback ∈ change.edit.registers?, ∀ other,
    other ≠ change.registry → callback ∉ rolls other))

end Rolls

namespace Registry

open Links

/-- The links hold these lists, which have no common callbacks. -/
structure Represents (h : Links registries callbacks) (rolls : Rolls registries callbacks) :
    Prop where
  follows : ∀ r, h.Follows (.head r) (rolls r)
  apart : ∀ ⦃r other⦄, r ≠ other → ∀ callback ∈ rolls r, callback ∉ rolls other

namespace Represents

variable {h : Links registries callbacks} {rolls : Rolls registries callbacks}

theorem empty (registries callbacks : Nat) :
    Represents (.empty registries callbacks) (.empty registries callbacks) where
  follows r := .stop (read_empty (.head r))
  apart _ _ _ _ inside := nomatch inside

/-- A registry may get another list, if its links do and the other registries keep theirs. -/
theorem update (represents : Represents h rolls) {g : Links registries callbacks}
    {r : Fin registries} {roll : List (Fin callbacks)} (follows : g.Follows (.head r) roll)
    (others : ∀ other, other ≠ r → g.Follows (.head other) (rolls other))
    (apart : ∀ callback ∈ roll, callback ∈ rolls r ∨ ∀ other, other ≠ r → callback ∉ rolls other) :
    Represents g (Function.update rolls r roll) where
  follows := by
    intro other
    by_cases same : other = r
    · rw [same, Function.update_self]
      exact follows
    · rw [Function.update_of_ne same]
      exact others other same
  apart := by
    have fresh : ∀ other, other ≠ r → ∀ callback ∈ roll, callback ∉ rolls other := by
      intro other different callback inside
      rcases apart callback inside with member | outside
      · exact represents.apart different.symm callback member
      · exact outside other different
    intro first second different callback inside
    by_cases isFirst : first = r
    · subst isFirst
      rw [Function.update_self] at inside
      rw [Function.update_of_ne different.symm]
      exact fresh second different.symm callback inside
    · rw [Function.update_of_ne isFirst] at inside
      by_cases isSecond : second = r
      · subst isSecond
        rw [Function.update_self]
        exact fun again => fresh first isFirst callback again inside
      · rw [Function.update_of_ne isSecond]
        exact represents.apart different callback inside

theorem register (represents : Represents h rolls) {r : Fin registries}
    {callback : Fin callbacks} (free : ∀ other, other ≠ r → callback ∉ rolls other) :
    Represents (Registry.register h r callback)
      (Function.update rolls r (Rolls.enter (rolls r) callback)) := by
  have follows := represents.follows r
  simp only [Registry.register, contains_iff, follows.walk_eq, Rolls.enter_eq]
  split
  · rwa [Function.update_eq_self]
  · rename_i outside
    refine represents.update (follows.pushTail outside) ?_ ?_
    · intro other different
      have apart := trail_disjoint different.symm (represents.apart different.symm)
        (standing_mem_trail (.head r) (rolls r))
      exact follows.pushTail_of_notMem outside (represents.follows other) apart
        (next_notMem_trail_head (free other different))
    · intro entered inside
      rcases List.mem_append.mp inside with member | new
      · exact Or.inl member
      · obtain rfl := List.mem_singleton.mp new
        exact Or.inr free

theorem removeWhere (represents : Represents h rolls) (r : Fin registries)
    (remove : Fin callbacks → Bool) :
    Represents (h.removeWhere r remove)
      (Function.update rolls r ((rolls r).filter fun callback => !remove callback)) := by
  have follows := represents.follows r
  refine represents.update (follows.removeWhere remove) ?_ ?_
  · intro other different
    refine (represents.follows other).congr ?_
    intro link mem
    have apart : link ∉ trail (.head r) (rolls r) :=
      trail_disjoint different (represents.apart different) mem
    exact read_removeWhere follows remove fun changed =>
      apart (trail_subset _ List.filter_sublist.subset changed)
  · intro callback inside
    exact Or.inl (List.mem_of_mem_filter inside)

theorem edit (represents : Represents h rolls) (clientOf : Fin callbacks → Fin clients)
    {change : RegistryChange registries callbacks clients} (admits : rolls.Admits change) :
    Represents (Registry.edit h clientOf change.registry change.edit)
      (rolls.edit clientOf change) := by
  obtain ⟨r, change⟩ := change
  cases change with
  | register callback => exact represents.register (admits callback rfl)
  | unregister client =>
      have removed := represents.removeWhere r fun callback => clientOf callback = client
      simp only [Rolls.edit, Rolls.revise, decide_not]
      exact removed
  | manage callback present =>
      cases present with
      | true => exact represents.register (admits callback rfl)
      | false =>
          have removed := represents.removeWhere r fun other => other = callback
          rw [Rolls.edit, Rolls.revise, (represents.follows r).nodup.erase_eq_filter]
          exact removed

theorem ask_length (represents : Represents h rolls) (r : Fin registries) :
    ask h r .length = .number (rolls r).length := by
  rw [ask, length, (represents.follows r).walk_eq]

theorem ask_isEmpty (represents : Represents h rolls) (r : Fin registries) :
    ask h r .isEmpty = .flag (rolls r).isEmpty := by
  have follows := represents.follows r
  rw [ask, isEmpty, first?]
  generalize rolls r = roll at follows
  cases follows with
  | stop empty => rw [empty]; rfl
  | step found _ => rw [found]; rfl

theorem ask_contains (represents : Represents h rolls) (r : Fin registries)
    (callback : Fin callbacks) :
    ask h r (.contains callback) = .flag (decide (callback ∈ rolls r)) := by
  rw [ask, contains, (represents.follows r).walk_eq]

end Represents

end Registry

end Gpio
