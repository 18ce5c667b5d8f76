import Gpio.Proofs.Links.Ahead
import Gpio.Proofs.Registry.Rolls

/-!
# Callbacks that enter and leave

An edit lets one callback enter its registry, or some leave it, or does nothing
(`Registry.edit_cases`). To a walk that stands at any link, in the registry or not, it matters
only which callbacks enter and leave: one that does not enter does not come ahead, and one that
does not leave stays ahead, unless one enters on which the walk stands or that it has ahead.
-/

namespace Gpio

open Links

variable {registries callbacks clients : Nat} {h : Links registries callbacks}
  {clientOf : Fin callbacks → Fin clients}

/-- An edit does nothing, or pushes a callback that was not in the registry, or removes. -/
theorem Registry.edit_cases (h : Links registries callbacks)
    (clientOf : Fin callbacks → Fin clients) (r : Fin registries)
    (change : RegistryEdit clients callbacks) :
    edit h clientOf r change = h ∨
      (∃ callback, change.registers? = some callback ∧ callback ∉ h.walk r ∧
        edit h clientOf r change = h.pushTail r callback) ∨
      ∃ remove, edit h clientOf r change = h.removeWhere r remove := by
  have registered (callback : Fin callbacks) : register h r callback = h ∨
      callback ∉ h.walk r ∧ register h r callback = h.pushTail r callback := by
    unfold register
    split
    · exact Or.inl rfl
    · rename_i absent
      exact Or.inr ⟨fun inside => absent (contains_iff.mpr inside), rfl⟩
  cases change with
  | register callback =>
      exact (registered callback).imp_right fun pushed => Or.inl ⟨callback, rfl, pushed⟩
  | unregister client => exact Or.inr (Or.inr ⟨_, rfl⟩)
  | manage callback present =>
      cases present with
      | true => exact (registered callback).imp_right fun pushed => Or.inl ⟨callback, rfl, pushed⟩
      | false => exact Or.inr (Or.inr ⟨_, rfl⟩)

namespace RegistryChange

variable {change : RegistryChange registries callbacks clients} {callback other : Fin callbacks}
  {start : Link registries callbacks}

/-- The links after an edit. -/
def apply (clientOf : Fin callbacks → Fin clients) (h : Links registries callbacks)
    (change : RegistryChange registries callbacks clients) : Links registries callbacks :=
  Registry.edit h clientOf change.registry change.edit

/-- With the edit a callback comes into the registry. -/
def Enters (clientOf : Fin callbacks → Fin clients) (h : Links registries callbacks)
    (change : RegistryChange registries callbacks clients) (callback : Fin callbacks) : Prop :=
  callback ∉ h.walk change.registry ∧ callback ∈ (change.apply clientOf h).walk change.registry

/-- With the edit a callback goes out of the registry. -/
def Leaves (clientOf : Fin callbacks → Fin clients) (h : Links registries callbacks)
    (change : RegistryChange registries callbacks clients) (callback : Fin callbacks) : Prop :=
  callback ∈ h.walk change.registry ∧ callback ∉ (change.apply clientOf h).walk change.registry

theorem grounded_apply (grounded : h.Grounded) : (change.apply clientOf h).Grounded :=
  Registry.grounded_edit grounded clientOf change.registry change.edit

theorem enters_of_pushTail (grounded : h.Grounded) (outside : other ∉ h.walk change.registry)
    (pushed : change.apply clientOf h = h.pushTail change.registry other) :
    change.Enters clientOf h other := by
  have follows := (grounded.follows_walk change.registry).pushTail outside
  refine ⟨outside, ?_⟩
  rw [pushed, follows.walk_eq]
  exact List.mem_append_right _ (List.mem_singleton_self other)

/-- Only a callback enters that the edit registers, and it is pushed. -/
theorem Enters.apply_eq (enters : change.Enters clientOf h callback) (grounded : h.Grounded) :
    change.edit.registers? = some callback ∧
      change.apply clientOf h = h.pushTail change.registry callback := by
  obtain ⟨outside, inside⟩ := enters
  have follows := grounded.follows_walk change.registry
  rcases Registry.edit_cases h clientOf change.registry change.edit with
    same | ⟨other, registers, absent, pushed⟩ | ⟨remove, removed⟩
  · exact absurd (same ▸ inside) outside
  · rw [apply, pushed, (follows.pushTail absent).walk_eq] at inside
    rcases List.mem_append.mp inside with known | new
    · exact absurd known outside
    · obtain rfl := List.mem_singleton.mp new
      exact ⟨registers, pushed⟩
  · rw [apply, removed, (follows.removeWhere remove).walk_eq] at inside
    exact absurd (List.mem_of_mem_filter inside) outside

theorem leaves_of_removeWhere (grounded : h.Grounded) {remove : Fin callbacks → Bool}
    (inside : callback ∈ h.walk change.registry) (goes : remove callback = true)
    (removed : change.apply clientOf h = h.removeWhere change.registry remove) :
    change.Leaves clientOf h callback := by
  have follows := (grounded.follows_walk change.registry).removeWhere remove
  refine ⟨inside, ?_⟩
  rw [removed, follows.walk_eq]
  intro stays
  simpa [goes] using List.of_mem_filter stays

/-- A callback that does not enter does not come ahead. -/
theorem notMem_ahead_apply (grounded : h.Grounded) (away : ¬change.Enters clientOf h callback)
    (clear : callback ∉ h.ahead start) : callback ∉ (change.apply clientOf h).ahead start := by
  intro mem
  rcases Registry.edit_cases h clientOf change.registry change.edit with
    same | ⟨other, _, absent, pushed⟩ | ⟨remove, removed⟩
  · rw [apply, same] at mem
    exact clear mem
  · have different : callback ≠ other := by
      rintro rfl
      exact away (enters_of_pushTail grounded absent pushed)
    rw [apply, pushed] at mem
    exact clear (grounded.mem_ahead_of_pushTail absent different mem)
  · rw [apply, removed] at mem
    exact clear (grounded.ahead_removeWhere_subset change.registry remove start mem)

/-- A callback that does not leave stays ahead, unless one enters on which the walk stands or
that it has ahead. -/
theorem mem_ahead_apply (grounded : h.Grounded) (stays : ¬change.Leaves clientOf h callback)
    (uncut : ∀ other, change.Enters clientOf h other → .next other ∉ trail start (h.ahead start))
    (mem : callback ∈ h.ahead start) : callback ∈ (change.apply clientOf h).ahead start := by
  rcases Registry.edit_cases h clientOf change.registry change.edit with
    same | ⟨other, _, absent, pushed⟩ | ⟨remove, removed⟩
  · rwa [apply, same]
  · rw [apply, pushed]
    exact grounded.mem_ahead_pushTail absent
      (uncut other (enters_of_pushTail grounded absent pushed)) mem
  · have kept : callback ∈ h.walk change.registry → remove callback = false := by
      intro inside
      refine Bool.eq_false_iff.mpr fun goes => stays ?_
      exact leaves_of_removeWhere grounded inside goes removed
    rw [apply, removed]
    exact grounded.mem_ahead_removeWhere kept mem

/-- A callback that enters where a walk stands, or ahead of it, cuts off the callbacks of every
registry in which it is not. -/
theorem Enters.notMem_ahead_apply (enters : change.Enters clientOf h other)
    (grounded : h.Grounded) (cut : .next other ∈ trail start (h.ahead start))
    {home : Fin registries} (inside : callback ∈ h.walk home) (apart : other ∉ h.walk home) :
    callback ∉ (change.apply clientOf h).ahead start := by
  rw [(enters.apply_eq grounded).2]
  exact grounded.notMem_ahead_pushTail_of_cut enters.1 cut inside apart

/-- A callback that does not leave stays in its registry, if none enters another registry that
is in this one. -/
theorem mem_walk_apply (grounded : h.Grounded) (stays : ¬change.Leaves clientOf h callback)
    (admits : Rolls.Admits h.walk change) {home : Fin registries}
    (inside : callback ∈ h.walk home) : callback ∈ (change.apply clientOf h).walk home := by
  refine mem_ahead_apply grounded stays ?_ inside
  intro other enters
  refine next_notMem_trail_head ?_
  by_cases same : home = change.registry
  · exact same ▸ enters.1
  · exact admits other (enters.apply_eq grounded).1 home same

end RegistryChange

end Gpio
