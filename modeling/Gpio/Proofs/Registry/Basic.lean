import Gpio.Proofs.Links.Acyclic
import Gpio.Registry
import Mathlib.Data.Finset.Card

/-!
# Registries on grounded links

Edits keep links grounded, since a callback is only pushed when it is not in the registry.
On grounded links the questions about a registry are answered by its walk.
-/

namespace Gpio.Registry

open Links

variable {registries callbacks clients : Nat} {h : Links registries callbacks}
  {r : Fin registries}

theorem contains_iff {callback : Fin callbacks} :
    contains h r callback ↔ callback ∈ h.walk r :=
  decide_eq_true_iff

theorem grounded_register (grounded : h.Grounded) (r : Fin registries)
    (callback : Fin callbacks) : (register h r callback).Grounded := by
  unfold register
  split
  · exact grounded
  · rename_i absent
    exact grounded.pushTail fun inside => absent (contains_iff.mpr inside)

theorem grounded_edit (grounded : h.Grounded) (clientOf : Fin callbacks → Fin clients)
    (r : Fin registries) (change : RegistryEdit clients callbacks) :
    (edit h clientOf r change).Grounded := by
  cases change with
  | register callback => exact grounded_register grounded r callback
  | unregister client => exact grounded.removeWhere r _
  | manage callback present =>
      cases present with
      | true => exact grounded_register grounded r callback
      | false => exact grounded.removeWhere r _

/-- The length is the number of callbacks in the registry. -/
theorem length_eq_card (grounded : h.Grounded) :
    length h r = (Finset.univ.filter fun callback => contains h r callback).card := by
  have members : (Finset.univ.filter fun callback => contains h r callback) =
      (h.walk r).toFinset := by
    ext callback
    simp only [Finset.mem_filter, Finset.mem_univ, true_and, contains_iff, List.mem_toFinset]
  rw [members, List.toFinset_card_of_nodup (grounded.follows_walk r).nodup, length]

theorem isEmpty_iff (grounded : h.Grounded) : isEmpty h r ↔ h.walk r = [] := by
  rw [isEmpty, first?, Option.isNone_iff_eq_none]
  have follows := grounded.follows_walk r
  constructor
  · exact fun empty => follows.unique (.stop empty)
  · intro none
    rw [none] at follows
    exact follows.read_standing

end Gpio.Registry
