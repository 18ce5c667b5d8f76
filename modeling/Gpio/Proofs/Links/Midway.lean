import Gpio.Proofs.Links.Push
import Gpio.Proofs.Links.Removal

/-!
# Walks in the middle of an edit

An interrupt can come between any two stores of an edit, and what it runs may walk the list
that is being edited. Such a walk ends. During a push it meets the old list, also when the node
that is being pushed has kept a link from an earlier stay: that link is cleared before anything
leads to the node. During a removal it lacks exactly the nodes whose stores have been made,
which are the first ones of those that go (`Follows.between_stores`).
-/

namespace Gpio.Links

variable {lists nodes : Nat} {h : Links lists nodes} {list : Fin lists} {met : List (Fin nodes)}

/-- Until the last store of a push has been made the list is as before. -/
theorem Follows.midway_pushTail (follows : h.Follows (.head list) met) {node : Fin nodes}
    (outside : node ∉ met) {done : List (LinkStore lists nodes)}
    (begun : done <+: h.pushStores list node) (unfinished : done ≠ h.pushStores list node) :
    (h.applyAll done).Follows (.head list) met := by
  rw [pushStores] at begun unfinished
  rcases List.prefix_cons_iff.mp begun with rfl | ⟨later, rfl, onward⟩
  · exact follows
  · rcases List.prefix_cons_iff.mp onward with rfl | ⟨last, rfl, ends⟩
    · have cleared : .next node ∉ trail (.head list) met := next_notMem_trail_head outside
      exact follows.apply_of_notMem (s := ⟨.next node, none⟩) cleared
    · obtain rfl := List.prefix_nil.mp ends
      exact absurd rfl unfinished

/-- Whatever part of the stores of an edit has been made, the walk of the list ends. A pushed
node is met when its last store has been made, and is the last one then. A removal makes one
store for each node that goes, and after some of them just as many of these nodes are missing,
the first ones. All other nodes of the list are met as before. -/
theorem Follows.between_stores (follows : h.Follows (.head list) met) :
    (∀ node, node ∉ met → ∀ done, done <+: h.pushStores list node →
      (h.applyAll done).Follows (.head list)
        (if done = h.pushStores list node then met ++ [node] else met)) ∧
    ∀ remove, (h.removeStores list remove).length = met.countP remove ∧
      ∀ done, done <+: h.removeStores list remove →
        (h.applyAll done).Follows (.head list) ((List.eraseP remove)^[done.length] met) := by
  constructor
  · intro node outside done begun
    split
    · rename_i finished
      rw [finished]
      exact follows.pushTail outside
    · rename_i unfinished
      exact follows.midway_pushTail outside begun unfinished
  · intro remove
    have sweeps := follows.sweeps_looks remove
    exact ⟨sweeps.length_unlinks follows, fun _ begun => sweeps.follows_eraseP follows begun⟩

/-- Node 1 has been taken out from between nodes 0 and 2, and its link still leads to node 2
when it is pushed again. Of the nodes 0, 2 and 3 the first two, which are neighbours, are
taken out. -/
theorem between_stores_staleLink :
    let full := ((((empty 1 4).pushTail 0 0).pushTail 0 1).pushTail 0 2).pushTail 0 3
    let h := full.removeWhere 0 fun node => node = 1
    h.Follows (.head 0) [0, 2, 3] ∧ h.read (.next 1) = some 2 ∧
      (∃ clear link, h.pushStores 0 1 = [clear, link] ∧
        (h.applyAll [clear]).Follows (.head 0) [0, 2, 3] ∧
        (h.applyAll [clear, link]).Follows (.head 0) [0, 2, 3, 1]) ∧
      ∃ first second, h.removeStores 0 (fun node => node.val < 3) = [first, second] ∧
        (h.applyAll [first]).Follows (.head 0) [2, 3] ∧
        (h.applyAll [first, second]).Follows (.head 0) [3] := by
  intro full h
  have follows : h.Follows (.head 0) [0, 2, 3] :=
    .step (by decide +kernel) (.step (by decide +kernel) (.step (by decide +kernel)
      (.stop (by decide +kernel))))
  obtain ⟨pushes, removals⟩ := follows.between_stores
  have pushed := pushes 1 (by decide)
  obtain ⟨count, removed⟩ := removals fun node => node.val < 3
  refine ⟨follows, by decide +kernel, ⟨_, _, rfl, ?_, ?_⟩, ?_⟩
  · exact pushed _ (List.prefix_append [_] [_])
  · exact pushed _ List.prefix_rfl
  · obtain ⟨first, second, stores⟩ := List.length_eq_two.mp count
    rw [stores] at removed
    exact ⟨first, second, stores, removed _ (List.prefix_append [_] [_]),
      removed _ List.prefix_rfl⟩

end Gpio.Links
