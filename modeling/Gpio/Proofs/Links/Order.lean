import Gpio.Links.Session
import Gpio.Proofs.Admission
import Gpio.Proofs.Links.Acyclic

/-!
# The order of pushing

The nodes of a session have an order: that in which they were pushed, where a node that is
pushed again goes last. A link only leads to nodes that were pushed later than its own, also
the link of a node that has been taken out. So every walk meets its nodes in the order of
pushing, wherever it starts and whatever lists the nodes are in.
-/

namespace Gpio

variable {lists nodes : Nat}

/-- The order of pushing after a command. -/
def ListCommand.enqueue (order : List (Fin nodes)) : ListCommand lists nodes → List (Fin nodes)
  | .pushTail _ node => order.erase node ++ [node]
  | _ => order

/-- The nodes that commands push, in the order of pushing. -/
def pushOrder (commands : List (ListCommand lists nodes)) : List (Fin nodes) :=
  commands.foldl ListCommand.enqueue []

theorem pushOrder_concat (commands : List (ListCommand lists nodes))
    (command : ListCommand lists nodes) :
    pushOrder (commands ++ [command]) = command.enqueue (pushOrder commands) := by
  rw [pushOrder, List.foldl_append]
  rfl

/-- The nodes in the order of pushing are those that were pushed. -/
theorem mem_pushOrder {commands : List (ListCommand lists nodes)} {node : Fin nodes} :
    node ∈ pushOrder commands ↔ ∃ list, .pushTail list node ∈ commands := by
  induction commands using List.reverseRecOn with
  | nil => simp [pushOrder]
  | append_singleton commands command ih =>
      rw [pushOrder_concat]
      simp only [List.mem_append, List.mem_singleton, exists_or, ← ih]
      cases command with
      | pushTail list pushed =>
          by_cases same : node = pushed
          · simp [ListCommand.enqueue, same]
          · simp [ListCommand.enqueue, same, List.mem_erase_of_ne]
      | _ => simp [ListCommand.enqueue]

namespace Links

variable {h : Links lists nodes} {order : List (Fin nodes)} {list : Fin lists} {node : Fin nodes}

/-- Every walk ends and meets its nodes in this order. -/
structure Ordered (h : Links lists nodes) (order : List (Fin nodes)) : Prop where
  nodup : order.Nodup
  walks : ∀ start, ∃ met, h.Follows start met ∧ met.Sublist order

namespace Ordered

theorem empty (lists nodes : Nat) : (Links.empty lists nodes).Ordered [] where
  nodup := List.nodup_nil
  walks start := ⟨[], .stop (read_empty start), List.Sublist.refl []⟩

theorem follows_walk (ordered : h.Ordered order) (list : Fin lists) :
    h.Follows (.head list) (h.walk list) := by
  obtain ⟨met, follows, _⟩ := ordered.walks (.head list)
  rwa [follows.walk_eq]

theorem walk_sublist (ordered : h.Ordered order) (list : Fin lists) :
    (h.walk list).Sublist order := by
  obtain ⟨met, follows, sublist⟩ := ordered.walks (.head list)
  rwa [follows.walk_eq]

theorem pushTail (ordered : h.Ordered order) (outside : node ∉ h.walk list) :
    (h.pushTail list node).Ordered (order.erase node ++ [node]) where
  nodup := by
    have gone : node ∉ order.erase node := ordered.nodup.not_mem_erase
    refine List.nodup_append.mpr ⟨ordered.nodup.erase node, List.nodup_singleton node, ?_⟩
    rintro other inside _ last rfl
    exact gone (List.mem_singleton.mp last ▸ inside)
  walks := by
    intro start
    obtain ⟨seen, walk, sublist⟩ := ordered.walks start
    obtain ⟨kept, start_kept, unmet, either⟩ :=
      (ordered.follows_walk list).exists_pushTail outside walk
    -- What is kept of the walk does not meet the node, so it is ordered without it.
    have ordered_kept : kept.Sublist (order.erase node) := by
      have erased := (start_kept.sublist.trans sublist).erase node
      rwa [List.erase_of_not_mem unmet] at erased
    rcases either with ends | ends
    · exact ⟨kept, ends, ordered_kept.trans (List.sublist_append_left _ _)⟩
    · exact ⟨kept ++ [node], ends, ordered_kept.append (List.Sublist.refl [node])⟩

theorem removeWhere (ordered : h.Ordered order) (list : Fin lists) (remove : Fin nodes → Bool) :
    (h.removeWhere list remove).Ordered order where
  nodup := ordered.nodup
  walks := by
    intro start
    obtain ⟨seen, walk, sublist⟩ := ordered.walks start
    obtain ⟨rest, ends, fewer, _⟩ := (ordered.follows_walk list).exists_removeWhere remove walk
    exact ⟨rest, ends, fewer.trans sublist⟩

end Ordered

end Links

namespace ListSession

/-- A node may be pushed to a list in which it is not. -/
def Admits (session : ListSession lists nodes) : ListCommand lists nodes → Prop
  | .pushTail list node => node ∉ session.links.walk list
  | _ => True

instance (session : ListSession lists nodes) (command : ListCommand lists nodes) :
    Decidable (session.Admits command) :=
  match command with
  | .pushTail list node => inferInstanceAs (Decidable (node ∉ session.links.walk list))
  | .first _ | .walk _ | .openWalk _ | .stepWalk _ | .removeWhere _ _ => isTrue trivial

/-- The session after a command. -/
def after (session : ListSession lists nodes) (command : ListCommand lists nodes) :
    ListSession lists nodes :=
  (session.run command).1

theorem ordered_run {session : ListSession lists nodes} {order : List (Fin nodes)}
    (ordered : session.links.Ordered order) (command : ListCommand lists nodes)
    (admitted : session.Admits command) :
    (session.after command).links.Ordered (command.enqueue order) := by
  cases command with
  | pushTail list node => exact ordered.pushTail admitted
  | removeWhere list remove => exact ordered.removeWhere list remove
  | stepWalk walk =>
      simp only [after, run]
      split
      · exact ordered
      · split <;> exact ordered
  | _ => exact ordered

/-- In every session the walks are in the order of pushing. -/
theorem ordered_runAll {session : ListSession lists nodes} {order : List (Fin nodes)}
    (ordered : session.links.Ordered order) {commands : List (ListCommand lists nodes)}
    (admitted : Admitted Admits after session commands) :
    (session.runAll commands).1.links.Ordered (commands.foldl ListCommand.enqueue order) := by
  induction admitted generalizing order with
  | nil session => exact ordered
  | cons first rest ih => exact ih (ordered_run ordered _ first)

end ListSession

end Gpio
