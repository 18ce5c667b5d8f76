import Gpio.Proofs.Links.Acyclic

/-!
# What a walk has ahead

A walk that stands at a link has the nodes ahead to which it would go on from there. Pushes
and removals change them while the walk stands still, but in few ways: only a pushed node can
come ahead, only a removed one can go away, unless a node is pushed on which the walk stands
or that it has ahead already. Such a push cuts off everything behind (`mem_ahead_pushTail`,
`notMem_ahead_pushTail_of_cut`).

A node that has been removed may still be ahead, but only if the walk stands outside of the
list and meets no node of the list before it (`Strays`).
-/

namespace Gpio.Links

variable {lists nodes : Nat} {h : Links lists nodes} {list : Fin lists}
  {node other : Fin nodes} {met seen : List (Fin nodes)} {start : Link lists nodes}

/-- The nodes to which a walk goes on that stands at a link. -/
def ahead (h : Links lists nodes) (start : Link lists nodes) : List (Fin nodes) :=
  h.walkFrom nodes start

theorem Follows.ahead_eq (follows : h.Follows start met) : h.ahead start = met :=
  walkFrom_eq_of_follows follows follows.length_le

theorem ahead_of_read_eq_none (empty : h.read start = none) : h.ahead start = [] :=
  (Follows.stop empty).ahead_eq

/-- From a node of the list a walk meets nodes of the list only. -/
theorem Follows.next_subset (follows : h.Follows (.head list) met) (inside : other ∈ met)
    (walk : h.Follows (.next other) seen) : seen ⊆ met := by
  obtain ⟨before, after, rfl⟩ := List.append_of_mem inside
  obtain rfl : after = seen := follows.suffix.unique walk
  exact fun _ mem => List.mem_append_right before (List.mem_cons_of_mem other mem)

/-- A walk from a link comes to a node that is out of the list, and so are the nodes on the
way to it, the one included on which the walk stands at first. -/
def Strays (h : Links lists nodes) (list : Fin lists) (start : Link lists nodes)
    (node : Fin nodes) : Prop :=
  ∃ between rest, h.Follows start (between ++ node :: rest) ∧
    ∀ other, .next other ∈ trail start between → other ∉ h.walk list

namespace Grounded

theorem follows_ahead (grounded : h.Grounded) (start : Link lists nodes) :
    h.Follows start (h.ahead start) := by
  obtain ⟨met, follows⟩ := grounded start
  rwa [follows.ahead_eq]

theorem ahead_of_read (grounded : h.Grounded) (found : h.read start = some node) :
    h.ahead start = node :: h.ahead (.next node) :=
  (Follows.step found (grounded.follows_ahead (.next node))).ahead_eq

theorem notMem_ahead_next (grounded : h.Grounded) (node : Fin nodes) :
    node ∉ h.ahead (.next node) :=
  (grounded.follows_ahead (.next node)).notMem_of_next

/-! ## Pushes -/

/-- A push brings no other node ahead than the one that is pushed. -/
theorem mem_ahead_of_pushTail (grounded : h.Grounded) (outside : other ∉ h.walk list)
    (different : node ≠ other) (mem : node ∈ (h.pushTail list other).ahead start) :
    node ∈ h.ahead start := by
  obtain ⟨kept, sofar, _, ends | ends⟩ := (grounded.follows_walk list).exists_pushTail outside
    (grounded.follows_ahead start)
  · exact sofar.subset (ends.ahead_eq ▸ mem)
  · rw [ends.ahead_eq, List.mem_append, List.mem_singleton] at mem
    exact sofar.subset (mem.resolve_right different)

/-- A push of a node on which the walk does not stand, and that it does not have ahead, leaves
everything ahead. -/
theorem mem_ahead_pushTail (grounded : h.Grounded) (outside : other ∉ h.walk list)
    (away : .next other ∉ trail start (h.ahead start)) (mem : node ∈ h.ahead start) :
    node ∈ (h.pushTail list other).ahead start := by
  have follows := grounded.follows_walk list
  have walk := grounded.follows_ahead start
  by_cases joined : standing (.head list) (h.walk list) ∈ trail start (h.ahead start)
  · rw [(follows.pushTail_of_mem outside walk joined away).ahead_eq]
    exact List.mem_append_left [other] mem
  · rwa [(follows.pushTail_of_notMem outside walk joined away).ahead_eq]

/-- A push of a node on which the walk stands or that it has ahead cuts off the nodes of every
list in which the pushed node is not. -/
theorem notMem_ahead_pushTail_of_cut (grounded : h.Grounded) (outside : other ∉ h.walk list)
    (cut : .next other ∈ trail start (h.ahead start)) {home : Fin lists}
    (inside : node ∈ h.walk home) (apart : other ∉ h.walk home) :
    node ∉ (h.pushTail list other).ahead start := by
  have follows := grounded.follows_walk list
  rcases mem_trail.mp cut with rfl | ⟨_, mem, same⟩
  · rw [(follows.pushTail_next outside).ahead_eq]
    exact List.not_mem_nil
  · obtain rfl := Link.next.inj same
    obtain ⟨before, after, split⟩ := List.append_of_mem mem
    have walk := grounded.follows_ahead start
    rw [split] at walk
    rw [(follows.pushTail_of_meets outside walk).ahead_eq, List.mem_append, List.mem_singleton]
    rintro (early | rfl)
    · -- From the node the walk would come to the pushed one, within the list of the node.
      obtain ⟨first, rest, rfl⟩ := List.append_of_mem early
      rw [List.append_assoc, List.cons_append] at walk
      have onward := (grounded.follows_walk home).next_subset inside walk.suffix
      exact apart (onward (List.mem_append_right rest List.mem_cons_self))
    · exact apart inside

/-! ## Removals -/

/-- A removal brings no node ahead. -/
theorem ahead_removeWhere_subset (grounded : h.Grounded) (list : Fin lists)
    (remove : Fin nodes → Bool) (start : Link lists nodes) :
    (h.removeWhere list remove).ahead start ⊆ h.ahead start := by
  obtain ⟨rest, left, fewer, _⟩ :=
    (grounded.follows_walk list).exists_removeWhere remove (grounded.follows_ahead start)
  rw [left.ahead_eq]
  exact fewer.subset

/-- A node that is not removed stays ahead. -/
theorem mem_ahead_removeWhere (grounded : h.Grounded) {remove : Fin nodes → Bool}
    (stays : node ∈ h.walk list → remove node = false) (mem : node ∈ h.ahead start) :
    node ∈ (h.removeWhere list remove).ahead start := by
  obtain ⟨rest, left, _, others⟩ :=
    (grounded.follows_walk list).exists_removeWhere remove (grounded.follows_ahead start)
  rw [left.ahead_eq]
  exact others node mem stays

/-- A node out of the list is ahead only if the walk strays to it. -/
theorem strays (grounded : h.Grounded) (outside : node ∉ h.walk list)
    (mem : node ∈ h.ahead start) : h.Strays list start node := by
  have walk := grounded.follows_ahead start
  obtain ⟨between, rest, split⟩ := List.append_of_mem mem
  rw [split] at walk
  refine ⟨between, rest, walk, ?_⟩
  intro other read inside
  obtain ⟨before, after, rfl, stands⟩ := exists_standing_of_mem_trail read
  rw [List.append_assoc] at walk
  have onward := walk.append
  rw [stands] at onward
  exact outside ((grounded.follows_walk list).next_subset inside onward
    (List.mem_append_right after List.mem_cons_self))

end Grounded

end Gpio.Links
