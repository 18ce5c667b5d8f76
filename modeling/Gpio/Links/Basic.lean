/-!
# Links

Nodes owned by their users are chained into lists. Each list has one link, its head,
and each node has one link, to the node after it, so a node that is put into several
lists has the same successor in all of them. A node that has been taken out keeps its
link.

All that an edit does is to store into single links, and `Links.read_apply` says what
one such store changes. Everything else about links is derived from it.
-/

namespace Gpio

/-- A place that can hold a reference to a node. -/
inductive Link (lists nodes : Nat) where
  | head (list : Fin lists)
  | next (node : Fin nodes)
  deriving DecidableEq

/-- The contents of all links. -/
structure Links (lists nodes : Nat) where
  heads : Vector (Option (Fin nodes)) lists
  nexts : Vector (Option (Fin nodes)) nodes
  deriving DecidableEq

/-- A store into one link. -/
structure LinkStore (lists nodes : Nat) where
  link : Link lists nodes
  value : Option (Fin nodes)
  deriving DecidableEq

namespace Links

variable {lists nodes : Nat}

/-- Every list is empty, and no node has a successor. -/
def empty (lists nodes : Nat) : Links lists nodes where
  heads := Vector.replicate lists none
  nexts := Vector.replicate nodes none

def read (h : Links lists nodes) : Link lists nodes → Option (Fin nodes)
  | .head list => h.heads[list.val]
  | .next node => h.nexts[node.val]

def apply (h : Links lists nodes) (s : LinkStore lists nodes) : Links lists nodes :=
  match s.link with
  | .head list => { h with heads := h.heads.set list.val s.value list.isLt }
  | .next node => { h with nexts := h.nexts.set node.val s.value node.isLt }

/-- Carry out stores one after another. -/
def applyAll (h : Links lists nodes) (stores : List (LinkStore lists nodes)) :
    Links lists nodes :=
  stores.foldl apply h

theorem read_empty (link : Link lists nodes) : (empty lists nodes).read link = none := by
  cases link with
  | head list => exact Vector.getElem_replicate list.isLt
  | next node => exact Vector.getElem_replicate node.isLt

theorem read_apply (h : Links lists nodes) (s : LinkStore lists nodes) (link : Link lists nodes) :
    (h.apply s).read link = if s.link = link then s.value else h.read link := by
  obtain ⟨stored, value⟩ := s
  cases stored <;> cases link <;>
    simp only [apply, read, Vector.getElem_set, Link.head.injEq, Link.next.injEq, Fin.ext_iff,
      reduceCtorEq, if_false]

/-- Stores into other links leave a link as it is. -/
theorem read_applyAll_of_ne {h : Links lists nodes} {stores : List (LinkStore lists nodes)}
    {link : Link lists nodes} (others : ∀ s ∈ stores, s.link ≠ link) :
    (h.applyAll stores).read link = h.read link := by
  induction stores generalizing h with
  | nil => rfl
  | cons s rest ih =>
      have other := others s List.mem_cons_self
      have later := ih (h := h.apply s) fun t mem => others t (List.mem_cons_of_mem s mem)
      exact later.trans (by rw [read_apply, if_neg other])

end Links

end Gpio
