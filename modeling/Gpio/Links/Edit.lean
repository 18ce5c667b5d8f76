import Gpio.Links.Walk

/-!
# Edits of chained lists

A node is put behind the last one of a list, or all nodes that satisfy a test are
taken out. Both are sequences of stores into single links (`Links.pushStores`,
`Links.removeStores`), so that a walk may be taken between any two of them.
-/

namespace Gpio.Links

variable {lists nodes : Nat}

/-- The stores that put a node behind the last one of a list: the node's own link is
cleared, and then the link that ends the walk gets the node. -/
def pushStores (h : Links lists nodes) (list : Fin lists) (node : Fin nodes) :
    List (LinkStore lists nodes) :=
  let cleared : LinkStore lists nodes := ⟨.next node, none⟩
  [cleared, ⟨(h.apply cleared).endOf list, some node⟩]

/-- Put a node, which has to be outside the list, behind the last one of a list. -/
def pushTail (h : Links lists nodes) (list : Fin lists) (node : Fin nodes) : Links lists nodes :=
  h.applyAll (h.pushStores list node)

/-- One look at a node during a removal, with the store that takes it out, if it goes. -/
structure Look (lists nodes : Nat) where
  node : Fin nodes
  unlink? : Option (LinkStore lists nodes)
  deriving DecidableEq

/-- Look at the nodes that a walk meets, at most as many as the budget. When a node goes,
the link that led to it gets the node's own successor, and is read again. -/
def sweep (remove : Fin nodes → Bool) :
    Nat → Links lists nodes → Link lists nodes → List (Look lists nodes)
  | 0, _, _ => []
  | budget + 1, h, link =>
      match h.read link with
      | none => []
      | some node =>
          if remove node then
            let unlink : LinkStore lists nodes := ⟨link, h.read (.next node)⟩
            ⟨node, some unlink⟩ :: sweep remove budget (h.apply unlink) link
          else ⟨node, none⟩ :: sweep remove budget h (.next node)

/-- The looks of a removal from a list. Each is at another node, so the number of all
nodes is budget enough. -/
def looks (h : Links lists nodes) (list : Fin lists) (remove : Fin nodes → Bool) :
    List (Look lists nodes) :=
  sweep remove nodes h (.head list)

/-- The nodes about which a removal asks its test, in order. -/
def asked (h : Links lists nodes) (list : Fin lists) (remove : Fin nodes → Bool) :
    List (Fin nodes) :=
  (h.looks list remove).map Look.node

/-- The stores that take out the nodes that satisfy a test. -/
def removeStores (h : Links lists nodes) (list : Fin lists) (remove : Fin nodes → Bool) :
    List (LinkStore lists nodes) :=
  (h.looks list remove).filterMap Look.unlink?

/-- Take the nodes that satisfy a test out of a list. The others keep their order. -/
def removeWhere (h : Links lists nodes) (list : Fin lists) (remove : Fin nodes → Bool) :
    Links lists nodes :=
  h.applyAll (h.removeStores list remove)

end Gpio.Links
