import Gpio.Links.Edit

/-!
# Sessions on chained lists

A session edits lists and keeps walks open meanwhile. An open walk is the link at which
it stands, and it is numbered in the order of opening.
-/

namespace Gpio

inductive ListCommand (lists nodes : Nat) where
  | pushTail (list : Fin lists) (node : Fin nodes)
  | first (list : Fin lists)
  | walk (list : Fin lists)
  /-- Open a walk at the head of a list. -/
  | openWalk (list : Fin lists)
  /-- Take one step of an open walk. -/
  | stepWalk (walk : Nat)
  | removeWhere (list : Fin lists) (remove : Fin nodes → Bool)

inductive ListAnswer (nodes : Nat) where
  | done
  | node (node? : Option (Fin nodes))
  | nodes (nodes : List (Fin nodes))
  | opened (walk : Nat)
  /-- There is no open walk of this number. -/
  | notOpen
  deriving DecidableEq

structure ListSession (lists nodes : Nat) where
  links : Links lists nodes
  /-- Where the open walks stand. -/
  walks : Array (Link lists nodes)

namespace ListSession

variable {lists nodes : Nat}

def start (lists nodes : Nat) : ListSession lists nodes := ⟨.empty lists nodes, #[]⟩

def run (session : ListSession lists nodes) :
    ListCommand lists nodes → ListSession lists nodes × ListAnswer nodes
  | .pushTail list node => ({ session with links := session.links.pushTail list node }, .done)
  | .first list => (session, .node (session.links.first? list))
  | .walk list => (session, .nodes (session.links.walk list))
  | .openWalk list =>
      ({ session with walks := session.walks.push (.head list) }, .opened session.walks.size)
  | .stepWalk walk =>
      match session.walks[walk]? with
      | none => (session, .notOpen)
      | some link =>
          match session.links.step link with
          | none => (session, .node none)
          | some (node, link) =>
              ({ session with walks := session.walks.setIfInBounds walk link }, .node (some node))
  | .removeWhere list remove =>
      ({ session with links := session.links.removeWhere list remove },
        .nodes (session.links.asked list remove))

/-- Run commands in order and collect their answers. -/
def runAll (session : ListSession lists nodes) :
    List (ListCommand lists nodes) → ListSession lists nodes × List (ListAnswer nodes)
  | [] => (session, [])
  | command :: rest =>
      let (middle, answer) := session.run command
      let (final, answers) := middle.runAll rest
      (final, answer :: answers)

end ListSession

end Gpio
