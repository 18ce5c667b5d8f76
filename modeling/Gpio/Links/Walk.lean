import Gpio.Links.Basic

/-!
# Walks

A walk reads a link, goes to the node that it finds there, and reads that node's link
next. It may be taken one step at a time while the links change: `Links.step` reads
the link only when the step is taken. `Links.Follows` is the walk as a relation, and
`Links.walkFrom_eq_of_follows` shows that a bounded walk finds what the relation says.
-/

namespace Gpio.Links

variable {lists nodes : Nat}

/-- One step of a walk that stands at a link: the node found there, whose link is the
place where the walk stands next. At an empty link there is no step. -/
def step (h : Links lists nodes) (link : Link lists nodes) :
    Option (Fin nodes × Link lists nodes) :=
  (h.read link).map fun node => (node, .next node)

/-- The nodes that a walk meets, at most as many as the budget. -/
def walkFrom (h : Links lists nodes) : Nat → Link lists nodes → List (Fin nodes)
  | 0, _ => []
  | budget + 1, link =>
      match h.read link with
      | none => []
      | some node => node :: h.walkFrom budget (.next node)

/-- The nodes of a list in order. A walk that ends meets no node twice, so the number of
all nodes is budget enough. -/
def walk (h : Links lists nodes) (list : Fin lists) : List (Fin nodes) :=
  h.walkFrom nodes (.head list)

def first? (h : Links lists nodes) (list : Fin lists) : Option (Fin nodes) :=
  h.read (.head list)

/-- The link at which a walk of a list ends. -/
def endOf (h : Links lists nodes) (list : Fin lists) : Link lists nodes :=
  match (h.walk list).getLast? with
  | none => .head list
  | some node => .next node

/-- A walk from a link meets these nodes and then ends. -/
inductive Follows (h : Links lists nodes) : Link lists nodes → List (Fin nodes) → Prop where
  | stop {link : Link lists nodes} (empty : h.read link = none) : Follows h link []
  | step {link : Link lists nodes} {node : Fin nodes} {rest : List (Fin nodes)}
      (found : h.read link = some node) (follows : Follows h (.next node) rest) :
      Follows h link (node :: rest)

theorem Follows.unique {h : Links lists nodes} {link : Link lists nodes}
    {first second : List (Fin nodes)} (left : Follows h link first)
    (right : Follows h link second) : first = second := by
  induction left generalizing second with
  | stop empty =>
      cases right with
      | stop _ => rfl
      | step found _ => exact nomatch empty.symm.trans found
  | step found _ ih =>
      cases right with
      | stop empty => exact nomatch empty.symm.trans found
      | step other follows =>
          obtain rfl := Option.some.inj (found.symm.trans other)
          rw [ih follows]

/-- What follows a node of a walk is the walk from that node's link. -/
theorem Follows.suffix {h : Links lists nodes} {link : Link lists nodes} {node : Fin nodes}
    {before after : List (Fin nodes)} (follows : Follows h link (before ++ node :: after)) :
    Follows h (.next node) after := by
  induction before generalizing link with
  | nil =>
      cases follows with
      | step _ rest => exact rest
  | cons _ _ ih =>
      cases follows with
      | step _ rest => exact ih rest

/-- The walk from the link of a node does not come back to that node. -/
theorem Follows.notMem_of_next {h : Links lists nodes} {node : Fin nodes}
    {met : List (Fin nodes)} (follows : h.Follows (.next node) met) : node ∉ met := by
  intro again
  obtain ⟨before, after, rfl⟩ := List.append_of_mem again
  have lengths := congrArg List.length (follows.unique follows.suffix)
  simp only [List.length_append, List.length_cons] at lengths
  omega

/-- A walk that ends meets no node twice. -/
theorem Follows.nodup {h : Links lists nodes} {link : Link lists nodes} {met : List (Fin nodes)}
    (follows : Follows h link met) : met.Nodup := by
  induction follows with
  | stop _ => exact List.nodup_nil
  | step _ follows ih => exact List.nodup_cons.mpr ⟨follows.notMem_of_next, ih⟩

theorem walkFrom_eq_of_follows {h : Links lists nodes} {link : Link lists nodes}
    {met : List (Fin nodes)} (follows : Follows h link met) {budget : Nat}
    (enough : met.length ≤ budget) : h.walkFrom budget link = met := by
  induction follows generalizing budget with
  | stop empty =>
      cases budget with
      | zero => rfl
      | succ budget => rw [walkFrom, empty]
  | step found _ ih =>
      cases budget with
      | zero => exact absurd enough (Nat.not_succ_le_zero _)
      | succ budget =>
          simp only [walkFrom, found, ih (Nat.le_of_succ_le_succ enough)]

end Gpio.Links
