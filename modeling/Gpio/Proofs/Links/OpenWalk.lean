import Gpio.Proofs.Links.Order

/-!
# Open walks

While a walk of a list is open, new nodes may be pushed to the list and nodes may be removed
from it between any two steps of the walk. The walk may then stand on a node that has been
taken out, and go on through others that have been taken out after it, so it need not meet
what the list holds. The invariant is about the nodes ahead of the walk, in the list or not:
they come behind the passed ones in the order of pushing, each of them was in the list at some
time since the opening, and together with the passed ones they include every node that has
stayed in the list (`Course`).
-/

namespace Gpio

open Links

variable {lists nodes : Nat} {list : Fin lists} {walk : Nat}
  {prior moves : List (ListCommand lists nodes)}

/-- A step of a walk, a push of a node that was in no list before, or a removal. -/
inductive Move (list : Fin lists) (walk : Nat) (past : List (ListCommand lists nodes)) :
    ListCommand lists nodes → Prop where
  | step : Move list walk past (.stepWalk walk)
  | push {node : Fin nodes} (fresh : ∀ other, .pushTail other node ∉ past) :
      Move list walk past (.pushTail list node)
  | remove (remove : Fin nodes → Bool) : Move list walk past (.removeWhere list remove)

/-- Any number of moves, in any order. -/
inductive Interleaves (list : Fin lists) (walk : Nat) (prior : List (ListCommand lists nodes)) :
    List (ListCommand lists nodes) → Prop where
  | nil : Interleaves list walk prior []
  | concat {moves : List (ListCommand lists nodes)} {command : ListCommand lists nodes}
      (before : Interleaves list walk prior moves)
      (move : Move list walk (prior ++ moves) command) :
      Interleaves list walk prior (moves ++ [command])

theorem Interleaves.of_isPrefix (interleaves : Interleaves list walk prior moves)
    {sofar : List (ListCommand lists nodes)} (start : sofar <+: moves) :
    Interleaves list walk prior sofar := by
  induction interleaves with
  | nil => exact List.prefix_nil.mp start ▸ .nil
  | concat before move ih =>
      rcases List.prefix_concat_iff.mp start with rfl | start
      · exact before.concat move
      · exact ih start

/-- The node that a step of a walk has found. -/
def ListAnswer.node? : ListAnswer nodes → Option (Fin nodes)
  | .node node? => node?
  | _ => none

namespace ListSession

variable {session : ListSession lists nodes}

theorem run_openWalk {opened : ListSession lists nodes}
    (opening : session.run (.openWalk list) = (opened, .opened walk)) :
    opened.links = session.links ∧ opened.walks[walk]? = some (.head list) := by
  obtain ⟨rfl, opens⟩ := Prod.mk.inj opening
  obtain rfl := ListAnswer.opened.inj opens
  exact ⟨rfl, Array.getElem?_push_size⟩

/-- The nodes that the steps among these commands find. -/
def found (session : ListSession lists nodes) (commands : List (ListCommand lists nodes)) :
    List (Fin nodes) :=
  (session.runAll commands).2.filterMap ListAnswer.node?

/-- The nodes of a list after these commands. -/
def members (session : ListSession lists nodes) (commands : List (ListCommand lists nodes))
    (list : Fin lists) : List (Fin nodes) :=
  (session.runAll commands).1.links.walk list

theorem runAll_concat (session : ListSession lists nodes)
    (commands : List (ListCommand lists nodes)) (command : ListCommand lists nodes) :
    session.runAll (commands ++ [command]) =
      (((session.runAll commands).1.run command).1,
        (session.runAll commands).2 ++ [((session.runAll commands).1.run command).2]) := by
  induction commands generalizing session with
  | nil => rfl
  | cons first rest ih => simp only [List.cons_append, runAll, ih]

theorem found_concat (session : ListSession lists nodes)
    (commands : List (ListCommand lists nodes)) (command : ListCommand lists nodes) :
    session.found (commands ++ [command]) =
      session.found commands ++ ((session.runAll commands).1.run command).2.node?.toList := by
  rw [found, runAll_concat, List.filterMap_append, found]
  cases answer : ((session.runAll commands).1.run command).2.node? <;>
    simp [answer]

end ListSession

/-- An open walk of a list stands behind the nodes that it has passed, and would go on to
those ahead. -/
structure Stands (session : ListSession lists nodes) (list : Fin lists) (walk : Nat)
    (order passed ahead : List (Fin nodes)) : Prop where
  place : session.walks[walk]? = some (standing (.head list) passed)
  follows : session.links.Follows (standing (.head list) passed) ahead
  inOrder : (passed ++ ahead).Sublist order

namespace Stands

variable {session : ListSession lists nodes} {order passed ahead : List (Fin nodes)}
  {node : Fin nodes}

theorem run_nil (stands : Stands session list walk order passed []) :
    session.run (.stepWalk walk) = (session, .node none) := by
  have empty : session.links.read (standing (.head list) passed) = none := by
    cases stands.follows with
    | stop empty => exact empty
  simp only [ListSession.run, stands.place, Links.step, empty, Option.map_none]

theorem run_cons {rest : List (Fin nodes)}
    (stands : Stands session list walk order passed (node :: rest)) :
    session.run (.stepWalk walk) =
      ({ session with walks := session.walks.setIfInBounds walk (.next node) },
        .node (some node)) := by
  have found : session.links.read (standing (.head list) passed) = some node := by
    cases stands.follows with
    | step found _ => exact found
  simp only [ListSession.run, stands.place, Links.step, found, Option.map_some]

/-- A step passes the first node ahead. -/
theorem step {rest : List (Fin nodes)}
    (stands : Stands session list walk order passed (node :: rest)) :
    Stands (session.run (.stepWalk walk)).1 list walk order (passed ++ [node]) rest := by
  have next : standing (.head list) (passed ++ [node]) = .next node :=
    standing_append (.head list) passed [node]
  rw [stands.run_cons]
  refine ⟨?_, ?_, ?_⟩
  · have inside := (Array.getElem?_eq_some_iff.mp stands.place).1
    rw [next, Array.getElem?_setIfInBounds_self_of_lt inside]
  · rw [next]
    cases stands.follows with
    | step _ behind => exact behind
  · rw [List.append_assoc]
    exact stands.inOrder

/-- A new node is put behind the nodes ahead, or nowhere ahead: the latter if what is ahead
has been taken out. -/
theorem push (stands : Stands session list walk order passed ahead)
    (ordered : session.links.Ordered order) (fresh : node ∉ order) :
    Stands (session.run (.pushTail list node)).1 list walk (order ++ [node]) passed ahead ∨
      Stands (session.run (.pushTail list node)).1 list walk (order ++ [node]) passed
        (ahead ++ [node]) := by
  have outside : node ∉ session.links.walk list :=
    fun inside => fresh ((ordered.walk_sublist list).subset inside)
  have unknown : node ∉ passed ++ ahead := fun known => fresh (stands.inOrder.subset known)
  rw [List.mem_append, not_or] at unknown
  have away : .next node ∉ trail (standing (.head list) passed) ahead := by
    intro read
    rcases mem_trail.mp read with here | ⟨other, known, same⟩
    · exact standing_ne_next unknown.1 here.symm
    · exact unknown.2 (Link.next.inj same ▸ known)
  have follows_list := ordered.follows_walk list
  by_cases joined : standing (.head list) (session.links.walk list) ∈
      trail (standing (.head list) passed) ahead
  · refine Or.inr ⟨stands.place, ?_, ?_⟩
    · exact follows_list.pushTail_of_mem outside stands.follows joined away
    · rw [← List.append_assoc]
      exact stands.inOrder.append (List.Sublist.refl [node])
  · refine Or.inl ⟨stands.place, ?_, ?_⟩
    · exact follows_list.pushTail_of_notMem outside stands.follows joined away
    · exact stands.inOrder.trans (List.sublist_append_left order [node])

/-- A removal takes some of the nodes that go out of those ahead, and no others. -/
theorem remove (stands : Stands session list walk order passed ahead)
    (ordered : session.links.Ordered order) (remove : Fin nodes → Bool) :
    ∃ left, Stands (session.run (.removeWhere list remove)).1 list walk order passed left ∧
      left.Sublist ahead ∧ ∀ node ∈ ahead, remove node = false → node ∈ left := by
  obtain ⟨left, follows, fewer, stays⟩ :=
    (ordered.follows_walk list).exists_removeWhere remove stands.follows
  have inOrder := (List.Sublist.refl passed).append fewer
  exact ⟨left, ⟨stands.place, follows, inOrder.trans stands.inOrder⟩, fewer,
    fun node inside kept => stays node inside fun _ => kept⟩

end Stands

/-- An open walk after some moves: where it stands, where the nodes passed and ahead come from,
and which nodes are among them. -/
structure Course (opened : ListSession lists nodes) (list : Fin lists) (walk : Nat)
    (prior moves : List (ListCommand lists nodes)) (ahead : List (Fin nodes)) : Prop where
  ordered : (opened.runAll moves).1.links.Ordered (pushOrder (prior ++ moves))
  stands : Stands (opened.runAll moves).1 list walk (pushOrder (prior ++ moves))
    (opened.found moves) ahead
  /-- Each of the nodes was in the list at some time since the opening. -/
  listed : ∀ node ∈ opened.found moves ++ ahead,
    ∃ earlier, earlier <+: moves ∧ node ∈ opened.members earlier list
  /-- Every node that has stayed in the list is one of them. -/
  complete : ∀ node, (∀ sofar, sofar <+: moves → node ∈ opened.members sofar list) →
    node ∈ opened.found moves ++ ahead

namespace Course

variable {opened : ListSession lists nodes} {ahead : List (Fin nodes)}

theorem open_walk (ordered : opened.links.Ordered (pushOrder prior))
    (place : opened.walks[walk]? = some (.head list)) :
    Course opened list walk prior [] (opened.links.walk list) where
  ordered := by rwa [List.append_nil]
  stands := by
    rw [List.append_nil]
    exact ⟨place, ordered.follows_walk list, ordered.walk_sublist list⟩
  listed node inside := ⟨[], List.prefix_rfl, inside⟩
  complete node stayed := stayed [] List.prefix_rfl

/-- One more move. The nodes that it finds and leaves ahead were ahead before or are in the
list now, and they include those that were ahead before and are in the list now. -/
theorem concat (course : Course opened list walk prior moves ahead)
    {command : ListCommand lists nodes} {next : ListSession lists nodes}
    {answer : ListAnswer nodes} {left : List (Fin nodes)}
    (ran : (opened.runAll moves).1.run command = (next, answer))
    (ordered : next.links.Ordered (command.enqueue (pushOrder (prior ++ moves))))
    (stands : Stands next list walk (command.enqueue (pushOrder (prior ++ moves)))
      (opened.found moves ++ answer.node?.toList) left)
    (listed : ∀ node ∈ answer.node?.toList ++ left, node ∈ ahead ∨ node ∈ next.links.walk list)
    (complete : ∀ node ∈ ahead, node ∈ next.links.walk list →
      node ∈ answer.node?.toList ++ left) :
    Course opened list walk prior (moves ++ [command]) left := by
  have order : pushOrder (prior ++ (moves ++ [command])) =
      command.enqueue (pushOrder (prior ++ moves)) := by
    rw [← List.append_assoc, pushOrder_concat]
  have state : (opened.runAll (moves ++ [command])).1 = next := by
    rw [ListSession.runAll_concat, ran]
  have found : opened.found (moves ++ [command]) =
      opened.found moves ++ answer.node?.toList := by
    rw [ListSession.found_concat, ran]
  have members : opened.members (moves ++ [command]) list = next.links.walk list := by
    rw [ListSession.members, state]
  have earlier := List.prefix_append moves [command]
  refine ⟨?_, ?_, ?_, ?_⟩
  · rwa [state, order]
  · rwa [state, order, found]
  · intro node inside
    have known : node ∈ opened.found moves ++ ahead ∨ node ∈ next.links.walk list := by
      rw [found, List.append_assoc, List.mem_append] at inside
      rcases inside with passed | remaining
      · exact Or.inl (List.mem_append_left ahead passed)
      · exact (listed node remaining).imp_left (List.mem_append_right _)
    rcases known with known | inList
    · obtain ⟨sofar, start, listed⟩ := course.listed node known
      exact ⟨sofar, start.trans earlier, listed⟩
    · exact ⟨moves ++ [command], List.prefix_rfl, members ▸ inList⟩
  · intro node stayed
    have known := course.complete node fun sofar start => stayed sofar (start.trans earlier)
    have inList : node ∈ next.links.walk list := members ▸ stayed _ List.prefix_rfl
    rw [found, List.append_assoc]
    rcases List.mem_append.mp known with passed | remaining
    · exact List.mem_append_left _ passed
    · exact List.mem_append_right _ (complete node remaining inList)

theorem step (course : Course opened list walk prior moves ahead) :
    Course opened list walk prior (moves ++ [.stepWalk walk]) ahead.tail := by
  have stands := course.stands
  have ordered := course.ordered
  cases ahead with
  | nil =>
      refine course.concat stands.run_nil ordered ?_ nofun nofun
      rw [ListAnswer.node?, Option.toList_none, List.append_nil]
      exact stands
  | cons node rest =>
      have stepped := stands.step
      rw [stands.run_cons] at stepped
      exact course.concat stands.run_cons ordered stepped (fun _ => Or.inl) fun _ inside _ => inside

theorem push (course : Course opened list walk prior moves ahead) {node : Fin nodes}
    (fresh : ∀ other, .pushTail other node ∉ prior ++ moves) :
    ∃ left, Course opened list walk prior (moves ++ [.pushTail list node]) left := by
  have ordered := course.ordered
  have unknown : node ∉ pushOrder (prior ++ moves) := by
    intro known
    obtain ⟨other, pushed⟩ := mem_pushOrder.mp known
    exact fresh other pushed
  have outside : node ∉ (opened.runAll moves).1.links.walk list :=
    fun inside => unknown ((ordered.walk_sublist list).subset inside)
  have after := ListSession.ordered_run ordered (.pushTail list node) outside
  have order : (ListCommand.pushTail list node).enqueue (pushOrder (prior ++ moves)) =
      pushOrder (prior ++ moves) ++ [node] := by
    rw [ListCommand.enqueue, List.erase_of_not_mem unknown]
  have found : opened.found moves ++ ListAnswer.done.node?.toList = opened.found moves :=
    List.append_nil _
  rcases course.stands.push ordered unknown with same | longer
  · refine ⟨ahead, course.concat rfl after ?_ (fun _ => Or.inl) fun _ inside _ => inside⟩
    rwa [order, found]
  · refine ⟨ahead ++ [node], course.concat rfl after ?_ ?_ ?_⟩
    · rwa [order, found]
    · intro other inside
      change other ∈ ahead ++ [node] at inside
      rcases List.mem_append.mp inside with known | new
      · exact Or.inl known
      · have pushed := (ordered.follows_walk list).pushTail outside
        exact Or.inr (pushed.walk_eq.symm ▸ List.mem_append_right _ new)
    · intro other inside _
      exact List.mem_append_left [node] inside

theorem remove (course : Course opened list walk prior moves ahead) (remove : Fin nodes → Bool) :
    ∃ left, Course opened list walk prior (moves ++ [.removeWhere list remove]) left := by
  have ordered := course.ordered
  have after := ListSession.ordered_run ordered (.removeWhere list remove) trivial
  obtain ⟨left, stands, fewer, stays⟩ := course.stands.remove ordered remove
  refine ⟨left, course.concat rfl after ?_ (fun _ inside => Or.inl (fewer.subset inside)) ?_⟩
  · exact (List.append_nil (opened.found moves)).symm ▸ stands
  · intro node inside kept
    have removed := (ordered.follows_walk list).removeWhere remove
    have filtered := removed.walk_eq ▸ kept
    exact stays node inside (by simpa using List.of_mem_filter filtered)

end Course

theorem Interleaves.exists_course (interleaves : Interleaves list walk prior moves)
    {opened : ListSession lists nodes} (ordered : opened.links.Ordered (pushOrder prior))
    (place : opened.walks[walk]? = some (.head list)) :
    ∃ ahead, Course opened list walk prior moves ahead := by
  induction interleaves with
  | nil => exact ⟨_, .open_walk ordered place⟩
  | concat _ move ih =>
      obtain ⟨ahead, course⟩ := ih
      cases move with
      | step => exact ⟨_, course.step⟩
      | push fresh => exact course.push fresh
      | remove remove => exact course.remove remove

/-- A walk is opened in any session and then taken step by step, with any pushes of new nodes
and any removals in between. It finds different nodes, in the order in which they were pushed,
and each of them was in the list at some time between the opening and the step that finds it.
When it finds none, it has found every node that has stayed in the list. -/
theorem found_between_edits {opened : ListSession lists nodes}
    (admitted : Admitted ListSession.Admits ListSession.after (.start lists nodes) prior)
    (opening : ((ListSession.start lists nodes).runAll prior).1.run (.openWalk list) =
      (opened, .opened walk))
    (interleaves : Interleaves list walk prior moves) :
    (opened.found moves).Nodup ∧ (opened.found moves).Sublist (pushOrder (prior ++ moves)) ∧
    (∀ sofar, sofar <+: moves → ∀ node ∈ opened.found sofar,
      ∃ earlier, earlier <+: sofar ∧ node ∈ opened.members earlier list) ∧
    ∃ node?, ((opened.runAll moves).1.run (.stepWalk walk)).2 = .node node? ∧
      (node? = none → ∀ node, (∀ sofar, sofar <+: moves → node ∈ opened.members sofar list) →
        node ∈ opened.found moves) := by
  obtain ⟨links, place⟩ := ListSession.run_openWalk opening
  have ordered : opened.links.Ordered (pushOrder prior) := by
    rw [links]
    exact ListSession.ordered_runAll (Ordered.empty lists nodes) admitted
  obtain ⟨ahead, course⟩ := interleaves.exists_course ordered place
  have inOrder := (List.sublist_append_left _ ahead).trans course.stands.inOrder
  refine ⟨inOrder.nodup course.ordered.nodup, inOrder, ?_, ?_⟩
  · intro sofar start node inside
    obtain ⟨rest, course⟩ := (interleaves.of_isPrefix start).exists_course ordered place
    exact course.listed node (List.mem_append_left rest inside)
  · have stands := course.stands
    cases ahead with
    | nil =>
        refine ⟨none, by rw [stands.run_nil], ?_⟩
        intro _ node stayed
        exact List.append_nil (opened.found moves) ▸ course.complete node stayed
    | cons node rest => exact ⟨some node, by rw [stands.run_cons], nofun⟩

/-! ## A chain removed under a walk -/

/-- A node is pushed again behind the next one, and two more follow. -/
def chainPrior (list : Fin 1) (first second third fourth : Fin 5) : List (ListCommand 1 5) :=
  [.pushTail list second, .pushTail list first, .removeWhere list fun node => node = second,
    .pushTail list second, .pushTail list third, .pushTail list fourth]

def chainOpened (list : Fin 1) (first second third fourth : Fin 5) : ListSession 1 5 :=
  (((ListSession.start 1 5).runAll (chainPrior list first second third fourth)).1.run
    (.openWalk list)).1

/-- A walk stands on the second node when that one and then the third one are removed, and
when a new node is pushed. -/
def chainMoves (list : Fin 1) (second third fifth : Fin 5) : List (ListCommand 1 5) :=
  [.stepWalk 0, .stepWalk 0, .removeWhere list fun node => node = second,
    .removeWhere list fun node => node = third, .pushTail list fifth,
    .stepWalk 0, .stepWalk 0, .stepWalk 0]

theorem interleaves_chainMoves : Interleaves 0 0 (chainPrior 0 0 1 2 3) (chainMoves 0 1 2 4) := by
  have steps : Interleaves 0 0 (chainPrior 0 0 1 2 3) _ := .concat (.concat .nil .step) .step
  have removal := steps.concat (.remove fun node => node = 1)
  have removals := removal.concat (.remove fun node => node = 2)
  have fresh : ∀ other,
      .pushTail other 4 ∉ chainPrior 0 0 1 2 3 ++ (chainMoves 0 1 2 4).take 4 := by
    simp [chainPrior, chainMoves]
  exact (((removals.concat (.push fresh)).concat .step).concat .step).concat .step

theorem found_between_edits_chainMoves :
    Admitted ListSession.Admits ListSession.after (.start 1 5) (chainPrior 0 0 1 2 3) ∧
      ((ListSession.start 1 5).runAll (chainPrior 0 0 1 2 3)).1.run (.openWalk 0) =
        (chainOpened 0 0 1 2 3, .opened 0) ∧
      Interleaves 0 0 (chainPrior 0 0 1 2 3) (chainMoves 0 1 2 4) ∧
      (chainOpened 0 0 1 2 3).found (chainMoves 0 1 2 4) = [0, 1, 2, 3, 4] ∧
      (chainOpened 0 0 1 2 3).members (chainMoves 0 1 2 4) 0 = [0, 3, 4] ∧
      ∀ node, (∀ sofar, sofar <+: chainMoves 0 1 2 4 →
          node ∈ (chainOpened 0 0 1 2 3).members sofar 0) →
        node ∈ (chainOpened 0 0 1 2 3).found (chainMoves 0 1 2 4) := by
  have admitted : Admitted ListSession.Admits ListSession.after (.start 1 5)
      (chainPrior 0 0 1 2 3) := by decide
  have opening : ((ListSession.start 1 5).runAll (chainPrior 0 0 1 2 3)).1.run (.openWalk 0) =
      (chainOpened 0 0 1 2 3, .opened 0) := rfl
  obtain ⟨_, _, _, node?, answer, complete⟩ :=
    found_between_edits admitted opening interleaves_chainMoves
  have ends : (((chainOpened 0 0 1 2 3).runAll (chainMoves 0 1 2 4)).1.run (.stepWalk 0)).2 =
      .node none := by decide
  exact ⟨admitted, opening, interleaves_chainMoves, by decide, by decide,
    complete (ListAnswer.node.inj (answer.symm.trans ends))⟩

end Gpio
