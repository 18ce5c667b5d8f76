import Gpio.Proofs.Links.Acyclic

/-!
# Nodes in several lists

A node has one link, so the lists that it is in go on from it in the same way. When it is
pushed to another list, its link is cleared, and they end with it. And when the last node of the
list to which it is pushed is in other lists too, these get it as well. No other list is changed
(`Acyclic.pushTail_shared`).

Two lists with a node in common end in the same way: the nodes that are in both are the longest
list with which both end (`SharedEnd`). A removal from one of them takes its nodes out of the
other one too, apart from those at the place where the two lists join. There the way into the
common part is over links that the removal leaves alone, so the other list keeps the nodes up to
the first one that stays (`Acyclic.removeWhere_shared`).
-/

namespace Gpio.Links

variable {lists nodes : Nat} {h : Links lists nodes} {list other : Fin lists} {node : Fin nodes}
  {start : Link lists nodes} {remove : Fin nodes → Bool}
  {met seen before shared : List (Fin nodes)}

/-! ## Pushes -/

/-- A walk of another list comes to the end of a list if it meets the last node of it. -/
theorem standing_mem_trail_head_iff (different : other ≠ list) :
    standing (.head list) met ∈ trail (.head other) seen ↔
      ∃ last, met.getLast? = some last ∧ last ∈ seen := by
  rw [standing_eq_getLast?]
  cases met.getLast? with
  | none => simp [different.symm]
  | some last => simp

/-- What a push to a list does to another list. -/
theorem Follows.pushTail_other (follows : h.Follows (.head list) met) (outside : node ∉ met)
    (different : other ≠ list) (walk : h.Follows (.head other) seen) :
    (h.pushTail list node).Follows (.head other)
      (if node ∈ seen then seen.takeWhile (· ≠ node) ++ [node]
      else if ∃ last, met.getLast? = some last ∧ last ∈ seen then seen ++ [node]
      else seen) := by
  by_cases meets : node ∈ seen
  · obtain ⟨before, after, rfl, fresh⟩ := List.eq_append_cons_of_mem meets
    have cut : (before ++ node :: after).takeWhile (· ≠ node) = before := by
      rw [List.takeWhile_append_of_pos, List.takeWhile_cons_of_neg, List.append_nil]
      · simp
      · intro early mem
        exact decide_eq_true fun same => fresh (same ▸ mem)
    rw [if_pos meets, cut]
    exact follows.pushTail_of_meets outside walk
  · have away : .next node ∉ trail (.head other) seen := next_notMem_trail_head meets
    rw [if_neg meets]
    split
    · rename_i joined
      exact follows.pushTail_of_mem outside walk
        ((standing_mem_trail_head_iff different).mpr joined) away
    · rename_i apart
      exact follows.pushTail_of_notMem outside walk
        (fun joined => apart ((standing_mem_trail_head_iff different).mp joined)) away

/-- A node is pushed to a list in which it is not, while nodes may be in any number of lists and
removed ones may have kept their links. Afterwards the links still have no cycle, and the list
ends with the node. Any other list with the node ends with it too, any other list that has the
last node of the list gets the node behind it, and the rest of the lists are as before. -/
theorem Acyclic.pushTail_shared (acyclic : h.Acyclic) (outside : node ∉ h.walk list) :
    (h.pushTail list node).Acyclic ∧
    (h.pushTail list node).Follows (.head list) (h.walk list ++ [node]) ∧
    ∀ other, other ≠ list → (h.pushTail list node).Follows (.head other)
      (if node ∈ h.walk other then (h.walk other).takeWhile (· ≠ node) ++ [node]
      else if ∃ last, (h.walk list).getLast? = some last ∧ last ∈ h.walk other then
        h.walk other ++ [node]
      else h.walk other) := by
  have grounded := acyclic.grounded
  have follows := grounded.follows_walk list
  refine ⟨(grounded.pushTail outside).acyclic, follows.pushTail outside, ?_⟩
  intro other different
  exact follows.pushTail_other outside different (grounded.follows_walk other)

/-- Node 2 is pushed behind nodes 0 and 1, while list 1 has it before node 4, and list 2 ends
with node 1. -/
theorem pushTail_shared_cutAndJoined :
    let apart := (((empty 4 5).pushTail 0 0).pushTail 0 1).pushTail 1 2
    let h := ((apart.pushTail 1 4).pushTail 2 3).pushTail 2 1
    h.Acyclic ∧ h.walk 0 = [0, 1] ∧ h.walk 1 = [2, 4] ∧ h.walk 2 = [3, 1] ∧ 2 ∉ h.walk 0 ∧
      (h.pushTail 0 2).Acyclic ∧ (h.pushTail 0 2).Follows (.head 0) [0, 1, 2] ∧
      (h.pushTail 0 2).Follows (.head 1) [2] ∧ (h.pushTail 0 2).Follows (.head 2) [3, 1, 2] ∧
      (h.pushTail 0 2).Follows (.head 3) [] := by
  intro apart h
  have apart_grounded : apart.Grounded :=
    (((grounded_empty 4 5).pushTail (by decide +kernel)).pushTail (by decide +kernel)).pushTail
      (by decide +kernel)
  have acyclic : h.Acyclic :=
    (((apart_grounded.pushTail (by decide +kernel)).pushTail (by decide +kernel)).pushTail
      (by decide +kernel)).acyclic
  have first : h.walk 0 = [0, 1] := by decide +kernel
  have second : h.walk 1 = [2, 4] := by decide +kernel
  have third : h.walk 2 = [3, 1] := by decide +kernel
  have fourth : h.walk 3 = [] := by decide +kernel
  have outside : 2 ∉ h.walk 0 := by simp [first]
  obtain ⟨still, list, others⟩ := acyclic.pushTail_shared outside
  refine ⟨acyclic, first, second, third, outside, still, ?_, ?_, ?_, ?_⟩
  · simpa [first] using list
  · simpa [second] using others 1 (by decide)
  · simpa [first, third] using others 2 (by decide)
  · simpa [fourth] using others 3 (by decide)

/-! ## Removals -/

/-- The longest list with which both of two lists end. -/
structure SharedEnd {α : Type} (first second shared : List α) : Prop where
  endsFirst : shared <:+ first
  endsSecond : shared <:+ second
  longest : ∀ tail, tail <:+ first → tail <:+ second → tail <:+ shared

/-- Two lists have no longer end in common, if nothing before it in the first one is in the
second one. -/
theorem sharedEnd_of_apart {α : Type} {second before shared : List α} (suffix : shared <:+ second)
    (apart : ∀ item ∈ before, item ∉ second) :
    SharedEnd (before ++ shared) second shared where
  endsFirst := List.suffix_append before shared
  endsSecond := suffix
  longest := by
    rintro tail ⟨earlier, split⟩ inside
    rcases List.append_eq_append_iff.mp split with ⟨more, rfl, rfl⟩ | ⟨more, rfl, rfl⟩
    · -- What the tail has before the common end would be in both lists.
      cases more with
      | nil => exact List.suffix_rfl
      | cons item more =>
          have early : item ∈ earlier ++ item :: more :=
            List.mem_append_right earlier List.mem_cons_self
          exact absurd (inside.subset List.mem_cons_self) (apart item early)
    · exact List.suffix_append more tail

theorem SharedEnd.unique {α : Type} {first second shared tail : List α}
    (left : SharedEnd first second shared) (right : SharedEnd first second tail) :
    shared = tail :=
  (right.longest shared left.endsFirst left.endsSecond).eq_of_length_le
    (left.longest tail right.endsFirst right.endsSecond).length_le

/-- A walk may come into a list, and from there on it meets the same nodes. -/
theorem Follows.exists_entrance (follows : h.Follows (.head list) met)
    (walk : h.Follows start seen) :
    ∃ before shared, seen = before ++ shared ∧ shared <:+ met ∧ ∀ node ∈ before, node ∉ met := by
  induction walk with
  | stop _ => exact ⟨[], [], rfl, List.nil_suffix, nofun⟩
  | @step start node rest _ walk ih =>
      by_cases inside : node ∈ met
      · obtain ⟨earlier, later, rfl⟩ := List.append_of_mem inside
        obtain rfl : later = rest := follows.suffix.unique walk
        exact ⟨[], _, rfl, List.suffix_append earlier _, nofun⟩
      · obtain ⟨before, shared, rfl, suffix, apart⟩ := ih
        exact ⟨node :: before, shared, rfl, suffix, List.forall_mem_cons.mpr ⟨inside, apart⟩⟩

/-- A walk that comes into a list over a link that the removal leaves alone meets the nodes there
up to the first one that stays, and from then on the staying ones. -/
theorem Follows.removeWhere_entering (follows : h.Follows (.head list) met)
    (walk : h.Follows start shared) (inside : shared ⊆ met)
    (untouched : start ∉ trail (.head list) (met.filter fun node => !remove node)) :
    (h.removeWhere list remove).Follows start
      (shared.takeWhile remove ++ (shared.dropWhile remove).filter fun node => !remove node) := by
  induction walk with
  | stop empty => exact .stop ((read_removeWhere follows remove untouched).trans empty)
  | @step start node rest found walk ih =>
      obtain ⟨listed, inside⟩ := List.cons_subset.mp inside
      have enters := (read_removeWhere follows remove untouched).trans found
      cases goes : remove node with
      | true =>
          -- A node that goes keeps its link, so the way on is over such a link again.
          rw [List.takeWhile_cons_of_pos goes, List.dropWhile_cons_of_pos goes]
          refine .step enters (ih inside (next_notMem_trail_head fun stays => ?_))
          simpa [goes] using List.of_mem_filter stays
      | false =>
          have stays : node ∈ met.filter fun node => !remove node :=
            List.mem_filter.mpr ⟨listed, by rw [goes, Bool.not_false]⟩
          have onward := follows.removeWhere_of_mem remove
            (mem_trail.mpr (Or.inr ⟨node, stays, rfl⟩)) walk
          rw [List.takeWhile_cons_of_neg (by simp [goes]),
            List.dropWhile_cons_of_neg (by simp [goes]), List.nil_append,
            List.filter_cons_of_pos (by simp [goes])]
          exact .step enters onward.2

/-- What a removal from a list does to another list that ends like it. -/
theorem Follows.removeWhere_other (follows : h.Follows (.head list) met) (different : other ≠ list)
    (walk : h.Follows (.head other) (before ++ shared)) (suffix : shared <:+ met)
    (apart : ∀ node ∈ before, node ∉ met) :
    (h.removeWhere list remove).Follows (.head other)
      (before ++ (shared.takeWhile remove ++
        (shared.dropWhile remove).filter fun node => !remove node)) := by
  have untouched {link : Link lists nodes} (mem : link ∈ trail (.head other) before) :
      link ∉ trail (.head list) (met.filter fun node => !remove node) :=
    trail_disjoint different
      (fun node early stays => apart node early (List.mem_of_mem_filter stays)) mem
  refine walk.divert (fun link mem _ => read_removeWhere follows remove (untouched mem)) ?_
  exact follows.removeWhere_entering walk.append suffix.subset
    (untouched (standing_mem_trail (.head other) before))

/-- Nodes are removed from a list, while they may be in any number of lists and removed ones may
have kept their links. The removal ends and asks about every node of the list once, in order.
Afterwards the links still have no cycle, the list has the nodes that stay, and the links of all
other nodes are as before. Any other list keeps what it has before the end that it shares with
the list. Of this end it keeps the nodes up to the first one that stays, and behind it those that
stay. -/
theorem Acyclic.removeWhere_shared (acyclic : h.Acyclic) (list : Fin lists)
    (remove : Fin nodes → Bool) :
    Sweeps remove h (.head list) (h.looks list remove) ∧
    h.asked list remove = h.walk list ∧ (h.walk list).Nodup ∧
    (h.removeWhere list remove).Acyclic ∧
    (h.removeWhere list remove).Follows (.head list)
      ((h.walk list).filter fun node => !remove node) ∧
    (∀ node, (node ∈ h.walk list → remove node) →
      (h.removeWhere list remove).read (.next node) = h.read (.next node)) ∧
    ∀ other, other ≠ list → ∃ before shared, h.walk other = before ++ shared ∧
      SharedEnd (h.walk other) (h.walk list) shared ∧
      (∀ node, node ∈ shared ↔ node ∈ h.walk other ∧ node ∈ h.walk list) ∧
      (h.removeWhere list remove).Follows (.head other)
        (before ++ (shared.takeWhile remove ++
          (shared.dropWhile remove).filter fun node => !remove node)) := by
  have grounded := acyclic.grounded
  have follows := grounded.follows_walk list
  refine ⟨follows.sweeps_looks remove, follows.asked_eq remove, follows.nodup,
    (grounded.removeWhere list remove).acyclic, follows.removeWhere remove, ?_, ?_⟩
  · intro node goes
    refine read_removeWhere follows remove (next_notMem_trail_head fun stays => ?_)
    simpa [goes (List.mem_of_mem_filter stays)] using List.of_mem_filter stays
  · intro other different
    have walk := grounded.follows_walk other
    obtain ⟨before, shared, split, suffix, apart⟩ := follows.exists_entrance walk
    rw [split] at walk ⊢
    refine ⟨before, shared, rfl, sharedEnd_of_apart suffix apart, fun node => ?_,
      follows.removeWhere_other different walk suffix apart⟩
    constructor
    · exact fun mem => ⟨List.mem_append_right before mem, suffix.subset mem⟩
    · rintro ⟨mem, inside⟩
      exact (List.mem_append.mp mem).resolve_left fun early => apart node early inside

/-- Nodes 1, 2 and 4 are removed from list 0. List 1 joins it at node 1, so it keeps nodes 1 and 2,
over which it comes to node 3, and loses node 4. -/
theorem removeWhere_shared_joined :
    let apart := (((empty 2 6).pushTail 1 5).pushTail 1 1).pushTail 0 0
    let h := (((apart.pushTail 0 1).pushTail 0 2).pushTail 0 3).pushTail 0 4
    let remove : Fin 6 → Bool := fun node => node ∈ [1, 2, 4]
    h.Acyclic ∧ h.walk 0 = [0, 1, 2, 3, 4] ∧ h.walk 1 = [5, 1, 2, 3, 4] ∧
      h.asked 0 remove = [0, 1, 2, 3, 4] ∧ (h.removeWhere 0 remove).Acyclic ∧
      (h.removeWhere 0 remove).Follows (.head 0) [0, 3] ∧
      (h.removeWhere 0 remove).Follows (.head 1) [5, 1, 2, 3] ∧
      (h.removeWhere 0 remove).read (.next 4) = h.read (.next 4) := by
  intro apart h remove
  have apart_grounded : apart.Grounded :=
    (((grounded_empty 2 6).pushTail (by decide +kernel)).pushTail (by decide +kernel)).pushTail
      (by decide +kernel)
  have acyclic : h.Acyclic :=
    ((((apart_grounded.pushTail (by decide +kernel)).pushTail (by decide +kernel)).pushTail
      (by decide +kernel)).pushTail (by decide +kernel)).acyclic
  have first : h.walk 0 = [0, 1, 2, 3, 4] := by decide +kernel
  have second : h.walk 1 = [5, 1, 2, 3, 4] := by decide +kernel
  obtain ⟨_, asked, _, still, list, links, others⟩ := acyclic.removeWhere_shared 0 remove
  obtain ⟨before, shared, split, ends, _, joined⟩ := others 1 (by decide)
  rw [first] at asked list ends
  rw [second] at split ends
  have common : SharedEnd ([5] ++ [1, 2, 3, 4] : List (Fin 6)) [0, 1, 2, 3, 4] [1, 2, 3, 4] :=
    sharedEnd_of_apart (List.suffix_append [0] _) (by decide)
  obtain rfl := ends.unique common
  obtain rfl : [5] = before := List.append_cancel_right split
  exact ⟨acyclic, first, second, asked, still, list, joined, links 4 fun _ => by decide⟩

end Gpio.Links
