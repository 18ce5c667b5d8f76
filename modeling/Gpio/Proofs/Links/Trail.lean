import Gpio.Links.Walk
import Mathlib.Data.Fintype.Card

/-!
# The trail of a walk

A walk reads the link at which it starts and the links of the nodes that it meets. What the
other links hold does not matter to it (`Follows.congr`). No link is read twice, so a walk
whose last link changes goes the same way up to there (`Follows.divert`).
-/

namespace Gpio.Links

variable {lists nodes : Nat} {g h : Links lists nodes}

/-- The links that are read by a walk that meets these nodes. -/
def trail (start : Link lists nodes) (met : List (Fin nodes)) : List (Link lists nodes) :=
  start :: met.map .next

/-- The link at which a walk stands that has met these nodes. -/
def standing (start : Link lists nodes) : List (Fin nodes) → Link lists nodes
  | [] => start
  | node :: rest => standing (.next node) rest

@[simp]
theorem mem_trail {start link : Link lists nodes} {met : List (Fin nodes)} :
    link ∈ trail start met ↔ link = start ∨ ∃ node ∈ met, .next node = link := by
  simp only [trail, List.mem_cons, List.mem_map]

theorem trail_cons (start : Link lists nodes) (node : Fin nodes) (rest : List (Fin nodes)) :
    trail start (node :: rest) = start :: trail (.next node) rest := rfl

theorem trail_subset (start : Link lists nodes) {some all : List (Fin nodes)}
    (inside : some ⊆ all) : trail start some ⊆ trail start all :=
  List.cons_subset_cons start (List.map_subset _ inside)

/-- Walks of two lists without a common node read no common link. -/
theorem trail_disjoint {list other : Fin lists} (different : list ≠ other)
    {met seen : List (Fin nodes)} (apart : ∀ node ∈ met, node ∉ seen) {link : Link lists nodes}
    (mem : link ∈ trail (.head list) met) : link ∉ trail (.head other) seen := by
  intro again
  rcases mem_trail.mp mem with rfl | ⟨node, inside, rfl⟩
  · rcases mem_trail.mp again with same | ⟨node, _, same⟩
    · exact different (Link.head.inj same)
    · exact nomatch same
  · rcases mem_trail.mp again with same | ⟨node, seen, same⟩
    · exact nomatch same
    · exact apart _ inside (Link.next.inj same ▸ seen)

theorem standing_mem_trail (start : Link lists nodes) (met : List (Fin nodes)) :
    standing start met ∈ trail start met := by
  induction met generalizing start with
  | nil => exact List.mem_cons_self
  | cons node rest ih => exact List.mem_cons_of_mem start (ih (.next node))

theorem standing_append (start : Link lists nodes) (before after : List (Fin nodes)) :
    standing start (before ++ after) = standing (standing start before) after := by
  induction before generalizing start with
  | nil => rfl
  | cons node rest ih => exact ih (.next node)

theorem standing_eq_getLast? (start : Link lists nodes) (met : List (Fin nodes)) :
    standing start met =
      match met.getLast? with
      | none => start
      | some node => .next node := by
  induction met generalizing start with
  | nil => rfl
  | cons node rest ih =>
      rw [standing, ih, List.getLast?_cons]
      cases rest.getLast? <;> rfl

/-- Every link of a trail is the one at which the walk stands at some time. -/
theorem exists_standing_of_mem_trail {start link : Link lists nodes} {met : List (Fin nodes)}
    (mem : link ∈ trail start met) :
    ∃ before after, met = before ++ after ∧ standing start before = link := by
  induction met generalizing start with
  | nil => exact ⟨[], [], rfl, (List.mem_singleton.mp mem).symm⟩
  | cons node rest ih =>
      rw [trail_cons, List.mem_cons] at mem
      rcases mem with rfl | mem
      · exact ⟨[], node :: rest, rfl, rfl⟩
      · obtain ⟨before, after, rfl, stands⟩ := ih mem
        exact ⟨node :: before, after, rfl, stands⟩

theorem Follows.of_read_eq {start other : Link lists nodes} {met : List (Fin nodes)}
    (follows : h.Follows start met) (same : h.read other = h.read start) :
    h.Follows other met := by
  cases follows with
  | stop empty => exact .stop (same.trans empty)
  | step found rest => exact .step (same.trans found) rest

theorem Follows.exists_cons {start : Link lists nodes} {node : Fin nodes}
    {met : List (Fin nodes)} (follows : h.Follows start met) (found : h.read start = some node) :
    ∃ rest, met = node :: rest ∧ h.Follows (.next node) rest := by
  cases follows with
  | stop empty => exact nomatch empty.symm.trans found
  | step other rest =>
      obtain rfl := Option.some.inj (found.symm.trans other)
      exact ⟨_, rfl, rest⟩

theorem Follows.append {start : Link lists nodes} {before after : List (Fin nodes)}
    (follows : h.Follows start (before ++ after)) : h.Follows (standing start before) after := by
  induction before generalizing start with
  | nil => exact follows
  | cons node rest ih =>
      cases follows with
      | step _ follows => exact ih follows

theorem Follows.read_standing {start : Link lists nodes} {met : List (Fin nodes)}
    (follows : h.Follows start met) : h.read (standing start met) = none := by
  induction follows with
  | stop empty => exact empty
  | step _ _ ih => exact ih

theorem Follows.start_ne {start : Link lists nodes} {met : List (Fin nodes)}
    (follows : h.Follows start met) {node : Fin nodes} (mem : node ∈ met) :
    .next node ≠ start := by
  rintro rfl
  exact follows.notMem_of_next mem

/-- A walk that has gone on does not read its first link again. -/
theorem Follows.start_notMem_trail {start : Link lists nodes} {node : Fin nodes}
    {rest : List (Fin nodes)} (follows : h.Follows start (node :: rest)) :
    start ∉ trail (.next node) rest := by
  intro mem
  change start ∈ (node :: rest).map Link.next at mem
  obtain ⟨other, inside, same⟩ := List.mem_map.mp mem
  exact follows.start_ne inside same

theorem Follows.length_le {start : Link lists nodes} {met : List (Fin nodes)}
    (follows : h.Follows start met) : met.length ≤ nodes := by
  simpa only [Fintype.card_fin] using follows.nodup.length_le_card

theorem Follows.walk_eq {list : Fin lists} {met : List (Fin nodes)}
    (follows : h.Follows (.head list) met) : h.walk list = met :=
  walkFrom_eq_of_follows follows follows.length_le

theorem Follows.endOf_eq {list : Fin lists} {met : List (Fin nodes)}
    (follows : h.Follows (.head list) met) : h.endOf list = standing (.head list) met := by
  have last := standing_eq_getLast? (.head list) met
  rw [endOf, follows.walk_eq]
  exact last.symm

/-! ## Other contents of the links -/

/-- A walk depends on the links that it reads. -/
theorem Follows.congr {start : Link lists nodes} {met : List (Fin nodes)}
    (follows : h.Follows start met)
    (same : ∀ link ∈ trail start met, g.read link = h.read link) : g.Follows start met := by
  induction follows with
  | @stop start empty => exact .stop ((same start List.mem_cons_self).trans empty)
  | @step start node rest found _ ih =>
      exact .step ((same start List.mem_cons_self).trans found)
        (ih fun link mem => same link (List.mem_cons_of_mem start mem))

/-- When of the links that a walk has read only the last one changes, the walk goes the same
way up to there. -/
theorem Follows.divert {start : Link lists nodes} {before after tail : List (Fin nodes)}
    (follows : h.Follows start (before ++ after))
    (same : ∀ link ∈ trail start before, link ≠ standing start before → g.read link = h.read link)
    (follows_tail : g.Follows (standing start before) tail) : g.Follows start (before ++ tail) := by
  induction before generalizing start with
  | nil => exact follows_tail
  | cons node rest ih =>
      have fresh := follows.start_notMem_trail
      cases follows with
      | step found follows =>
          -- No link is read twice, so the first one is not the last.
          have other : start ≠ standing (.next node) rest := by
            intro last
            exact fresh (trail_subset _ (List.subset_append_left rest after)
              (last ▸ standing_mem_trail (.next node) rest))
          refine .step ((same start List.mem_cons_self other).trans found)
            (ih follows (fun link mem => same link (List.mem_cons_of_mem start mem)) follows_tail)

theorem Follows.apply_of_notMem {start : Link lists nodes} {met : List (Fin nodes)}
    {s : LinkStore lists nodes} (follows : h.Follows start met)
    (outside : s.link ∉ trail start met) : (h.apply s).Follows start met := by
  refine follows.congr ?_
  intro link mem
  rw [read_apply, if_neg]
  rintro rfl
  exact outside mem

end Gpio.Links
