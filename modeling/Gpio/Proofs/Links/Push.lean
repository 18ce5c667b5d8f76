import Gpio.Links.Edit
import Gpio.Proofs.Links.Trail

/-!
# Pushing a node

A push clears the link of the node and stores the node into the link at which the list
ends. `read_pushTail` says what every link holds afterwards, and from it follows what any
walk meets: a walk that led to the end of the list is longer by the node, one that met the
node ends there, and every other walk is as before.
-/

namespace Gpio.Links

variable {lists nodes : Nat} {h : Links lists nodes} {list : Fin lists} {node : Fin nodes}
  {met seen : List (Fin nodes)} {start : Link lists nodes}

theorem next_notMem_trail_head (outside : node ∉ met) :
    .next node ∉ trail (.head list) met := by
  rw [mem_trail, not_or]
  refine ⟨nofun, ?_⟩
  rintro ⟨other, inside, same⟩
  exact outside (Link.next.inj same ▸ inside)

theorem read_pushTail (follows : h.Follows (.head list) met) (outside : node ∉ met)
    (link : Link lists nodes) :
    (h.pushTail list node).read link =
      if standing (.head list) met = link then some node
      else if .next node = link then none
      else h.read link := by
  have cleared : (h.apply ⟨.next node, none⟩).Follows (.head list) met :=
    follows.apply_of_notMem (next_notMem_trail_head outside)
  rw [pushTail, pushStores, cleared.endOf_eq]
  simp only [applyAll, List.foldl_cons, List.foldl_nil, read_apply]

theorem standing_ne_next (outside : node ∉ met) :
    standing (.head list) met ≠ .next node := by
  intro same
  exact next_notMem_trail_head outside (same ▸ standing_mem_trail (.head list) met)

/-- From its own link the node leads nowhere. -/
theorem Follows.pushTail_next (follows : h.Follows (.head list) met) (outside : node ∉ met) :
    (h.pushTail list node).Follows (.next node) [] := by
  refine .stop ?_
  rw [read_pushTail follows outside, if_neg (standing_ne_next outside), if_pos rfl]

/-- A walk that reads neither the end of the list nor the link of the node is as before. -/
theorem Follows.pushTail_of_notMem (follows : h.Follows (.head list) met) (outside : node ∉ met)
    (walk : h.Follows start seen) (apart : standing (.head list) met ∉ trail start seen)
    (away : .next node ∉ trail start seen) : (h.pushTail list node).Follows start seen := by
  refine walk.congr ?_
  intro link mem
  rw [read_pushTail follows outside, if_neg, if_neg]
  · rintro rfl
    exact away mem
  · rintro rfl
    exact apart mem

/-- A walk that ends where the list ends goes on to the node. -/
theorem Follows.pushTail_of_mem (follows : h.Follows (.head list) met) (outside : node ∉ met)
    (walk : h.Follows start seen) (joined : standing (.head list) met ∈ trail start seen)
    (away : .next node ∉ trail start seen) :
    (h.pushTail list node).Follows start (seen ++ [node]) := by
  obtain ⟨before, after, rfl, stands⟩ := exists_standing_of_mem_trail joined
  -- The end of the list is empty, so the walk does not go on behind it.
  have rest := walk.append
  rw [stands] at rest
  obtain rfl : after = [] := rest.unique (.stop follows.read_standing)
  rw [List.append_nil] at away ⊢
  refine walk.divert ?_ ?_
  · intro link mem other
    rw [read_pushTail follows outside, if_neg (stands ▸ other.symm), if_neg]
    rintro rfl
    exact away mem
  · refine .step ?_ (follows.pushTail_next outside)
    rw [read_pushTail follows outside, if_pos stands.symm]

/-- A walk that meets the node ends with it. -/
theorem Follows.pushTail_of_meets (follows : h.Follows (.head list) met) (outside : node ∉ met)
    {before after : List (Fin nodes)} (walk : h.Follows start (before ++ node :: after)) :
    (h.pushTail list node).Follows start (before ++ [node]) := by
  have parts : before ++ node :: after = (before ++ [node]) ++ after := by
    rw [List.append_assoc, List.singleton_append]
  have ends : standing start (before ++ [node]) = .next node := standing_append start before [node]
  rw [parts] at walk
  have cut : (h.pushTail list node).Follows start ((before ++ [node]) ++ []) := by
    refine walk.divert ?_ (ends ▸ follows.pushTail_next outside)
    intro link mem other
    rw [ends] at other
    rw [read_pushTail follows outside, if_neg, if_neg other.symm]
    -- A link before the node leads on to it, but the end of the list leads nowhere.
    rintro rfl
    obtain ⟨first, rest, split, stands⟩ := exists_standing_of_mem_trail mem
    cases rest with
    | nil =>
        rw [List.append_nil] at split
        exact other (stands.symm.trans (split ▸ ends))
    | cons next rest =>
        rw [split, List.append_assoc] at walk
        have onward := walk.append
        rw [stands] at onward
        exact nomatch onward.unique (.stop follows.read_standing)
  rwa [List.append_nil] at cut

/-- The list itself gets the node at its end. -/
theorem Follows.pushTail (follows : h.Follows (.head list) met) (outside : node ∉ met) :
    (h.pushTail list node).Follows (.head list) (met ++ [node]) :=
  follows.pushTail_of_mem outside follows (standing_mem_trail (.head list) met)
    (next_notMem_trail_head outside)

/-- Whatever a walk met, it is cut short or not, and gets the node at its end or not. -/
theorem Follows.exists_pushTail (follows : h.Follows (.head list) met) (outside : node ∉ met)
    (walk : h.Follows start seen) :
    ∃ kept, kept <+: seen ∧ node ∉ kept ∧
      ((h.pushTail list node).Follows start kept ∨
        (h.pushTail list node).Follows start (kept ++ [node])) := by
  by_cases away : .next node ∈ trail start seen
  · rcases mem_trail.mp away with rfl | ⟨other, inside, same⟩
    · exact ⟨[], List.nil_prefix, List.not_mem_nil, Or.inl (follows.pushTail_next outside)⟩
    · obtain rfl := Link.next.inj same
      obtain ⟨before, after, rfl⟩ := List.append_of_mem inside
      have fresh := (List.nodup_append.mp walk.nodup).2.2
      exact ⟨before, List.prefix_append before _,
        fun again => fresh other again other List.mem_cons_self rfl,
        Or.inr (follows.pushTail_of_meets outside walk)⟩
  · have unmet : node ∉ seen := fun inside => away (mem_trail.mpr (Or.inr ⟨node, inside, rfl⟩))
    refine ⟨seen, List.prefix_rfl, unmet, ?_⟩
    by_cases joined : standing (.head list) met ∈ trail start seen
    · exact Or.inr (follows.pushTail_of_mem outside walk joined away)
    · exact Or.inl (follows.pushTail_of_notMem outside walk joined away)

end Gpio.Links
