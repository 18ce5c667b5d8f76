import Gpio.Links.Edit
import Gpio.Proofs.Links.Trail

/-!
# Removing nodes

`Sweeps` is the loop of a removal as a relation, without a budget: it looks at nodes until
it finds an empty link. On a list whose walk ends the loop ends too (`Follows.sweeps`), it
has looked at every node of the walk once, and it leaves the nodes that do not go. The only
links that it changes are the head of the list and those of the nodes that stay, and each
of these then leads through exactly the staying nodes behind it. A removed node keeps its
link, so a walk that stands on one goes on as before until it meets a node that stays.
-/

namespace Gpio.Links

variable {lists nodes : Nat} {h : Links lists nodes} {list : Fin lists}
  {remove : Fin nodes → Bool} {met seen : List (Fin nodes)} {start : Link lists nodes}
  {looks : List (Look lists nodes)}

/-- What comes behind an element that stays loses its own first elements that go. -/
theorem iterate_eraseP_cons {α : Type} {goes : α → Bool} {first : α} (stays : ¬goes first)
    (count : Nat) (rest : List α) :
    (List.eraseP goes)^[count] (first :: rest) = first :: (List.eraseP goes)^[count] rest := by
  have behind : Function.Semiconj (List.cons first) (List.eraseP goes) (List.eraseP goes) :=
    fun some => (List.eraseP_cons_of_neg stays).symm
  exact ((behind.iterate_right count).eq rest).symm

theorem iterate_eraseP_countP {α : Type} (goes : α → Bool) (all : List α) :
    (List.eraseP goes)^[all.countP goes] all = all.filter fun some => !goes some := by
  induction all with
  | nil => rfl
  | cons first rest ih =>
      by_cases leaves : goes first
      · rw [List.countP_cons_of_pos leaves, Function.iterate_succ_apply,
          List.eraseP_cons_of_pos leaves, ih, List.filter_cons_of_neg (by simp [leaves])]
      · rw [List.countP_cons_of_neg leaves, iterate_eraseP_cons leaves, ih,
          List.filter_cons_of_pos (by simp [leaves])]

/-- The looks that a removal takes from a link on until it finds no node. -/
inductive Sweeps (remove : Fin nodes → Bool) :
    Links lists nodes → Link lists nodes → List (Look lists nodes) → Prop where
  | stop {h : Links lists nodes} {start : Link lists nodes} (empty : h.read start = none) :
      Sweeps remove h start []
  | unlink {h : Links lists nodes} {start : Link lists nodes} {node : Fin nodes}
      {looks : List (Look lists nodes)} (found : h.read start = some node)
      (goes : remove node = true)
      (rest : Sweeps remove (h.apply ⟨start, h.read (.next node)⟩) start looks) :
      Sweeps remove h start (⟨node, some ⟨start, h.read (.next node)⟩⟩ :: looks)
  | keep {h : Links lists nodes} {start : Link lists nodes} {node : Fin nodes}
      {looks : List (Look lists nodes)} (found : h.read start = some node)
      (stays : remove node = false) (rest : Sweeps remove h (.next node) looks) :
      Sweeps remove h start (⟨node, none⟩ :: looks)

/-- Taking out the first node of a walk leaves the others. -/
theorem Follows.unlink {node : Fin nodes} {rest : List (Fin nodes)}
    (follows : h.Follows start (node :: rest)) :
    (h.apply ⟨start, h.read (.next node)⟩).Follows start rest := by
  have fresh := follows.start_notMem_trail
  have other : start ≠ .next node := fun same => fresh (same ▸ List.mem_cons_self)
  cases follows with
  | step _ behind =>
      refine (behind.apply_of_notMem fresh).of_read_eq ?_
      rw [read_apply, if_pos rfl, read_apply, if_neg other]

/-- The bounded loop is the whole loop when the walk ends within the bound. -/
theorem Follows.sweeps (follows : h.Follows start met) {budget : Nat}
    (enough : met.length ≤ budget) : Sweeps remove h start (sweep remove budget h start) := by
  induction met generalizing h start budget with
  | nil =>
      cases follows with
      | stop empty =>
          cases budget with
          | zero => exact .stop empty
          | succ budget =>
              rw [sweep, empty]
              exact .stop empty
  | cons node rest ih =>
      cases budget with
      | zero => exact absurd enough (Nat.not_succ_le_zero _)
      | succ budget =>
          have shorter : rest.length ≤ budget := Nat.le_of_succ_le_succ enough
          have unlinked := follows.unlink
          cases follows with
          | step found follows =>
              simp only [sweep, found]
              split
              · rename_i goes
                exact .unlink found goes (ih unlinked shorter)
              · rename_i stays
                exact .keep found (Bool.eq_false_iff.mpr stays) (ih follows shorter)

namespace Sweeps

/-- The nodes that are looked at are those of the walk, each once and in order. -/
theorem map_node (sweeps : Sweeps remove h start looks) (follows : h.Follows start met) :
    looks.map Look.node = met := by
  induction sweeps generalizing met with
  | stop empty => exact Follows.unique (.stop empty) follows
  | unlink found goes _ ih =>
      obtain ⟨rest, rfl, behind⟩ := follows.exists_cons found
      exact congrArg (List.cons _) (ih follows.unlink)
  | keep found stays _ ih =>
      obtain ⟨rest, rfl, behind⟩ := follows.exists_cons found
      exact congrArg (List.cons _) (ih behind)

/-- Stores are into the first link and the links of the nodes that stay only. -/
theorem link_mem (sweeps : Sweeps remove h start looks) (follows : h.Follows start met) :
    ∀ store ∈ looks.filterMap Look.unlink?,
      store.link ∈ trail start (met.filter fun node => !remove node) := by
  induction sweeps generalizing met with
  | stop _ => exact List.forall_mem_nil _
  | unlink found goes _ ih =>
      obtain ⟨rest, rfl, _⟩ := follows.exists_cons found
      rw [List.filter_cons_of_neg (by simp [goes])]
      exact List.forall_mem_cons.mpr ⟨List.mem_cons_self, ih follows.unlink⟩
  | keep found stays _ ih =>
      obtain ⟨rest, rfl, behind⟩ := follows.exists_cons found
      rw [List.filter_cons_of_pos (by simp [stays]), trail_cons]
      exact fun store mem => List.mem_cons_of_mem _ (ih behind store mem)

/-- Only the first link and the links of the nodes that stay are changed. -/
theorem read_of_notMem (sweeps : Sweeps remove h start looks) (follows : h.Follows start met)
    {link : Link lists nodes}
    (outside : link ∉ trail start (met.filter fun node => !remove node)) :
    (h.applyAll (looks.filterMap Look.unlink?)).read link = h.read link := by
  apply read_applyAll_of_ne
  rintro store mem rfl
  exact outside (sweeps.link_mem follows store mem)

/-- Each node that goes is taken out by one store. -/
theorem length_unlinks (sweeps : Sweeps remove h start looks) (follows : h.Follows start met) :
    (looks.filterMap Look.unlink?).length = met.countP remove := by
  induction sweeps generalizing met with
  | stop empty =>
      obtain rfl := Follows.unique (.stop empty) follows
      rfl
  | unlink found goes _ ih =>
      obtain ⟨rest, rfl, _⟩ := follows.exists_cons found
      rw [List.countP_cons_of_pos goes]
      exact congrArg (· + 1) (ih follows.unlink)
  | keep found stays _ ih =>
      obtain ⟨rest, rfl, behind⟩ := follows.exists_cons found
      rw [List.countP_cons_of_neg (by simp [stays])]
      exact ih behind

/-- After some of the stores the walk lacks as many nodes, the first ones of those that go. -/
theorem follows_eraseP (sweeps : Sweeps remove h start looks) (follows : h.Follows start met)
    {done : List (LinkStore lists nodes)} (begun : done <+: looks.filterMap Look.unlink?) :
    (h.applyAll done).Follows start ((List.eraseP remove)^[done.length] met) := by
  induction sweeps generalizing met done with
  | stop _ =>
      obtain rfl := List.prefix_nil.mp begun
      exact follows
  | unlink found goes _ ih =>
      obtain ⟨rest, rfl, _⟩ := follows.exists_cons found
      rcases List.prefix_cons_iff.mp begun with rfl | ⟨later, rfl, onward⟩
      · exact follows
      · rw [List.length_cons, Function.iterate_succ_apply, List.eraseP_cons_of_pos goes]
        exact ih follows.unlink onward
  | keep found stays sweeps ih =>
      obtain ⟨rest, rfl, behind⟩ := follows.exists_cons found
      rw [iterate_eraseP_cons (by simp [stays])]
      -- The link that led here is not stored into, so it still leads here.
      have fresh := follows.start_notMem_trail
      refine .step ((read_applyAll_of_ne ?_).trans found) (ih behind begun)
      rintro store mem rfl
      have stored := sweeps.link_mem behind store (begun.subset mem)
      exact fresh (trail_subset _ List.filter_sublist.subset stored)

/-- Afterwards the walk meets the nodes that stay. -/
theorem follows_filter (sweeps : Sweeps remove h start looks) (follows : h.Follows start met) :
    (h.applyAll (looks.filterMap Look.unlink?)).Follows start
      (met.filter fun node => !remove node) := by
  have left := sweeps.follows_eraseP follows List.prefix_rfl
  rwa [sweeps.length_unlinks follows, iterate_eraseP_countP] at left

end Sweeps

theorem Follows.sweeps_looks (follows : h.Follows (.head list) met) (remove : Fin nodes → Bool) :
    Sweeps remove h (.head list) (h.looks list remove) :=
  follows.sweeps follows.length_le

theorem Follows.asked_eq (follows : h.Follows (.head list) met) (remove : Fin nodes → Bool) :
    h.asked list remove = met :=
  (follows.sweeps_looks remove).map_node follows

theorem read_removeWhere (follows : h.Follows (.head list) met) (remove : Fin nodes → Bool)
    {link : Link lists nodes}
    (outside : link ∉ trail (.head list) (met.filter fun node => !remove node)) :
    (h.removeWhere list remove).read link = h.read link :=
  (follows.sweeps_looks remove).read_of_notMem follows outside

/-- The list keeps the nodes that stay. -/
theorem Follows.removeWhere (follows : h.Follows (.head list) met) (remove : Fin nodes → Bool) :
    (h.removeWhere list remove).Follows (.head list) (met.filter fun node => !remove node) :=
  (follows.sweeps_looks remove).follows_filter follows

/-- A link of the list or of one of its staying nodes leads through the staying ones of the nodes
behind it. -/
theorem Follows.removeWhere_of_mem (follows : h.Follows (.head list) met)
    (remove : Fin nodes → Bool)
    (mem : start ∈ trail (.head list) (met.filter fun node => !remove node))
    (walk : h.Follows start seen) :
    seen ⊆ met ∧
      (h.removeWhere list remove).Follows start (seen.filter fun node => !remove node) := by
  have left := follows.removeWhere remove
  rcases mem_trail.mp mem with rfl | ⟨node, stays, rfl⟩
  · obtain rfl := follows.unique walk
    exact ⟨List.Subset.refl met, left⟩
  · obtain ⟨before, after, rfl⟩ := List.append_of_mem (List.mem_of_mem_filter stays)
    obtain rfl : after = seen := follows.suffix.unique walk
    rw [List.filter_append, List.filter_cons_of_pos (List.of_mem_filter stays)] at left
    exact ⟨fun _ mem => List.mem_append_right before (List.mem_cons_of_mem node mem), left.suffix⟩

/-- A link is as before, or it is one of the list and leads through the staying ones of the
nodes behind it. -/
theorem Follows.removeWhere_or (follows : h.Follows (.head list) met) (remove : Fin nodes → Bool)
    (walk : h.Follows start seen) :
    (h.removeWhere list remove).read start = h.read start ∨
      seen ⊆ met ∧
        (h.removeWhere list remove).Follows start (seen.filter fun node => !remove node) := by
  by_cases mem : start ∈ trail (.head list) (met.filter fun node => !remove node)
  · exact Or.inr (follows.removeWhere_of_mem remove mem walk)
  · exact Or.inl (read_removeWhere follows remove mem)

/-- Every walk loses some of the nodes of the list that go, and no others. -/
theorem Follows.exists_removeWhere (follows : h.Follows (.head list) met)
    (remove : Fin nodes → Bool) (walk : h.Follows start seen) :
    ∃ rest, (h.removeWhere list remove).Follows start rest ∧ rest.Sublist seen ∧
      ∀ node ∈ seen, (node ∈ met → remove node = false) → node ∈ rest := by
  induction walk with
  | @stop start empty =>
      rcases follows.removeWhere_or remove (.stop empty) with same | ⟨_, left⟩
      · exact ⟨[], .stop (same.trans empty), List.Sublist.refl [], nofun⟩
      · exact ⟨[], left, List.Sublist.refl [], nofun⟩
  | @step start node seen found walk ih =>
      rcases follows.removeWhere_or remove (.step found walk) with same | ⟨listed, left⟩
      · obtain ⟨rest, left, fewer, stays⟩ := ih
        refine ⟨node :: rest, .step (same.trans found) left, fewer.cons_cons node, ?_⟩
        rintro other mem otherStays
        rcases List.mem_cons.mp mem with rfl | mem
        · exact List.mem_cons_self
        · exact List.mem_cons_of_mem node (stays other mem otherStays)
      · refine ⟨_, left, List.filter_sublist, ?_⟩
        intro other mem otherStays
        exact List.mem_filter.mpr ⟨mem, by rw [otherStays (listed mem), Bool.not_false]⟩

end Gpio.Links
