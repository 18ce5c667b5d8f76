import Gpio.Proofs.Links.Push
import Gpio.Proofs.Links.Removal
import Mathlib.Data.Fintype.EquivFin
import Mathlib.Logic.Relation

/-!
# Links without cycles

Links are grounded when every walk ends, wherever it starts: at the head of a list or at
the link of a node, whether the node is in a list or has been taken out. Both edits keep
links grounded. For a push this takes that the node is outside the list, since otherwise it
would become its own successor.
-/

namespace Gpio.Links

variable {lists nodes : Nat} {h : Links lists nodes}

/-- The link of the first node holds the second one. -/
def Leads (h : Links lists nodes) (node next : Fin nodes) : Prop :=
  h.read (.next node) = some next

/-- No node comes back to itself, over any number of links. -/
def Acyclic (h : Links lists nodes) : Prop :=
  ∀ node, ¬ Relation.TransGen h.Leads node node

/-- Every walk ends. -/
def Grounded (h : Links lists nodes) : Prop :=
  ∀ start, ∃ met, h.Follows start met

theorem grounded_empty (lists nodes : Nat) : (empty lists nodes).Grounded :=
  fun start => ⟨[], .stop (read_empty start)⟩

/-- A walk ends if it ends from the node on to which it goes first. -/
theorem exists_follows {start : Link lists nodes}
    (ends : ∀ node, h.read start = some node → ∃ met, h.Follows (.next node) met) :
    ∃ met, h.Follows start met := by
  cases found : h.read start with
  | none => exact ⟨[], .stop found⟩
  | some node =>
      obtain ⟨met, follows⟩ := ends node found
      exact ⟨node :: met, .step found follows⟩

/-- A walk from the link of a node meets all nodes that the node leads to. -/
theorem Follows.mem_of_leads {node other : Fin nodes} {met : List (Fin nodes)}
    (follows : h.Follows (.next node) met) (leads : Relation.TransGen h.Leads node other) :
    other ∈ met := by
  induction leads with
  | single found =>
      obtain ⟨rest, rfl, _⟩ := follows.exists_cons found
      exact List.mem_cons_self
  | tail _ found ih =>
      obtain ⟨before, after, rfl⟩ := List.append_of_mem ih
      obtain ⟨rest, rfl, _⟩ := follows.suffix.exists_cons found
      exact List.mem_append_right before (List.mem_cons_of_mem _ List.mem_cons_self)

namespace Grounded

theorem acyclic (grounded : h.Grounded) : h.Acyclic := by
  intro node cycle
  obtain ⟨met, follows⟩ := grounded (.next node)
  exact follows.notMem_of_next (follows.mem_of_leads cycle)

theorem follows_walk (grounded : h.Grounded) (list : Fin lists) :
    h.Follows (.head list) (h.walk list) := by
  obtain ⟨met, follows⟩ := grounded (.head list)
  rwa [follows.walk_eq]

theorem pushTail (grounded : h.Grounded) {list : Fin lists} {node : Fin nodes}
    (outside : node ∉ h.walk list) : (h.pushTail list node).Grounded := by
  intro start
  obtain ⟨seen, walk⟩ := grounded start
  rcases (grounded.follows_walk list).exists_pushTail outside walk with ⟨kept, _, _, ends | ends⟩
  · exact ⟨kept, ends⟩
  · exact ⟨kept ++ [node], ends⟩

theorem removeWhere (grounded : h.Grounded) (list : Fin lists) (remove : Fin nodes → Bool) :
    (h.removeWhere list remove).Grounded := by
  intro start
  obtain ⟨seen, walk⟩ := grounded start
  obtain ⟨rest, ends, _⟩ := (grounded.follows_walk list).exists_removeWhere remove walk
  exact ⟨rest, ends⟩

end Grounded

namespace Acyclic

/-- There are finitely many nodes, so links without cycles lead on only finitely often. -/
theorem wellFounded (acyclic : h.Acyclic) : WellFounded fun next node => h.Leads node next := by
  let before (later node : Fin nodes) : Prop := Relation.TransGen h.Leads node later
  have trans : IsTrans (Fin nodes) before := ⟨fun _ _ _ second first => first.trans second⟩
  have irrefl : Std.Irrefl before := ⟨acyclic⟩
  have wellFounded : WellFounded before := Finite.wellFounded_of_trans_of_irrefl before
  exact Subrelation.wf .single wellFounded

theorem grounded (acyclic : h.Acyclic) : h.Grounded := by
  have ends : ∀ node, ∃ met, h.Follows (.next node) met := by
    intro node
    induction node using acyclic.wellFounded.induction with
    | h node ih => exact exists_follows fun next found => ih next found
  exact fun start => exists_follows fun node _ => ends node

end Acyclic

end Gpio.Links
