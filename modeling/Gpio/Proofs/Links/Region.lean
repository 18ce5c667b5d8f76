import Gpio.Proofs.Registry.Rolls

/-!
# Regions of links

A region is a set of links, and its nodes are those whose links are in it. If the links of a
region lead to its nodes only, a walk that starts in the region stays there, and what it meets
depends on the links of the region only (`SameOn.walkFrom`). The same goes for an edit of a
registry in the region: all that it does is to store nodes of the region, or nothing, into
links of the region, and which stores these are depends on the links of the region only
(`exists_stores_edit`).
-/

namespace Gpio

open Links

/-- A set of links. -/
abbrev Region (lists nodes : Nat) := Link lists nodes → Prop

variable {lists nodes : Nat} {region : Region lists nodes}

/-- The store is into a link of the region, and what is stored stays there. -/
def LinkStore.Within (region : Region lists nodes) (store : LinkStore lists nodes) : Prop :=
  region store.link ∧ ∀ node ∈ store.value, region (.next node)

namespace Links

variable {g h : Links lists nodes} {link : Link lists nodes} {store : LinkStore lists nodes}
  {stores : List (LinkStore lists nodes)}

/-- The links of a region are the same. -/
def SameOn (region : Region lists nodes) (g h : Links lists nodes) : Prop :=
  ∀ link, region link → g.read link = h.read link

/-- The links of a region lead to nodes of the region only. -/
def ClosedOn (region : Region lists nodes) (h : Links lists nodes) : Prop :=
  ∀ link node, region link → h.read link = some node → region (.next node)

theorem SameOn.closedOn (same : SameOn region g h) (closed : g.ClosedOn region) :
    h.ClosedOn region := fun link node inside found =>
  closed link node inside ((same link inside).trans found)

theorem SameOn.apply (same : SameOn region g h) (store : LinkStore lists nodes) :
    SameOn region (g.apply store) (h.apply store) := by
  intro link inside
  rw [read_apply, read_apply, same link inside]

theorem ClosedOn.apply (closed : h.ClosedOn region) (within : store.Within region) :
    (h.apply store).ClosedOn region := by
  intro link node inside found
  rw [read_apply] at found
  split at found
  · exact within.2 node found
  · exact closed link node inside found

theorem SameOn.applyAll (same : SameOn region g h) (stores : List (LinkStore lists nodes)) :
    SameOn region (g.applyAll stores) (h.applyAll stores) := by
  induction stores generalizing g h with
  | nil => exact same
  | cons store rest ih => exact ih (same.apply store)

theorem ClosedOn.applyAll (closed : h.ClosedOn region)
    (within : ∀ store ∈ stores, store.Within region) : (h.applyAll stores).ClosedOn region := by
  induction stores generalizing h with
  | nil => exact closed
  | cons store rest ih =>
      obtain ⟨first, within⟩ := List.forall_mem_cons.mp within
      exact ih (closed.apply first) within

/-- Stores within a region leave all other links as they are. -/
theorem read_applyAll_of_within (within : ∀ store ∈ stores, store.Within region)
    (outside : ¬region link) : (h.applyAll stores).read link = h.read link := by
  refine read_applyAll_of_ne fun store mem => ?_
  rintro rfl
  exact outside (within store mem).1

namespace SameOn

/-- A walk in a closed region depends on the links of the region only, and stays in it. -/
theorem walkFrom (same : SameOn region g h) (closed : g.ClosedOn region) (inside : region link)
    (budget : Nat) :
    g.walkFrom budget link = h.walkFrom budget link ∧
      ∀ node ∈ g.walkFrom budget link, region (.next node) := by
  induction budget generalizing link with
  | zero => exact ⟨rfl, nofun⟩
  | succ budget ih =>
      simp only [Links.walkFrom, same link inside]
      cases found : h.read link with
      | none => exact ⟨rfl, List.forall_mem_nil _⟩
      | some node =>
          have next := closed link node inside ((same link inside).trans found)
          obtain ⟨onward, stays⟩ := ih next
          exact ⟨congrArg _ onward, List.forall_mem_cons.mpr ⟨next, stays⟩⟩

theorem walk (same : SameOn region g h) (closed : g.ClosedOn region) {list : Fin lists}
    (inside : region (.head list)) : g.walk list = h.walk list :=
  (same.walkFrom closed inside nodes).1

theorem endOf (same : SameOn region g h) (closed : g.ClosedOn region) {list : Fin lists}
    (inside : region (.head list)) : g.endOf list = h.endOf list ∧ region (g.endOf list) := by
  refine ⟨by rw [Links.endOf, Links.endOf, same.walk closed inside], ?_⟩
  rw [Links.endOf]
  split
  · exact inside
  · rename_i node last
    exact (same.walkFrom closed inside nodes).2 node (List.mem_of_getLast? last)

/-- A node of the region is pushed by the same stores. -/
theorem pushStores (same : SameOn region g h) (closed : g.ClosedOn region) {list : Fin lists}
    (inside : region (.head list)) {node : Fin nodes} (own : region (.next node)) :
    g.pushStores list node = h.pushStores list node ∧
      ∀ store ∈ g.pushStores list node, store.Within region := by
  have cleared : LinkStore.Within region ⟨.next node, none⟩ := ⟨own, nofun⟩
  obtain ⟨ends, last⟩ := (same.apply ⟨.next node, none⟩).endOf (closed.apply cleared) inside
  refine ⟨by rw [Links.pushStores, Links.pushStores, ends], ?_⟩
  intro store mem
  rcases List.mem_pair.mp mem with rfl | rfl
  · exact cleared
  · refine ⟨last, fun other stored => ?_⟩
    obtain rfl := Option.some.inj stored
    exact own

/-- A removal in the region takes the same looks. -/
theorem sweep (same : SameOn region g h) (closed : g.ClosedOn region) (inside : region link)
    (remove : Fin nodes → Bool) (budget : Nat) :
    Links.sweep remove budget g link = Links.sweep remove budget h link ∧
      ∀ look ∈ Links.sweep remove budget g link, ∀ store ∈ look.unlink?, store.Within region := by
  induction budget generalizing g h link with
  | zero => exact ⟨rfl, nofun⟩
  | succ budget ih =>
      simp only [Links.sweep, same link inside]
      cases found : h.read link with
      | none => exact ⟨rfl, List.forall_mem_nil _⟩
      | some node =>
          have own := closed link node inside ((same link inside).trans found)
          dsimp only
          split
          · have unlink : LinkStore.Within region ⟨link, g.read (.next node)⟩ :=
              ⟨inside, fun next stored => closed _ next own stored⟩
            obtain ⟨looks, within⟩ :=
              ih (same.apply ⟨link, g.read (.next node)⟩) (closed.apply unlink) inside
            rw [← same _ own]
            refine ⟨congrArg _ looks, List.forall_mem_cons.mpr ⟨?_, within⟩⟩
            intro store gone
            obtain rfl := Option.some.inj gone
            exact unlink
          · obtain ⟨looks, within⟩ := ih same closed own
            exact ⟨congrArg _ looks, List.forall_mem_cons.mpr ⟨by simp, within⟩⟩

theorem removeStores (same : SameOn region g h) (closed : g.ClosedOn region) {list : Fin lists}
    (inside : region (.head list)) (remove : Fin nodes → Bool) :
    g.removeStores list remove = h.removeStores list remove ∧
      ∀ store ∈ g.removeStores list remove, store.Within region := by
  obtain ⟨looks, within⟩ := same.sweep closed inside remove nodes
  refine ⟨congrArg (List.filterMap Look.unlink?) looks, fun store mem => ?_⟩
  obtain ⟨look, taken, gone⟩ := List.mem_filterMap.mp mem
  exact within look taken store gone

/-- An edit of a registry in the region, by which only a callback of the region comes into the
registry, makes the same stores. -/
theorem exists_stores_edit {clients : Nat} (same : SameOn region g h)
    (closed : g.ClosedOn region) (clientOf : Fin nodes → Fin clients) {r : Fin lists}
    (inside : region (.head r)) {edit : RegistryEdit clients nodes}
    (own : ∀ callback ∈ edit.registers?, region (.next callback)) :
    ∃ stores, Registry.edit g clientOf r edit = g.applyAll stores ∧
      Registry.edit h clientOf r edit = h.applyAll stores ∧
      ∀ store ∈ stores, store.Within region := by
  have register {callback : Fin nodes} (its : region (.next callback)) :
      ∃ stores, Registry.register g r callback = g.applyAll stores ∧
        Registry.register h r callback = h.applyAll stores ∧
        ∀ store ∈ stores, store.Within region := by
    simp only [Registry.register, Registry.contains, same.walk closed inside]
    by_cases registered : callback ∈ h.walk r
    · simp only [registered, decide_true, if_true]
      exact ⟨[], rfl, rfl, List.forall_mem_nil _⟩
    · simp only [registered, decide_false, Bool.false_eq_true, if_false]
      obtain ⟨stores, within⟩ := same.pushStores closed inside its
      exact ⟨_, rfl, by rw [stores]; rfl, within⟩
  have remove (test : Fin nodes → Bool) :
      ∃ stores, g.removeWhere r test = g.applyAll stores ∧
        h.removeWhere r test = h.applyAll stores ∧ ∀ store ∈ stores, store.Within region := by
    obtain ⟨stores, within⟩ := same.removeStores closed inside test
    exact ⟨_, rfl, by rw [stores]; rfl, within⟩
  cases edit with
  | register callback => exact register (own callback rfl)
  | unregister client => exact remove _
  | manage callback present =>
      cases present with
      | true => exact register (own callback rfl)
      | false => exact remove _

end SameOn

end Links

end Gpio
