import Gpio.Proofs.Board.Demand
import Gpio.Proofs.Board.Interrupts
import Gpio.Proofs.Controller.Pins
import Gpio.Proofs.Links.Region

/-!
# Controllers with nothing in common

The clients of a board are divided among its controllers, and with them their callbacks. No
two blocks have a word in common, and no two controllers an interrupt id. So every controller
has a domain of its own: its block, its registry with the links of its callbacks, their masks,
the scripts of its clients, and the masks and handlers of its interrupt ids. An operation
within a domain depends on that domain only, and changes nothing in the others
(`Partition.carried_operate`).
-/

namespace Gpio

open Links

variable {L : Layout}

/-- An action for a pin is about the interrupt id of the pin, if it is about an id. -/
theorem Action.IsFor.serves {words : Nat} {c : Controller words} {p : Pin} {action : Action}
    (isFor : action.IsFor c p) {irq : Irq} (about : irq ∈ action.irq?) : c.Serves irq := by
  cases action with
  | mask id | unmask id =>
      obtain rfl := Option.some.inj about
      exact ⟨p, isFor⟩
  | install id => exact isFor.elim
  | write w => exact nomatch about
  | log entry => exact nomatch about

/-- What a controller does for a request is about its own interrupt ids. -/
theorem Controller.Grants.serves {words : Nat} {c : Controller words} {m : Memory words}
    {request : Request} {response : Response} (grants : c.Grants m request response)
    {action : Action} (mem : action ∈ response.actions) {irq : Irq}
    (about : irq ∈ action.irq?) : c.Serves irq := by
  cases single : request.pin? with
  | some pin =>
      obtain ⟨p, _, isFor⟩ := grants.isFor single
      exact (isFor action mem).serves about
  | none =>
      cases grants with
      | bringUp ids => exact Controller.serves_of_mem_initialization ids mem about
      | _ => exact nomatch single

/-- A division of the clients of a board among its controllers, whose blocks have no word and
whose pins have no interrupt id in common. -/
structure Partition (B : Board L) where
  ofClient : Fin L.clients → Fin L.controllers
  blocks : ∀ {c d : Fin L.controllers}, c ≠ d → ∀ r r',
    (B.controllers c).block.word r ≠ (B.controllers d).block.word r'
  ids : ∀ {c d : Fin L.controllers}, c ≠ d → ∀ p p' : Pin,
    (B.controllers c).irqBase.toNat + p.val ≠ (B.controllers d).irqBase.toNat + p'.val

namespace Partition

variable {B : Board L} (P : Partition B)

/-- A callback goes with its client. -/
def ofCallback (callback : Fin L.callbacks) : Fin L.controllers :=
  P.ofClient (B.clientOf callback)

/-- The head of a controller's registry, and the links of its callbacks. -/
def region (c : Fin L.controllers) : Region L.lists L.callbacks
  | .head r => r = Board.ownRegistry c
  | .next callback => P.ofCallback callback = c

theorem region_apart {c d : Fin L.controllers} (different : c ≠ d)
    {link : Link L.lists L.callbacks} (inside : P.region c link) : ¬P.region d link := by
  cases link with
  | head r =>
      intro same
      exact different (Fin.castAdd_injective _ _ (inside.symm.trans same))
  | next callback => exact fun same => different (inside.symm.trans same)

theorem not_serves (P : Partition B) {c d : Fin L.controllers} (different : c ≠ d) {irq : Irq}
    (serves : (B.controllers c).Serves irq) : ¬(B.controllers d).Serves irq := by
  obtain ⟨p, number⟩ := serves
  rintro ⟨p', number'⟩
  exact P.ids different p p' (number.symm.trans number')

/-- The commands that are within the domain of a controller. Its interrupts are serviced when
they are raised, and in no other way. -/
inductive Within (c : Fin L.controllers) : Command L → Prop where
  | request (request : Request) : Within c (.operation (.request c request))
  | access (request : AccessRequest) : Within c (.operation (.access c request))
  | edit {edit : RegistryEdit L.clients L.callbacks}
      (own : ∀ callback ∈ edit.registers?, P.ofCallback callback = c) :
      Within c (.operation (.edit (Board.ownRegistry c) edit))
  | query (query : RegistryQuery L.callbacks) :
      Within c (.operation (.query (Board.ownRegistry c) query))
  | pinMask {callback : Fin L.callbacks} (own : P.ofCallback callback = c) :
      Within c (.operation (.pinMask callback))
  | context {callback : Fin L.callbacks} (own : P.ofCallback callback = c) :
      Within c (.operation (.context callback))
  | setPinMask {callback : Fin L.callbacks} (own : P.ofCallback callback = c) (mask : Word) :
      Within c (.operation (.setPinMask callback mask))
  | peek (r : Register) : Within c (.operation (.peek ((B.controllers c).block.word r)))
  | poke (r : Register) (value : Word) :
      Within c (.operation (.poke ((B.controllers c).block.word r) value))
  | dispatch (pins : Word) : Within c (.dispatch (Board.ownRegistry c) pins)
  | raise {irq : Irq} (serves : (B.controllers c).Serves irq) : Within c (.raise irq)

/-- Two states have the same in the domain of a controller. -/
structure Alike (c : Fin L.controllers) (s t : State L) : Prop where
  registers : ∀ r,
    (B.controllers c).block.read s.memory r = (B.controllers c).block.read t.memory r
  links : SameOn (P.region c) s.links t.links
  masks : ∀ callback, P.ofCallback callback = c → s.mask callback = t.mask callback
  scripts : ∀ client, P.ofClient client = c → s.script client = t.script client
  unmasked : ∀ irq, (B.controllers c).Serves irq →
    s.interrupts.unmasked irq = t.interrupts.unmasked irq
  handler : ∀ irq, (B.controllers c).Serves irq →
    s.interrupts.handler irq = t.interrupts.handler irq

/-- The domain of a controller refers to nothing outside of it. -/
structure Closed (c : Fin L.controllers) (s : State L) : Prop where
  links : s.links.ClosedOn (P.region c)
  scripts : ∀ client, P.ofClient client = c → ∀ entry ∈ s.script client,
    ∀ command ∈ entry, P.Within c command
  handler : ∀ irq, (B.controllers c).Serves irq → ∀ d, s.interrupts.handler irq = some d → d = c

variable {P} {c d : Fin L.controllers} {s t u : State L}

namespace Alike

theorem refl (P : Partition B) (c : Fin L.controllers) (s : State L) : P.Alike c s s where
  registers _ := rfl
  links _ _ := rfl
  masks _ _ := rfl
  scripts _ _ := rfl
  unmasked _ _ := rfl
  handler _ _ := rfl

theorem symm (alike : P.Alike c s t) : P.Alike c t s where
  registers r := (alike.registers r).symm
  links link inside := (alike.links link inside).symm
  masks callback own := (alike.masks callback own).symm
  scripts client own := (alike.scripts client own).symm
  unmasked irq serves := (alike.unmasked irq serves).symm
  handler irq serves := (alike.handler irq serves).symm

theorem trans (first : P.Alike c s t) (second : P.Alike c t u) : P.Alike c s u where
  registers r := (first.registers r).trans (second.registers r)
  links link inside := (first.links link inside).trans (second.links link inside)
  masks callback own := (first.masks callback own).trans (second.masks callback own)
  scripts client own := (first.scripts client own).trans (second.scripts client own)
  unmasked irq serves := (first.unmasked irq serves).trans (second.unmasked irq serves)
  handler irq serves := (first.handler irq serves).trans (second.handler irq serves)

theorem closed (alike : P.Alike c s t) (closed : P.Closed c s) : P.Closed c t where
  links := alike.links.closedOn closed.links
  scripts client own := alike.scripts client own ▸ closed.scripts client own
  handler irq serves := alike.handler irq serves ▸ closed.handler irq serves

theorem walk (alike : P.Alike c s t) (closed : P.Closed c s) :
    s.links.walk (Board.ownRegistry c) = t.links.walk (Board.ownRegistry c) :=
  SameOn.walk alike.links closed.links rfl

theorem isSet (alike : P.Alike c s t) (r : Register) (p : Pin) :
    (B.controllers c).block.isSet s.memory r p = (B.controllers c).block.isSet t.memory r p := by
  rw [Block.isSet, Block.isSet, alike.registers r]

end Alike

/-- Of two states that have the same in a domain, each goes on to another state: the new ones
have the same in the domain again, and in the other domains nothing is changed. -/
structure Carried (P : Partition B) (c : Fin L.controllers) (s s' t' : State L) : Prop where
  alike : P.Alike c s' t'
  closed : P.Closed c s'
  others : ∀ d, c ≠ d → P.Alike d s s'

namespace Carried

variable {s' t' s'' t'' : State L}

theorem refl (alike : P.Alike c s t) (closed : P.Closed c s) : P.Carried c s s t where
  alike := alike
  closed := closed
  others d _ := Alike.refl P d s

theorem trans (first : P.Carried c s s' t') (second : P.Carried c s' s'' t'') :
    P.Carried c s s'' t'' where
  alike := second.alike
  closed := second.closed
  others d different := (first.others d different).trans (second.others d different)

theorem of_memory (alike : P.Alike c s t) (closed : P.Closed c s) {m n : Memory L.words}
    (registers : ∀ r, (B.controllers c).block.read m r = (B.controllers c).block.read n r)
    (others : ∀ i, (∀ r, (B.controllers c).block.word r ≠ i) → s.memory.load i = m.load i) :
    P.Carried c s { s with memory := m } { t with memory := n } where
  alike := { alike with registers := registers }
  closed := { closed with }
  others d different :=
    { Alike.refl P d s with
      registers := fun r' => others _ fun r => P.blocks different r r' }

theorem of_links (alike : P.Alike c s t) (closed : P.Closed c s)
    {stores : List (LinkStore L.lists L.callbacks)}
    (within : ∀ store ∈ stores, store.Within (P.region c)) :
    P.Carried c s { s with links := s.links.applyAll stores }
      { t with links := t.links.applyAll stores } where
  alike := { alike with links := alike.links.applyAll stores }
  closed := { closed with links := closed.links.applyAll within }
  others d different :=
    { Alike.refl P d s with
      links := fun _ inside =>
        (read_applyAll_of_within within (P.region_apart different.symm inside)).symm }

theorem of_mask (alike : P.Alike c s t) (closed : P.Closed c s) {callback : Fin L.callbacks}
    (own : P.ofCallback callback = c) (mask : Word) :
    P.Carried c s (s.setMask callback mask) (t.setMask callback mask) where
  alike :=
    { alike with
      masks := fun other its => by
        rw [State.mask_setMask, State.mask_setMask, alike.masks other its] }
  closed := { closed with }
  others d different :=
    { Alike.refl P d s with
      masks := fun other its => by
        rw [State.mask_setMask, if_neg]
        rintro rfl
        exact different (own.symm.trans its) }

theorem of_script (alike : P.Alike c s t) (closed : P.Closed c s) {client : Fin L.clients}
    (own : P.ofClient client = c) {script : Script L}
    (within : ∀ entry ∈ script, ∀ command ∈ entry, P.Within c command) :
    P.Carried c s (s.setScript client script) (t.setScript client script) where
  alike :=
    { alike with
      scripts := fun other its => by
        rw [State.script_setScript, State.script_setScript, alike.scripts other its] }
  closed :=
    { closed with
      scripts := fun other its => by
        rw [State.script_setScript]
        split
        · exact within
        · exact closed.scripts other its }
  others d different :=
    { Alike.refl P d s with
      scripts := fun other its => by
        rw [State.script_setScript, if_neg]
        rintro rfl
        exact different (own.symm.trans its) }

theorem of_unmasked (alike : P.Alike c s t) (closed : P.Closed c s) {irq : Irq}
    (serves : (B.controllers c).Serves irq) {i j : InterruptController L.controllers}
    {value : Bool}
    (first : ∀ other, i.unmasked other =
      if other = irq then value else s.interrupts.unmasked other)
    (second : ∀ other, j.unmasked other =
      if other = irq then value else t.interrupts.unmasked other)
    (handler : i.handler = s.interrupts.handler) (handler' : j.handler = t.interrupts.handler) :
    P.Carried c s { s with interrupts := i } { t with interrupts := j } where
  alike :=
    { alike with
      unmasked := fun other its => by rw [first, second, alike.unmasked other its]
      handler := fun other its => by rw [handler, handler', alike.handler other its] }
  closed := { closed with handler := handler ▸ closed.handler }
  others d different :=
    { Alike.refl P d s with
      unmasked := fun other its => by
        rw [first, if_neg]
        rintro rfl
        exact P.not_serves different serves its
      handler := fun other _ => by rw [handler] }

theorem of_install (alike : P.Alike c s t) (closed : P.Closed c s) {irq : Irq}
    (serves : (B.controllers c).Serves irq) :
    P.Carried c s { s with interrupts := s.interrupts.install irq c }
      { t with interrupts := t.interrupts.install irq c } where
  alike :=
    { alike with
      handler := fun other its => by
        rw [InterruptController.handler_install, InterruptController.handler_install,
          alike.handler other its] }
  closed :=
    { closed with
      handler := fun other its d installed => by
        rw [InterruptController.handler_install] at installed
        split at installed
        · exact (Option.some.inj installed).symm
        · exact closed.handler other its d installed }
  others d different :=
    { Alike.refl P d s with
      handler := fun other its => by
        rw [InterruptController.handler_install, if_neg]
        rintro rfl
        exact P.not_serves different serves its }

/-- Which interrupt is pending belongs to no domain. -/
theorem of_pending (alike : P.Alike c s t) (closed : P.Closed c s) (irq : Irq) :
    P.Carried c s { s with interrupts := { s.interrupts with pending := irq } }
      { t with interrupts := { t.interrupts with pending := irq } } where
  alike := { alike with }
  closed := { closed with }
  others d _ := { Alike.refl P d s with }

end Carried

/-! ## Operations -/

theorem carried_act (alike : P.Alike c s t) (closed : P.Closed c s) {action : Action}
    (own : ∀ irq ∈ action.irq?, (B.controllers c).Serves irq) :
    P.Carried c s (B.act c s action) (B.act c t action) := by
  cases action with
  | write w =>
      refine .of_memory alike closed (fun r => ?_) (fun i outside => ?_)
      · rw [Block.read_write, Block.read_write, alike.registers r]
      · rw [Block.load_write, if_neg fun both => outside _ both.2]
  | mask irq =>
      exact .of_unmasked alike closed (own irq rfl) (InterruptController.unmasked_mask _ irq)
        (InterruptController.unmasked_mask _ irq) rfl rfl
  | unmask irq =>
      exact .of_unmasked alike closed (own irq rfl) (InterruptController.unmasked_unmask _ irq)
        (InterruptController.unmasked_unmask _ irq) rfl rfl
  | install irq => exact .of_install alike closed (own irq rfl)
  | log entry => exact .refl alike closed

theorem carried_actAll (alike : P.Alike c s t) (closed : P.Closed c s) {actions : List Action}
    (own : ∀ action ∈ actions, ∀ irq ∈ action.irq?, (B.controllers c).Serves irq) :
    P.Carried c s (B.actAll c s actions) (B.actAll c t actions) := by
  induction actions generalizing s t with
  | nil => exact .refl alike closed
  | cons action rest ih =>
      obtain ⟨first, own⟩ := List.forall_mem_cons.mp own
      have carried := carried_act alike closed first
      exact carried.trans (ih carried.alike carried.closed own)

theorem carried_demand (alike : P.Alike c s t) (closed : P.Closed c s) (demand : Demand) :
    (B.operate s (demand.operation c)).seen = (B.operate t (demand.operation c)).seen ∧
      P.Carried c s (B.operate s (demand.operation c)).state
        (B.operate t (demand.operation c)).state := by
  have same : (B.controllers c).respondTo s.memory demand =
      (B.controllers c).respondTo t.memory demand :=
    Controller.respondTo_congr fun _ _ p _ r => alike.isSet r p
  rw [Board.operate_demand, Board.operate_demand, same, Board.state_carryOut,
    Board.state_carryOut]
  refine ⟨B.seen_carryOut c s t _, carried_actAll alike closed fun action mem irq about => ?_⟩
  obtain ⟨response, grants, mem⟩ := Controller.exists_grants_of_mem_actionsOf mem
  exact grants.serves mem about

/-- An operation within a domain looks the same where the domain is the same, leaves the domain
the same, and changes nothing in the others. -/
theorem carried_operate (alike : P.Alike c s t) (closed : P.Closed c s)
    {operation : Operation L} (within : P.Within c (.operation operation)) :
    (B.operate s operation).seen = (B.operate t operation).seen ∧
      P.Carried c s (B.operate s operation).state (B.operate t operation).state := by
  cases within with
  | request request => exact carried_demand alike closed (.plain request)
  | access request => exact carried_demand alike closed (.coded request)
  | edit own =>
      obtain ⟨stores, first, second, within⟩ :=
        SameOn.exists_stores_edit alike.links closed.links B.clientOf
          (r := Board.ownRegistry c) rfl own
      simp only [Board.operate, first, second]
      exact ⟨rfl, .of_links alike closed within⟩
  | query query =>
      refine ⟨?_, .refl alike closed⟩
      have walk := alike.walk closed
      have first := alike.links (.head (Board.ownRegistry c)) rfl
      cases query <;>
        simp only [Board.operate, Effect.seen, Registry.ask, Registry.length, Registry.contains,
          Registry.isEmpty, Links.first?, walk, first]
  | pinMask own =>
      refine ⟨?_, .refl alike closed⟩
      simp only [Board.operate, Effect.seen, alike.masks _ own]
  | context own => exact ⟨rfl, .refl alike closed⟩
  | setPinMask own mask => exact ⟨rfl, .of_mask alike closed own mask⟩
  | peek r =>
      refine ⟨?_, .refl alike closed⟩
      have same := alike.registers r
      simp only [Block.read] at same
      simp only [Board.operate, Effect.seen, same]
  | poke r value =>
      refine ⟨rfl, .of_memory alike closed (fun r' => ?_) fun i outside => ?_⟩
      · have same := alike.registers r'
        simp only [Block.read] at same
        simp only [Block.read, Memory.load_store, same]
      · rw [Memory.load_store, if_neg (outside r)]

end Partition

end Gpio
