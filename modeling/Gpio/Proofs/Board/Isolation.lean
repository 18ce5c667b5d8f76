import Gpio.Proofs.Board.Domain
import Gpio.Proofs.Board.Purge

/-!
# Controllers do not interfere

Commands within the domain of a controller, with all that clients do from inside the calls that
they lead to, stay within that domain (`Partition.carried_exec`). So in a run in which several
controllers take turns, every one of them does what it would do if it were alone
(`Partition.controllers_are_independent`). The bounds on a dispatch and on nested calls depend
on the whole board, and differ between the two runs that are compared. They do not matter in
runs that come to an end.
-/

namespace Gpio

variable {L : Layout}

namespace Partition

open Board

variable {B : Board L} {P : Partition B} {c : Fin L.controllers} {s t s' t' : State L}

/-- Under two behaviours the clients of a controller do the same when they are called where its
domain is the same, and stay within it. -/
def Mirrored (P : Partition B) (c : Fin L.controllers) (clients clients' : Clients L) : Prop :=
  ∀ ⦃call s t s' t' within within'⦄, P.ofClient call.client = c → P.Alike c s t →
    P.Closed c s → clients call s = some (s', within) → clients' call t = some (t', within') →
    within = within' ∧ P.Carried c s s' t'

namespace Mirrored

variable {clients clients' : Clients L}

theorem dispatches (mirrored : P.Mirrored c clients clients') {pins : Word}
    {link : Link L.lists L.callbacks} {firings firings' : List (Firing L)}
    (alike : P.Alike c s t) (closed : P.Closed c s) (inside : P.region c link)
    (first : B.Dispatches clients pins link s s' firings)
    (second : B.Dispatches clients' pins link t t' firings') :
    firings = firings' ∧ P.Carried c s s' t' := by
  -- Where the first dispatch takes a turn, the other finds the same callback, which listens to
  -- the same pins, so it takes the same turn.
  induction first generalizing t firings' with
  | @stop link s empty =>
      have same := alike.links link inside
      cases second with
      | stop _ => exact ⟨rfl, .refl alike closed⟩
      | pass found _ _ => exact nomatch empty.symm.trans (same.trans found)
      | call found _ _ _ => exact nomatch empty.symm.trans (same.trans found)
  | @pass link s s' callback firings found deaf rest ih =>
      have same := alike.links link inside
      have own := closed.links link callback inside found
      have masks := alike.masks callback own
      cases second with
      | stop empty => exact nomatch found.symm.trans (same.trans empty)
      | pass found' _ rest' =>
          obtain rfl := Option.some.inj (found.symm.trans (same.trans found'))
          exact ih alike closed own rest'
      | call found' listens _ _ =>
          obtain rfl := Option.some.inj (found.symm.trans (same.trans found'))
          exact absurd (masks ▸ deaf) listens
  | @call link s middle s' callback within firings found listens called rest ih =>
      have same := alike.links link inside
      have own := closed.links link callback inside found
      have masks := alike.masks callback own
      cases second with
      | stop empty => exact nomatch found.symm.trans (same.trans empty)
      | pass found' deaf _ =>
          obtain rfl := Option.some.inj (found.symm.trans (same.trans found'))
          exact absurd (masks ▸ deaf) listens
      | call found' _ called' rest' =>
          obtain rfl := Option.some.inj (found.symm.trans (same.trans found'))
          rw [← masks] at called'
          have client : P.ofClient (B.callOf callback (s.mask callback &&& pins)).client = c := own
          obtain ⟨events, before⟩ := mirrored client alike closed called called'
          obtain ⟨calls, after⟩ := ih before.alike before.closed own rest'
          refine ⟨?_, before.trans after⟩
          rw [masks, events, calls]

/-- A dispatch to the registry of the controller. -/
theorem dispatch (mirrored : P.Mirrored c clients clients') {pins : Word}
    {firings firings' : List (Firing L)} (alike : P.Alike c s t) (closed : P.Closed c s)
    (first : B.dispatch clients (ownRegistry c) pins s = some (s', firings))
    (second : B.dispatch clients' (ownRegistry c) pins t = some (t', firings')) :
    firings = firings' ∧ P.Carried c s s' t' := by
  have inside : P.region c (.head (ownRegistry c)) := rfl
  exact mirrored.dispatches alike closed inside (dispatches_of_dispatchFrom first)
    (dispatches_of_dispatchFrom second)

/-- The service of an interrupt of the controller. -/
theorem service (mirrored : P.Mirrored c clients clients') {events events' : List (Event L)}
    (alike : P.Alike c s t) (closed : P.Closed c s)
    (pending : s.interrupts.pending = t.interrupts.pending)
    (first : B.service clients c s = some (s', events))
    (second : B.service clients' c t = some (t', events')) :
    events = events' ∧ P.Carried c s s' t' := by
  have same := congrArg (B.controllers c).pin? pending
  rcases service_cases first with
      ⟨missing, rfl, rfl⟩ | ⟨p, u, firings, own, dispatched, rfl, rfl⟩ <;>
    rcases service_cases second with
      ⟨missing', rfl, rfl⟩ | ⟨p', v, firings', own', dispatched', rfl, rfl⟩
  · exact ⟨by rw [pending], .refl alike closed⟩
  · exact nomatch missing.symm.trans (same.trans own')
  · exact nomatch own.symm.trans (same.trans missing')
  · obtain rfl := Option.some.inj (own.symm.trans (same.trans own'))
    obtain ⟨calls, before⟩ := mirrored.dispatch alike closed dispatched dispatched'
    have closing : (B.controllers c).acknowledge u.memory p =
        (B.controllers c).acknowledge v.memory p :=
      Controller.acknowledge_congr fun r => before.alike.isSet r p
    rw [closing, calls, pending]
    refine ⟨rfl, before.trans (carried_act before.alike before.closed ?_)⟩
    simp [Controller.irq?_acknowledge]

theorem execWith (mirrored : P.Mirrored c clients clients') {command : Command L}
    {effect effect' : Effect L} (within : P.Within c command) (alike : P.Alike c s t)
    (closed : P.Closed c s) (first : B.execWith clients s command = some effect)
    (second : B.execWith clients' t command = some effect') :
    effect.seen = effect'.seen ∧ P.Carried c s effect.state effect'.state := by
  cases command with
  | operation operation =>
      obtain rfl := Option.some.inj first
      obtain rfl := Option.some.inj second
      exact carried_operate alike closed within
  | dispatch r pins =>
      cases within with
      | dispatch pins =>
          obtain ⟨⟨u, firings⟩, dispatched, result⟩ := Option.bind_eq_some_iff.mp first
          obtain ⟨⟨v, firings'⟩, dispatched', result'⟩ := Option.bind_eq_some_iff.mp second
          obtain rfl := Option.some.inj result
          obtain rfl := Option.some.inj result'
          obtain ⟨rfl, carried⟩ := mirrored.dispatch alike closed dispatched dispatched'
          exact ⟨rfl, carried⟩
  | service d => exact nomatch within
  | raise irq =>
      cases within with
      | raise serves =>
          have receiver : s.interrupts.receiver? irq = t.interrupts.receiver? irq := by
            rw [InterruptController.receiver?, InterruptController.receiver?,
              alike.unmasked irq serves, alike.handler irq serves]
          rw [Board.execWith, receiver] at first
          rw [Board.execWith] at second
          cases received : t.interrupts.receiver? irq with
          | none =>
              simp only [received] at first second
              obtain rfl := Option.some.inj first
              obtain rfl := Option.some.inj second
              exact ⟨rfl, .refl alike closed⟩
          | some d =>
              have handled := (InterruptController.receiver?_eq_some_iff.mp
                (receiver.trans received)).2
              obtain rfl := closed.handler irq serves d handled
              simp only [received] at first second
              obtain ⟨⟨u, events⟩, served, result⟩ := Option.bind_eq_some_iff.mp first
              obtain ⟨⟨v, events'⟩, served', result'⟩ := Option.bind_eq_some_iff.mp second
              obtain rfl := Option.some.inj result
              obtain rfl := Option.some.inj result'
              have raised := Carried.of_pending alike closed irq
              obtain ⟨rfl, carried⟩ :=
                mirrored.service raised.alike raised.closed rfl served served'
              exact ⟨rfl, raised.trans carried⟩

theorem runEntry (mirrored : P.Mirrored c clients clients') {entry : List (Command L)}
    {events events' : List (Event L)} (within : ∀ command ∈ entry, P.Within c command)
    (alike : P.Alike c s t) (closed : P.Closed c s)
    (first : Board.runEntry (B.execWith clients) entry s = some (s', events))
    (second : Board.runEntry (B.execWith clients') entry t = some (t', events')) :
    events = events' ∧ P.Carried c s s' t' := by
  induction entry generalizing s t events events' with
  | nil =>
      obtain ⟨rfl, rfl⟩ := Prod.mk.inj (Option.some.inj first)
      obtain ⟨rfl, rfl⟩ := Prod.mk.inj (Option.some.inj second)
      exact ⟨rfl, .refl alike closed⟩
  | cons command rest ih =>
      obtain ⟨inside, within⟩ := List.forall_mem_cons.mp within
      obtain ⟨effect, more, executed, later, rfl⟩ := runEntry_cons first
      obtain ⟨effect', more', executed', later', rfl⟩ := runEntry_cons second
      obtain ⟨seen, before⟩ := mirrored.execWith inside alike closed executed executed'
      obtain ⟨rfl, after⟩ := ih within before.alike before.closed later later'
      obtain ⟨events, reply⟩ := Prod.mk.inj seen
      refine ⟨?_, before.trans after⟩
      rw [events, reply]

end Mirrored

/-- Where a script has come to its end, it has in the other run too. -/
theorem idle_mirrored {depth : Nat} {call : Call L} {within : List (Event L)}
    (own : P.ofClient call.client = c) (alike : P.Alike c s t) (closed : P.Closed c s)
    (idle : s.takeNext? call.client = none)
    (second : B.clientsAt depth call t = some (t', within)) :
    [] = within ∧ P.Carried c s s t' := by
  have script := State.takeNext?_eq_none_iff.mp idle
  have idle' := State.takeNext?_eq_none_iff.mpr ((alike.scripts call.client own).symm.trans script)
  rcases clientsAt_cases second with ⟨_, rfl, rfl⟩ | ⟨_, _, _, takes, _⟩
  · exact ⟨rfl, .refl alike closed⟩
  · exact nomatch idle'.symm.trans takes

/-- Scripted clients are mirrored, whatever the bounds on nested calls are. -/
theorem mirrored_clientsAt (P : Partition B) (c : Fin L.controllers) (depth depth' : Nat) :
    P.Mirrored c (B.clientsAt depth) (B.clientsAt depth') := by
  -- The bound of the first run is the one that goes down. In the second run a call with commands
  -- in it has some bound too, whichever it is.
  induction depth generalizing depth' with
  | zero =>
      intro call s t s' t' within within' own alike closed first second
      rcases clientsAt_cases first with ⟨idle, rfl, rfl⟩ | ⟨_, _, _, _, positive, _⟩
      · exact idle_mirrored own alike closed idle second
      · exact nomatch positive
  | succ depth ih =>
      intro call s t s' t' within within' own alike closed first second
      rcases clientsAt_cases first with ⟨idle, rfl, rfl⟩ | ⟨entry, u, less, takes, equal, runs⟩
      · exact idle_mirrored own alike closed idle second
      · obtain rfl := Nat.succ.inj equal
        obtain ⟨rest, taken, rfl⟩ := State.takeNext?_eq_some_iff.mp takes
        have taken' := (alike.scripts call.client own).symm.trans taken
        have takes' := State.takeNext?_eq_some_iff.mpr ⟨rest, taken', rfl⟩
        rcases clientsAt_cases second with ⟨idle, _⟩ | ⟨_, _, less', takes'', _, runs'⟩
        · exact nomatch takes'.symm.trans idle
        · obtain ⟨rfl, rfl⟩ := Prod.mk.inj (Option.some.inj (takes'.symm.trans takes''))
          have all := closed.scripts call.client own
          rw [taken] at all
          obtain ⟨inside, others⟩ := List.forall_mem_cons.mp all
          have used := Carried.of_script alike closed own others
          obtain ⟨events, carried⟩ :=
            (ih less').runEntry inside used.alike used.closed runs runs'
          exact ⟨events, used.trans carried⟩

/-! ## Runs in which controllers take turns -/

/-- A command, with the controller within whose domain it is. -/
structure Turn (P : Partition B) where
  controller : Fin L.controllers
  command : Command L
  within : P.Within controller command

/-- Whether it is the turn of a controller. -/
def Turn.isOf (c : Fin L.controllers) (turn : P.Turn) : Bool := turn.controller = c

/-- All domains are closed in the first state, and one of them is the same in the second. -/
structure InDomains (P : Partition B) (c : Fin L.controllers) (s t : State L) : Prop where
  alike : P.Alike c s t
  closed : ∀ d, P.Closed d s

theorem carried_exec {command : Command L} {effect effect' : Effect L}
    (within : P.Within c command) (alike : P.Alike c s t) (closed : P.Closed c s)
    (first : B.exec s command = some effect) (second : B.exec t command = some effect') :
    effect.seen = effect'.seen ∧ P.Carried c s effect.state effect'.state :=
  (P.mirrored_clientsAt c s.entriesLeft t.entriesLeft).execWith within alike closed first second

/-- The domains stay closed. -/
theorem Carried.closed_all (carried : P.Carried c s s' t') (closed : ∀ d, P.Closed d s)
    (d : Fin L.controllers) : P.Closed d s' := by
  by_cases same : c = d
  · exact same ▸ carried.closed
  · exact (carried.others d same).closed (closed d)

theorem unwinds_turns (P : Partition B) (c : Fin L.controllers) :
    B.Unwinds (Turn.command : P.Turn → Command L) (Turn.isOf c) (P.InDomains c) where
  same := by
    intro turn s t first second own related executed repeated
    obtain ⟨d, command, within⟩ := turn
    obtain rfl : d = c := of_decide_eq_true own
    obtain ⟨seen, carried⟩ :=
      carried_exec within related.alike (related.closed d) executed repeated
    exact ⟨seen, carried.alike, carried.closed_all related.closed⟩
  other := by
    intro turn s t effect other related executed
    obtain ⟨d, command, within⟩ := turn
    have different : d ≠ c := fun same => other (decide_eq_true same)
    -- The step is compared with itself: what matters is what it leaves alone.
    obtain ⟨_, carried⟩ :=
      carried_exec within (Alike.refl P d s) (related.closed d) executed executed
    exact ⟨(carried.others c different).symm.trans related.alike,
      carried.closed_all related.closed⟩

theorem closed_start (P : Partition B) {memory : Memory L.words} {masks : Vector Word L.callbacks}
    {scripts : Vector (Script L) L.clients}
    (own : ∀ client, ∀ entry ∈ (State.start memory masks scripts).script client,
      ∀ command ∈ entry, P.Within (P.ofClient client) command) (c : Fin L.controllers) :
    P.Closed c (.start memory masks scripts) where
  links link _ _ found := nomatch (Links.read_empty link).symm.trans found
  scripts client its entry mem command inside := its ▸ own client entry mem command inside
  handler _ _ _ handled := nomatch handled

/-- Controllers whose blocks and interrupt ids are apart take turns, each with clients whose
scripts stay within its domain. Whatever the others do, each gets what it would get if it were
alone, and what is seen of its turns is the same. In the end it has the same block, registry
with its callbacks, masks of the callbacks, and masks and handlers of its interrupt ids. -/
theorem controllers_are_independent (P : Partition B) (memory : Memory L.words)
    (masks : Vector Word L.callbacks) {scripts : Vector (Script L) L.clients}
    (own : ∀ client, ∀ entry ∈ (State.start memory masks scripts).script client,
      ∀ command ∈ entry, P.Within (P.ofClient client) command)
    (turns : List P.Turn) (c : Fin L.controllers) :
    ∃ effects alone,
      B.execAll (.start memory masks scripts) (turns.map Turn.command) = some effects ∧
      B.execAll (.start memory masks scripts) ((turns.filter (Turn.isOf c)).map Turn.command) =
        some alone ∧
      seenOf (Turn.isOf c) turns effects = alone.map Effect.seen ∧
      P.Alike c (lastState (.start memory masks scripts) effects)
        (lastState (.start memory masks scripts) alone) ∧
      (lastState (.start memory masks scripts) effects).links.walk (ownRegistry c) =
        (lastState (.start memory masks scripts) alone).links.walk (ownRegistry c) := by
  have grounded : (State.start memory masks scripts).links.Grounded := Links.grounded_empty _ _
  obtain ⟨effects, all⟩ := B.exists_execAll grounded (turns.map Turn.command)
  obtain ⟨alone, purged⟩ :=
    B.exists_execAll grounded ((turns.filter (Turn.isOf c)).map Turn.command)
  have start : P.InDomains c (.start memory masks scripts) (.start memory masks scripts) :=
    ⟨Alike.refl P c _, P.closed_start own⟩
  obtain ⟨seen, related⟩ := (P.unwinds_turns c).execAll start all purged
  exact ⟨effects, alone, all, purged, seen, related.alike,
    related.alike.walk (related.closed c)⟩

/-! ## Two controllers that take turns -/

/-- Two controllers, each with a client and its callback. -/
abbrev apartLayout : Layout where
  words := 34
  controllers := 2
  maps := 0
  registries := 0
  clients := 2
  callbacks := 2

/-- The block and the interrupt ids of the second controller come after those of the first. -/
def apartBoard : Board apartLayout where
  controllers := fun c =>
    ⟨⟨17 * c.val, Nat.mul_le_mul_left 17 c.isLt⟩, UInt32.ofNat (32 * c.val)⟩
  maps := nofun
  callbacks := fun callback => ⟨callback, 0⟩

theorem irqBase_apartBoard (c : Fin 2) : (apartBoard.controllers c).irqBase.toNat = 32 * c.val := by
  revert c
  decide

def apartPartition : Partition apartBoard where
  ofClient := id
  blocks := by
    intro c d different r r' same
    have sum : 17 * c.val + r.index = 17 * d.val + r'.index := Fin.val_eq_of_eq same
    have first : r.index.val < 17 := r.index.isLt
    have second : r'.index.val < 17 := r'.index.isLt
    exact different (Fin.ext (by omega))
  ids := by
    intro c d different p p' same
    rw [irqBase_apartBoard, irqBase_apartBoard] at same
    have first : p.val < 32 := p.isLt
    have second : p'.val < 32 := p'.isLt
    exact different (Fin.ext (by omega))

/-- The interrupt id of a pin. -/
def apartIrq (c : Fin 2) (p : Pin) : Irq := UInt32.ofNat (32 * c.val + p.val)

theorem serves_apartIrq (c : Fin 2) (p : Pin) :
    (apartBoard.controllers c).Serves (apartIrq c p) := by
  have small : 32 * c.val + p.val < UInt32.size := by
    have pins : p.val < 32 := p.isLt
    have size : 64 < UInt32.size := by decide
    omega
  exact ⟨p, by rw [apartIrq, UInt32.toNat_ofNat_of_lt' small, irqBase_apartBoard]⟩

/-- When it is called, the client of a controller drives a pin and raises its interrupt. -/
def apartScript (c : Fin 2) (p : Pin) : Script apartLayout :=
  [[.operation (.request c (.write (UInt32.ofNat p.val) true)), .raise (apartIrq c p)]]

theorem within_apartScript (c : Fin 2) (p : Pin) :
    ∀ entry ∈ apartScript c p, ∀ command ∈ entry, apartPartition.Within c command := by
  simp only [apartScript, List.forall_mem_cons]
  exact ⟨⟨.request _, .raise (serves_apartIrq c p), nofun⟩, nofun⟩

/-- A controller is initialized and its callback is registered, and the interrupt of a pin is
enabled and raised. -/
def apartTurns (c : Fin 2) (p : Pin) : List apartPartition.Turn :=
  [⟨c, .operation (.request c .bringUp), .request _⟩,
    ⟨c, .operation (.edit (ownRegistry c) (.register c)),
      .edit fun _ registered => Option.some.inj registered ▸ rfl⟩,
    ⟨c, .operation (.request c (.enableInterrupt (UInt32.ofNat p.val))), .request _⟩,
    ⟨c, .raise (apartIrq c p), .raise (serves_apartIrq c p)⟩]

/-- The turns of both controllers, one after the other. -/
def apartRun (c d : Fin 2) (p : Pin) : List apartPartition.Turn :=
  (List.zipWith (fun turn other => [turn, other]) (apartTurns c p) (apartTurns d p)).flatten

/-- The callbacks listen to pin 3. -/
def apartStart (c d : Fin 2) (p : Pin) : State apartLayout :=
  .start (.filled 34 0) #v[8, 8] #v[apartScript c p, apartScript d p]

/-- Both interrupts are delivered, and what is seen of the second controller is what it gets
when it is alone. -/
theorem controllers_are_independent_apartRun :
    (∀ client, ∀ entry ∈ (apartStart 0 1 4).script client, ∀ command ∈ entry,
      apartPartition.Within client command) ∧
    ∃ effects alone,
      apartBoard.execAll (apartStart 0 1 4) ((apartRun 0 1 3).map Turn.command) =
          some effects ∧
        apartBoard.execAll (apartStart 0 1 4) ((apartTurns 1 3).map Turn.command) = some alone ∧
        effects.map Effect.reply =
          [.answer .done, .answer .done, .answer .done, .answer .done, .answer .done,
            .answer .done, .answer (.flag true), .answer (.flag true)] ∧
        seenOf (Turn.isOf 1) (apartRun 0 1 3) effects = alone.map Effect.seen := by
  have own : ∀ client, ∀ entry ∈ (apartStart 0 1 4).script client, ∀ command ∈ entry,
      apartPartition.Within client command :=
    Fin.forall_fin_two.mpr ⟨within_apartScript 0 4, within_apartScript 1 4⟩
  obtain ⟨effects, alone, all, purged, seen, _⟩ :=
    apartPartition.controllers_are_independent (.filled 34 0) #v[8, 8] own (apartRun 0 1 3) 1
  have replies := congrArg (Option.map (List.map Effect.reply)) all
  exact ⟨own, effects, alone, all, purged,
    Option.some.inj (replies.symm.trans (by decide +kernel)), seen⟩

end Partition

end Gpio
