import Gpio.Proofs.Board.Budget
import Gpio.Proofs.Board.Interrupts
import Mathlib.Algebra.Group.Nat.Defs

/-!
# The service of an interrupt

A controller finds the pin of the pending interrupt, dispatches it to its registry, and
acknowledges it. In between the clients may do anything: they may write memory, configure the pin
in another way, and let other interrupts become pending and be serviced. The pin is the one that
was found at first, and it is acknowledged by the memory that the clients have left
(`Controller.Concludes`): in the first of the registers of rising edges, falling edges, high levels
and low levels that has it latched there, if any has. The pin's mask is all that is stored, so
where a register clears the bits that are stored to it as ones, no other pin's interrupt is lost
(`Controller.Concludes.bit_afterClearing`).
-/

namespace Gpio

theorem Pin.toNat_mask (p : Pin) : p.mask.toNat = 2 ^ p.val :=
  BitVec.toNat_twoPow_of_lt p.isLt

/-- What an action leaves in a register that clears the bits that are stored to it as ones. -/
def Block.afterClearing {words : Nat} (b : Block words) (m : Memory words) (r : Register)
    (action : Action) : Word :=
  match action with
  | .write w =>
      if w.register = r then b.read m r &&& ~~~w.result (b.read m r) else b.read m r
  | _ => b.read m r

namespace Controller

variable {words : Nat} {c : Controller words} {m n : Memory words} {p : Pin} {closing : Action}

/-- What ends the service of a pin's interrupt, and the memory that it leaves. Of the four registers
that latch interrupts, the first one in which the bit of the pin is set gets the mask of the pin.
If there is none, a warning is all. -/
inductive Concludes (c : Controller words) (m : Memory words) (p : Pin) :
    Action → Memory words → Prop where
  | acknowledge {earlier later : List Register} {r : Register}
      (order : [.risePending, .fallPending, .highPending, .lowPending] = earlier ++ r :: later)
      (latched : (m.load (c.block.word r)).getLsbD p.val = true)
      (first : ∀ other ∈ earlier, (m.load (c.block.word other)).getLsbD p.val = false) :
      Concludes c m p (.write (.acknowledge r p)) (m.store (c.block.word r) p.mask)
  | nothing
      (free : ∀ r ∈ [.risePending, .fallPending, .highPending, .lowPending],
        (m.load (c.block.word r)).getLsbD p.val = false) :
      Concludes c m p (.log (.nothingPending p)) m

/-- Of all bits that latch interrupts at most one is lost, the one of the pin in the register that
is acknowledged, where it was set. -/
theorem Concludes.bit_afterClearing (concludes : c.Concludes m p closing n) (r : Register)
    (q : Pin) :
    (c.block.afterClearing m r closing).bit q =
      (c.block.isSet m r q && !decide (closing = .write (.acknowledge r p) ∧ p = q)) := by
  cases concludes with
  | nothing _ => simp [Block.afterClearing, Block.isSet]
  | @acknowledge _ _ acknowledged _ _ _ =>
      by_cases same : acknowledged = r
      · subst same
        simp [Block.afterClearing, RegisterWrite.register, RegisterWrite.result, Block.isSet]
      · simp [Block.afterClearing, RegisterWrite.register, Block.isSet, same]

end Controller

variable {L : Layout}

namespace Board

variable {B : Board L} {c : Fin L.controllers} {s : State L} {p : Pin}

/-- The acknowledgement changes memory at most, as the end of the service says. -/
theorem exists_concludes (B : Board L) (c : Fin L.controllers) (t : State L) (p : Pin) :
    ∃ memory,
      (B.controllers c).Concludes t.memory p ((B.controllers c).acknowledge t.memory p) memory ∧
      B.act c t ((B.controllers c).acknowledge t.memory p) = { t with memory := memory } := by
  rw [Controller.acknowledge]
  cases latched : (B.controllers c).latched? t.memory p with
  | none =>
      refine ⟨t.memory, .nothing fun r mem => ?_, rfl⟩
      exact Bool.eq_false_iff.mpr (List.find?_eq_none.mp latched r mem)
  | some r =>
      obtain ⟨set, earlier, later, order, first⟩ := List.find?_eq_some_iff_append.mp latched
      have writable : r.isWritable :=
        Register.isWritable_of_mem_pending (List.mem_of_find?_eq_some latched)
      have unset := fun other mem => (Bool.not_eq_true' _).mp (first other mem)
      refine ⟨_, .acknowledge order set unset, ?_⟩
      simp only [act, Block.write, RegisterWrite.register, writable, if_true,
        RegisterWrite.result]

/-- The service of an interrupt of another controller. -/
theorem service_of_foreign (missing : (B.controllers c).pin? s.interrupts.pending = none)
    (clients : Clients L) :
    B.service clients c s = some (s, [.acted c (.log (.foreign s.interrupts.pending))]) := by
  simp only [service, missing]

/-- The service of an interrupt of a pin, by the dispatch of the pin. -/
theorem service_of_own (own : (B.controllers c).pin? s.interrupts.pending = some p)
    (clients : Clients L) :
    B.service clients c s =
      (B.dispatch clients (ownRegistry c) p.mask s).map fun (t, firings) =>
        (B.act c t ((B.controllers c).acknowledge t.memory p),
          .acted c (.log (.interrupt s.interrupts.pending p)) ::
            (firings.flatMap Firing.events ++
              [.acted c ((B.controllers c).acknowledge t.memory p)])) := by
  simp only [service, own]
  cases B.dispatch clients (ownRegistry c) p.mask s <;> rfl

/-- A controller services the interrupt that is pending, whatever its clients do. An interrupt
that is none of its own calls no client and leads to a warning only. For one of its own it logs a
trace and dispatches the mask of the pin to its registry, and when the clients are done it
acknowledges the interrupt in the memory that they left. It has found the pin before they were
called, and changes nothing but one word of memory. The dispatch to scripted clients always comes
to its end. -/
theorem service_of_pending (B : Board L) (c : Fin L.controllers) (s : State L) :
    let irq := s.interrupts.pending
    let base := (B.controllers c).irqBase
    ((irq.toNat < base.toNat ∨ 32 ≤ irq.toNat - base.toNat) →
      (LogEntry.foreign irq).level = .warn ∧
      ∀ clients, B.service clients c s = some (s, [.acted c (.log (.foreign irq))])) ∧
    ∀ p : Pin, base.toNat ≤ irq.toNat → irq.toNat - base.toNat = p.val →
      (LogEntry.interrupt irq p).level = .trace ∧ (LogEntry.nothingPending p).level = .warn ∧
      p.mask.toNat = 2 ^ p.val ∧
      (∀ clients, B.dispatch clients (ownRegistry c) p.mask s = none →
        B.service clients c s = none) ∧
      (∀ clients t firings,
        B.dispatch clients (ownRegistry c) p.mask s = some (t, firings) →
        ∃ closing memory, (B.controllers c).Concludes t.memory p closing memory ∧
          B.service clients c s =
            some ({ t with memory := memory },
              .acted c (.log (.interrupt irq p)) ::
                (firings.flatMap Firing.events ++ [.acted c closing])) ∧
          ∀ r q, ((B.controllers c).block.afterClearing t.memory r closing).bit q =
            ((B.controllers c).block.isSet t.memory r q &&
              !decide (closing = .write (.acknowledge r p) ∧ p = q))) ∧
      ∀ depth, s.links.Grounded → s.entriesLeft ≤ depth →
        ∃ t firings,
          B.dispatch (B.clientsAt depth) (ownRegistry c) p.mask s = some (t, firings) := by
  intro irq base
  constructor
  · intro outside
    refine ⟨rfl, service_of_foreign (Option.eq_none_iff_forall_ne_some.mpr fun p own => ?_)⟩
    have number : irq.toNat = base.toNat + p.val := Controller.pin?_eq_some_iff.mp own
    have inside : p.val < 32 := p.isLt
    omega
  · intro p low number
    have sum : irq.toNat = base.toNat + p.val := by omega
    have own : (B.controllers c).pin? irq = some p := Controller.pin?_eq_some_iff.mpr sum
    refine ⟨rfl, rfl, p.toNat_mask, fun clients stuck => ?_, fun clients t firings done => ?_,
      fun depth grounded few => B.exists_dispatch grounded few (ownRegistry c) p.mask⟩
    · rw [service_of_own own, stuck, Option.map_none]
    · obtain ⟨memory, concludes, state⟩ := B.exists_concludes c t p
      refine ⟨_, memory, concludes, ?_, concludes.bit_afterClearing⟩
      rw [service_of_own own, done, Option.map_some, ← state]

/-! ## A service during which another interrupt becomes pending -/

/-- A controller and a callback. -/
abbrev servedLayout : Layout where
  words := 17
  controllers := 1
  maps := 0
  registries := 0
  clients := 1
  callbacks := 1

/-- The last pin of the controller has the last of all interrupt ids. -/
def servedBoard (client : Fin 1) : Board servedLayout where
  controllers := fun _ => ⟨⟨0, by decide⟩, 4294967264⟩
  maps := nofun
  callbacks := fun _ => ⟨client, 0⟩

/-- The interrupt of the last pin is pending, and every bit of memory is set. The client of the
callback lets another interrupt become pending, and clears two words. -/
def servedState (c callback : Fin 1) (first second : Fin 17) : State servedLayout where
  memory := .filled 17 (BitVec.allOnes 32)
  links := (Links.empty 1 1).pushTail c callback
  masks := #v[BitVec.allOnes 32]
  interrupts := { pending := 4294967295 }
  scripts := #v[[[.operation (.setPending 5), .operation (.poke first 0),
    .operation (.poke second 0)]]]

/-- The client is called with the last pin, and clears the words that latch rising and falling
edges. So the interrupt is acknowledged as one of a high level. -/
theorem service_of_pending_overwritten :
    let s := servedState 0 0 7 9
    s.interrupts.pending.toNat - ((servedBoard 0).controllers 0).irqBase.toNat = 31 ∧
    ∃ t firings memory,
      (servedBoard 0).dispatch ((servedBoard 0).clientsAt 1) (ownRegistry 0) (Pin.mask 31) s =
        some (t, firings) ∧
      t.interrupts.pending = 5 ∧
      firings.map (fun firing => firing.call.pins) = [Pin.mask 31] ∧
      ((servedBoard 0).controllers 0).Concludes t.memory 31
        (.write (.acknowledge .highPending 31)) memory ∧
      (servedBoard 0).service ((servedBoard 0).clientsAt 1) 0 s =
        some ({ t with memory := memory },
          .acted 0 (.log (.interrupt 4294967295 31)) ::
            (firings.flatMap Firing.events ++
              [.acted 0 (.write (.acknowledge .highPending 31))])) := by
  intro s
  have number : s.interrupts.pending.toNat -
      ((servedBoard 0).controllers 0).irqBase.toNat = 31 := by decide
  have absent : 0 ∉ (Links.empty 1 1).walk 0 := by decide
  have grounded : s.links.Grounded := (Links.grounded_empty 1 1).pushTail absent
  obtain ⟨_, _, _, _, serves, ends⟩ :=
    (service_of_pending (servedBoard 0) 0 s).2 31 (by decide) number
  obtain ⟨t, firings, done⟩ := ends 1 grounded (by decide)
  obtain ⟨closing, memory, concludes, served, _⟩ := serves _ t firings done
  have pending := congrArg (Option.map fun result => result.1.interrupts.pending) done
  have pins := congrArg
    (Option.map fun result => result.2.map fun firing => firing.call.pins) done
  have last := congrArg (Option.map fun result => result.2.getLast?) served
  have closes : closing = .write (.acknowledge .highPending 31) := by
    have same := Option.some.inj (last.symm.trans (by decide +kernel : _ =
      some (some (.acted 0 (.write (.acknowledge .highPending 31))))))
    simpa [List.getLast?_cons, List.getLast?_append] using same
  rw [closes] at concludes served
  exact ⟨number, t, firings, memory, done, Option.some.inj (pending.symm.trans (by decide +kernel)),
    Option.some.inj (pins.symm.trans (by decide +kernel)), concludes, served⟩

end Board

end Gpio
