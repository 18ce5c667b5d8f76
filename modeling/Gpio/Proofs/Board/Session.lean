import Gpio.Proofs.Board.Footprint
import Gpio.Proofs.Board.Traces

/-!
# What a session stores

The events of a session tell of every register write that is carried out, so its final memory
is the initial one with these writes replayed (`Board.replay`). They are accounted for while the
commands of a session are carried out (`Board.Accounts`): a controller writes the registers in
which it keeps its records, and those that latch interrupts only as the last thing in the
service of an interrupt (`Board.Closes`). This holds as long as nobody stores into memory past
the controllers and the register maps.
-/

namespace Gpio

variable {L : Layout}

/-- Whether an operation stores into memory directly. -/
def Operation.isDirect : Operation L → Bool
  | .poke _ _ => true
  | .fill _ => true
  | _ => false

def Command.isDirect : Command L → Bool
  | .operation given => given.isDirect
  | _ => false

namespace State

/-- No client is going to store into memory directly. -/
def Indirect (s : State L) : Prop :=
  ∀ client, ∀ entry ∈ s.script client, ∀ command ∈ entry, ¬command.isDirect

theorem Indirect.of_scripts {s t : State L} (indirect : s.Indirect)
    (same : t.scripts = s.scripts) : t.Indirect :=
  Scripted.of_scripts indirect same

end State

namespace Board

variable {B : Board L} {c : Fin L.controllers} {s t u : State L} {memory : Memory L.words}
  {events first second : List (Event L)} {w : RegisterWrite}

/-! ## Memory from events -/

/-- The register write that an event tells of, with the block that it is for. -/
def store? (B : Board L) : Event L → Option (Block L.words × RegisterWrite)
  | .acted c action => action.write?.map fun w => ((B.controllers c).block, w)
  | .wrote m w => some (B.maps m, w)
  | .fired _ => none
  | .did _ => none

/-- Memory after the register writes among events. -/
def replay (B : Board L) (memory : Memory L.words) (events : List (Event L)) : Memory L.words :=
  (events.filterMap B.store?).foldl (fun memory store => store.1.write memory store.2) memory

theorem replay_append (B : Board L) (memory : Memory L.words) (first second : List (Event L)) :
    B.replay memory (first ++ second) = B.replay (B.replay memory first) second := by
  rw [replay, List.filterMap_append, List.foldl_append]
  rfl

theorem replay_acted (B : Board L) (c : Fin L.controllers) (memory : Memory L.words)
    (actions : List Action) :
    B.replay memory (actions.map (.acted c)) =
      (B.controllers c).block.writeAll memory (actions.filterMap Action.write?) := by
  induction actions generalizing memory with
  | nil => rfl
  | cons action rest ih => cases action <;> exact ih _

/-- A word into which no event stores keeps its value. -/
theorem load_replay {word : Fin L.words}
    (spared : ∀ event ∈ events, ∀ block w, B.store? event = some (block, w) →
      w.register.isWritable → block.word w.register ≠ word) :
    (B.replay memory events).load word = memory.load word := by
  induction events generalizing memory with
  | nil => rfl
  | cons event rest ih =>
      have later := fun memory => @ih memory fun other mem =>
        spared other (List.mem_cons_of_mem event mem)
      cases stored : B.store? event with
      | none =>
          rw [replay, List.filterMap_cons_none stored]
          exact later memory
      | some store =>
          obtain ⟨block, w⟩ := store
          rw [replay, List.filterMap_cons_some stored]
          refine (later (block.write memory w)).trans ?_
          rw [Block.load_write, if_neg fun both => ?_]
          exact spared event List.mem_cons_self block w stored both.1 both.2

/-! ## Accounts -/

/-- Events that happened from a memory on end with the service of an interrupt of a controller.
The last of them is the write that acknowledges the interrupt of the pin that was serviced, and
leaves the pin's mask in the register. -/
def Closes (B : Board L) (c : Fin L.controllers) (w : RegisterWrite) (memory : Memory L.words)
    (events : List (Event L)) : Prop :=
  ∃ (earlier served : List (Event L)) (depth : Nat) (s t : State L) (p : Pin),
    events = earlier ++ served ∧ s.memory = B.replay memory earlier ∧
      t.memory = B.replay memory events ∧
      (B.controllers c).pin? s.interrupts.pending = some p ∧
      B.service (B.clientsAt depth) c s = some (t, served) ∧
      w = .acknowledge w.register p ∧ (B.controllers c).block.read t.memory w.register = p.mask

theorem Closes.of_replay (closes : B.Closes c w (B.replay memory first) events) :
    B.Closes c w memory (first ++ events) := by
  obtain ⟨earlier, served, depth, s, t, p, split, before, after, rest⟩ := closes
  refine ⟨first ++ earlier, served, depth, s, t, p, ?_, ?_, ?_, rest⟩
  · rw [split, List.append_assoc]
  · rw [before, replay_append]
  · rw [after, replay_append]

/-- A write of a controller that is the last of the events from a memory on has a source: a
request, or if it is to one of the registers that latch interrupts, the service of an interrupt. -/
def Sourced (B : Board L) (c : Fin L.controllers) (w : RegisterWrite) (memory : Memory L.words)
    (events : List (Event L)) : Prop :=
  w.register ∈ PinRecord.registers ∨
    w.register ∈ [.risePending, .fallPending, .highPending, .lowPending] ∧
      B.Closes c w memory events

theorem Sourced.of_replay (sourced : B.Sourced c w (B.replay memory first) events) :
    B.Sourced c w memory (first ++ events) :=
  sourced.imp_right fun ⟨latches, closes⟩ => ⟨latches, closes.of_replay⟩

/-- Events take one state to another, and every write of a controller among them has a source. -/
structure Accounts (B : Board L) (s : State L) (events : List (Event L)) (t : State L) :
    Prop where
  indirect : t.Indirect
  memory : t.memory = B.replay s.memory events
  sources : ∀ before c w after, events = before ++ .acted c (.write w) :: after →
    B.Sourced c w s.memory (before ++ [.acted c (.write w)])

namespace Accounts

theorem append (before : B.Accounts s first t) (after : B.Accounts t second u) :
    B.Accounts s (first ++ second) u where
  indirect := after.indirect
  memory := by rw [after.memory, before.memory, replay_append]
  sources := by
    intro told c w rest split
    have later : ∀ more, second = more ++ .acted c (.write w) :: rest →
        B.Sourced c w s.memory (first ++ more ++ [.acted c (.write w)]) := by
      intro more split
      have sourced := after.sources more c w rest split
      rw [before.memory] at sourced
      rw [List.append_assoc]
      exact sourced.of_replay
    rcases List.append_eq_append_iff.mp split with ⟨more, rfl, tail⟩ | ⟨_ | ⟨e, more⟩, head, tail⟩
    · exact later more tail
    · have next := later [] tail.symm
      rwa [List.append_nil, head, List.append_nil] at next
    · obtain ⟨rfl, _⟩ := List.cons.inj tail
      exact before.sources told c w more head

/-- What is not seen leaves memory as it is. -/
theorem unseen (indirect : t.Indirect) (same : t.memory = s.memory) : B.Accounts s [] t where
  indirect := indirect
  memory := same
  sources := by
    intro before c w after split
    simp at split

/-- An event that tells of no write. -/
theorem note (indirect : s.Indirect) (event : Event L) (silent : B.store? event = none) :
    B.Accounts s [event] s where
  indirect := indirect
  memory := by rw [replay, List.filterMap_cons_none silent]; rfl
  sources := by
    intro before c w after split
    have mem : .acted c (.write w) ∈ [event] := split ▸ List.mem_append_right _ List.mem_cons_self
    obtain rfl := List.mem_singleton.mp mem
    exact nomatch silent

/-- Writes to the registers of the records. -/
theorem of_registers (indirect : t.Indirect) (memory : t.memory = B.replay s.memory events)
    (inside : ∀ c w, .acted c (.write w) ∈ events → w.register ∈ PinRecord.registers) :
    B.Accounts s events t where
  indirect := indirect
  memory := memory
  sources := by
    intro before c w after split
    exact Or.inl (inside c w (split ▸ List.mem_append_right _ List.mem_cons_self))

theorem carryOut (indirect : s.Indirect) {outcome : Except Fault Response}
    (inside : ∀ response, outcome = .ok response →
      ∀ w ∈ response.writes, w.register ∈ PinRecord.registers) :
    B.Accounts s (B.carryOut c s outcome).events (B.carryOut c s outcome).state := by
  have scripts := indirect.of_scripts (B.scripts_carryOut c s outcome)
  cases outcome with
  | error fault => exact unseen indirect rfl
  | ok response =>
      refine of_registers scripts ?_ fun d w mem => ?_
      · rw [memory_carryOut]
        exact (B.replay_acted c s.memory response.actions).symm
      · obtain ⟨action, acted, same⟩ := List.mem_map.mp mem
        obtain ⟨rfl, rfl⟩ := Event.acted.inj same
        exact inside response rfl w (List.mem_filterMap.mpr ⟨_, acted, rfl⟩)

theorem carryOutMap (indirect : s.Indirect) (m : Fin L.maps)
    (outcome : Except Fault BlockResponse) :
    B.Accounts s (B.carryOutMap m s outcome).events (B.carryOutMap m s outcome).state := by
  rcases outcome with fault | ⟨_ | w, answer⟩
  · exact unseen indirect rfl
  · exact unseen indirect rfl
  · refine of_registers indirect rfl fun d w' mem => ?_
    exact nomatch List.mem_singleton.mp mem

theorem operate (indirect : s.Indirect) {operation : Operation L} (plain : ¬operation.isDirect) :
    B.Accounts s (B.operate s operation).events (B.operate s operation).state := by
  have scripts := indirect.of_scripts (scripts_operate (B := B) operation)
  cases operation with
  | request c request =>
      exact carryOut indirect fun _ granted _ mem => Controller.register_mem_of_respond granted mem
  | access c request =>
      exact carryOut indirect fun _ granted _ mem =>
        Controller.register_mem_of_respondAccess granted mem
  | map m request => exact carryOutMap indirect m _
  | poke word value => exact absurd rfl plain
  | fill value => exact absurd rfl plain
  | _ => exact unseen scripts rfl

/-- The write that closes a service. -/
theorem close {depth : Nat} {p : Pin} {r : Register} (calls : B.Accounts s events t)
    (own : (B.controllers c).pin? s.interrupts.pending = some p)
    (latches : r ∈ [.risePending, .fallPending, .highPending, .lowPending])
    (served : B.service (B.clientsAt depth) c s =
      some (B.act c t (.write (.acknowledge r p)),
        events ++ [.acted c (.write (.acknowledge r p))])) :
    B.Accounts s (events ++ [.acted c (.write (.acknowledge r p))])
      (B.act c t (.write (.acknowledge r p))) := by
  have memory : (B.act c t (.write (.acknowledge r p))).memory =
      B.replay s.memory (events ++ [.acted c (.write (.acknowledge r p))]) := by
    rw [replay_append, ← calls.memory]
    rfl
  have writable : r.isWritable := Register.isWritable_of_mem_pending latches
  have left : (B.controllers c).block.read (B.act c t (.write (.acknowledge r p))).memory r =
      p.mask := by
    rw [act, Block.read_write, RegisterWrite.register, if_pos ⟨writable, rfl⟩]
    rfl
  refine ⟨calls.indirect, memory, fun before d w after split => ?_⟩
  rcases List.eq_nil_or_concat after with rfl | ⟨init, last, rfl⟩
  · obtain ⟨rfl, same⟩ := List.append_inj' split rfl
    obtain ⟨rfl, written⟩ := Event.acted.inj (List.cons.inj same).1
    obtain rfl := Action.write.inj written
    exact Or.inr ⟨latches, [], _, depth, s, _, p, rfl, rfl, memory, own, served, rfl, left⟩
  · rw [List.concat_eq_append, ← List.cons_append, ← List.append_assoc] at split
    exact calls.sources before d w init (List.append_inj_left' split rfl)

end Accounts

/-! ## Accounts of sessions -/

theorem traces_accounts (B : Board L) :
    B.Traces (fun command => ¬command.isDirect) B.Accounts where
  append := Accounts.append
  unseen := Accounts.unseen
  note := by
    intro s event indirect notes
    refine Accounts.note indirect event ?_
    cases notes <;> rfl
  operate := fun indirect plain => Accounts.operate indirect plain
  close := by
    intro depth s t c p told calls _ own served
    cases latched : (B.controllers c).latched? t.memory p with
    | none =>
        have closing : (B.controllers c).acknowledge t.memory p = .log (.nothingPending p) := by
          rw [Controller.acknowledge, latched]
        rw [closing]
        exact calls.append (.note calls.indirect _ rfl)
    | some r =>
        have latches : r ∈ [.risePending, .fallPending, .highPending, .lowPending] :=
          List.mem_of_find?_eq_some latched
        have closing : (B.controllers c).acknowledge t.memory p = .write (.acknowledge r p) := by
          rw [Controller.acknowledge, latched]
        rw [closing] at served ⊢
        exact calls.close own latches served

theorem accounts_execAll (indirect : s.Indirect) {commands : List (Command L)}
    (plain : ∀ command ∈ commands, ¬command.isDirect) {effects : List (Effect L)}
    (done : B.execAll s commands = some effects) :
    B.Accounts s (effects.flatMap Effect.events) (lastState s effects) :=
  B.traces_accounts.execAll indirect plain done

/-- Where a controller writes. -/
theorem Accounts.register_of_acted (accounts : B.Accounts s events t)
    (mem : .acted c (.write w) ∈ events) :
    w.register ∉ [.inputValue, .driveStrength, .iofEnable, .iofSelect] := by
  have written : ∀ r,
      r ∈ PinRecord.registers ∨ r ∈ [.risePending, .fallPending, .highPending, .lowPending] →
      r ∉ [.inputValue, .driveStrength, .iofEnable, .iofSelect] := by
    intro r
    cases r <;> decide
  obtain ⟨before, after, split⟩ := List.append_of_mem mem
  exact written _ ((accounts.sources before c w after split).imp_right And.left)

/-- A word that changes is a register of a map, or of a controller that writes it. -/
theorem Accounts.exists_of_load_ne (accounts : B.Accounts s events t) {word : Fin L.words}
    (changed : t.memory.load word ≠ s.memory.load word) :
    (∃ m r, r ≠ .inputValue ∧ (B.maps m).word r = word) ∨
      ∃ c r, r ∉ [.inputValue, .driveStrength, .iofEnable, .iofSelect] ∧
        (B.controllers c).block.word r = word := by
  by_contra outside
  rw [accounts.memory] at changed
  refine changed (load_replay fun event mem block w stored writable same => outside ?_)
  cases event with
  | acted c action =>
      cases action with
      | write w' =>
          obtain ⟨rfl, rfl⟩ := Prod.mk.inj (Option.some.inj stored)
          exact Or.inr ⟨c, w'.register, accounts.register_of_acted mem, same⟩
      | _ => exact nomatch stored
  | wrote m w' =>
      obtain ⟨rfl, rfl⟩ := Prod.mk.inj (Option.some.inj stored)
      exact Or.inl ⟨m, w'.register, bne_iff_ne.mp writable, same⟩
  | _ => exact nomatch stored

/-- A session in which nobody stores into memory directly is carried out to its end. The register
writes among its events say what becomes of memory. A word that has changed is a register of a
bare map, but not its sampled input, or one of those registers of a controller that hold its
records or latch interrupts. A controller writes to the latter only to acknowledge an interrupt,
as the last thing in the service of it, and stores the mask of the pin that was serviced. -/
theorem session_footprint (B : Board L) (memory : Memory L.words)
    (masks : Vector Word L.callbacks) (scripts : Vector (Script L) L.clients)
    (commands : List (Command L)) (plain : ∀ command ∈ commands, ¬command.isDirect)
    (indirect : (State.start memory masks scripts).Indirect) :
    ∃ effects, B.execAll (.start memory masks scripts) commands = some effects ∧
      let events := effects.flatMap Effect.events
      let final := (lastState (.start memory masks scripts) effects).memory
      final = B.replay memory events ∧
        (∀ word, final.load word ≠ memory.load word →
          (∃ m r, r ≠ .inputValue ∧ (B.maps m).word r = word) ∨
            ∃ c r, r ∉ [.inputValue, .driveStrength, .iofEnable, .iofSelect] ∧
              (B.controllers c).block.word r = word) ∧
        ∀ before c w after, events = before ++ .acted c (.write w) :: after →
          w.register ∈ [.risePending, .fallPending, .highPending, .lowPending] →
          B.Closes c w memory (before ++ [.acted c (.write w)]) := by
  obtain ⟨effects, done⟩ := B.exists_execAll (s := .start memory masks scripts)
    (Links.grounded_empty _ _) commands
  have accounts := accounts_execAll indirect plain done
  refine ⟨effects, done, accounts.memory, fun word => accounts.exists_of_load_ne, ?_⟩
  intro before c w after split latches
  rcases accounts.sources before c w after split with records | ⟨_, closes⟩
  · exact absurd records (PinRecord.notMem_registers_of_mem_pending latches)
  · exact closes

/-! ## A map over the registers of a controller -/

/-- A controller and a map, and a callback. -/
abbrev mappedLayout : Layout where
  words := 24
  controllers := 1
  maps := 1
  registries := 0
  clients := 1
  callbacks := 1

/-- The sampled input of the map is the word in which the controller has its rising edges, and
the driven values of the map are where the controller enables high levels. -/
def mappedBoard (client : Fin 1) : Board mappedLayout where
  controllers := fun _ => ⟨⟨0, by decide⟩, 32⟩
  maps := fun _ => ⟨7, by decide⟩
  callbacks := fun _ => ⟨client, 0⟩

/-- The client enables high levels of a pin through the map, but cannot reset the word that is
read-only there. -/
def mappedScript (m : Fin 1) : Script mappedLayout :=
  [[.operation (.map m (.reset .inputValue)), .operation (.map m (.writeBit .outputValue 5 true))]]

/-- A controller is initialized and services an interrupt of its pin 3. -/
def mappedCommands (c callback : Fin 1) : List (Command mappedLayout) :=
  [.operation (.request c .bringUp), .operation (.edit (ownRegistry c) (.register callback)),
    .operation (.setPending 35), .service c]

/-- At first every bit of memory is set, and the acknowledgement leaves one of the rising edges. -/
theorem session_footprint_mapped :
    ∃ effects before, (mappedBoard 0).execAll
        (.start (.filled 24 (BitVec.allOnes 32)) #v[8] #v[mappedScript 0]) (mappedCommands 0 0) =
          some effects ∧
      effects.flatMap Effect.events = before ++ [.acted 0 (.write (.acknowledge .risePending 3))] ∧
      (mappedBoard 0).Closes 0 (.acknowledge .risePending 3) (.filled 24 (BitVec.allOnes 32))
        (effects.flatMap Effect.events) ∧
      effects.map (fun effect => effect.state.memory.load 7) =
        [BitVec.allOnes 32, BitVec.allOnes 32, BitVec.allOnes 32, 8] ∧
      effects.map (fun effect => effect.state.memory.load 10) = [0, 0, 0, 32] := by
  have plain : ∀ command ∈ mappedCommands 0 0, ¬command.isDirect := by decide
  have indirect : (State.start (L := mappedLayout) (.filled 24 (BitVec.allOnes 32)) #v[8]
      #v[mappedScript 0]).Indirect := by
    unfold State.Indirect
    decide
  obtain ⟨effects, done, _, _, closings⟩ :=
    session_footprint (mappedBoard 0) _ _ _ _ plain indirect
  have last := congrArg (Option.map fun effects => (effects.flatMap Effect.events).getLast?) done
  have seventh := congrArg
    (Option.map fun effects => effects.map fun effect => effect.state.memory.load 7) done
  have tenth := congrArg
    (Option.map fun effects => effects.map fun effect => effect.state.memory.load 10) done
  obtain ⟨before, split⟩ := List.getLast?_eq_some_iff.mp
    (Option.some.inj (last.symm.trans (by decide +kernel : _ =
      some (some (.acted 0 (.write (.acknowledge .risePending 3)))))))
  have closes := closings before 0 (.acknowledge .risePending 3) [] split (by decide)
  rw [← split] at closes
  exact ⟨effects, before, done, split, closes,
    Option.some.inj (seventh.symm.trans (by decide +kernel)),
    Option.some.inj (tenth.symm.trans (by decide +kernel))⟩

end Board

end Gpio
