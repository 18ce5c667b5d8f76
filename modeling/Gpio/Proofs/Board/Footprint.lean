import Gpio.Proofs.Board.Machine
import Gpio.Proofs.Controller.Refinement

/-!
# Where a board stores

Memory is changed by deeds only, and a deed stores into few words: a request to a controller
into the registers that hold its records, the end of a service into one of the registers that
latch interrupts, a bare register map into the registers of its own block. All other words are
as before (`load_perform`).
-/

namespace Gpio

variable {L : Layout}

theorem Block.load_writeAll {words : Nat} (b : Block words) (m : Memory words)
    {ws : List RegisterWrite} {i : Fin words} (outside : ∀ w ∈ ws, b.word w.register ≠ i) :
    (b.writeAll m ws).load i = m.load i := by
  induction ws generalizing m with
  | nil => rfl
  | cons w rest ih =>
      have other := outside w List.mem_cons_self
      have later := ih (b.write m w) fun w' mem => outside w' (List.mem_cons_of_mem w mem)
      refine later.trans ?_
      rw [b.load_write, if_neg fun both => other both.2]

namespace Controller

variable {words : Nat} {c : Controller words} {m : Memory words}

/-- A request writes into the registers of the records only. -/
theorem register_mem_of_respond {request : Request} {response : Response}
    (granted : c.respond m request = .ok response) {w : RegisterWrite}
    (mem : w ∈ response.writes) : w.register ∈ PinRecord.registers := by
  cases grants_of_respond granted with
  | bringUp ids =>
      rw [writes_initialization] at mem
      obtain ⟨r, cleared, rfl⟩ := List.mem_map.mp mem
      exact List.mem_cons_of_mem _ cleared
  | @configure _ _ config number acceptable =>
      rw [writes_configuration] at mem
      obtain ⟨setting, inside, rfl⟩ := List.mem_map.mp mem
      exact List.mem_cons_of_mem _ (config.mem_cleared_of_mem_settings setting inside)
  | write number driven =>
      obtain rfl := List.mem_singleton.mp mem
      exact List.mem_cons_self
  | read number => exact nomatch mem
  | enableInterrupt id => exact nomatch mem
  | disableInterrupt id => exact nomatch mem

theorem register_mem_of_respondAccess {request : AccessRequest} {response : Response}
    (granted : c.respondAccess m request = .ok response) {w : RegisterWrite}
    (mem : w ∈ response.writes) : w.register ∈ PinRecord.registers := by
  obtain ⟨_, plain, responded, rfl⟩ := respondAccess_eq_ok_iff.mp granted
  exact register_mem_of_respond responded mem

end Controller

namespace Board

/-- The state after a deed. -/
def perform (B : Board L) (s : State L) : Deed L → State L
  | .operation operation => (B.operate s operation).state
  | .closing c p => B.act c s ((B.controllers c).acknowledge s.memory p)

/-- Whether a deed may store into a word. -/
def Stores (B : Board L) (word : Fin L.words) : Deed L → Prop
  | .operation (.request c _) => ∃ r ∈ PinRecord.registers, (B.controllers c).block.word r = word
  | .operation (.access c _) => ∃ r ∈ PinRecord.registers, (B.controllers c).block.word r = word
  | .operation (.map m _) => ∃ r, (B.maps m).word r = word
  | .operation (.poke other _) => other = word
  | .operation (.fill _) => True
  | .operation _ => False
  | .closing c _ =>
      ∃ r ∈ [.risePending, .fallPending, .highPending, .lowPending],
        (B.controllers c).block.word r = word

variable {B : Board L}

/-- A step carries out one deed, or leaves memory as it is. -/
theorem Step.memory_cases {m next : Machine L} {deeds : List (Deed L)}
    (step : B.Step m deeds next) :
    deeds = [] ∧ next.state.memory = m.state.memory ∨
      ∃ deed, deeds = [deed] ∧ next.state = B.perform m.state deed := by
  cases step with
  | operate s operation rest tasks => exact Or.inr ⟨_, rfl, rfl⟩
  | acknowledge s c p tasks => exact Or.inr ⟨_, rfl, rfl⟩
  | call tasks found listens taken => exact Or.inl ⟨rfl, State.memory_takeNext? taken⟩
  | _ => exact Or.inl ⟨rfl, rfl⟩

theorem memory_carryOut (c : Fin L.controllers) (s : State L) (response : Response) :
    (B.carryOut c s (.ok response)).state.memory =
      (B.controllers c).block.writeAll s.memory response.writes :=
  B.memory_actAll c s response.actions

theorem load_carryOut {c : Fin L.controllers} {s : State L} {outcome : Except Fault Response}
    {word : Fin L.words}
    (inside : ∀ response, outcome = .ok response →
      ∀ w ∈ response.writes, w.register ∈ PinRecord.registers)
    (outside : ¬∃ r ∈ PinRecord.registers, (B.controllers c).block.word r = word) :
    (B.carryOut c s outcome).state.memory.load word = s.memory.load word := by
  cases outcome with
  | error fault => rfl
  | ok response =>
      rw [memory_carryOut]
      refine Block.load_writeAll _ _ fun w mem same => outside ⟨w.register, ?_, same⟩
      exact inside response rfl w mem

theorem load_carryOutMap {m : Fin L.maps} {s : State L} {outcome : Except Fault BlockResponse}
    {word : Fin L.words} (outside : ¬∃ r, (B.maps m).word r = word) :
    (B.carryOutMap m s outcome).state.memory.load word = s.memory.load word := by
  rcases outcome with fault | ⟨_ | w, answer⟩
  · rfl
  · rfl
  · rw [carryOutMap, Block.load_write, if_neg fun both => outside ⟨w.register, both.2⟩]

theorem load_closing {c : Fin L.controllers} {s : State L} {p : Pin} {word : Fin L.words}
    (outside : ¬B.Stores word (.closing c p)) :
    (B.perform s (.closing c p)).memory.load word = s.memory.load word := by
  rw [perform, Controller.acknowledge]
  split
  · rename_i r latched
    have mem : r ∈ Register.pending := List.mem_of_find?_eq_some latched
    rw [act, Block.load_write, if_neg fun both => outside ⟨r, mem, both.2⟩]
  · rfl

/-- A deed leaves the words alone into which it does not store. -/
theorem load_perform {s : State L} {deed : Deed L} {word : Fin L.words}
    (outside : ¬B.Stores word deed) :
    (B.perform s deed).memory.load word = s.memory.load word := by
  cases deed with
  | closing c p => exact load_closing outside
  | operation operation =>
      cases operation with
      | request c request =>
          exact load_carryOut
            (fun _ granted _ mem => Controller.register_mem_of_respond granted mem) outside
      | access c request =>
          exact load_carryOut
            (fun _ granted _ mem => Controller.register_mem_of_respondAccess granted mem) outside
      | map m request => exact load_carryOutMap outside
      | poke other value =>
          have stored := s.memory.load_store other word value
          exact stored.trans (if_neg outside)
      | fill value => exact absurd trivial outside
      | _ => rfl

end Board

end Gpio
