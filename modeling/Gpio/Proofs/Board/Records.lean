import Gpio.Proofs.Board.Footprint

/-!
# The records of a controller on a board

From a first initialization on, the registers of a controller hold the records that its
requests make (`recordsAfter`), in the order in which they are carried out: whoever gives
them, at the top or from inside a call of a client, and whatever else happens on the board, as
long as nothing else stores into these registers. Servicing an interrupt does not.
-/

namespace Gpio

variable {L : Layout}

/-- Whether a deed is a request to a controller. -/
def Deed.Asks (c : Fin L.controllers) : Deed L → Prop
  | .operation (.request d _) => d = c
  | .operation (.access d _) => d = c
  | _ => False

/-- Whether a deed reaches memory, if at all, through a controller: by a request to it, or at
the end of a service of its interrupts. -/
def Deed.Through (c : Fin L.controllers) : Deed L → Prop
  | .operation (.request d _) => d = c
  | .operation (.access d _) => d = c
  | .operation (.map _ _) => False
  | .operation (.poke _ _) => False
  | .operation (.fill _) => False
  | .operation _ => True
  | .closing d _ => d = c

namespace Board

variable {B : Board L} {c : Fin L.controllers} {records : PinRecords}

/-- The records of a controller after a deed. -/
def recordsAfter (B : Board L) (c : Fin L.controllers) (records : PinRecords) :
    Deed L → PinRecords
  | .operation (.request d request) =>
      if d = c then records.after (B.controllers c).irqBase request else records
  | .operation (.access d request) =>
      if d = c then records.afterAccess (B.controllers c).irqBase request else records
  | _ => records

/-- Only requests to a controller store into the registers in which it has its records. -/
def Undisturbed (B : Board L) (c : Fin L.controllers) (deeds : List (Deed L)) : Prop :=
  ∀ deed ∈ deeds, ∀ r ∈ PinRecord.registers,
    B.Stores ((B.controllers c).block.word r) deed → deed.Asks c

theorem not_stores_closing (c : Fin L.controllers) (p : Pin) {r : Register}
    (mem : r ∈ PinRecord.registers) :
    ¬B.Stores ((B.controllers c).block.word r) (.closing c p) := by
  rintro ⟨other, pending, same⟩
  obtain rfl := (B.controllers c).block.word_inj same
  exact PinRecord.notMem_registers_of_mem_pending pending mem

/-- A controller that alone reaches memory is not disturbed, whatever is asked of it and
whichever of its interrupts are serviced. -/
theorem undisturbed_of_through {deeds : List (Deed L)}
    (through : ∀ deed ∈ deeds, deed.Through c) : B.Undisturbed c deeds := by
  intro deed mem r inside stores
  have own := through deed mem
  cases deed with
  | closing d p =>
      obtain rfl : d = c := own
      exact absurd stores (not_stores_closing d p inside)
  | operation operation =>
      cases operation with
      | request d request => exact own
      | access d request => exact own
      | map m request => exact own.elim
      | poke word value => exact own.elim
      | fill value => exact own.elim
      | _ => exact stores.elim

theorem recordsAfter_of_not_asks {deed : Deed L} (other : ¬deed.Asks c) :
    B.recordsAfter c records deed = records := by
  unfold recordsAfter
  split
  · exact if_neg other
  · exact if_neg other
  · rfl

/-- A request gets the reply of the records, and the registers follow them. -/
theorem operate_request {s : State L}
    (represents : (B.controllers c).block.Represents s.memory records) (request : Request) :
    (B.operate s (.request c request)).reply =
        records.reply (B.controllers c).irqBase
          ((B.controllers c).block.isSet s.memory .inputValue) request ∧
      (B.controllers c).block.Represents (B.operate s (.request c request)).state.memory
        (records.after (B.controllers c).irqBase request) := by
  rw [operate, PinRecords.reply, PinRecords.after]
  cases responded : (B.controllers c).respond s.memory request with
  | error fault =>
      rw [(Controller.respond_eq_error_iff represents).mp responded]
      exact ⟨rfl, represents⟩
  | ok response =>
      obtain ⟨answer, later⟩ := Controller.represents_of_respond represents responded
      rw [Controller.fault?_eq_none represents responded, memory_carryOut]
      exact ⟨congrArg Reply.answer answer, later⟩

/-- A request by flag words and numbers that is about a single pin is a plain request. -/
theorem operate_access_single (B : Board L) (c : Fin L.controllers) (s : State L)
    {request : AccessRequest} (single : request.mode = .single) :
    (B.operate s (.access c request)).state =
        (B.operate s (.request c request.toRequest)).state ∧
      (B.operate s (.access c request)).reply =
        (B.operate s (.request c request.toRequest)).reply.toNumber := by
  simp only [operate, Controller.respondAccess, single]
  cases (B.controllers c).respond s.memory request.toRequest with
  | error fault => exact ⟨rfl, rfl⟩
  | ok response => exact ⟨rfl, rfl⟩

theorem operate_access {s : State L}
    (represents : (B.controllers c).block.Represents s.memory records) (request : AccessRequest) :
    (B.operate s (.access c request)).reply =
        records.accessReply (B.controllers c).irqBase
          ((B.controllers c).block.isSet s.memory .inputValue) request ∧
      (B.controllers c).block.Represents (B.operate s (.access c request)).state.memory
        (records.afterAccess (B.controllers c).irqBase request) := by
  rw [PinRecords.accessReply, PinRecords.afterAccess]
  cases mode : request.mode with
  | all =>
      rw [operate, Controller.respondAccess, mode]
      exact ⟨rfl, represents⟩
  | single =>
      obtain ⟨state, reply⟩ := operate_access_single B c s mode
      obtain ⟨plain, later⟩ := operate_request represents request.toRequest
      rw [state, reply, plain]
      exact ⟨rfl, later⟩

theorem represents_perform {s : State L}
    (represents : (B.controllers c).block.Represents s.memory records) {deed : Deed L}
    (undisturbed : ∀ r ∈ PinRecord.registers,
      B.Stores ((B.controllers c).block.word r) deed → deed.Asks c) :
    (B.controllers c).block.Represents (B.perform s deed).memory
      (B.recordsAfter c records deed) := by
  by_cases asks : deed.Asks c
  · cases deed with
    | closing d p => exact asks.elim
    | operation operation =>
        cases operation with
        | request d request =>
            obtain rfl : d = c := asks
            rw [recordsAfter, if_pos rfl]
            exact (operate_request represents request).2
        | access d request =>
            obtain rfl : d = c := asks
            rw [recordsAfter, if_pos rfl]
            exact (operate_access represents request).2
        | _ => exact asks.elim
  · rw [recordsAfter_of_not_asks asks]
    apply represents.congr
    intro r mem
    exact load_perform fun stores => asks (undisturbed r mem stores)

theorem Runs.represents {m last : Machine L} {deeds : List (Deed L)} (runs : B.Runs m deeds last)
    (represents : (B.controllers c).block.Represents m.state.memory records)
    (undisturbed : B.Undisturbed c deeds) :
    (B.controllers c).block.Represents last.state.memory
      (deeds.foldl (B.recordsAfter c) records) := by
  induction runs generalizing records with
  | refl _ => exact represents
  | step step _ ih =>
      rw [List.foldl_append]
      refine ih ?_ fun deed mem => undisturbed deed (List.mem_append_right _ mem)
      rcases step.memory_cases with ⟨rfl, same⟩ | ⟨deed, rfl, performed⟩
      · rw [same]
        exact represents
      · rw [performed]
        exact represents_perform represents (undisturbed deed (List.mem_append_left _
          List.mem_cons_self))

/-- Before the first deed of a run memory does not change. -/
theorem Runs.exists_of_cons {m last : Machine L} {deed : Deed L} {deeds : List (Deed L)}
    (runs : B.Runs m (deed :: deeds) last) :
    ∃ s next, s.memory = m.state.memory ∧ next.state = B.perform s deed ∧
      B.Runs next deeds last := by
  generalize all : deed :: deeds = done at runs
  induction runs with
  | refl _ => exact nomatch all
  | @step m next last first rest step runs ih =>
      rcases step.memory_cases with ⟨rfl, same⟩ | ⟨other, rfl, performed⟩
      · obtain ⟨s, later, memory, performed, runs⟩ := ih all
        exact ⟨s, later, memory.trans same, performed, runs⟩
      · obtain ⟨rfl, rfl⟩ := List.cons.inj all
        exact ⟨m.state, next, rfl, performed, runs⟩

/-- Whether an initialization succeeds depends on the controller only. -/
theorem reply_bringUp (B : Board L) (c : Fin L.controllers) (s t : State L) :
    (B.operate s (.request c .bringUp)).reply = (B.operate t (.request c .bringUp)).reply := by
  simp only [operate, Controller.respond]
  cases IrqRange.ofBase (B.controllers c).irqBase <;> rfl

/-- A successful initialization leaves the driven values, whatever the registers hold. -/
theorem represents_bringUp {s : State L}
    (granted : (B.operate s (.request c .bringUp)).reply = .answer .done) :
    (B.controllers c).block.Represents (B.operate s (.request c .bringUp)).state.memory fun p =>
      { output := (B.controllers c).block.isSet s.memory .outputValue p } := by
  rw [operate]
  cases responded : (B.controllers c).respond s.memory .bringUp with
  | error fault =>
      rw [operate, responded] at granted
      cases granted
  | ok response =>
      rw [memory_carryOut, Controller.writes_of_bringUp responded]
      exact .initialized _ _

/-- One controller, and a callback of one client. -/
abbrev nestedLayout : Layout where
  words := 17
  controllers := 1
  maps := 0
  registries := 0
  clients := 1
  callbacks := 1

def nestedBoard (client : Fin 1) : Board nestedLayout where
  controllers := fun _ => ⟨⟨0, by decide⟩, 32⟩
  maps := nofun
  callbacks := fun _ => ⟨client, 0⟩

/-- A pulled input whose falling edge triggers. -/
def nestedInput : PinConfig := (PinConfig.input.withPull .up).withInterrupt (.edge .activeLow)

/-- At first every bit of memory is set. Pin 3 becomes an input, and its interrupt is serviced.
From inside the call the client makes the pin an inverted output and drives it low. -/
def nestedMachine (c : Fin 1) (callback : Fin 1) : Machine nestedLayout where
  state :=
    { memory := .filled 17 (BitVec.allOnes 32)
      links := .empty 1 1
      masks := #v[8]
      interrupts := { pending := 35 }
      scripts := #v[[[.operation (.request c (.configure 3 PinConfig.output.inverted)),
        .operation (.request c (.write 3 false))]]] }
  tasks :=
    [.commands [.operation (.request c .bringUp),
      .operation (.request c (.configure 3 nestedInput)),
      .operation (.edit (ownRegistry c) (.register callback)), .service c]]

def nestedDeeds (c : Fin 1) (callback : Fin 1) (p : Pin) : List (Deed nestedLayout) :=
  [.operation (.request c (.configure 3 nestedInput)),
    .operation (.edit (ownRegistry c) (.register callback)),
    .operation (.request c (.configure 3 PinConfig.output.inverted)),
    .operation (.request c (.write 3 false)), .closing c p]

theorem runs_nestedMachine : ∃ last, (nestedBoard 0).Runs (nestedMachine 0 0)
    (.operation (.request 0 .bringUp) :: nestedDeeds 0 0 3) last :=
  ⟨_, .step (.operate _ _ _ _) <| .step (.operate _ _ _ _) <| .step (.operate _ _ _ _) <|
    .step (.service _ _ (show _ = some (3 : Pin) by decide)) <|
    .step (.call _ (show _ = some 0 from rfl) (by decide) rfl) <|
    .step (.operate _ _ _ _) <| .step (.operate _ _ _ _) <| .step (.finish _ _) <|
    .step (.stop _ _ rfl) <| .step (.acknowledge _ _ _ _) <| .refl _⟩

theorem undisturbed_nestedDeeds : (nestedBoard 0).Undisturbed 0 (nestedDeeds 0 0 3) := by
  apply undisturbed_of_through
  intro deed mem
  simp only [nestedDeeds, List.mem_cons, List.not_mem_nil, or_false] at mem
  rcases mem with rfl | rfl | rfl | rfl | rfl
  · rfl
  · trivial
  · rfl
  · rfl
  · rfl

end Board

end Gpio
