import Gpio.Board.Operation

/-!
# What operations leave alone

A controller's actions reach memory and the interrupt controller only. Among the
operations, the edits of registries are the only ones that change links, and the changes
of pin masks the only ones that change masks. No operation uses up a script entry: that is
done by calling a client, and changes no link.
-/

namespace Gpio

variable {L : Layout}

namespace Board

variable (B : Board L) (c : Fin L.controllers) (s : State L)

theorem links_act (action : Action) : (B.act c s action).links = s.links := by
  cases action <;> rfl

theorem masks_act (action : Action) : (B.act c s action).masks = s.masks := by
  cases action <;> rfl

theorem scripts_act (action : Action) : (B.act c s action).scripts = s.scripts := by
  cases action <;> rfl

theorem actAll_append (first second : List Action) :
    B.actAll c s (first ++ second) = B.actAll c (B.actAll c s first) second :=
  List.foldl_append

theorem links_actAll (actions : List Action) : (B.actAll c s actions).links = s.links := by
  induction actions generalizing s with
  | nil => rfl
  | cons action rest ih => exact (ih (B.act c s action)).trans (B.links_act c s action)

theorem masks_actAll (actions : List Action) : (B.actAll c s actions).masks = s.masks := by
  induction actions generalizing s with
  | nil => rfl
  | cons action rest ih => exact (ih (B.act c s action)).trans (B.masks_act c s action)

theorem scripts_actAll (actions : List Action) : (B.actAll c s actions).scripts = s.scripts := by
  induction actions generalizing s with
  | nil => rfl
  | cons action rest ih => exact (ih (B.act c s action)).trans (B.scripts_act c s action)

/-- The register writes among a controller's actions say what becomes of memory. -/
theorem memory_actAll (actions : List Action) :
    (B.actAll c s actions).memory =
      (B.controllers c).block.writeAll s.memory
        (actions.filterMap fun action =>
          match action with
          | .write w => some w
          | _ => none) := by
  induction actions generalizing s with
  | nil => rfl
  | cons action rest ih => cases action <;> exact ih (B.act c s _)

theorem actAll_writes (ws : List RegisterWrite) :
    B.actAll c s (ws.map .write) =
      { s with memory := (B.controllers c).block.writeAll s.memory ws } := by
  induction ws generalizing s with
  | nil => rfl
  | cons w rest ih => exact ih (B.act c s (.write w))

/-- A configuration of a pin changes nothing but memory. -/
theorem actAll_configuration (p : Pin) (config : PinConfig) :
    B.actAll c s (Controller.configuration p config) =
      { s with memory := (B.controllers c).block.writeAll s.memory (config.writes p) } := by
  rw [Controller.configuration, actAll_append, actAll_writes]
  rfl

theorem links_carryOut (response : Except Fault Response) :
    (B.carryOut c s response).state.links = s.links := by
  cases response with
  | error fault => rfl
  | ok response => exact B.links_actAll c s response.actions

theorem masks_carryOut (response : Except Fault Response) :
    (B.carryOut c s response).state.masks = s.masks := by
  cases response with
  | error fault => rfl
  | ok response => exact B.masks_actAll c s response.actions

theorem scripts_carryOut (response : Except Fault Response) :
    (B.carryOut c s response).state.scripts = s.scripts := by
  cases response with
  | error fault => rfl
  | ok response => exact B.scripts_actAll c s response.actions

/-- A refused request leaves everything as it was, and is not seen. -/
theorem carryOut_of_refusal {response : Except Fault Response} {fault : Fault}
    (refused : (B.carryOut c s response).reply = .refusal fault) :
    B.carryOut c s response = { state := s, events := [], reply := .refusal fault } := by
  cases response with
  | error other =>
      obtain rfl := Reply.refusal.inj refused
      rfl
  | ok response => exact nomatch refused

variable {B c s}

/-- An operation is seen by what controllers and bare register maps do. -/
theorem acted_or_wrote_of_mem_operate {operation : Operation L} {event : Event L}
    (mem : event ∈ (B.operate s operation).events) :
    (∃ c action, event = .acted c action) ∨ ∃ m w, event = .wrote m w := by
  have acted {c : Fin L.controllers} {response : Except Fault Response}
      (mem : event ∈ (B.carryOut c s response).events) : ∃ c action, event = .acted c action := by
    cases response with
    | error fault => exact nomatch mem
    | ok response =>
        obtain ⟨action, _, rfl⟩ := List.mem_map.mp mem
        exact ⟨c, action, rfl⟩
  have wrote {m : Fin L.maps} {response : Except Fault BlockResponse}
      (mem : event ∈ (B.carryOutMap m s response).events) : ∃ m w, event = .wrote m w := by
    rcases response with fault | ⟨_ | w, answer⟩
    · exact nomatch mem
    · exact nomatch mem
    · exact ⟨m, w, List.mem_singleton.mp mem⟩
  cases operation with
  | request c request => exact Or.inl (acted mem)
  | access c request => exact Or.inl (acted mem)
  | map m request => exact Or.inr (wrote mem)
  | _ => exact nomatch mem

theorem links_operate (operation : Operation L) :
    (B.operate s operation).state.links =
      match operation with
      | .edit r edit => Registry.edit s.links B.clientOf r edit
      | _ => s.links := by
  cases operation with
  | request c request => exact B.links_carryOut c s _
  | access c request => exact B.links_carryOut c s _
  | map m request =>
      simp only [operate]
      rcases (B.maps m).respond s.memory request with fault | ⟨_ | w, answer⟩ <;> rfl
  | _ => rfl

theorem mask_operate (operation : Operation L) (callback : Fin L.callbacks) :
    (B.operate s operation).state.mask callback =
      match operation with
      | .setPinMask changed mask => if changed = callback then mask else s.mask callback
      | _ => s.mask callback := by
  cases operation with
  | request c request => simp only [operate, State.mask, B.masks_carryOut c s _]
  | access c request => simp only [operate, State.mask, B.masks_carryOut c s _]
  | map m request =>
      simp only [operate]
      rcases (B.maps m).respond s.memory request with fault | ⟨_ | w, answer⟩ <;> rfl
  | setPinMask changed mask => exact s.mask_setMask changed callback mask
  | _ => rfl

theorem scripts_operate (operation : Operation L) :
    (B.operate s operation).state.scripts = s.scripts := by
  cases operation with
  | request c request => exact B.scripts_carryOut c s _
  | access c request => exact B.scripts_carryOut c s _
  | map m request =>
      simp only [operate]
      rcases (B.maps m).respond s.memory request with fault | ⟨_ | w, answer⟩ <;> rfl
  | _ => rfl

end Board

namespace State

theorem takeNext?_eq_some_iff {s t : State L} {client : Fin L.clients}
    {entry : List (Command L)} :
    s.takeNext? client = some (entry, t) ↔
      ∃ rest, s.script client = entry :: rest ∧ t = s.setScript client rest := by
  rw [takeNext?]
  cases s.script client with
  | nil => simp
  | cons first rest => simp [and_assoc, eq_comm]

theorem takeNext?_eq_none_iff {s : State L} {client : Fin L.clients} :
    s.takeNext? client = none ↔ s.script client = [] := by
  rw [takeNext?]
  cases s.script client <;> simp

theorem memory_takeNext? {s t : State L} {client : Fin L.clients} {entry : List (Command L)}
    (taken : s.takeNext? client = some (entry, t)) : t.memory = s.memory := by
  obtain ⟨rest, _, rfl⟩ := takeNext?_eq_some_iff.mp taken
  rfl

theorem links_takeNext? {s t : State L} {client : Fin L.clients} {entry : List (Command L)}
    (taken : s.takeNext? client = some (entry, t)) : t.links = s.links := by
  obtain ⟨rest, _, rfl⟩ := takeNext?_eq_some_iff.mp taken
  rfl

theorem interrupts_takeNext? {s t : State L} {client : Fin L.clients} {entry : List (Command L)}
    (taken : s.takeNext? client = some (entry, t)) : t.interrupts = s.interrupts := by
  obtain ⟨rest, _, rfl⟩ := takeNext?_eq_some_iff.mp taken
  rfl

end State

end Gpio
