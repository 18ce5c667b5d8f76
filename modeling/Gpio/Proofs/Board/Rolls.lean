import Gpio.Board.Delivery
import Gpio.Proofs.Registry.Rolls

/-!
# The registries of a board as lists

A session in which registries are only edited keeps the lists of `Rolls`: the walks, the
answers and the dispatches of a board are those of the lists.
-/

namespace Gpio.Board

open Links

variable {L : Layout} {B : Board L}

/-- Edit registries one after another. -/
def editAll (B : Board L) (s : State L)
    (changes : List (RegistryChange L.lists L.callbacks L.clients)) : State L :=
  changes.foldl (fun s change => (B.operate s (.edit change.registry change.edit)).state) s

/-- The calls of a dispatch that finds each callback with a mask: one for every callback of the
roll whose mask has some of the pins, in order. -/
def callsBy (B : Board L) (maskOf : Fin L.callbacks → Word) (pins : Word)
    (roll : List (Fin L.callbacks)) : List (Call L) :=
  (roll.filter fun callback => maskOf callback &&& pins ≠ 0).map fun callback =>
    { callback := callback
      client := (B.callbacks callback).client
      pins := maskOf callback &&& pins
      context := (B.callbacks callback).context }

theorem callsBy_cons (B : Board L) (maskOf : Fin L.callbacks → Word) (pins : Word)
    (callback : Fin L.callbacks) (roll : List (Fin L.callbacks)) :
    B.callsBy maskOf pins (callback :: roll) =
      if maskOf callback &&& pins = 0 then B.callsBy maskOf pins roll
      else B.callOf callback (maskOf callback &&& pins) :: B.callsBy maskOf pins roll := by
  split <;> simp_all [callsBy, callOf]

theorem map_callback_callsBy (B : Board L) (maskOf : Fin L.callbacks → Word) (pins : Word)
    (roll : List (Fin L.callbacks)) :
    (B.callsBy maskOf pins roll).map Call.callback =
      roll.filter fun callback => maskOf callback &&& pins ≠ 0 := by
  rw [callsBy, List.map_map]
  exact List.map_id _

/-- The calls of a dispatch when no client changes anything. -/
def callsOf (B : Board L) (s : State L) (pins : Word) (roll : List (Fin L.callbacks)) :
    List (Call L) :=
  B.callsBy s.mask pins roll

theorem represents_editAll {s : State L} {rolls : Rolls L.lists L.callbacks}
    (represents : Registry.Represents s.links rolls)
    {changes : List (RegistryChange L.lists L.callbacks L.clients)}
    (admitted : Admitted Rolls.Admits (Rolls.edit B.clientOf) rolls changes) :
    Registry.Represents (B.editAll s changes).links (rolls.editAll B.clientOf changes) := by
  induction admitted generalizing s with
  | nil rolls => exact represents
  | cons first rest ih => exact ih (represents.edit B.clientOf first)

/-- Clients that do nothing are called once each, in order. -/
theorem dispatchFrom_of_idle {clients : Clients L} {s : State L}
    (idle : ∀ call, clients call s = some (s, [])) (pins : Word)
    {link : Link L.lists L.callbacks} {met : List (Fin L.callbacks)}
    (follows : s.links.Follows link met) {budget : Nat} (enough : met.length < budget) :
    B.dispatchFrom clients pins budget link s =
      some (s, (B.callsOf s pins met).map fun call => ⟨call, []⟩) := by
  induction follows generalizing budget with
  | stop empty =>
      cases budget with
      | zero => exact absurd enough (Nat.not_lt_zero _)
      | succ budget =>
          simp only [dispatchFrom, empty]
          rfl
  | @step link callback rest found _ ih =>
      cases budget with
      | zero => exact absurd enough (Nat.not_lt_zero _)
      | succ budget =>
          have later := ih (Nat.lt_of_succ_lt_succ enough)
          simp only [dispatchFrom, found]
          split
          · rename_i deaf
            rw [later, callsOf, callsOf, callsBy_cons, if_pos deaf]
          · rename_i listens
            rw [idle, callsOf, callsBy_cons, if_neg listens]
            change (B.dispatchFrom clients pins budget (.next callback) s >>= _) = _
            rw [later]
            rfl

theorem dispatch_of_idle {clients : Clients L} {s : State L}
    (idle : ∀ call, clients call s = some (s, [])) (pins : Word) {r : Fin L.lists}
    {met : List (Fin L.callbacks)} (follows : s.links.Follows (.head r) met) :
    B.dispatch clients r pins s =
      some (s, (B.callsOf s pins met).map fun call => ⟨call, []⟩) := by
  refine dispatchFrom_of_idle idle pins follows (Nat.lt_succ_of_le ?_)
  calc
    met.length ≤ L.callbacks := follows.length_le
    _ ≤ L.callbacks * (s.entriesLeft + 1) := Nat.le_mul_of_pos_right _ (Nat.succ_pos _)

/-- After every one of any number of edits that are admitted, each registry is its list: for
its walk, for the answers about it, for the next edit of another registry, and for a
dispatch to clients that do nothing. -/
theorem registries_are_rolls (B : Board L) (memory : Memory L.words)
    (masks : Vector Word L.callbacks) (scripts : Vector (Script L) L.clients)
    {changes finished : List (RegistryChange L.lists L.callbacks L.clients)}
    (admitted : Admitted Rolls.Admits (Rolls.edit B.clientOf) (.empty L.lists L.callbacks) changes)
    (soFar : finished <+: changes) :
    let s := B.editAll (.start memory masks scripts) finished
    let rolls := (Rolls.empty L.lists L.callbacks).editAll B.clientOf finished
    ∀ r, (rolls r).Nodup ∧ s.links.walk r = rolls r ∧
      Registry.ask s.links r .length = .number (rolls r).length ∧
      Registry.ask s.links r .isEmpty = .flag (rolls r).isEmpty ∧
      (∀ callback, Registry.ask s.links r (.contains callback) =
        .flag (decide (callback ∈ rolls r))) ∧
      (∀ change : RegistryChange L.lists L.callbacks L.clients, rolls.Admits change →
        r ≠ change.registry →
        (B.operate s (.edit change.registry change.edit)).state.links.walk r = s.links.walk r) ∧
      ∀ clients : Clients L, (∀ call, clients call s = some (s, [])) → ∀ pins,
        B.dispatch clients r pins s =
          some (s, (B.callsOf s pins (rolls r)).map fun call => ⟨call, []⟩) := by
  intro s rolls r
  obtain ⟨later, rfl⟩ := soFar
  have represents : Registry.Represents s.links rolls :=
    represents_editAll (Registry.Represents.empty L.lists L.callbacks) admitted.of_append
  have follows := represents.follows r
  refine ⟨follows.nodup, follows.walk_eq, represents.ask_length r, represents.ask_isEmpty r,
    represents.ask_contains r, ?_, ?_⟩
  · intro change admits different
    have after := (represents.edit B.clientOf admits).follows r
    rw [Rolls.edit, Function.update_of_ne different] at after
    exact after.walk_eq.trans follows.walk_eq.symm
  · intro clients idle pins
    exact dispatch_of_idle idle pins follows

/-! ## A callback that moves -/

/-- Two registries, and three callbacks of two clients. -/
abbrev movingLayout : Layout where
  words := 0
  controllers := 0
  maps := 0
  registries := 2
  clients := 2
  callbacks := 3

/-- The contexts of the callbacks are 100, 101 and 102. -/
def movingBoard (clientOf : Fin 3 → Fin 2) : Board movingLayout where
  controllers := nofun
  maps := nofun
  callbacks := fun callback => ⟨clientOf callback, UInt64.ofNat (100 + callback.val)⟩

/-- The callbacks of a client are taken out from around another one. The first of them goes to
the other registry, while its link still leads to where it was, and the others follow. -/
def movingChanges (here there : Fin 2) (client : Fin 2) (first second third : Fin 3) :
    List (RegistryChange 2 3 2) :=
  [⟨here, .register first⟩, ⟨here, .register second⟩, ⟨here, .register third⟩,
    ⟨here, .unregister client⟩, ⟨there, .register first⟩, ⟨here, .manage third true⟩,
    ⟨here, .manage second false⟩, ⟨there, .manage second true⟩, ⟨there, .register first⟩]

theorem registries_are_rolls_movingChanges :
    let clientOf : Fin 3 → Fin 2 := fun callback => if callback = 1 then 1 else 0
    let changes := movingChanges 0 1 0 0 1 2
    let s := (movingBoard clientOf).editAll (.start #v[] #v[1, 1, 1] #v[[], []]) changes
    Admitted Rolls.Admits (Rolls.edit clientOf) (.empty 2 3) changes ∧ changes <+: changes ∧
      s.links.walk 0 = [2] ∧ s.links.walk 1 = [0, 1] := by
  intro clientOf changes s
  have admitted : Admitted Rolls.Admits (Rolls.edit clientOf) (.empty 2 3) changes := by
    decide +revert
  have rolls := registries_are_rolls (movingBoard clientOf) #v[] #v[1, 1, 1] #v[[], []]
    admitted List.prefix_rfl
  have here : (Rolls.empty 2 3).editAll clientOf changes 0 = [2] := rfl
  have there : (Rolls.empty 2 3).editAll clientOf changes 1 = [0, 1] := rfl
  exact ⟨admitted, List.prefix_rfl, (rolls 0).2.1.trans here, (rolls 1).2.1.trans there⟩

end Gpio.Board
