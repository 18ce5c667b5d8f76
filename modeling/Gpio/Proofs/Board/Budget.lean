import Gpio.Proofs.Board.Acyclic
import Gpio.Proofs.Board.Recount
import Mathlib.Data.List.Count

/-!
# How many calls a command makes

A client can keep a walk going by moving callbacks behind it, and can start the same dispatch
again from inside a call, so the length of a registry bounds nothing. But every such activity
uses up a script entry, and between two uses a walk meets no callback twice. So one dispatch
makes at most as many calls itself as there are callbacks, for each entry that is left and once
more (`Thrifty.dispatchFrom`), and there are no more dispatches than commands left. The account
is kept in `Spends`: each command that is carried out pays for one dispatch.
-/

namespace Gpio

variable {L : Layout}

def Event.isCall : Event L → Bool
  | .fired _ => true
  | _ => false

/-- The number of calls among events. -/
def callCount (events : List (Event L)) : Nat := events.countP Event.isCall

theorem length_callsIn (events : List (Event L)) :
    (callsIn events).length = callCount events := by
  rw [callsIn, List.length_filterMap_eq_countP]
  refine List.countP_congr fun event _ => ?_
  cases event <;> rfl

theorem callCount_append (first second : List (Event L)) :
    callCount (first ++ second) = callCount first + callCount second :=
  List.countP_append

theorem callCount_flatMap_events (firings : List (Firing L)) :
    callCount (firings.flatMap Firing.events) =
      firings.length + callCount (firings.flatMap Firing.within) := by
  induction firings with
  | nil => rfl
  | cons firing rest ih =>
      have own : callCount firing.events = callCount firing.within + 1 :=
        List.countP_cons_of_pos rfl
      simp only [List.flatMap_cons, callCount_append, ih, own, List.length_cons]
      omega

namespace State

/-- The number of commands in the script entries that are left. -/
def stepsLeft (s : State L) : Nat := s.scripts.toList.flatten.flatten.length

/-- An entry that is used up is one of those that were left. -/
theorem entries_takeNext? {s t : State L} {client : Fin L.clients} {entry : List (Command L)}
    (taken : s.takeNext? client = some (entry, t)) :
    s.scripts.toList.flatten.Perm (entry :: t.scripts.toList.flatten) := by
  unfold takeNext? at taken
  split at taken
  · exact nomatch taken
  · rename_i first rest script
    obtain ⟨rfl, rfl⟩ := Prod.mk.inj (Option.some.inj taken)
    have inside : client.val < s.scripts.toList.length := by
      rw [Vector.length_toList]
      exact client.isLt
    have head : s.scripts.toList[client.val] = first :: rest :=
      (Vector.getElem_toList inside).trans script
    have before := (List.getElem_cons_eraseIdx_perm inside).flatten
    rw [head] at before
    have after := (List.set_perm_cons_eraseIdx inside rest).flatten
    rw [← Vector.toList_set client.isLt] at after
    exact before.symm.trans (after.symm.cons first)

/-- A client that uses an entry of its script leaves one entry less on the board. -/
theorem entriesLeft_takeNext? {s t : State L} {client : Fin L.clients}
    {entry : List (Command L)} (taken : s.takeNext? client = some (entry, t)) :
    s.entriesLeft = t.entriesLeft + 1 :=
  (entries_takeNext? taken).length_eq

theorem stepsLeft_takeNext? {s t : State L} {client : Fin L.clients} {entry : List (Command L)}
    (taken : s.takeNext? client = some (entry, t)) :
    s.stepsLeft = entry.length + t.stepsLeft := by
  have lengths := (entries_takeNext? taken).flatten.length_eq
  rwa [List.flatten_cons, List.length_append] at lengths

end State

/-- From one state to another the links stay grounded and no script entry comes back, and so
many commands, together with those that have left the scripts, pay for so many calls. -/
structure Spends (price : Nat) (s t : State L) (commands calls : Nat) : Prop where
  grounded : t.links.Grounded
  entries : t.entriesLeft ≤ s.entriesLeft
  paid : calls + price * t.stepsLeft ≤ price * (s.stepsLeft + commands)

namespace Spends

variable {price commands calls : Nat} {s t : State L}

theorem refl (price : Nat) (grounded : s.links.Grounded) (commands : Nat) :
    Spends price s s commands 0 where
  grounded := grounded
  entries := Nat.le_refl _
  paid := by
    rw [Nat.zero_add]
    exact Nat.mul_le_mul_left price (Nat.le_add_right _ _)

theorem trans {middle : State L} {more others : Nat}
    (before : Spends price s middle commands calls) (after : Spends price middle t more others) :
    Spends price s t (commands + more) (calls + others) where
  grounded := after.grounded
  entries := Nat.le_trans after.entries before.entries
  paid := by
    have first := before.paid
    have second := after.paid
    simp only [Nat.mul_add] at first second ⊢
    omega

/-- What happens in other parts of the state costs nothing. -/
theorem of_eq {u : State L} (spends : Spends price s t commands calls)
    (links : u.links = t.links) (scripts : u.scripts = t.scripts) :
    Spends price s u commands calls where
  grounded := links ▸ spends.grounded
  entries := by
    rw [State.entriesLeft, scripts]
    exact spends.entries
  paid := by
    rw [State.stepsLeft, scripts]
    exact spends.paid

/-- One command pays the price of a dispatch. -/
theorem pay {own : Nat} (spends : Spends price s t commands calls) (cheap : own ≤ price) :
    Spends price s t (commands + 1) (own + calls) where
  grounded := spends.grounded
  entries := spends.entries
  paid := by
    have paid := spends.paid
    simp only [Nat.mul_add, Nat.mul_one] at paid ⊢
    omega

end Spends

/-- On boards with few entries left a call ends, pays for the calls within it, and does
nothing unless it uses up an entry. -/
def Thrifty (clients : Clients L) (price bound : Nat) : Prop :=
  ∀ call s, s.links.Grounded → s.entriesLeft ≤ bound →
    ∃ t within, clients call s = some (t, within) ∧ Spends price s t 0 (callCount within) ∧
      (t = s ∨ t.entriesLeft < s.entriesLeft)

namespace Board

variable {B : Board L}

theorem callCount_operate (s : State L) (operation : Operation L) :
    callCount (B.operate s operation).events = 0 := by
  rw [← length_callsIn, callsIn_operate, List.length_nil]

theorem spends_operate {s : State L} (grounded : s.links.Grounded) (price : Nat)
    (operation : Operation L) :
    Spends price s (B.operate s operation).state 1 (callCount (B.operate s operation).events) := by
  have entries : (B.operate s operation).state.entriesLeft = s.entriesLeft :=
    congrArg (fun scripts => scripts.toList.flatten.length) (scripts_operate operation)
  have steps : (B.operate s operation).state.stepsLeft = s.stepsLeft :=
    congrArg (fun scripts => scripts.toList.flatten.flatten.length) (scripts_operate operation)
  refine ⟨grounded_operate grounded operation, Nat.le_of_eq entries, ?_⟩
  rw [callCount_operate, steps, Nat.zero_add]
  exact Nat.mul_le_mul_left price (Nat.le_succ _)

end Board

namespace Thrifty

variable {B : Board L} {clients : Clients L} {price bound : Nat} {s : State L}

/-- The rest of a dispatch ends. Its own calls are paid for by the callbacks ahead, and by all
callbacks for every entry that is used up. -/
theorem dispatchFrom (thrifty : Thrifty clients price bound) (B : Board L) (pins : Word)
    {budget : Nat} {link : Link L.lists L.callbacks} {met : List (Fin L.callbacks)}
    (grounded : s.links.Grounded) (few : s.entriesLeft ≤ bound)
    (follows : s.links.Follows link met)
    (enough : met.length + L.callbacks * s.entriesLeft < budget) :
    ∃ t firings, B.dispatchFrom clients pins budget link s = some (t, firings) ∧
      Spends price s t 0 (callCount (firings.flatMap Firing.within)) ∧
      firings.length + L.callbacks * t.entriesLeft ≤
        met.length + L.callbacks * s.entriesLeft := by
  induction budget generalizing s link met with
  | zero => exact absurd enough (Nat.not_lt_zero _)
  | succ budget ih =>
      cases follows with
      | stop empty =>
          refine ⟨s, [], ?_, .refl price grounded 0, Nat.le_refl _⟩
          simp only [Board.dispatchFrom, empty]
      | @step link callback rest found behind =>
          rw [List.length_cons] at enough ⊢
          simp only [Board.dispatchFrom, found]
          split
          · obtain ⟨t, firings, done, spends, own⟩ := ih grounded few behind (by omega)
            exact ⟨t, firings, done, spends, by omega⟩
          · obtain ⟨middle, within, called, first, either⟩ :=
              thrifty (B.callOf callback (s.mask callback &&& pins)) s grounded few
            -- The call leaves what is ahead, or pays for the longest way that may be ahead.
            obtain ⟨left, onward, shorter⟩ : ∃ left,
                middle.links.Follows (.next callback) left ∧
                left.length + L.callbacks * middle.entriesLeft ≤
                  rest.length + L.callbacks * s.entriesLeft := by
              rcases either with rfl | used
              · exact ⟨rest, behind, Nat.le_refl _⟩
              · obtain ⟨left, onward⟩ := first.grounded (.next callback)
                have short := onward.length_le
                have less := Nat.mul_le_mul_left L.callbacks used
                rw [Nat.mul_succ] at less
                exact ⟨left, onward, by omega⟩
            obtain ⟨t, firings, done, second, own⟩ := ih first.grounded
              (Nat.le_trans first.entries few) onward (by omega)
            refine ⟨t, ⟨B.callOf callback (s.mask callback &&& pins), within⟩ :: firings, ?_, ?_,
              ?_⟩
            · simp only [called, done, Option.bind_eq_bind, Option.bind_some]
              rfl
            · rw [List.flatMap_cons, callCount_append]
              exact first.trans second
            · rw [List.length_cons]
              omega

/-- A dispatch ends, and one command pays for it. -/
theorem dispatch (thrifty : Thrifty clients price bound) (B : Board L)
    (dear : L.callbacks * (bound + 1) ≤ price) (grounded : s.links.Grounded)
    (few : s.entriesLeft ≤ bound) (r : Fin L.lists) (pins : Word) :
    ∃ t firings, B.dispatch clients r pins s = some (t, firings) ∧
      Spends price s t 1 (callCount (firings.flatMap Firing.events)) := by
  have follows := grounded.follows_walk r
  have short := follows.length_le
  have enough : (s.links.walk r).length + L.callbacks * s.entriesLeft <
      Board.dispatchBudget s := by
    rw [Board.dispatchBudget, Nat.mul_succ]
    omega
  obtain ⟨t, firings, done, spends, own⟩ := thrifty.dispatchFrom B pins grounded few follows enough
  have cheap : firings.length ≤ price := by
    have fewer := Nat.mul_le_mul_left L.callbacks few
    rw [Nat.mul_succ] at dear
    omega
  refine ⟨t, firings, done, ?_⟩
  rw [callCount_flatMap_events]
  exact spends.pay cheap

theorem service (thrifty : Thrifty clients price bound) (B : Board L)
    (dear : L.callbacks * (bound + 1) ≤ price) (grounded : s.links.Grounded)
    (few : s.entriesLeft ≤ bound) (c : Fin L.controllers) :
    ∃ t events, B.service clients c s = some (t, events) ∧
      Spends price s t 1 (callCount events) := by
  simp only [Board.service]
  split
  · exact ⟨s, _, rfl, .refl price grounded 1⟩
  · rename_i p own
    obtain ⟨t, firings, done, spends⟩ :=
      thrifty.dispatch B dear grounded few (Board.ownRegistry c) p.mask
    let closing := (B.controllers c).acknowledge t.memory p
    refine ⟨B.act c t closing, .acted c (.log (.interrupt s.interrupts.pending p)) ::
      (firings.flatMap Firing.events ++ [.acted c closing]), by rw [done]; rfl, ?_⟩
    have same : callCount (.acted c (.log (.interrupt s.interrupts.pending p)) ::
        (firings.flatMap Firing.events ++ [.acted c closing])) =
          callCount (firings.flatMap Firing.events) := by
      simp [callCount, List.countP_append, Event.isCall]
    rw [same]
    exact spends.of_eq (B.links_act c t closing) (B.scripts_act c t closing)

theorem execWith (thrifty : Thrifty clients price bound) (B : Board L)
    (dear : L.callbacks * (bound + 1) ≤ price) (grounded : s.links.Grounded)
    (few : s.entriesLeft ≤ bound) (command : Command L) :
    ∃ effect, B.execWith clients s command = some effect ∧
      Spends price s effect.state 1 (callCount effect.events) := by
  cases command with
  | operation operation => exact ⟨_, rfl, Board.spends_operate grounded price operation⟩
  | dispatch r pins =>
      obtain ⟨t, firings, done, spends⟩ := thrifty.dispatch B dear grounded few r pins
      refine ⟨{ state := t, events := firings.flatMap Firing.events }, ?_, spends⟩
      rw [Board.execWith, done]
      rfl
  | service c =>
      obtain ⟨t, events, done, spends⟩ := thrifty.service B dear grounded few c
      refine ⟨{ state := t, events := events }, ?_, spends⟩
      rw [Board.execWith, done]
      rfl
  | raise irq =>
      simp only [Board.execWith]
      split
      · exact ⟨_, rfl, .refl price grounded 1⟩
      · rename_i c receiver
        let delivered : State L := { s with interrupts := { s.interrupts with pending := irq } }
        obtain ⟨t, events, done, spends⟩ :=
          thrifty.service (s := delivered) B dear grounded few c
        refine ⟨{ state := t, events := events, reply := .answer (.flag true) }, ?_,
          spends.grounded, spends.entries, spends.paid⟩
        rw [done]
        rfl

theorem runEntry (thrifty : Thrifty clients price bound) (B : Board L)
    (dear : L.callbacks * (bound + 1) ≤ price) (grounded : s.links.Grounded)
    (few : s.entriesLeft ≤ bound) (entry : List (Command L)) :
    ∃ t events, Board.runEntry (B.execWith clients) entry s = some (t, events) ∧
      Spends price s t entry.length (callCount events) := by
  induction entry generalizing s with
  | nil => exact ⟨s, [], rfl, .refl price grounded 0⟩
  | cons command rest ih =>
      obtain ⟨effect, executed, first⟩ := thrifty.execWith B dear grounded few command
      obtain ⟨t, events, done, second⟩ := ih first.grounded (Nat.le_trans first.entries few)
      refine ⟨t, effect.events ++ .did effect.reply :: events, ?_, ?_⟩
      · simp only [Board.runEntry, executed, done, Option.bind_eq_bind, Option.bind_some]
        rfl
      · have same : callCount (.did effect.reply :: events) = callCount events :=
          List.countP_cons_of_neg Bool.false_ne_true
        rw [callCount_append, same, List.length_cons, Nat.add_comm rest.length]
        exact first.trans second

end Thrifty

namespace Board

/-- Scripted clients are thrifty on boards with no more entries left than calls may nest. -/
theorem thrifty_clientsAt (B : Board L) {price depth : Nat}
    (dear : L.callbacks * (depth + 1) ≤ price) : Thrifty (B.clientsAt depth) price depth := by
  induction depth with
  | zero =>
      intro call s grounded few
      simp only [clientsAt]
      split
      · exact ⟨s, [], rfl, .refl price grounded 0, Or.inl rfl⟩
      · rename_i taken
        have left := State.entriesLeft_takeNext? taken
        omega
  | succ depth ih =>
      intro call s grounded few
      simp only [clientsAt]
      split
      · exact ⟨s, [], rfl, .refl price grounded 0, Or.inl rfl⟩
      · rename_i entry taken used
        have left := State.entriesLeft_takeNext? used
        have steps := State.stepsLeft_takeNext? used
        have less : L.callbacks * (depth + 1) ≤ price :=
          Nat.le_trans (Nat.mul_le_mul_left _ (Nat.le_succ _)) dear
        obtain ⟨t, events, done, spends⟩ := (ih less).runEntry B less
          (State.links_takeNext? used ▸ grounded) (by omega) entry
        have fewer := spends.entries
        refine ⟨t, events, done, ⟨spends.grounded, by omega, ?_⟩, Or.inr (by omega)⟩
        rw [steps, Nat.add_zero, Nat.add_comm entry.length]
        exact spends.paid

/-- A dispatch to scripted clients ends. -/
theorem exists_dispatch (B : Board L) {s : State L} {depth : Nat} (grounded : s.links.Grounded)
    (few : s.entriesLeft ≤ depth) (r : Fin L.lists) (pins : Word) :
    ∃ t firings, B.dispatch (B.clientsAt depth) r pins s = some (t, firings) := by
  obtain ⟨t, firings, done, _⟩ := (B.thrifty_clientsAt (Nat.le_refl _)).dispatch B
    (Nat.le_refl _) grounded few r pins
  exact ⟨t, firings, done⟩

/-- In every state of a session every command is carried out to its end. All the calls that it
makes, nested ones included, are no more than the callbacks, times the script entries left and
one, times the commands in these entries and one. -/
theorem Reachable.exec_calls_le {B : Board L} {s : State L} (reachable : B.Reachable s)
    (command : Command L) :
    ∃ effect, B.exec s command = some effect ∧
      (∃ deeds, B.Runs ⟨s, [.commands [command]]⟩ deeds ⟨effect.state, [.commands []]⟩) ∧
      callCount effect.events ≤ L.callbacks * (s.entriesLeft + 1) * (s.stepsLeft + 1) := by
  obtain ⟨effect, executed, spends⟩ := (B.thrifty_clientsAt (Nat.le_refl _)).execWith B
    (Nat.le_refl _) reachable.grounded (Nat.le_refl _) command
  exact ⟨effect, executed, Runs.exec executed [] [],
    Nat.le_trans (Nat.le_add_right _ _) spends.paid⟩

/-- The client of two callbacks moves the first one to the end and dispatches again, and then
moves the other one to the end. -/
theorem exec_calls_le_sharedBoard :
    ∃ s : State sharedLayout, (sharedBoard 0).Reachable s ∧ s.entriesLeft = 2 ∧
      s.stepsLeft = 5 ∧ ∃ effect, (sharedBoard 0).exec s (.dispatch 0 1) = some effect ∧
        callCount effect.events = 3 ∧ callCount effect.events ≤ 3 * (2 + 1) * (5 + 1) := by
  have reachable : (sharedBoard 0).Reachable _ :=
    ⟨#v[], #v[1, 1, 1], #v[[[sharedEdit 0 (.manage 0 false), sharedEdit 0 (.register 0),
        .dispatch 0 1], [sharedEdit 0 (.manage 1 false), sharedEdit 0 (.register 1)]]],
      [sharedEdit 0 (.register 0), sharedEdit 0 (.register 1)], _, _,
      .step (.operate _ _ _ _) <| .step (.operate _ _ _ _) <| .refl _⟩
  obtain ⟨effect, executed, _, few⟩ := reachable.exec_calls_le (.dispatch 0 1)
  have calls := congrArg (Option.map fun effect => callCount effect.events) executed
  exact ⟨_, reachable, by decide +kernel, by decide +kernel, effect, executed,
    Option.some.inj (calls.symm.trans (by decide +kernel)), few⟩

end Board

end Gpio
