import Gpio.Proofs.Board.History

/-!
# Dispatches under way

A dispatch under way calls a callback later if it has it ahead, and not if it skips it. Once it
skips a callback it does so until that callback is registered again, whatever the clients do
(`Passes.skips`). A callback that it has ahead stays ahead until its turn comes, unless it is
removed or cut off: by the registration of another one, on which the dispatch stands or which it
has ahead too (`Machine.CutsOff`).
-/

namespace Gpio

open Links

variable {L : Layout} {B : Board L} {depth : Nat} {callback : Fin L.callbacks}

namespace Machine

/-- The dispatch of this depth is under way and does not have the callback ahead. -/
def Skips (m : Machine L) (depth : Nat) (callback : Fin L.callbacks) : Prop :=
  ∃ pins link, m.dispatch? depth = some (pins, link) ∧ callback ∉ m.state.links.ahead link

/-- The dispatch of this depth has the callback ahead, and with the next step another one is
registered on which the dispatch stands or that it has ahead too. -/
def CutsOff (B : Board L) (m : Machine L) (depth : Nat) (callback : Fin L.callbacks) : Prop :=
  ∃ place ∈ m.dispatch? depth, callback ∈ m.state.links.ahead place.2 ∧
    ∃ other, m.Enters B other ∧ .next other ∈ trail place.2 (m.state.links.ahead place.2)

/-- A dispatch does not itself call a callback that it skips. -/
theorem Skips.callback_ne {m : Machine L} (skips : m.Skips depth callback)
    (grounded : m.state.links.Grounded) (top : m.tasks.length = depth + 1) {call : Call L}
    (calls : m.call? B = some call) : call.callback ≠ callback := by
  obtain ⟨pins, link, dispatches, clear⟩ := skips
  obtain ⟨others, place, tasks, walk, found⟩ := exists_walk_of_call? calls
  rw [walk, List.length_cons] at top
  obtain rfl := Nat.succ.inj top
  obtain ⟨rfl, rfl⟩ := Prod.mk.inj
    (Option.some.inj (dispatches.symm.trans (dispatch?_of_walk walk)))
  rintro rfl
  exact clear (grounded.ahead_of_read found ▸ List.mem_cons_self)

theorem CutsOff.call?_eq_none {m : Machine L} (cut : m.CutsOff B depth callback) :
    m.call? B = none := by
  obtain ⟨_, _, _, _, enters, _⟩ := cut
  exact call?_eq_none_of_enters enters

theorem CutsOff.not_skips {m : Machine L} (cut : m.CutsOff B depth callback) :
    ¬m.Skips depth callback := by
  obtain ⟨_, dispatches, mem, _⟩ := cut
  rintro ⟨pins, link, same, clear⟩
  obtain rfl := Option.some.inj (same.symm.trans dispatches)
  exact clear mem

end Machine

namespace Board

variable {m next last : Machine L} {deeds : List (Deed L)} {history : List (Machine L)}
  {link : Link L.lists L.callbacks} {pins : Word}

/-! ## One step -/

namespace Step

theorem notMem_ahead (step : B.Step m deeds next) (grounded : m.state.links.Grounded)
    (away : ¬m.Enters B callback) (clear : callback ∉ m.state.links.ahead link) :
    callback ∉ next.state.links.ahead link := by
  rw [step.links_eq]
  split
  · rename_i change edits
    exact RegistryChange.notMem_ahead_apply grounded (fun enters => away ⟨change, edits, enters⟩)
      clear
  · exact clear

theorem mem_ahead (step : B.Step m deeds next) (grounded : m.state.links.Grounded)
    (stays : ¬m.Leaves B callback)
    (uncut : ∀ other, m.Enters B other → .next other ∉ trail link (m.state.links.ahead link))
    (mem : callback ∈ m.state.links.ahead link) : callback ∈ next.state.links.ahead link := by
  rw [step.links_eq]
  split
  · rename_i change edits
    exact RegistryChange.mem_ahead_apply grounded (fun leaves => stays ⟨change, edits, leaves⟩)
      (fun other enters => uncut other ⟨change, edits, enters⟩) mem
  · exact mem

theorem notMem_ahead_of_cut (step : B.Step m deeds next) (grounded : m.state.links.Grounded)
    (admits : ∀ change ∈ m.change?, Rolls.Admits m.state.links.walk change)
    {other : Fin L.callbacks} (enters : m.Enters B other)
    (cut : .next other ∈ trail link (m.state.links.ahead link)) {r : Fin L.lists}
    (inside : callback ∈ m.state.links.walk r) : callback ∉ next.state.links.ahead link := by
  obtain ⟨change, edits, enters⟩ := enters
  have apart : other ∉ m.state.links.walk r := by
    by_cases same : r = change.registry
    · exact same ▸ enters.1
    · exact admits change edits other (enters.apply_eq grounded).1 r same
  rw [step.links_eq, Option.mem_def.mp edits]
  exact enters.notMem_ahead_apply grounded cut inside apart

theorem mem_walk (step : B.Step m deeds next) (grounded : m.state.links.Grounded)
    (stays : ¬m.Leaves B callback)
    (admits : ∀ change ∈ m.change?, Rolls.Admits m.state.links.walk change) {r : Fin L.lists}
    (inside : callback ∈ m.state.links.walk r) : callback ∈ next.state.links.walk r := by
  rw [step.links_eq]
  split
  · rename_i change edits
    exact RegistryChange.mem_walk_apply grounded (fun leaves => stays ⟨change, edits, leaves⟩)
      (admits change edits) inside
  · exact inside

/-- A dispatch that skips a callback goes on doing so as long as it is under way. -/
theorem skips (step : B.Step m deeds next) (grounded : m.state.links.Grounded)
    (away : ¬m.Enters B callback) (skips : m.Skips depth callback)
    (underWay : depth < next.tasks.length) : next.Skips depth callback := by
  obtain ⟨pins, link, dispatches, clear⟩ := skips
  cases step.progress dispatches with
  | within _ still => exact ⟨pins, link, still, step.notMem_ahead grounded away clear⟩
  | stop tasks _ below _ ended => exact absurd (ended ▸ underWay) (below ▸ Nat.lt_irrefl _)
  | turn tasks found _ _ read links moved =>
      refine ⟨pins, _, moved, fun mem => clear ?_⟩
      rw [grounded.ahead_of_read read]
      exact List.mem_cons_of_mem found (links ▸ mem)

/-- A callback that is called by a dispatch is behind it then. -/
theorem skips_of_call (step : B.Step m deeds next) (grounded : m.state.links.Grounded)
    (top : m.tasks.length = depth + 1) {call : Call L} (calls : m.call? B = some call) :
    next.Skips depth call.callback := by
  obtain ⟨pins, link, tasks, walk, found⟩ := Machine.exists_walk_of_call? calls
  rw [walk, List.length_cons] at top
  obtain rfl := Nat.succ.inj top
  cases step.progress (Machine.dispatch?_of_walk walk) with
  | within deeper _ =>
      rw [walk, List.length_cons] at deeper
      exact absurd deeper (Nat.lt_irrefl _)
  | stop _ _ _ empty _ => exact nomatch empty.symm.trans found
  | turn _ other _ _ read links moved =>
      obtain rfl := Option.some.inj (found.symm.trans read)
      exact ⟨pins, _, moved, links ▸ grounded.notMem_ahead_next call.callback⟩

/-- A dispatch skips the callbacks of a registry from then on that it has been cut off from. -/
theorem skips_of_cutsOff (step : B.Step m deeds next) (grounded : m.state.links.Grounded)
    (admits : ∀ change ∈ m.change?, Rolls.Admits m.state.links.walk change)
    (cut : m.CutsOff B depth callback) {r : Fin L.lists}
    (inside : callback ∈ m.state.links.walk r) : next.Skips depth callback := by
  obtain ⟨⟨pins, link⟩, dispatches, _, other, enters, meets⟩ := cut
  have clear := step.notMem_ahead_of_cut grounded admits enters meets inside
  obtain ⟨change, edits, _⟩ := enters
  exact ⟨pins, link, step.dispatch?_of_edit edits dispatches, clear⟩

end Step

/-- A callback cannot enter while it is in a registry. -/
theorem not_enters_of_mem_walk (grounded : m.state.links.Grounded)
    (admits : ∀ change ∈ m.change?, Rolls.Admits m.state.links.walk change) {r : Fin L.lists}
    (inside : callback ∈ m.state.links.walk r) : ¬m.Enters B callback := by
  rintro ⟨change, edits, enters⟩
  by_cases same : r = change.registry
  · exact enters.1 (same ▸ inside)
  · exact admits change edits callback (enters.apply_eq grounded).1 r same inside

/-! ## Histories -/

namespace Passes

theorem notMem_ahead (passes : B.Passes m history last) (grounded : m.state.links.Grounded)
    (away : ∀ n ∈ history, ¬n.Enters B callback) (clear : callback ∉ m.state.links.ahead link) :
    callback ∉ last.state.links.ahead link := by
  induction passes with
  | refl _ => exact clear
  | step step _ ih =>
      obtain ⟨awayNow, away⟩ := List.forall_mem_cons.mp away
      exact ih (step.grounded grounded) away (step.notMem_ahead grounded awayNow clear)

/-- A dispatch that skips a callback does so in all that follows. -/
theorem skips (passes : B.Passes m history last) (grounded : m.state.links.Grounded)
    (away : ∀ n ∈ history, ¬n.Enters B callback)
    (underWay : ∀ n ∈ history, depth < n.tasks.length) (skips : m.Skips depth callback) :
    ∀ n ∈ history, n.Skips depth callback := by
  induction passes with
  | refl _ => exact nofun
  | @step m next last deeds history step passes ih =>
      intro n mem
      rcases List.mem_cons.mp mem with rfl | mem
      · exact skips
      · cases passes with
        | refl _ => exact nomatch mem
        | step onward passes =>
            have under := underWay next (List.mem_cons_of_mem m List.mem_cons_self)
            exact ih (step.grounded grounded)
              (fun n mem => away n (List.mem_cons_of_mem m mem))
              (fun n mem => underWay n (List.mem_cons_of_mem m mem))
              (step.skips grounded (away m List.mem_cons_self) skips under) n mem

/-- A dispatch that skips a callback does not itself call it in all that follows. -/
theorem notMem_ownCalls_of_skips (passes : B.Passes m history last)
    (grounded : m.state.links.Grounded) (away : ∀ n ∈ history, ¬n.Enters B callback)
    (underWay : ∀ n ∈ history, depth < n.tasks.length) (skips : m.Skips depth callback) :
    callback ∉ (B.ownCalls depth history).map Call.callback := by
  intro called
  obtain ⟨call, own, same⟩ := List.mem_map.mp called
  obtain ⟨n, met, top, calls⟩ := mem_ownCalls.mp own
  have skipping := passes.skips grounded away underWay skips n met
  exact skipping.callback_ne (passes.grounded_of_mem grounded n met) top calls same

/-- A dispatch that skips a callback does not call it in the time that is left to it. -/
theorem notMem_ownCalls_during (passes : B.Passes m history last)
    (grounded : m.state.links.Grounded) (away : ∀ n ∈ history, ¬n.Enters B callback)
    (skips : m.Skips depth callback) :
    callback ∉ (B.ownCalls depth (Board.during depth history)).map Call.callback := by
  obtain ⟨middle, passes⟩ := passes.during depth
  exact passes.notMem_ownCalls_of_skips grounded
    (fun n mem => away n (during_subset depth history mem)) underWay_of_mem_during skips

/-- A callback that does not enter is called at most once by a dispatch itself. -/
theorem count_ownCalls_le_one (passes : B.Passes m history last)
    (grounded : m.state.links.Grounded) (away : ∀ n ∈ history, ¬n.Enters B callback)
    (underWay : ∀ n ∈ history, depth < n.tasks.length) :
    ((B.ownCalls depth history).map Call.callback).count callback ≤ 1 := by
  induction passes with
  | refl _ => exact Nat.zero_le 1
  | @step m next last deeds history step passes ih =>
      obtain ⟨_, away⟩ := List.forall_mem_cons.mp away
      obtain ⟨_, underWay⟩ := List.forall_mem_cons.mp underWay
      have groundedNext := step.grounded grounded
      have later := ih groundedNext away underWay
      by_cases top : m.tasks.length = depth + 1
      · rw [ownCalls_cons_of_top history top]
        cases calls : m.call? B with
        | none => exact later
        | some call =>
            by_cases same : call.callback = callback
            · -- The callback is behind the dispatch now, and does not come ahead again.
              have behind : next.Skips depth callback :=
                same ▸ step.skips_of_call grounded top calls
              have absent := passes.notMem_ownCalls_of_skips groundedNext away underWay behind
              simp [same, List.count_eq_zero_of_not_mem absent]
            · simpa [same] using later
      · rwa [ownCalls_cons_of_ne history top]

/-- A callback that stays in a registry and is not cut off is called by a dispatch that has it
ahead and comes to its end. -/
theorem callOf_mem_ownCalls (passes : B.Passes m history last) (grounded : m.state.links.Grounded)
    (ended : last.tasks.length ≤ depth) (dispatches : m.dispatch? depth = some (pins, link))
    (stays : ∀ n ∈ history, ¬n.Leaves B callback) {mask : Word} (listens : mask &&& pins ≠ 0)
    (masks : ∀ n ∈ history, n.state.mask callback = mask)
    (uncut : ∀ n ∈ history, ¬n.CutsOff B depth callback)
    (mem : callback ∈ m.state.links.ahead link) :
    B.callOf callback (mask &&& pins) ∈ B.ownCalls depth history := by
  induction passes generalizing link with
  | refl m =>
      have inside := Machine.lt_length_of_dispatch? dispatches
      omega
  | @step m next last deeds history step passes ih =>
      obtain ⟨staysNow, stays⟩ := List.forall_mem_cons.mp stays
      obtain ⟨maskNow, masks⟩ := List.forall_mem_cons.mp masks
      obtain ⟨uncutNow, uncut⟩ := List.forall_mem_cons.mp uncut
      have groundedNext := step.grounded grounded
      cases step.progress dispatches with
      | within deeper still =>
          have kept : callback ∈ next.state.links.ahead link := by
            refine step.mem_ahead grounded staysNow ?_ mem
            intro other enters cut
            exact uncutNow ⟨(pins, link), dispatches, mem, other, enters, cut⟩
          rw [ownCalls_cons_of_ne history (Nat.ne_of_gt deeper)]
          exact ih groundedNext ended still stays masks uncut kept
      | stop tasks _ _ empty _ =>
          rw [ahead_of_read_eq_none empty] at mem
          exact nomatch mem
      | turn tasks found top below read links moved =>
          rw [ownCalls_cons_of_turn history top below read]
          rw [grounded.ahead_of_read read, List.mem_cons] at mem
          rcases mem with rfl | mem
          · rw [maskNow, if_neg listens]
            exact List.mem_cons_self
          · have later := ih groundedNext ended moved stays masks uncut (links ▸ mem)
            split
            · exact later
            · exact List.mem_cons_of_mem _ later

/-- In a session in which no callback is in two registries, one that does not leave its
registry stays in it. -/
theorem mem_walk (passes : B.Passes m history last) (grounded : m.state.links.Grounded)
    (stays : ∀ n ∈ history, ¬n.Leaves B callback)
    (admits : ∀ n ∈ history, ∀ change ∈ n.change?, Rolls.Admits n.state.links.walk change)
    {r : Fin L.lists} (inside : callback ∈ m.state.links.walk r) :
    ∀ n ∈ history, callback ∈ n.state.links.walk r := by
  induction passes with
  | refl _ => exact nofun
  | @step m next last deeds history step _ ih =>
      obtain ⟨staysNow, stays⟩ := List.forall_mem_cons.mp stays
      obtain ⟨admitsNow, admits⟩ := List.forall_mem_cons.mp admits
      have kept := step.mem_walk grounded staysNow admitsNow inside
      exact List.forall_mem_cons.mpr ⟨inside, ih (step.grounded grounded) stays admits kept⟩

/-- Nor does it enter any registry. -/
theorem not_enters (passes : B.Passes m history last) (grounded : m.state.links.Grounded)
    (stays : ∀ n ∈ history, ¬n.Leaves B callback)
    (admits : ∀ n ∈ history, ∀ change ∈ n.change?, Rolls.Admits n.state.links.walk change)
    {r : Fin L.lists} (inside : callback ∈ m.state.links.walk r) :
    ∀ n ∈ history, ¬n.Enters B callback := fun n mem =>
  not_enters_of_mem_walk (passes.grounded_of_mem grounded n mem) (admits n mem)
    (passes.mem_walk grounded stays admits inside n mem)

/-- A callback that stays in a registry and is cut off is not called by the dispatch itself,
neither before nor after. -/
theorem notMem_ownCalls_of_cutsOff (passes : B.Passes m history last)
    (grounded : m.state.links.Grounded) (underWay : ∀ n ∈ history, depth < n.tasks.length)
    (stays : ∀ n ∈ history, ¬n.Leaves B callback)
    (admits : ∀ n ∈ history, ∀ change ∈ n.change?, Rolls.Admits n.state.links.walk change)
    {r : Fin L.lists} (inside : callback ∈ m.state.links.walk r)
    {n : Machine L} (met : n ∈ history) (cut : n.CutsOff B depth callback) :
    callback ∉ (B.ownCalls depth history).map Call.callback := by
  induction passes with
  | refl _ => exact nomatch met
  | @step m next last deeds history step passes ih =>
      obtain ⟨staysNow, stays⟩ := List.forall_mem_cons.mp stays
      obtain ⟨admitsNow, admits⟩ := List.forall_mem_cons.mp admits
      obtain ⟨_, under⟩ := List.forall_mem_cons.mp underWay
      have groundedNext := step.grounded grounded
      have kept := step.mem_walk grounded staysNow admitsNow inside
      have away := passes.not_enters groundedNext stays admits kept
      intro called
      obtain ⟨call, own, same⟩ := List.mem_map.mp called
      rcases List.mem_cons.mp met with rfl | later <;>
        rcases mem_ownCalls_cons.mp own with ⟨top, calls⟩ | own
      · exact nomatch cut.call?_eq_none.symm.trans calls
      · have behind := step.skips_of_cutsOff grounded admitsNow cut inside
        exact passes.notMem_ownCalls_of_skips groundedNext away under behind
          (List.mem_map.mpr ⟨call, own, same⟩)
      · have behind : next.Skips depth callback := same ▸ step.skips_of_call grounded top calls
        exact cut.not_skips (passes.skips groundedNext away under behind n later)
      · exact ih groundedNext under stays admits kept later (List.mem_map.mpr ⟨call, own, same⟩)

end Passes

end Board

end Gpio
