import Gpio.PinConfig.Basic

/-!
# Sequences of register writes

What an initialization and a configuration leave in a block: cleared registers hold no bit
(`Block.isSet_writeAll_resets`), and a pin that is given bits, one in each of some registers,
has these, while its other bits and all other pins are as before
(`Block.isSet_writeAll_bits`).
-/

namespace Gpio

namespace Block

variable {words : Nat} (b : Block words) (m : Memory words)

theorem isSet_write_reset (r s : Register) (p : Pin) :
    b.isSet (b.write m (.reset r)) s p =
      if r.isWritable ∧ r = s then false else b.isSet m s p := by
  rw [isSet, read_write]
  by_cases changed : r.isWritable ∧ r = s
  · rw [RegisterWrite.register, if_pos changed, if_pos changed]
    exact Word.bit_zero p
  · rw [RegisterWrite.register, if_neg changed, if_neg changed, isSet]

theorem isSet_writeAll_resets {registers : List Register}
    (writable : ∀ r ∈ registers, r.isWritable) (s : Register) (p : Pin) :
    b.isSet (b.writeAll m (registers.map .reset)) s p =
      if s ∈ registers then false else b.isSet m s p := by
  induction registers generalizing m with
  | nil => rfl
  | cons r rest ih =>
      have first := writable r List.mem_cons_self
      have later := ih (b.write m (.reset r)) fun other mem =>
        writable other (List.mem_cons_of_mem r mem)
      refine later.trans ?_
      rw [isSet_write_reset]
      by_cases inRest : s ∈ rest
      · rw [if_pos inRest, if_pos (List.mem_cons_of_mem r inRest)]
      · by_cases same : r = s
        · rw [if_neg inRest, if_pos ⟨first, same⟩, if_pos (same ▸ List.mem_cons_self)]
        · have other : s ∉ r :: rest := by
            rintro (_ | ⟨_, mem⟩)
            · exact same rfl
            · exact inRest mem
          rw [if_neg inRest, if_neg fun both => same both.2, if_neg other]

theorem isSet_writeAll_bits {settings : List (Register × Bool)}
    (distinct : (settings.map Prod.fst).Nodup)
    (writable : ∀ r ∈ settings.map Prod.fst, r.isWritable) (p q : Pin) (s : Register) :
    b.isSet (b.writeAll m (settings.map fun setting => .bit setting.1 p setting.2)) s q =
      if p = q then (settings.lookup s).getD (b.isSet m s q) else b.isSet m s q := by
  induction settings generalizing m with
  | nil => simp [writeAll]
  | cons setting rest ih =>
      obtain ⟨r, value⟩ := setting
      obtain ⟨fresh, distinct⟩ := List.nodup_cons.mp distinct
      have first : r.isWritable := writable r List.mem_cons_self
      have later := ih (b.write m (.bit r p value)) distinct fun other mem =>
        writable other (List.mem_cons_of_mem r mem)
      refine later.trans ?_
      rw [isSet_write_bit]
      by_cases pin : p = q
      · by_cases same : r = s
        · -- No later setting is about this register.
          have unset : rest.lookup s = none := by
            rw [List.lookup_eq_none_iff]
            rintro ⟨other, _⟩ mem
            have again : other ∈ rest.map Prod.fst := List.mem_map_of_mem mem
            have different : s ≠ other := fun found => fresh (same.trans found ▸ again)
            exact bne_iff_ne.mpr different
          rw [if_pos pin, if_pos ⟨first, same, pin⟩, unset, if_pos pin, same, List.lookup_cons_self]
          rfl
        · rw [if_pos pin, if_neg fun all => same all.2.1, if_pos pin, List.lookup_cons,
            beq_eq_false_iff_ne.mpr (Ne.symm same)]
      · rw [if_neg pin, if_neg fun all => pin all.2.2, if_neg pin]

end Block

namespace PinConfig

/-- A configuration gives no bit twice. -/
theorem nodup_settings (config : PinConfig) : (config.settings.map Prod.fst).Nodup := by
  rcases config with ⟨_ | _, _, _, _ | _ | _⟩ <;>
    simp [settings, directionSettings, Trigger.settings]

/-- A configuration gives bits in registers that an initialization clears. -/
theorem mem_cleared_of_mem_settings (config : PinConfig) :
    ∀ setting ∈ config.settings, setting.1 ∈ Register.cleared := by
  rcases config with ⟨_ | _, _, _, _ | _ | _⟩ <;>
    simp [settings, directionSettings, Trigger.settings, Register.cleared]

/-- What a configuration of one pin leaves in every register for every pin. -/
theorem isSet_writeAll_writes {words : Nat} (b : Block words) (m : Memory words)
    (config : PinConfig) (p q : Pin) (r : Register) :
    b.isSet (b.writeAll m (config.writes p)) r q =
      if p = q then (config.settings.lookup r).getD (b.isSet m r q) else b.isSet m r q := by
  have writable : ∀ s ∈ Register.cleared, s.isWritable := by decide
  refine b.isSet_writeAll_bits m config.nodup_settings ?_ p q r
  intro s mem
  obtain ⟨setting, inside, rfl⟩ := List.mem_map.mp mem
  exact writable _ (config.mem_cleared_of_mem_settings setting inside)

end PinConfig

end Gpio
