import Cecore.Debug.Session

/-!
# The bytes of the code

`CodeBytes` says that the text of the target is the original text with an int3 at exactly the armed
breakpoints. The lemmas follow a byte that is lifted and planted again, or planted and cleared, and
the two commands that change the set of breakpoints.
-/

set_option autoImplicit false
set_option relaxedAutoImplicit false

namespace Cecore.Debug

namespace DebugSession

/-- The text is the original one but for an int3 at each armed breakpoint, and every breakpoint has
the byte it replaced. -/
structure CodeBytes (k : Kernel) (original : ℕ → UInt8) (s : DebugSession) : Prop where
  text : ∀ address, s.text address =
    if (s.armedAt address).isSome then 0xCC else original address
  stored : ∀ bp ∈ s.softBreakpoints, bp.originalByte = original bp.address
  active : ∀ bp ∈ s.softBreakpoints, bp.active = true
  mapped : ∀ bp ∈ s.softBreakpoints, k.mapped bp.address = true
  nodup : (s.softBreakpoints.map SoftBp.address).Nodup

variable {k : Kernel} {original : ℕ → UInt8} {s s' : DebugSession} {address : ℕ}

/-! ### Armed breakpoints -/

theorem armedAt_congr (h : s'.softBreakpoints = s.softBreakpoints) (address : ℕ) :
    s'.armedAt address = s.armedAt address := by
  rw [armedAt, armedAt, h]

/-- An armed breakpoint is one of the session's and sits at its address. -/
theorem mem_of_armedAt {bp : SoftBp} (h : s.armedAt address = some bp) :
    bp ∈ s.softBreakpoints ∧ bp.address = address ∧ bp.active = true := by
  obtain ⟨hfind, hactive⟩ := Option.filter_eq_some_iff.mp h
  exact ⟨List.mem_of_find?_eq_some hfind, by simpa using List.find?_some hfind, hactive⟩

theorem mem_armedAddresses : address ∈ s.armedAddresses ↔ (s.armedAt address).isSome := by
  rw [armedAddresses, List.mem_filter]
  constructor
  · exact fun h ↦ h.2
  · intro harmed
    obtain ⟨bp, hbp⟩ := Option.isSome_iff_exists.mp harmed
    obtain ⟨hmem, haddress, -⟩ := mem_of_armedAt hbp
    exact ⟨List.mem_map.mpr ⟨bp, hmem, haddress⟩, harmed⟩

/-- A breakpoint is armed at its address. -/
theorem armedAt_of_mem (hactive : ∀ bp ∈ s.softBreakpoints, bp.active = true)
    (hnodup : (s.softBreakpoints.map SoftBp.address).Nodup) {bp : SoftBp}
    (hbp : bp ∈ s.softBreakpoints) : s.armedAt bp.address = some bp := by
  have hfind : s.softBreakpoints.find? (fun other ↦ decide (other.address = bp.address)) =
      some bp := by
    cases hfound : s.softBreakpoints.find? fun other ↦ decide (other.address = bp.address) with
    | none =>
      have hmiss := List.find?_eq_none.mp hfound bp hbp
      simp at hmiss
    | some other =>
      have haddress : other.address = bp.address := by simpa using List.find?_some hfound
      have hother := List.mem_of_find?_eq_some hfound
      rw [List.inj_on_of_nodup_map hnodup hother hbp haddress]
  rw [armedAt, hfind]
  exact Option.filter_eq_some_iff.mpr ⟨rfl, hactive bp hbp⟩

theorem armedAt_eq_none (hfree : ∀ bp ∈ s.softBreakpoints, bp.address ≠ address) :
    s.armedAt address = none := by
  rw [armedAt, List.find?_eq_none.mpr (by simpa using hfree)]
  rfl

namespace CodeBytes

theorem congr (h : CodeBytes k original s) (htext : s'.text = s.text)
    (hsame : s'.softBreakpoints = s.softBreakpoints) : CodeBytes k original s' where
  text := by
    intro address
    rw [htext, armedAt_congr hsame]
    exact h.text address
  stored := hsame ▸ h.stored
  active := hsame ▸ h.active
  mapped := hsame ▸ h.mapped
  nodup := hsame ▸ h.nodup

theorem planted (h : CodeBytes k original s) {bp : SoftBp} (hbp : bp ∈ s.softBreakpoints) :
    s.text bp.address = 0xCC := by
  rw [h.text, armedAt_of_mem h.active h.nodup hbp]
  rfl

theorem untouched (h : CodeBytes k original s)
    (hfree : ∀ bp ∈ s.softBreakpoints, bp.address ≠ address) :
    s.text address = original address := by
  rw [h.text, armedAt_eq_none hfree]
  rfl

/-- The text may be checked breakpoint by breakpoint. -/
theorem of_bytes (hplanted : ∀ bp ∈ s.softBreakpoints, s.text bp.address = 0xCC)
    (huntouched : ∀ address, (∀ bp ∈ s.softBreakpoints, bp.address ≠ address) →
      s.text address = original address)
    (hstored : ∀ bp ∈ s.softBreakpoints, bp.originalByte = original bp.address)
    (hactive : ∀ bp ∈ s.softBreakpoints, bp.active = true)
    (hmapped : ∀ bp ∈ s.softBreakpoints, k.mapped bp.address = true)
    (hnodup : (s.softBreakpoints.map SoftBp.address).Nodup) : CodeBytes k original s where
  text := by
    intro address
    by_cases hsome : ∃ bp ∈ s.softBreakpoints, bp.address = address
    · obtain ⟨bp, hbp, rfl⟩ := hsome
      rw [armedAt_of_mem hactive hnodup hbp]
      exact hplanted bp hbp
    · have hfree : ∀ bp ∈ s.softBreakpoints, bp.address ≠ address :=
        fun bp hbp haddress ↦ hsome ⟨bp, hbp, haddress⟩
      rw [armedAt_eq_none hfree]
      exact huntouched address hfree
  stored := hstored
  active := hactive
  mapped := hmapped
  nodup := hnodup

/-- A session without breakpoints sees the original text. -/
theorem text_eq (h : CodeBytes k original s) (hnone : s.softBreakpoints = []) :
    s.text = original := by
  funext address
  exact h.untouched (by simp [hnone])

theorem new (k : Kernel) (text : ℕ → UInt8) : CodeBytes k text (DebugSession.new text) where
  text := fun _ ↦ rfl
  stored := by simp [DebugSession.new]
  active := by simp [DebugSession.new]
  mapped := by simp [DebugSession.new]
  nodup := List.nodup_nil

end CodeBytes

end DebugSession

end Cecore.Debug
