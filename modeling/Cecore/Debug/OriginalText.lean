import Cecore.Debug.Turns

/-!
# The original text

However breakpoints are set and removed and threads continued and stepped, the target's text is the
original one but for an int3 at each armed breakpoint, and after a detach it is the original one.
-/

set_option autoImplicit false
set_option relaxedAutoImplicit false

namespace Cecore.Debug.DebugSession

variable {k : Kernel} {original : ℕ → UInt8} {s : DebugSession}

theorem intact_run (h : Intact k original s) (inputs : List Input) :
    Intact k original (run k s inputs) := by
  induction inputs generalizing s with
  | nil => exact h
  | cons input rest ih => exact ih (intact_step h input)

/-- After any inputs, and also between the steps over breakpoints that resuming all threads takes,
the text is the original text with an int3 at exactly the armed addresses. Every breakpoint keeps
the byte of the original text, and a session that is not attached leaves the original text. -/
theorem text_run (k : Kernel) (original : ℕ → UInt8) (inputs : List Input) :
    (∀ (tids : List ℕ) address, (tids.foldl (fun s tid ↦ (stepThreadOverBp k tid s).1)
        (run k (DebugSession.new original) inputs)).text address =
      if address ∈ (run k (DebugSession.new original) inputs).armedAddresses then 0xCC
      else original address) ∧
    (∀ bp ∈ (run k (DebugSession.new original) inputs).softBreakpoints,
      bp.originalByte = original bp.address) ∧
    ((run k (DebugSession.new original) inputs).attached = false →
      (run k (DebugSession.new original) inputs).text = original) := by
  have hintact := intact_run (intact_new k original) inputs
  refine ⟨?_, hintact.stored, fun hdetached ↦ ?_⟩
  · intro tids address
    have hstepped := moves_foldl (fun s tid hs ↦ moves_stepThreadOverBp hs tid) tids
      hintact.toCodeBytes
    rw [hstepped.text, hintact.text]
    simp only [mem_armedAddresses]
  · exact hintact.toCodeBytes.text_eq (hintact.detached hdetached)

end Cecore.Debug.DebugSession
