import Mathlib.Data.List.Basic

/-!
# Characters of a text

Properties of all characters of a text are decided along the text, not over all characters there
are.
-/

set_option autoImplicit false
set_option relaxedAutoImplicit false

namespace Cecore.Library

instance decidableForallMem {p : Char → Prop} [DecidablePred p] (text : List Char) :
    Decidable (∀ c ∈ text, p c) := List.decidableBAll p text

instance decidableExistsMem {p : Char → Prop} [DecidablePred p] (text : List Char) :
    Decidable (∃ c ∈ text, p c) := List.decidableBEx p text

end Cecore.Library
