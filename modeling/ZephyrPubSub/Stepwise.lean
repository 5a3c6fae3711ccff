import ZephyrPubSub.Contexts
import ZephyrPubSub.Outcome
import ZephyrPubSub.Runs

/-!
# Calls that nothing comes between

The functions of `Hsm` run `hsm.c` in one go, `resume` from one call of a state
function to the next. Where no other context comes between, and the state
functions only answer, the steps of a context are those of `Hsm`.
-/

namespace ZephyrPubSub

open Outcome Runs Function

variable {σ μ H T : Type} {M : Nat}

section
variable [DecidableEq σ] {answer : List (Call σ μ) → Call σ μ → Answer σ} {hsm hsm₁ hsm' : Hsm σ μ}
variable {point : Point σ M}

end

section
variable [DecidableEq H] [DecidableEq T] [DecidableEq σ]
variable {c : H → HsmCfg} {w w' : Hsms T H σ μ M} {a : T × Deed H σ μ}

end

end ZephyrPubSub
