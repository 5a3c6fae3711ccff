import ZephyrPubSub.Configuration

/-!
# The trace of a transition

Which states a transition from `c` to `n` leaves and enters depends on the
hierarchy alone, not on what the states answer to ENTRY and EXIT.
-/

namespace ZephyrPubSub

open Ancestry

variable {σ μ : Type} [DecidableEq σ] {M : Nat}

/-- `c` and its ancestors up to but not including the lowest one that is a proper ancestor of
`n`, all of them if there is none. Nothing if that lowest one is `c` itself. -/
def exitPath (H : Hierarchy σ M) (c n : σ) : List σ := (H.chain c).takeWhile (· ∉ H.above n)

/-- From just below the first proper ancestor of `n` that is `c` or an ancestor of `c` down to `n`,
from the top state of `n` if there is none. -/
def entryPath (H : Hierarchy σ M) (c n : σ) : List σ :=
  (n :: (H.above n).takeWhile (· ∉ H.chain c)).reverse

def trace (hsm : Hsm σ μ) : List (Call σ μ) := (notWalk hsm.calls).reverse

/-- The calls of a transition are EXIT along `exitPath` and ENTRY along `entryPath`, whatever the states
answer. Below its target's ancestor nothing is exited; else both paths lead to just below the same
state or to the top. An ancestor that is the target is exited and entered again. -/
theorem transition_trace (H : Hierarchy σ M) {answer : List (Call σ μ) → Call σ μ → Answer σ}
    (h : Consistent H.parent answer) {hsm : Hsm σ μ} {c n : σ} (hc : hsm.currentState = some c) :
    ∃ hsm', transitionState M (stateFns answer) n hsm = .ok hsm' ∧ hsm'.currentState = some n ∧
      trace hsm' = trace hsm ++ ((exitPath H c n).map exitCall ++ (entryPath H c n).map entryCall) ∧
      (c ∈ H.above n → exitPath H c n = [] ∧ H.chain n = (entryPath H c n).reverse ++ H.chain c) ∧
      (c ∉ H.above n → ∃ shared, H.chain c = exitPath H c n ++ shared ∧
        H.chain n = (entryPath H c n).reverse ++ shared ∧ (∀ x ∈ exitPath H c n, x ∉ H.above n) ∧
        (shared = [] ∨ ∃ a ∈ H.above n, shared = H.chain a)) ∧
      (n ∈ H.above c → n ∈ exitPath H c n ∧ entryPath H c n = [n]) := by
  obtain ⟨left, v, hsm', heq, hroute, hcur, -, hcalls⟩ := transitionState_route H h hc n
  rw [exitPath, entryPath, ← hroute.left_eq, ← hroute.entered_eq, List.reverse_reverse]
  refine ⟨hsm', heq, hcur, ?_, hroute.of_ancestor, hroute.of_not_ancestor, ?_⟩
  · rw [trace, hcalls]
    simp [trace, List.map_reverse]
  · intro hn
    obtain ⟨hleft, rfl⟩ := hroute.to_ancestor hn
    exact ⟨hleft, rfl⟩

theorem transition_trace_test : ∃ hsm', transitionState 3 (stateFns testAnswer) .top
    ⟨some .start, none, true, [], [], []⟩ = .ok hsm' ∧
      trace hsm' = [exitCall .start, exitCall .sub, exitCall .top, entryCall .top] := by
  obtain ⟨hsm', heq, -, htrace, -⟩ := transition_trace testHierarchy testAnswer_consistent
    (n := .top) (show (⟨some .start, none, true, [], [], []⟩ : Hsm TestState Nat).currentState = some .start from rfl)
  refine ⟨hsm', heq, htrace.trans ?_⟩
  simp [trace, notWalk, exitPath, entryPath, Forest.chain_eq, Forest.above, testHierarchy, testForest,
    TestState.parent]

end ZephyrPubSub
