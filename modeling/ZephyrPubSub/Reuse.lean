import Mathlib.Data.Nat.Basic
import Mathlib.Tactic.Cases

/-!
# Objects that are used again

Such an object is acquired by its owner, handed out, referenced by any number
of users, and when the last reference is gone the owner is signalled and may
acquire it again.
-/

namespace Reuse

structure State where
  refs : Nat
  /-- Acquired and not handed out. -/
  owned : Bool
  handedOut : Nat
  signals : Nat

inductive Step : State → State → Prop
  | stay {s} : Step s s
  | acquire {n k} : Step ⟨0, false, n, k⟩ ⟨1, true, n, k⟩
  | handOut {r n k} : Step ⟨r + 1, true, n, k⟩ ⟨r + 1, false, n + 1, k⟩
  | share {r o n k} : Step ⟨r + 1, o, n, k⟩ ⟨r + 2, o, n, k⟩
  | drop {r o n k} : Step ⟨r + 2, o, n, k⟩ ⟨r + 1, o, n, k⟩
  | last {n k} : Step ⟨1, false, n, k⟩ ⟨0, false, n, k + 1⟩

/-- There has been one signal for every time the object was handed out, but
for the time it still is. -/
structure State.Good (s : State) : Prop where
  signals : s.handedOut = s.signals + if 0 < s.refs ∧ s.owned = false then 1 else 0
  owned : s.owned = true → 0 < s.refs

theorem Step.good {s t : State} (h : Step s t) (hs : s.Good) : t.Good := by
  have h₁ := hs.signals
  have h₂ := hs.owned
  cases h with
  | stay => exact hs
  | acquire => exact ⟨by simpa using h₁, fun _ => Nat.one_pos⟩
  | handOut => exact ⟨by simpa using h₁, fun h => nomatch h⟩
  | share => exact ⟨by simpa using h₁, fun _ => Nat.succ_pos _⟩
  | drop => exact ⟨by simpa using h₁, fun _ => Nat.succ_pos _⟩
  | last => exact ⟨by simpa using h₁, fun h => nomatch h⟩

end Reuse
