import Mathlib.Data.List.Nodup
import Mathlib.Logic.Function.Basic
import Mathlib.Tactic.Cases

/-!
# Offering an item down a list

An item is offered to the members of a list one after the other, and a member
takes it or lets it pass. `todo` is the part of the list the item has not been
offered to, which may also be replaced as a whole; `got` counts what each one
was given.
-/

namespace Sweep

structure State (α : Type*) where
  todo : List α
  got : α → Nat

section
variable {α : Type*} [DecidableEq α]

/-- `want` is who takes the item, `stay` who is not dropped from the rest of the list. -/
inductive Step (want stay : α → Prop) : State α → State α → Prop
  | keep {s} : Step want stay s s
  | skip {x l got} : ¬ want x → Step want stay ⟨x :: l, got⟩ ⟨l, got⟩
  | give {x l got} : want x → Step want stay ⟨x :: l, got⟩ ⟨l, Function.update got x (got x + 1)⟩
  | relist {l l' got} : l'.Nodup → (∀ x ∈ l', got x = 0) → (∀ x ∈ l, stay x → x ∈ l') →
      Step want stay ⟨l, got⟩ ⟨l', got⟩

/-- Nobody in the rest of the list has got the item, and nobody has got it twice. -/
structure Fresh (s : State α) : Prop where
  nodup : s.todo.Nodup
  zero : ∀ x ∈ s.todo, s.got x = 0
  le_one : ∀ x, s.got x ≤ 1

variable {want stay : α → Prop} {s t : State α}

theorem Step.fresh (h : Step want stay s t) (hf : Fresh s) : Fresh t := by
  cases h with
  | keep => exact hf
  | @skip x l got _ =>
    exact ⟨(List.nodup_cons.mp hf.nodup).2, fun y hy => hf.zero y (List.mem_cons_of_mem x hy), hf.le_one⟩
  | @give x l got _ =>
    obtain ⟨hx, hl⟩ := List.nodup_cons.mp hf.nodup
    have h0 : got x = 0 := hf.zero x (List.mem_cons_self ..)
    refine ⟨hl, fun y hy => ?_, fun y => ?_⟩
    · have hne : y ≠ x := fun e => hx (e ▸ hy)
      simpa [hne] using hf.zero y (List.mem_cons_of_mem x hy)
    · by_cases hy : y = x
      · subst hy; simp [h0]
      · simpa [hy] using hf.le_one y
  | relist hn hz _ => exact ⟨hn, hz, hf.le_one⟩

/-- Who is still to be asked, or has got the item. -/
def Served (x : α) (s : State α) : Prop := x ∈ s.todo ∨ s.got x = 1

theorem Step.served {x : α} (h : Step want stay s t) (hf : Fresh s) (hw : x ∈ s.todo → want x)
    (hs : x ∈ s.todo → stay x) (hx : Served x s) : Served x t := by
  cases h with
  | keep => exact hx
  | @skip y l got hy =>
    rcases hx with hx | hx
    · rcases List.mem_cons.mp hx with rfl | hx'
      · exact absurd (hw hx) hy
      · exact Or.inl hx'
    · exact Or.inr hx
  | @give y l got hy =>
    by_cases hxy : x = y
    · subst hxy
      have h0 : got x = 0 := hf.zero x (List.mem_cons_self ..)
      exact Or.inr (by simp [h0])
    · rcases hx with hx | hx
      · exact Or.inl ((List.mem_cons.mp hx).resolve_left hxy)
      · exact Or.inr (by simpa [hxy] using hx)
  | relist _ _ hk =>
    rcases hx with hx | hx
    · exact Or.inl (hk x hx (hs hx))
    · exact Or.inr hx

theorem Step.unwanted {x : α} (h : Step want stay s t) (hw : x ∈ s.todo → ¬ want x) : t.got x = s.got x := by
  cases h with
  | keep => rfl
  | skip _ => rfl
  | @give y l got hy =>
    by_cases hxy : x = y
    · subst hxy; exact absurd hy (hw (List.mem_cons_self ..))
    · simp [hxy]
  | relist _ _ _ => rfl

end

end Sweep
