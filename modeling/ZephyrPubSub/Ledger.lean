import Mathlib.Algebra.BigOperators.Group.Finset.Piecewise
import Mathlib.Algebra.Order.BigOperators.Group.Finset
import Mathlib.Data.Fintype.Basic

/-!
# Reference-counted objects

A `Cell` is what an object records about its references, next to the number
of holders there really are. Acquiring and releasing keep the two in balance
and the object is freed by its last holder. Holders are counted by sums over
finitely many places, of which a step changes one or two.
-/

namespace Ledger

section
variable {ι α : Type*} [Fintype ι] [DecidableEq ι]

theorem sum_update (g : α → Nat) (f : ι → α) (i : ι) (v : α) :
    (∑ j, g (Function.update f i v j)) + g (f i) = (∑ j, g (f j)) + g v := by
  rw [← Finset.add_sum_erase Finset.univ (fun j => g (Function.update f i v j)) (Finset.mem_univ i),
    ← Finset.add_sum_erase Finset.univ (fun j => g (f j)) (Finset.mem_univ i)]
  have h : ∑ j ∈ Finset.univ.erase i, g (Function.update f i v j) = ∑ j ∈ Finset.univ.erase i, g (f j) :=
    Finset.sum_congr rfl fun j hj => by rw [Function.update_of_ne (Finset.ne_of_mem_erase hj)]
  rw [h, Function.update_self]
  omega

theorem le_sum (g : ι → Nat) (i : ι) : g i ≤ ∑ j, g j := by
  rw [← Finset.add_sum_erase Finset.univ g (Finset.mem_univ i)]
  exact Nat.le_add_right _ _

/-- Sums that differ at one place only. -/
theorem sum_change {f g : ι → Nat} (i : ι) {k l : Nat} (h : ∀ j, j ≠ i → g j = f j) (hi : g i + k ≤ f i + l) :
    (∑ j, g j) + k ≤ (∑ j, f j) + l := by
  rw [← Finset.add_sum_erase Finset.univ g (Finset.mem_univ i),
    ← Finset.add_sum_erase Finset.univ f (Finset.mem_univ i)]
  have he : ∑ j ∈ Finset.univ.erase i, g j = ∑ j ∈ Finset.univ.erase i, f j :=
    Finset.sum_congr rfl fun j hj => h j (Finset.ne_of_mem_erase hj)
  omega

theorem sum_le_countP {l : List ι} {P : ι → Prop} [DecidablePred P] (hn : l.Nodup) {f : ι → Nat} (h1 : ∀ i, f i ≤ 1)
    (h0 : ∀ i, ¬ (i ∈ l ∧ P i) → f i = 0) : ∑ i, f i ≤ l.countP fun i => decide (P i) := by
  have hc : ∑ i, (if i ∈ l.filter (fun i => decide (P i)) then 1 else 0) = l.countP fun i => decide (P i) := by
    rw [← Finset.card_filter, List.countP_eq_length_filter, ← List.toFinset_card_of_nodup (hn.filter _)]
    congr 1
    ext i
    simp
  rw [← hc]
  apply Finset.sum_le_sum
  intro i _
  by_cases hi : i ∈ l.filter fun i => decide (P i)
  · rw [if_pos hi]
    exact h1 i
  · rw [if_neg hi, h0 i fun h => hi (List.mem_filter.mpr ⟨h.1, decide_eq_true h.2⟩)]

theorem sum_lt_countP {l : List ι} {P : ι → Prop} [DecidablePred P] (hn : l.Nodup) {f : ι → Nat} (h1 : ∀ i, f i ≤ 1)
    (h0 : ∀ i, ¬ (i ∈ l ∧ P i) → f i = 0) {i : ι} (hi : i ∈ l) (hp : P i) (hf : f i = 0) :
    ∑ i, f i < l.countP fun i => decide (P i) := by
  have h := sum_le_countP (P := P) hn (f := Function.update f i 1) ?_ ?_
  · have hs := sum_update id f i 1
    simp only [id, hf] at hs
    omega
  · intro j
    by_cases hj : j = i
    · rw [hj, Function.update_self]
    · rw [Function.update_of_ne hj]; exact h1 j
  · intro j hj
    have hne : j ≠ i := fun e => hj (e ▸ ⟨hi, hp⟩)
    rw [Function.update_of_ne hne]
    exact h0 j hj

end

inductive Cell where
  | unused
  | live (count : Nat)
  | freed

/-- A step of the object with the number of holders before and after it. -/
inductive CellStep : Cell → Nat → Cell → Nat → Prop
  | keep {c r} : CellStep c r c r
  | create {r} (k : Nat) : CellStep .unused r (.live k) (r + k)
  | acquire {n r} : CellStep (.live n) r (.live (n + 1)) (r + 1)
  | release {n r} : CellStep (.live (n + 1)) (r + 1) (.live n) r
  | free {r} : CellStep (.live 1) (r + 1) .freed r

def Agrees : Cell → Nat → Prop
  | .live n, r => n = r
  | _, r => r = 0

theorem CellStep.agrees {c c' : Cell} {r r' : Nat} (h : CellStep c r c' r') (hb : Agrees c r) :
    Agrees c' r' := by
  cases h with
  | keep => exact hb
  | create k => simp only [Agrees] at hb ⊢; omega
  | acquire => simp only [Agrees] at hb ⊢; omega
  | release => simp only [Agrees] at hb ⊢; omega
  | free => simp only [Agrees] at hb ⊢; omega

theorem Agrees.live_of_pos {c : Cell} {r : Nat} (h : Agrees c r) (hr : 0 < r) : c = .live r := by
  cases c with
  | live n => exact congrArg Cell.live h
  | unused => simp only [Agrees] at h; omega
  | freed => simp only [Agrees] at h; omega

end Ledger
