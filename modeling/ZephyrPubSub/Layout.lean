import Mathlib.Algebra.GroupWithZero.Nat
import Mathlib.Tactic.Cases

/-!
# Layout of C structs

A member lies at the next multiple of its alignment behind the member before
it, and a struct is as aligned as its most aligned member and padded to a
multiple of that. Alignments are powers of two, so `Member` has the exponent.
-/

namespace Layout

def roundUp (n a : Nat) : Nat := (n + (a - 1)) / a * a

theorem dvd_roundUp (n a : Nat) : a ∣ roundUp n a := Nat.dvd_mul_left _ _

theorem roundUp_bounds (n : Nat) {a : Nat} (h : 0 < a) : n ≤ roundUp n a ∧ roundUp n a < n + a := by
  have hd := Nat.div_add_mod (n + (a - 1)) a
  have hm := Nat.mod_lt (n + (a - 1)) h
  unfold roundUp
  rw [Nat.mul_comm] at hd
  omega

theorem le_roundUp (n : Nat) {a : Nat} (h : 0 < a) : n ≤ roundUp n a := (roundUp_bounds n h).1

theorem roundUp_eq_iff (n : Nat) {a : Nat} (h : 0 < a) : roundUp n a = n ↔ a ∣ n := by
  constructor
  · intro he
    rw [← he]
    exact dvd_roundUp n a
  · rintro ⟨q, rfl⟩
    obtain ⟨h₁, h₂⟩ := roundUp_bounds (a * q) h
    obtain ⟨r, hr⟩ := dvd_roundUp (a * q) a
    rw [hr] at h₁ h₂ ⊢
    have hle : q ≤ r := Nat.le_of_mul_le_mul_left h₁ h
    have hlt : r < q + 1 := Nat.lt_of_mul_lt_mul_left (a := a) (by rw [Nat.mul_add]; omega)
    rw [show r = q by omega]

structure Member where
  size : Nat
  log : Nat
  deriving DecidableEq, Repr

def Member.align (f : Member) : Nat := 2 ^ f.log

theorem Member.align_pos (f : Member) : 0 < f.align := Nat.two_pow_pos f.log

/-- Offset of member `i` where the members are laid out from `n` on; behind the last one, the end. -/
def offsetFrom : Nat → List Member → Nat → Nat
  | n, [], _ => n
  | n, f :: _, 0 => roundUp n f.align
  | n, f :: fs, i + 1 => offsetFrom (roundUp n f.align + f.size) fs i

def offsetOf (fs : List Member) (i : Nat) : Nat := offsetFrom 0 fs i

def maxLog (fs : List Member) : Nat := fs.foldr (fun f l => max f.log l) 0

def Member.struct (fs : List Member) : Member := ⟨roundUp (offsetOf fs fs.length) (2 ^ maxLog fs), maxLog fs⟩

def maxSize (fs : List Member) : Nat := fs.foldr (fun f n => max f.size n) 0

def Member.union (fs : List Member) : Member := ⟨roundUp (maxSize fs) (2 ^ maxLog fs), maxLog fs⟩

def containerOf (ptr : Nat) (fs : List Member) (i : Nat) : Nat := ptr - offsetOf fs i

theorem roundUp_zero (a : Nat) (h : 0 < a) : roundUp 0 a = 0 := (roundUp_eq_iff 0 h).mpr (Nat.dvd_zero a)

theorem roundUp_pow {n k l : Nat} (h : 2 ^ l ∣ n) (hk : k ≤ l) : roundUp n (2 ^ k) = n :=
  (roundUp_eq_iff n (Nat.two_pow_pos k)).mpr (Nat.dvd_trans (Nat.pow_dvd_pow 2 hk) h)

theorem containerOf_add (p : Nat) (fs : List Member) (i : Nat) : containerOf (p + offsetOf fs i) fs i = p :=
  Nat.add_sub_cancel p _

theorem size_le_maxSize {fs : List Member} {f : Member} (h : f ∈ fs) : f.size ≤ maxSize fs := by
  induction fs with
  | nil => cases h
  | cons g fs ih =>
    rcases List.mem_cons.mp h with rfl | h
    · exact Nat.le_max_left ..
    · exact Nat.le_trans (ih h) (Nat.le_max_right ..)

theorem size_le_union {fs : List Member} {f : Member} (h : f ∈ fs) : f.size ≤ (Member.union fs).size :=
  Nat.le_trans (size_le_maxSize h) (le_roundUp _ (Nat.two_pow_pos _))

/-- What lies at a fixed offset in an object that is aligned and nothing more is known of. -/
theorem aligned_at_iff (f o : Member) (off : Nat) :
    (∀ base, o.align ∣ base → f.align ∣ base + off) ↔ f.log ≤ o.log ∧ f.align ∣ off := by
  constructor
  · intro h
    have h0 : f.align ∣ off := by simpa using h 0 (Nat.dvd_zero _)
    refine ⟨?_, h0⟩
    have ho : f.align ∣ o.align := (Nat.dvd_add_iff_left h0).mpr (h o.align (Nat.dvd_refl _))
    exact (Nat.pow_dvd_pow_iff_le_right (by decide)).mp ho
  · rintro ⟨hl, hoff⟩ base hb
    exact Nat.dvd_add (Nat.dvd_trans (Nat.pow_dvd_pow 2 hl) hb) hoff

end Layout
