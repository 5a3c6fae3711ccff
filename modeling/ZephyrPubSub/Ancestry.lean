import Mathlib.Data.List.Basic
import Mathlib.Data.List.Count
import Mathlib.Tactic.Cases

/-!
# Forests and what is entered in them

A forest gives every node at most one parent and never leads back to a node.
`chain s` is `s` with its ancestors up to the root, nearest first. A record of
nodes entered and left follows the forest when a node is entered from just
below its parent's chain and left from the end of its own; the nodes that are
then inside are always one chain.
-/

namespace Ancestry

variable {σ : Type*}

/-- `v` is `s` and its ancestors up to `t`. -/
inductive Climb (up : σ → Option σ) : σ → List σ → σ → Prop
  | here (s : σ) : Climb up s [s] s
  | higher {s p t : σ} {v : List σ} : up s = some p → Climb up p v t → Climb up s (s :: v) t

theorem Climb.eq_cons {up : σ → Option σ} {s t : σ} {v : List σ} (h : Climb up s v t) :
    v = s :: v.tail := by
  cases h <;> rfl

theorem Climb.map_up {up : σ → Option σ} {s t : σ} {v : List σ} (h : Climb up s v t) :
    v.map up = v.tail.map some ++ [up t] := by
  induction h with
  | here s => rfl
  | higher hp h ih =>
    rw [List.map_cons, ih, hp, List.tail_cons, ← List.cons_append, ← List.map_cons, ← h.eq_cons]

theorem Climb.eq_concat {up : σ → Option σ} {s t : σ} {v : List σ} (h : Climb up s v t) :
    v = v.dropLast ++ [t] := by
  induction h with
  | here s => rfl
  | higher hp h ih =>
    rw [h.eq_cons, List.dropLast_cons_cons, ← h.eq_cons, List.cons_append, ← ih]

theorem Climb.map_up_dropLast {up : σ → Option σ} {s t : σ} {v : List σ} (h : Climb up s v t) :
    v.dropLast.map up = v.tail.map some := by
  have hm := h.map_up
  rw [h.eq_concat, List.map_append, List.map_singleton, ← h.eq_concat] at hm
  exact List.append_cancel_right hm

theorem Climb.exists_child {up : σ → Option σ} {s t x : σ} {v : List σ} (h : Climb up s v t) (hx : x ∈ v.tail) :
    ∃ y ∈ v.dropLast, up y = some x := by
  apply List.mem_map.mp
  rw [h.map_up_dropLast]
  exact List.mem_map_of_mem hx

theorem Climb.upTo {up : σ → Option σ} {s t a : σ} {v l r : List σ} (h : Climb up s v t)
    (hv : v = s :: l ++ a :: r) : ∃ u, Climb up s (s :: l) u ∧ up u = some a := by
  induction h generalizing l with
  | here s => simp at hv
  | higher hp h ih =>
    rename_i s p t v
    have hv' : v = l ++ a :: r := by simpa using hv
    cases l with
    | nil =>
      rw [h.eq_cons] at hv'
      obtain ⟨rfl, -⟩ := List.cons.inj hv'
      exact ⟨s, .here s, hp⟩
    | cons b l =>
      have hb : b = p := by
        rw [h.eq_cons] at hv'
        exact (List.cons.inj hv').1.symm
      subst hb
      obtain ⟨u, hu, ha⟩ := ih hv'
      exact ⟨u, .higher hp hu, ha⟩

structure Forest (σ : Type*) where
  parent : σ → Option σ
  acyclic : WellFounded fun p s => parent s = some p

namespace Forest

variable (F : Forest σ) {s t c p : σ} {v st : List σ}

def chain (s : σ) : List σ :=
  s :: match _h : F.parent s with
    | none => []
    | some p => chain p
termination_by F.acyclic.wrap s
decreasing_by exact _h

/-- The proper ancestors. -/
def above (s : σ) : List σ :=
  match F.parent s with
  | none => []
  | some p => F.chain p

theorem chain_eq (s : σ) : F.chain s = s :: F.above s := by
  rw [chain, above]
  cases F.parent s <;> rfl

theorem above_of_none (h : F.parent s = none) : F.above s = [] := by simp [above, h]

theorem above_of_some (h : F.parent s = some p) : F.above s = F.chain p := by simp [above, h]

@[simp] theorem self_mem_chain (s : σ) : s ∈ F.chain s := by simp [chain_eq]

theorem chain_of_climb (h : Climb F.parent s v t) : F.chain s = v ++ F.above t := by
  induction h with
  | here s => exact F.chain_eq s
  | higher hp _ ih => rw [chain_eq, above_of_some F hp, ih, List.cons_append]

theorem root_of_climb {n : Nat} (hs : (F.chain s).length ≤ n) (h : Climb F.parent s v t)
    (hv : n ≤ v.length) : F.parent t = none := by
  cases hp : F.parent t with
  | none => rfl
  | some p =>
    rw [F.chain_of_climb h, F.above_of_some hp, F.chain_eq, List.length_append, List.length_cons] at hs
    omega

theorem chain_suffix (h : t ∈ F.chain s) : F.chain t <:+ F.chain s := by
  induction s using F.acyclic.induction with
  | h s ih =>
    rw [F.chain_eq s] at h
    rcases List.mem_cons.1 h with rfl | h
    · exact List.suffix_rfl
    · cases hp : F.parent s with
      | none => simp [above_of_none F hp] at h
      | some p =>
        rw [above_of_some F hp] at h
        rw [F.chain_eq s, above_of_some F hp]
        exact (ih p hp h).trans (List.suffix_cons s _)

theorem above_suffix_of_mem (h : t ∈ F.above s) : F.chain t <:+ F.above s := by
  cases hp : F.parent s with
  | none => simp [above_of_none F hp] at h
  | some p =>
    rw [above_of_some F hp] at h ⊢
    exact F.chain_suffix h

theorem length_lt_of_mem_above (h : t ∈ F.above s) : (F.chain t).length < (F.chain s).length := by
  have hle := (F.above_suffix_of_mem h).length_le
  rw [F.chain_eq s, List.length_cons]
  omega

theorem not_mem_above (s : σ) : s ∉ F.above s := fun h => Nat.lt_irrefl _ (F.length_lt_of_mem_above h)

theorem nodup_above (s : σ) : (F.above s).Nodup := by
  induction s using F.acyclic.induction with
  | h s ih =>
    cases hp : F.parent s with
    | none =>
      rw [F.above_of_none hp]
      exact List.nodup_nil
    | some p =>
      rw [F.above_of_some hp, F.chain_eq]
      exact List.nodup_cons.2 ⟨F.not_mem_above p, ih p hp⟩

theorem above_of_climb (h : Climb F.parent s v t) : F.above s = v.tail ++ F.above t := by
  have hc := F.chain_of_climb h
  rw [F.chain_eq, h.eq_cons, List.cons_append] at hc
  exact (List.cons.inj hc).2

theorem not_mem_chain_of_child (h : F.parent c = some s) : c ∉ F.chain s := by
  rw [← above_of_some F h]
  exact F.not_mem_above c

end Forest

/-! ## Entering and leaving -/

inductive Move (σ : Type*) where
  | enter (s : σ)
  | leave (s : σ)
  deriving DecidableEq

/-- `Follows F es st`: the record `es`, newest first, keeps to the forest, and `st` is inside after it. -/
inductive Follows (F : Forest σ) : List (Move σ) → List σ → Prop
  | start : Follows F [] []
  | enter (s : σ) {es : List (Move σ)} : Follows F es (F.above s) → Follows F (.enter s :: es) (F.chain s)
  | leave (s : σ) {es : List (Move σ)} : Follows F es (F.chain s) → Follows F (.leave s :: es) (F.above s)

variable {F : Forest σ} {es : List (Move σ)} {s t c p : σ} {st v : List σ}

theorem Follows.leave_all (h : Follows F es (F.chain s)) (hc : Climb F.parent s v t) :
    Follows F (v.reverse.map .leave ++ es) (F.above t) := by
  induction hc generalizing es with
  | here s => exact .leave s h
  | higher hp _ ih =>
    rename_i s p t v _
    have hl := Follows.leave s h
    rw [F.above_of_some hp] at hl
    have := ih hl
    simpa using this

theorem Follows.enter_all (h : Follows F es (F.above t)) (hc : Climb F.parent s v t) :
    Follows F (v.map .enter ++ es) (F.chain s) := by
  induction hc with
  | here s => exact .enter s h
  | higher hp _ ih =>
    have he := ih h
    rw [← F.above_of_some hp] at he
    exact .enter _ he

theorem Follows.earlier {later : List (Move σ)} (h : Follows F (later ++ es) st) :
    ∃ st', Follows F es st' := by
  induction later generalizing st with
  | nil => exact ⟨st, h⟩
  | cons e later ih =>
    cases h with
    | enter s h => exact ih h
    | leave s h => exact ih h

/-- The way from `c` to `s`: the nodes left, lowest first, and the nodes entered, highest last.
Below an ancestor nothing is left; else the way leads up to the first ancestor of `c`
that is a proper one of `s`. -/
inductive Route (F : Forest σ) (c s : σ) : List σ → List σ → Prop
  | down {v : List σ} {t : σ} : Climb F.parent s v t → F.above t = F.chain c → Route F c s [] v
  | across {left v : List σ} {u t : σ} : c ∉ F.above s → (∀ x ∈ left.tail, x ∉ F.above s) →
      Climb F.parent c left u → Climb F.parent s v t → F.above u = F.above t → Route F c s left v

theorem mem_above_of_down (hv : Climb F.parent s v t) (ht : F.above t = F.chain c) : c ∈ F.above s := by
  rw [F.above_of_climb hv, ht]
  exact List.mem_append_right _ (F.self_mem_chain c)

theorem not_mem_above_of_tail (hv : Climb F.parent s v t) : ∀ x ∈ v.tail, x ∉ F.above t := by
  intro x hx hxt
  have hnd := F.nodup_above s
  rw [F.above_of_climb hv] at hnd
  exact (List.nodup_append.1 hnd).2.2 x hx x hxt rfl

theorem not_mem_above_of_left {left : List σ} (hl : Climb F.parent c left u) (hc : c ∉ F.above s)
    (hleft : ∀ x ∈ left.tail, x ∉ F.above s) : ∀ x ∈ left, x ∉ F.above s := by
  intro x hx
  rw [hl.eq_cons] at hx
  rcases List.mem_cons.1 hx with rfl | hx
  · exact hc
  · exact hleft x hx

theorem Route.of_ancestor {left : List σ} (h : Route F c s left v) (hc : c ∈ F.above s) :
    left = [] ∧ F.chain s = v ++ F.chain c := by
  cases h with
  | down hv ht => exact ⟨rfl, ht ▸ F.chain_of_climb hv⟩
  | across hn => exact absurd hc hn

theorem Route.of_not_ancestor {left : List σ} (h : Route F c s left v) (hc : c ∉ F.above s) :
    ∃ shared, F.chain c = left ++ shared ∧ F.chain s = v ++ shared ∧ (∀ x ∈ left, x ∉ F.above s) ∧
      (shared = [] ∨ ∃ a ∈ F.above s, shared = F.chain a) := by
  cases h with
  | down hv ht => exact absurd (mem_above_of_down hv ht) hc
  | across hn hleft hl hv ht =>
    rename_i u t
    refine ⟨F.above t, ht ▸ F.chain_of_climb hl, F.chain_of_climb hv, not_mem_above_of_left hl hn hleft, ?_⟩
    cases hp : F.parent t with
    | none => exact Or.inl (F.above_of_none hp)
    | some a =>
      refine Or.inr ⟨a, ?_, F.above_of_some hp⟩
      rw [F.above_of_climb hv, F.above_of_some hp]
      exact List.mem_append_right _ (F.self_mem_chain a)

theorem Route.to_ancestor {left : List σ} (h : Route F c s left v) (hs : s ∈ F.above c) :
    s ∈ left ∧ v = [s] := by
  cases h with
  | down hv ht =>
    have hc : c ∈ F.above s := mem_above_of_down hv ht
    exact absurd (F.length_lt_of_mem_above hc) (Nat.lt_asymm (F.length_lt_of_mem_above hs))
  | across hc hleft hl hv ht =>
    rename_i u t
    have hsc : s ∈ left ++ F.above t := by
      rw [← ht, ← F.chain_of_climb hl, F.chain_eq]
      exact List.mem_cons_of_mem _ hs
    have hst : s ∉ F.above t := by
      intro hmem
      apply F.not_mem_above s
      rw [F.above_of_climb hv]
      exact List.mem_append_right _ hmem
    have hnone : v.tail = [] := by
      apply List.eq_nil_iff_forall_not_mem.2
      intro x hx
      have hxs : x ∈ F.above s := by
        rw [F.above_of_climb hv]
        exact List.mem_append_left _ hx
      have hxc : x ∈ F.chain c := by
        rw [F.chain_eq]
        apply List.mem_cons_of_mem
        apply (F.above_suffix_of_mem hs).subset
        rw [F.chain_eq]
        exact List.mem_cons_of_mem _ hxs
      rw [F.chain_of_climb hl, ht] at hxc
      rcases List.mem_append.1 hxc with hxl | hxt
      · exact not_mem_above_of_left hl hc hleft x hxl hxs
      · exact not_mem_above_of_tail hv x hx hxt
    refine ⟨(List.mem_append.1 hsc).resolve_right hst, ?_⟩
    rw [hv.eq_cons, hnone]

theorem Follows.route {left : List σ} (h : Follows F es (F.chain c)) (hr : Route F c s left v) :
    Follows F (v.map .enter ++ (left.reverse.map .leave ++ es)) (F.chain s) := by
  cases hr with
  | down hv ht =>
    rw [← ht] at h
    exact h.enter_all hv
  | across _ _ hl hv ht =>
    have ha := h.leave_all hl
    rw [ht] at ha
    exact ha.enter_all hv

section
variable [DecidableEq σ]

omit [DecidableEq σ] in
theorem takeWhile_eq_left {p : σ → Bool} {l r : List σ} (hl : ∀ x ∈ l, p x) (hr : ∀ x ∈ r, p x = false) :
    (l ++ r).takeWhile p = l := by
  rw [List.takeWhile_append_of_pos hl]
  cases r with
  | nil => simp
  | cons x r => simp [hr x List.mem_cons_self]

/-- What is left is the chain up to the first proper ancestor of `s`. -/
theorem Route.left_eq {left : List σ} (h : Route F c s left v) :
    left = (F.chain c).takeWhile (· ∉ F.above s) := by
  cases h with
  | down hv ht =>
    have hc : c ∈ F.above s := mem_above_of_down hv ht
    rw [F.chain_eq, List.takeWhile_cons_of_neg (by simpa using hc)]
  | across hc hleft hl hv ht =>
    rw [F.chain_of_climb hl]
    apply (takeWhile_eq_left _ _).symm
    · intro x hx
      simpa using not_mem_above_of_left hl hc hleft x hx
    · intro x hx
      rw [ht] at hx
      rw [F.above_of_climb hv]
      simp [hx]

/-- What is entered is `s` and its ancestors up to the first one in the chain of `c`. -/
theorem Route.entered_eq {left : List σ} (h : Route F c s left v) :
    v = s :: (F.above s).takeWhile (· ∉ F.chain c) := by
  cases h with
  | down hv ht =>
    rw [F.above_of_climb hv, ht, takeWhile_eq_left _ (by simp)]
    · exact hv.eq_cons
    · intro x hx
      have hxt := not_mem_above_of_tail hv x hx
      rw [ht] at hxt
      simpa using hxt
  | across hc hleft hl hv ht =>
    rw [F.above_of_climb hv] at hc hleft ⊢
    rw [takeWhile_eq_left]
    · exact hv.eq_cons
    · intro x hx
      have hxt := not_mem_above_of_tail hv x hx
      rw [F.chain_of_climb hl, hl.eq_cons, ht]
      simp only [List.cons_append, List.mem_cons, List.mem_append, decide_eq_true_eq]
      rintro (rfl | hx' | hx')
      · exact hc (List.mem_append_left _ hx)
      · exact hleft x hx' (List.mem_append_left _ hx)
      · exact hxt hx'
    · intro x hx
      rw [F.chain_of_climb hl, ht]
      simp [hx]

end

section
variable [DecidableEq σ]

def Inside (es : List (Move σ)) (s : σ) : Prop := es.count (.enter s) = es.count (.leave s) + 1

def Outside (es : List (Move σ)) (s : σ) : Prop := es.count (.enter s) = es.count (.leave s)

theorem Follows.count (h : Follows F es st) (s : σ) :
    es.count (.enter s) = es.count (.leave s) + if s ∈ st then 1 else 0 := by
  induction h with
  | start => rfl
  | enter t h ih =>
    have ht := F.not_mem_above t
    by_cases hst : s = t
    · subst hst
      simp_all
    · simp_all [F.chain_eq t, Ne.symm hst]
  | leave t h ih =>
    have ht := F.not_mem_above t
    by_cases hst : s = t
    · subst hst
      simp_all
    · simp_all [F.chain_eq t, Ne.symm hst]

theorem Follows.inside (h : Follows F es st) (hs : s ∈ st) : Inside es s := by
  have hc := h.count s
  rwa [if_pos hs] at hc

theorem Follows.outside (h : Follows F es st) (hs : s ∉ st) : Outside es s := by
  have hc := h.count s
  rwa [if_neg hs] at hc

theorem Follows.entered (h : Follows F (.enter s :: es) st) :
    Outside es s ∧ ∀ p, F.parent s = some p → Inside es p := by
  cases h with
  | enter _ h =>
    refine ⟨h.outside (F.not_mem_above s), ?_⟩
    intro p hp
    rw [F.above_of_some hp] at h
    exact h.inside (F.self_mem_chain p)

theorem Follows.left (h : Follows F (.leave s :: es) st) :
    Inside es s ∧ ∀ c, F.parent c = some s → Outside es c := by
  cases h with
  | leave _ h =>
    refine ⟨h.inside (F.self_mem_chain s), ?_⟩
    intro c hc
    exact h.outside (F.not_mem_chain_of_child hc)

end

end Ancestry
