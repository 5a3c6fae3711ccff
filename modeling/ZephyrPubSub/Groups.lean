import Mathlib.Data.List.Basic
import Mathlib.Data.List.TakeWhile
import Mathlib.Tactic.Cases

/-!
# Lists in groups

A list is grouped by `f` when the elements with one value of `f` stand next to
each other. An element that is put behind others of its group, or in front of
the first one, or at the end when its group is empty, leaves the list grouped.
-/

namespace Groups

variable {α β : Type*} {f : α → β}

def Grouped (f : α → β) (l : List α) : Prop := ∀ x y z, [x, y, z].Sublist l → f x = f z → f y = f x

theorem grouped_nil : Grouped f [] := by
  intro x y z h _
  cases h

theorem Grouped.sublist {l l' : List α} (h : Grouped f l) (hs : l'.Sublist l) : Grouped f l' :=
  fun x y z ht => h x y z (ht.trans hs)

theorem sublist_insert {s front back : List α} {x : α} (h : s.Sublist (front ++ x :: back)) :
    s.Sublist (front ++ back) ∨ ∃ s₁ s₂, s = s₁ ++ x :: s₂ ∧ s₁.Sublist front ∧ s₂.Sublist back := by
  obtain ⟨s₁, s₂, rfl, h₁, h₂⟩ := List.sublist_append_iff.mp h
  rcases List.sublist_cons_iff.mp h₂ with h₂ | ⟨r, rfl, hr⟩
  · exact .inl (h₁.append h₂)
  · exact .inr ⟨s₁, r, rfl, h₁, hr⟩

/-- `front` has no element of the group of `x` and `block` no other ones; unless `block` has any, `back`
starts with one or is empty. -/
structure Place (f : α → β) (x : α) (front block back : List α) : Prop where
  not_mem_front : ∀ y ∈ front, f y ≠ f x
  of_mem_block : ∀ y ∈ block, f y = f x
  head_back : block = [] → ∀ y, back.head? = some y → f y = f x

section
variable {x : α} {front block back : List α}

theorem Place.head (hp : Place f x front block back) (h : Grouped f (front ++ (block ++ back))) {k : α}
    {rest : List α} (hk : back = k :: rest) {z : α} (hz : z ∈ back) (hfz : f z = f x) : f k = f x := by
  subst hk
  cases block with
  | nil => exact hp.head_back rfl k rfl
  | cons p block =>
    rcases List.mem_cons.mp hz with rfl | hz
    · exact hfz
    · have hs : [p, k, z].Sublist (front ++ (p :: block ++ k :: rest)) := by
        apply List.Sublist.trans _ (List.sublist_append_right front _)
        apply List.Sublist.cons_cons
        apply List.Sublist.trans _ (List.sublist_append_right block _)
        exact (List.singleton_sublist.mpr hz).cons_cons k
      have hpx := hp.of_mem_block p (List.mem_cons_self ..)
      exact (h p k z hs (hpx.trans hfz.symm)).trans hpx

theorem Place.between (hp : Place f x front block back) (h : Grouped f (front ++ (block ++ back))) {a c : α}
    (ha : a ∈ front) (hc : c ∈ back) (hac : f a = f c) : f x = f a := by
  cases block with
  | nil =>
    cases back with
    | nil => cases hc
    | cons k rest =>
      have hk := hp.head_back rfl k rfl
      rcases List.mem_cons.mp hc with rfl | hc
      · rw [← hk, hac]
      · have hs : [a, k, c].Sublist (front ++ ([] ++ k :: rest)) :=
          (List.singleton_sublist.mpr ha).append ((List.singleton_sublist.mpr hc).cons_cons k)
        rw [← hk, h a k c hs hac]
  | cons p block =>
    have hs : [a, p, c].Sublist (front ++ (p :: block ++ back)) := by
      apply (List.singleton_sublist.mpr ha).append
      apply List.Sublist.cons_cons
      exact (List.singleton_sublist.mpr hc).trans (List.sublist_append_right block back)
    rw [← hp.of_mem_block p (List.mem_cons_self ..), h a p c hs hac]

theorem Place.insert (hp : Place f x front block back) (h : Grouped f (front ++ (block ++ back))) :
    Grouped f (front ++ (block ++ x :: back)) := by
  intro a b c hs hac
  rw [← List.append_assoc] at hs
  rcases sublist_insert hs with hs | ⟨s₁, s₂, he, h₁, h₂⟩
  · rw [List.append_assoc] at hs
    exact h a b c hs hac
  rcases s₁ with _ | ⟨a', _ | ⟨b', _ | ⟨c', s₁⟩⟩⟩
  · -- `x` comes first
    rw [List.nil_append] at he
    obtain ⟨rfl, rfl⟩ := List.cons.inj he
    have hcb : c ∈ back := h₂.subset (by simp)
    have hbb : b ∈ back := h₂.subset (by simp)
    cases back with
    | nil => cases hcb
    | cons k rest =>
      have hk := hp.head h rfl hcb hac.symm
      rcases List.mem_cons.mp hbb with rfl | hbr
      · exact hk
      · rcases List.sublist_cons_iff.mp h₂ with h₂ | ⟨r, hr, h₂⟩
        · have hs : [k, b, c].Sublist (front ++ (block ++ k :: rest)) := by
            apply List.Sublist.trans _ (List.sublist_append_right front _)
            exact (h₂.cons_cons k).trans (List.sublist_append_right block _)
          exact (h k b c hs (hk.trans hac)).trans hk
        · rw [(List.cons.inj hr).1, hk]
  · -- in the middle
    simp only [List.cons_append, List.nil_append, List.cons.injEq] at he
    obtain ⟨rfl, rfl, rfl⟩ := he
    have ha := List.singleton_sublist.mp h₁
    have hc := List.singleton_sublist.mp h₂
    rcases List.mem_append.mp ha with ha | ha
    · exact hp.between h ha hc hac
    · exact (hp.of_mem_block a ha).symm
  · -- last
    simp only [List.cons_append, List.nil_append, List.cons.injEq] at he
    obtain ⟨rfl, rfl, rfl, rfl⟩ := he
    obtain ⟨r₁, r₂, hr, hr₁, hr₂⟩ := List.sublist_append_iff.mp h₁
    cases r₁ with
    | nil =>
      rw [List.nil_append] at hr
      have hb : b ∈ block := hr₂.subset (by simp [← hr])
      rw [hp.of_mem_block b hb, hac]
    | cons y r₁ =>
      have hya : a = y := (List.cons.inj hr).1
      have ha : a ∈ front := hr₁.subset (by simp [hya])
      exact absurd hac (hp.not_mem_front a ha)
  · have hlen := congrArg List.length he
    simp at hlen

end

theorem not_of_dropWhile {p : α → Bool} {l rest : List α} {k : α} (h : l.dropWhile p = k :: rest) : p k = false := by
  have hne : l.dropWhile p ≠ [] := by rw [h]; exact List.cons_ne_nil _ _
  have hnot := List.head_dropWhile_not p hne
  simpa only [h, List.head_cons, Bool.not_eq_true] using hnot

theorem takeWhile_eq_iff {p q : α → Bool} : ∀ {l : List α}, l.takeWhile p = l.takeWhile q ↔
    (∀ y ∈ l.takeWhile q, p y) ∧ ∀ y, (l.dropWhile q).head? = some y → p y = false
  | [] => by simp
  | a :: l => by
    by_cases hq : q a
    · rw [List.takeWhile_cons_of_pos hq, List.dropWhile_cons_of_pos hq]
      by_cases hp : p a
      · rw [List.takeWhile_cons_of_pos hp, List.cons.injEq, takeWhile_eq_iff]
        simp [hp]
      · rw [List.takeWhile_cons_of_neg hp]
        simp [hp]
    · rw [List.takeWhile_cons_of_neg hq, List.dropWhile_cons_of_neg hq]
      by_cases hp : p a
      · rw [List.takeWhile_cons_of_pos hp]
        simp [hp]
      · rw [List.takeWhile_cons_of_neg hp]
        simpa using hp

/-- The elements of one group are one block of the list. -/
theorem Grouped.blocks [DecidableEq β] {l : List α} (h : Grouped f l) (t : β) :
    ∃ front block back, l = front ++ (block ++ back) ∧ (∀ y ∈ front, f y ≠ t) ∧ (∀ y ∈ block, f y = t) ∧
      ∀ y ∈ back, f y ≠ t := by
  have hsplit := List.takeWhile_append_dropWhile (p := fun y => f y ≠ t) (l := l)
  have hsplit' := List.takeWhile_append_dropWhile (p := fun y => f y = t) (l := l.dropWhile fun y => f y ≠ t)
  refine ⟨l.takeWhile fun y => f y ≠ t, (l.dropWhile fun y => f y ≠ t).takeWhile fun y => f y = t,
    (l.dropWhile fun y => f y ≠ t).dropWhile fun y => f y = t, ?_, ?_, ?_, ?_⟩
  · rw [hsplit', hsplit]
  · intro y hy
    simpa using List.mem_takeWhile_imp hy
  · intro y hy
    simpa using List.mem_takeWhile_imp hy
  · intro y hy hyt
    cases hr : l.dropWhile fun y => f y ≠ t with
    | nil => rw [hr] at hy; cases hy
    | cons p rest =>
      have hpt : f p = t := by simpa using not_of_dropWhile hr
      rw [hr, List.dropWhile_cons_of_pos (by simpa using hpt)] at hy
      cases hd : rest.dropWhile fun y => f y = t with
      | nil => rw [hd] at hy; cases hy
      | cons k back =>
        have hkt : f k ≠ t := by simpa using not_of_dropWhile hd
        rw [hd] at hy
        rcases List.mem_cons.mp hy with rfl | hy
        · exact hkt hyt
        · have hs : [p, k, y].Sublist l := by
            apply List.Sublist.trans _ (List.dropWhile_sublist fun y => f y ≠ t)
            rw [hr]
            apply List.Sublist.cons_cons
            apply List.Sublist.trans _ (List.dropWhile_sublist fun y => f y = t)
            rw [hd]
            exact (List.singleton_sublist.mpr hy).cons_cons k
          exact hkt ((h p k y hs (hpt.trans hyt.symm)).trans hpt)

end Groups
