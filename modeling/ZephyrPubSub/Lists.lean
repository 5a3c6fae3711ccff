import Mathlib.Data.List.Nodup
import Mathlib.Data.List.Pairwise
import Mathlib.Tactic.Cases

/-!
# Singly linked lists without repetition

A linked list is the list of its nodes. `after x l` is the part behind node
`x`, so the node's next pointer is `(after x l).head?`; inserting behind a
node and unlinking one are described by where they leave the other nodes.
-/

namespace Lists

variable {α : Type*} [DecidableEq α]

def after (x : α) : List α → List α
  | [] => []
  | y :: l => if y = x then l else after x l

/-- The part of the list from a pointer on. -/
def fromPtr (l : List α) : Option α → List α
  | none => []
  | some x => x :: after x l

def insertAfter (p x : α) : List α → List α
  | [] => []
  | y :: l => if y = p then y :: x :: l else y :: insertAfter p x l

theorem after_cons_self (x : α) (l : List α) : after x (x :: l) = l := by simp [after]

theorem after_cons_ne {x y : α} (h : y ≠ x) (l : List α) : after x (y :: l) = after x l := by
  simp [after, h]

theorem after_append {x : α} : ∀ {pre : List α} (post : List α), x ∉ pre → after x (pre ++ x :: post) = post
  | [], post, _ => after_cons_self x post
  | y :: pre, post, h => by
    rw [List.mem_cons, not_or] at h
    rw [List.cons_append, after_cons_ne (Ne.symm h.1), after_append post h.2]

theorem after_of_not_mem {x : α} : ∀ {l : List α}, x ∉ l → after x l = []
  | [], _ => rfl
  | y :: l, h => by
    rw [List.mem_cons, not_or] at h
    rw [after_cons_ne (Ne.symm h.1), after_of_not_mem h.2]

theorem after_suffix (x : α) : ∀ l : List α, after x l <:+ l
  | [] => List.suffix_rfl
  | y :: l => by
    by_cases h : y = x
    · rw [h, after_cons_self]; exact List.suffix_cons x l
    · rw [after_cons_ne h]; exact (after_suffix x l).trans (List.suffix_cons y l)

theorem mem_of_mem_after {x y : α} {l : List α} (h : y ∈ after x l) : y ∈ l := (after_suffix x l).subset h

theorem after_sublist (x : α) (l : List α) : (after x l).Sublist l := (after_suffix x l).sublist

theorem split_of_mem {x : α} {l : List α} (h : x ∈ l) : ∃ pre, x ∉ pre ∧ l = pre ++ x :: after x l := by
  induction l with
  | nil => cases h
  | cons y l ih =>
    by_cases hy : y = x
    · subst hy; exact ⟨[], List.not_mem_nil, by rw [after_cons_self]; rfl⟩
    · obtain ⟨pre, hp, he⟩ := ih ((List.mem_cons.mp h).resolve_left (Ne.symm hy))
      refine ⟨y :: pre, ?_, ?_⟩
      · rw [List.mem_cons, not_or]; exact ⟨Ne.symm hy, hp⟩
      · rw [after_cons_ne hy, List.cons_append, ← he]

theorem not_mem_after_self {x : α} {l : List α} (hn : l.Nodup) : x ∉ after x l := by
  by_cases h : x ∈ l
  · obtain ⟨pre, _, he⟩ := split_of_mem h
    rw [he, List.nodup_append] at hn
    exact (List.nodup_cons.mp hn.2.1).1
  · rw [after_of_not_mem h]; exact List.not_mem_nil

theorem left_mem_of_after {x y : α} {l : List α} (h : y ∈ after x l) : x ∈ l := by
  by_contra hx
  rw [after_of_not_mem hx] at h
  cases h

theorem ne_of_mem_after {x y : α} {l : List α} (hn : l.Nodup) (h : y ∈ after x l) : y ≠ x := by
  rintro rfl
  exact not_mem_after_self hn h

theorem after_of_after_cons {x y : α} {l m : List α} (hn : l.Nodup) (h : after x l = y :: m) :
    after y l = m := by
  have hx : x ∈ l := by
    by_contra hx; rw [after_of_not_mem hx] at h; cases h
  obtain ⟨pre, hp, he⟩ := split_of_mem hx
  rw [h] at he
  have hy : y ∉ pre ++ [x] := by
    rw [he, List.append_cons, List.nodup_append] at hn
    intro hm; exact hn.2.2 y hm y (List.mem_cons_self ..) rfl
  rw [he, List.append_cons]
  exact after_append m hy

theorem fromPtr_head (l : List α) (hn : l.Nodup) (x : α) : fromPtr l (after x l).head? = after x l := by
  cases h : after x l with
  | nil => rfl
  | cons y m => rw [List.head?_cons, fromPtr, after_of_after_cons hn h]

theorem fromPtr_head_self (l : List α) : fromPtr l l.head? = l := by
  cases l with
  | nil => rfl
  | cons y m => rw [List.head?_cons, fromPtr, after_cons_self]

theorem mem_fromPtr_some {l : List α} {x y : α} : y ∈ fromPtr l (some x) ↔ y = x ∨ y ∈ after x l := List.mem_cons

theorem mem_of_mem_fromPtr {l : List α} {p : Option α} {y : α} (hp : ∀ x, p = some x → x ∈ l)
    (h : y ∈ fromPtr l p) : y ∈ l := by
  cases p with
  | none => cases h
  | some x =>
    rcases List.mem_cons.mp h with h | h
    · exact h ▸ hp x rfl
    · exact mem_of_mem_after h

/-! ## In front and behind -/

def before (x : α) : List α → List α
  | [] => []
  | y :: l => if y = x then [] else y :: before x l

theorem before_cons_self (x : α) (l : List α) : before x (x :: l) = [] := by simp [before]

theorem before_cons_ne {x y : α} (h : y ≠ x) (l : List α) : before x (y :: l) = y :: before x l := by
  simp [before, h]

theorem before_append_after {x : α} {l : List α} (h : x ∈ l) : before x l ++ x :: after x l = l := by
  induction l with
  | nil => cases h
  | cons y l ih =>
    by_cases hy : y = x
    · subst hy; rw [before_cons_self, after_cons_self]; rfl
    · rw [before_cons_ne hy, after_cons_ne hy, List.cons_append, ih ((List.mem_cons.mp h).resolve_left (Ne.symm hy))]

theorem pairwise_after {l : List α} (hn : l.Nodup) : l.Pairwise fun y z => z ∈ after y l := by
  induction l with
  | nil => exact .nil
  | cons y l ih =>
    obtain ⟨hy, hl⟩ := List.nodup_cons.mp hn
    rw [List.pairwise_cons, after_cons_self]
    refine ⟨fun z hz => hz, (ih hl).imp_of_mem ?_⟩
    intro z w hz _ hw
    have hne : y ≠ z := by
      rintro rfl
      exact hy hz
    rwa [after_cons_ne hne]

theorem after_trans {x y z : α} {l : List α} (hn : l.Nodup) (hy : y ∈ after x l) (hz : z ∈ after y l) :
    z ∈ after x l := by
  obtain ⟨pre, _, he⟩ := split_of_mem (left_mem_of_after hy)
  obtain ⟨mid, _, hm⟩ := split_of_mem hy
  have hl : l = (pre ++ x :: mid) ++ y :: after y (after x l) := by
    rw [List.append_assoc, List.cons_append, ← hm]
    exact he
  have hp : y ∉ pre ++ x :: mid := by
    rw [hl, List.nodup_append] at hn
    intro hmem; exact hn.2.2 y hmem y (List.mem_cons_self ..) rfl
  have : after y l = after y (after x l) := by
    have h := after_append (after y (after x l)) hp
    rwa [← hl] at h
  rw [this] at hz
  exact mem_of_mem_after hz

theorem fromPtr_behind {x y : α} {l : List α} {p : Option α} (hn : l.Nodup) (hx : x ∈ fromPtr l p)
    (hy : y ∈ after x l) : y ∈ fromPtr l p := by
  cases p with
  | none => cases hx
  | some z =>
    rcases mem_fromPtr_some.mp hx with rfl | hx
    · exact mem_fromPtr_some.mpr (Or.inr hy)
    · exact mem_fromPtr_some.mpr (Or.inr (after_trans hn hx hy))

theorem after_asymm {x y : α} {l : List α} (hn : l.Nodup) (hy : y ∈ after x l) : x ∉ after y l :=
  fun hx => not_mem_after_self hn (after_trans hn hy hx)

theorem mem_before_iff {x y : α} {l : List α} (hn : l.Nodup) (hx : x ∈ l) : y ∈ before x l ↔ x ∈ after y l := by
  have he := before_append_after hx
  have hp : (before x l ++ x :: after x l).Pairwise fun y z => z ∈ after y l := by
    rw [he]; exact pairwise_after hn
  obtain ⟨_, hb, hba⟩ := List.pairwise_append.mp hp
  constructor
  · intro hy
    exact hba y hy x (List.mem_cons_self ..)
  · intro hy
    have hyl := left_mem_of_after hy
    rw [← he, List.mem_append, List.mem_cons] at hyl
    rcases hyl with h | rfl | h
    · exact h
    · exact absurd hy (not_mem_after_self hn)
    · exact absurd hy (after_asymm hn ((List.pairwise_cons.mp hb).1 y h))

/-- The nodes in front of `x`, the nearest one first. -/
def inFront (x : α) (l : List α) : List α := (before x l).reverse

theorem mem_inFront {x y : α} {l : List α} (hn : l.Nodup) (hx : x ∈ l) : y ∈ inFront x l ↔ x ∈ after y l := by
  rw [inFront, List.mem_reverse, mem_before_iff hn hx]

theorem pairwise_inFront {x : α} {l : List α} (hn : l.Nodup) (hx : x ∈ l) :
    (inFront x l).Pairwise fun z w => z ∈ after w l := by
  have hs := List.sublist_append_left (before x l) (x :: after x l)
  rw [before_append_after hx] at hs
  exact List.pairwise_reverse.mpr ((pairwise_after hn).sublist hs)

theorem inFront_nodup {x : α} {l : List α} (hn : l.Nodup) (hx : x ∈ l) : (inFront x l).Nodup := by
  exact (pairwise_inFront hn hx).imp fun hz => ne_of_mem_after hn hz

theorem inFront_split {x y : α} {l : List α} (hn : l.Nodup) (hx : x ∈ l) (hy : y ∈ inFront x l) :
    ∃ near far, inFront x l = near ++ y :: far ∧ (∀ w ∈ near, w ∈ after y l) ∧ ∀ w ∈ far, y ∈ after w l := by
  obtain ⟨near, far, he⟩ := List.append_of_mem hy
  have hp := pairwise_inFront hn hx
  rw [he, List.pairwise_append, List.pairwise_cons] at hp
  exact ⟨near, far, he, fun w hw => hp.2.2 w hw y (List.mem_cons_self ..), hp.2.1.1⟩

theorem inFront_between {x y z : α} {l : List α} (hn : l.Nodup) (hx : x ∈ l) (hy : y ∈ inFront x l)
    (hz : z ∈ inFront x l) (hzy : z ∈ after y l) :
    ∃ near mid far, inFront x l = near ++ z :: (mid ++ y :: far) ∧ (∀ w ∈ near, w ∈ after z l) ∧
      (∀ w ∈ mid, w ∈ after y l ∧ z ∈ after w l) ∧ ∀ w ∈ far, y ∈ after w l := by
  obtain ⟨near, rest, he, hnear, hrest⟩ := inFront_split hn hx hz
  have hyr : y ∈ rest := by
    rw [he, List.mem_append, List.mem_cons] at hy
    rcases hy with h | rfl | h
    · exact absurd (hnear y h) (after_asymm hn hzy)
    · exact absurd hzy (not_mem_after_self hn)
    · exact h
  obtain ⟨mid, far, rfl⟩ := List.append_of_mem hyr
  have hp := pairwise_inFront hn hx
  rw [he, List.pairwise_append, List.pairwise_cons, List.pairwise_append, List.pairwise_cons] at hp
  obtain ⟨_, ⟨_, _, ⟨hfar, _⟩, hmid⟩, _⟩ := hp
  refine ⟨near, mid, far, he, hnear, fun w hw => ?_, hfar⟩
  exact ⟨hmid w hw y (List.mem_cons_self ..), hrest w (List.mem_append_left _ hw)⟩

/-! ## Unlinking and inserting -/

theorem after_filter {x : α} {f : α → Bool} (hf : f x = true) : ∀ l : List α,
    after x (l.filter f) = (after x l).filter f
  | [] => rfl
  | y :: l => by
    by_cases hy : y = x
    · subst hy; rw [List.filter_cons_of_pos hf, after_cons_self, after_cons_self]
    · rw [after_cons_ne hy]
      cases hfy : f y with
      | true => rw [List.filter_cons_of_pos hfy, after_cons_ne hy, after_filter hf l]
      | false => rw [List.filter_cons_of_neg (by simp [hfy]), after_filter hf l]

theorem after_erase {x y : α} (hxy : x ≠ y) {l : List α} (hn : l.Nodup) :
    after x (l.erase y) = (after x l).erase y := by
  rw [hn.erase_eq_filter, after_filter (by simpa using hxy), (hn.sublist (after_sublist x l)).erase_eq_filter]

theorem mem_of_after_erase {x y z : α} {l : List α} (hn : l.Nodup) (h : z ∈ after x (l.erase y)) :
    z ∈ after x l := by
  by_cases hxy : x = y
  · subst hxy
    rw [after_of_not_mem fun hx => (hn.mem_erase_iff.mp hx).1 rfl] at h
    cases h
  · rw [after_erase hxy hn] at h
    exact List.mem_of_mem_erase h

theorem mem_after_erase {x y z : α} {l : List α} (hn : l.Nodup) (hxy : x ≠ y) (hzy : z ≠ y) (h : z ∈ after x l) :
    z ∈ after x (l.erase y) := by
  rw [after_erase hxy hn, (hn.sublist (after_sublist x l)).mem_erase_iff]
  exact ⟨hzy, h⟩

theorem insertAfter_append {p : α} (x : α) : ∀ {pre : List α} (post : List α), p ∉ pre →
    insertAfter p x (pre ++ p :: post) = pre ++ p :: x :: post
  | [], post, _ => by simp [insertAfter]
  | y :: pre, post, h => by
    rw [List.mem_cons, not_or] at h
    rw [List.cons_append, insertAfter, if_neg (Ne.symm h.1), insertAfter_append x post h.2]
    rfl

/-- Insertion behind the last node of a front part, or in front of everything. -/
theorem insertAfter_getLast {pre : List α} (x : α) (post : List α) (hn : pre.Nodup) :
    (match pre.getLast? with
      | none => x :: (pre ++ post)
      | some p => insertAfter p x (pre ++ post)) = pre ++ x :: post := by
  rcases List.eq_nil_or_concat pre with h | ⟨l, p, h⟩
  · subst h; rfl
  · subst h
    rw [List.concat_eq_append] at hn ⊢
    have hp : p ∉ l := fun hm => (List.nodup_append.mp hn).2.2 p hm p (List.mem_cons_self ..) rfl
    simp only [List.getLast?_append, List.getLast?_singleton, Option.some_or, List.append_assoc,
      List.cons_append, List.nil_append]
    exact insertAfter_append x post hp

end Lists
