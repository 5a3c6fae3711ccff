import Mathlib.Algebra.BigOperators.Group.Finset.Basic
import Mathlib.Algebra.Order.BigOperators.Group.Finset
import Mathlib.Data.List.Nodup
import Mathlib.Data.Sum.Basic
import Mathlib.Tactic.Cases

/-!
# Lists threaded through their nodes

A node has one link word, and a list leads from its head through the links of
its nodes. Several lists can use the words of the same nodes as long as no node
is in two of them, queues with a pointer to the last node and stacks without one.
-/

namespace Threads

open Function

variable {α ι κ : Type*}

/-- From the pointer `p` the links lead through the nodes of the list to NULL. -/
def Chain (next : α → Option α) : Option α → List α → Prop
  | p, [] => p = none
  | p, a :: l => p = some a ∧ Chain next (next a) l

theorem Chain.head {next : α → Option α} {p : Option α} {l : List α} (h : Chain next p l) : p = l.head? := by
  cases l with
  | nil => exact h
  | cons a l => exact h.1

theorem Chain.frame {next next' : α → Option α} : ∀ {p : Option α} {l : List α}, Chain next p l →
    (∀ a ∈ l, next' a = next a) → Chain next' p l
  | _, [], h, _ => h
  | _, a :: l, ⟨hp, h⟩, hn => by
    refine ⟨hp, ?_⟩
    rw [hn a (List.mem_cons_self ..)]
    exact h.frame fun b hb => hn b (List.mem_cons_of_mem a hb)

variable [DecidableEq α]

theorem Chain.push {next : α → Option α} {p : Option α} {l : List α} (h : Chain next p l) {a : α} (ha : a ∉ l) :
    Chain (update next a p) (some a) (a :: l) := by
  refine ⟨rfl, ?_⟩
  rw [update_self]
  apply h.frame
  rintro b hb
  rw [update_of_ne]
  rintro rfl
  exact ha hb

/-- The last node `t` is made to point to `a`. -/
theorem Chain.append {next : α → Option α} {a t : α} : ∀ {l : List α} {p : Option α}, Chain next p (l ++ [t]) →
    (l ++ [t] ++ [a]).Nodup → Chain (update (update next a none) t (some a)) p (l ++ [t] ++ [a])
  | [], p, ⟨hp, _⟩, hn => by
    have hat : a ≠ t := by
      rintro rfl
      exact (List.nodup_cons.mp hn).1 (List.mem_singleton_self a)
    refine ⟨hp, ?_, ?_⟩
    · rw [update_self]
    · rw [update_of_ne hat, update_self]
      rfl
  | b :: l, p, ⟨hp, h⟩, hn => by
    obtain ⟨hb, hn⟩ := List.nodup_cons.mp hn
    refine ⟨hp, ?_⟩
    have hbt : b ≠ t := by
      rintro rfl
      simp at hb
    have hba : b ≠ a := by
      rintro rfl
      simp at hb
    rw [update_of_ne hbt, update_of_ne hba]
    exact h.append hn

/-! ## Several lists -/

section
variable {α ι κ : Type*}

structure Apart (l : ι → List α) : Prop where
  nodup : ∀ i, (l i).Nodup
  disjoint : ∀ i j, i ≠ j → ∀ a ∈ l i, a ∉ l j

theorem Apart.sublist {l k : ι → List α} (h : Apart l) (hk : ∀ i, (k i).Sublist (l i)) : Apart k :=
  ⟨fun i => (h.nodup i).sublist (hk i),
   fun i j hij a hi hj => h.disjoint i j hij a ((hk i).subset hi) ((hk j).subset hj)⟩

theorem Apart.map {β : Type*} {l : ι → List α} (h : Apart l) {f : α → β}
    (hf : ∀ i, ∀ a ∈ l i, ∀ j, ∀ b ∈ l j, f a = f b → a = b) : Apart fun i => (l i).map f := by
  constructor
  · intro i
    exact (h.nodup i).map_on fun a ha b hb => hf i a ha i b hb
  · intro i j hij c hi hj
    obtain ⟨a, ha, rfl⟩ := List.mem_map.mp hi
    obtain ⟨b, hb, he⟩ := List.mem_map.mp hj
    rw [← hf j b hb i a ha he] at ha
    exact h.disjoint i j hij b ha hb

theorem Apart.elim {l : ι → List α} {k : κ → List α} (hl : Apart l) (hk : Apart k) (h : ∀ i j, ∀ a ∈ l i, a ∉ k j) :
    Apart (Sum.elim l k) := by
  constructor
  · rintro (i | j)
    · exact hl.nodup i
    · exact hk.nodup j
  · rintro (i | i) (j | j) hij a hi hj
    · exact hl.disjoint i j (fun he => hij (congrArg Sum.inl he)) a hi hj
    · exact h i j a hi hj
    · exact h j i a hj hi
    · exact hk.disjoint i j (fun he => hij (congrArg Sum.inr he)) a hi hj

theorem apart_of_count [DecidableEq α] [DecidableEq ι] [Fintype ι] {l : ι → List α} (h : ∀ a, ∑ i, (l i).count a ≤ 1) :
    Apart l := by
  constructor
  · intro i
    rw [List.nodup_iff_count_le_one]
    intro a
    exact (Finset.single_le_sum (fun j _ => Nat.zero_le ((l j).count a)) (Finset.mem_univ i)).trans (h a)
  · intro i j hij a hi hj
    have hpair := Finset.sum_le_sum_of_subset (f := fun i => (l i).count a) (Finset.subset_univ {i, j})
    rw [Finset.sum_pair hij] at hpair
    have := List.count_pos_iff.mpr hi
    have := List.count_pos_iff.mpr hj
    have := h a
    omega

end

/-! ## The operations -/

structure Links (ι α : Type*) where
  next : α → Option α
  head : ι → Option α
  tail : ι → Option α

variable [DecidableEq ι]

section
variable (w : Links ι α) (i : ι)

def Links.append (a : α) : Links ι α :=
  match w.head i, w.tail i with
  | some _, some t => ⟨update (update w.next a none) t (some a), w.head, update w.tail i (some a)⟩
  | _, _ => ⟨update w.next a none, update w.head i (some a), update w.tail i (some a)⟩

def Links.get : Option α × Links ι α :=
  match w.head i with
  | none => (none, w)
  | some a =>
    (some a, { w with
      head := update w.head i (w.next a)
      tail := if w.tail i = some a then update w.tail i (w.next a) else w.tail })

def Links.push (a : α) : Links ι α :=
  { w with next := update w.next a (w.head i), head := update w.head i (some a) }

def Links.pop : Option α × Links ι α :=
  match w.head i with
  | none => (none, w)
  | some a => (some a, { w with head := update w.head i (w.next a) })

end

/-- The links thread the lists. Those in `Q` are queues. -/
structure Threaded (Q : ι → Prop) (w : Links ι α) (l : ι → List α) : Prop where
  chain : ∀ i, Chain w.next (w.head i) (l i)
  tail : ∀ i, Q i → w.tail i = (l i).getLast?

section
variable {Q : ι → Prop} {w : Links ι α} {l : ι → List α} {i : ι}

omit [DecidableEq α] in
theorem threaded_update {w' : Links ι α} {k : List α} (h : Threaded Q w l) (hhead : ∀ j, j ≠ i → w'.head j = w.head j)
    (htail : ∀ j, j ≠ i → w'.tail j = w.tail j) (hnext : ∀ j, j ≠ i → ∀ a ∈ l j, w'.next a = w.next a)
    (hi : Chain w'.next (w'.head i) k) (hq : Q i → w'.tail i = k.getLast?) : Threaded Q w' (update l i k) := by
  constructor
  · intro j
    by_cases hj : j = i
    · subst hj
      rw [update_self]
      exact hi
    · rw [update_of_ne hj, hhead j hj]
      exact (h.chain j).frame (hnext j hj)
  · intro j hqj
    by_cases hj : j = i
    · subst hj
      rw [update_self]
      exact hq hqj
    · rw [update_of_ne hj, htail j hj]
      exact h.tail j hqj

theorem Threaded.append (h : Threaded Q w l) (hi : Q i) {a : α} (ha : Apart (update l i (l i ++ [a]))) :
    Threaded Q (w.append i a) (update l i (l i ++ [a])) := by
  have hn := ha.nodup i
  rw [update_self] at hn
  have hout : ∀ j, j ≠ i → ∀ b ∈ l i ++ [a], b ∉ l j := by
    intro j hj b hb hbj
    refine ha.disjoint i j (Ne.symm hj) b ?_ ?_
    · rwa [update_self]
    · rwa [update_of_ne hj]
  have hc := h.chain i
  have ht := h.tail i hi
  rcases List.eq_nil_or_concat (l i) with he | ⟨k, t, he⟩
  · have hhead : w.head i = none := by
      rw [hc.head, he]
      rfl
    have hw : w.append i a = ⟨update w.next a none, update w.head i (some a), update w.tail i (some a)⟩ := by
      unfold Links.append
      rw [hhead]
    rw [hw]
    refine threaded_update h (fun j hj => update_of_ne hj ..) (fun j hj => update_of_ne hj ..) ?_ ?_ ?_
    · intro j hj b hb
      refine update_of_ne ?_ ..
      rintro rfl
      exact hout j hj b (List.mem_append_right _ (List.mem_singleton_self b)) hb
    · rw [he]
      simp only [update_self]
      exact ⟨rfl, update_self ..⟩
    · intro _
      simp only [update_self, List.getLast?_append, List.getLast?_singleton, Option.some_or]
  · rw [List.concat_eq_append] at he
    rw [he] at hc ht hn
    have htail : w.tail i = some t := by
      rw [ht]
      exact List.getLast?_concat
    obtain ⟨b, hhead⟩ : ∃ b, w.head i = some b := by
      rw [hc.head]
      cases k with
      | nil => exact ⟨t, rfl⟩
      | cons b k => exact ⟨b, rfl⟩
    have hw : w.append i a = ⟨update (update w.next a none) t (some a), w.head, update w.tail i (some a)⟩ := by
      unfold Links.append
      rw [hhead, htail]
    rw [hw]
    refine threaded_update h (fun _ _ => rfl) (fun j hj => update_of_ne hj ..) ?_ ?_ ?_
    · intro j hj b hb
      have hbt : b ≠ t := by
        rintro rfl
        exact hout j hj b (by simp [he]) hb
      have hba : b ≠ a := by
        rintro rfl
        exact hout j hj b (by simp) hb
      simp only [update_of_ne hbt, update_of_ne hba]
    · rw [he]
      exact hc.append hn
    · intro _
      simp only [update_self, List.getLast?_append, List.getLast?_singleton, Option.some_or]

theorem Threaded.get (h : Threaded Q w l) (ha : Apart l) (hi : Q i) :
    (w.get i).1 = (l i).head? ∧ Threaded Q (w.get i).2 (update l i (l i).tail) := by
  have hc := h.chain i
  have ht := h.tail i hi
  have hn := ha.nodup i
  cases hl : l i with
  | nil =>
    rw [hl] at hc
    have hw : w.get i = (none, w) := by
      unfold Links.get
      rw [show w.head i = none from hc]
    rw [hw]
    refine ⟨rfl, ?_⟩
    show Threaded Q w (update l i [])
    rw [← hl, update_eq_self]
    exact h
  | cons a k =>
    rw [hl] at hc ht hn
    obtain ⟨hhead, hc⟩ := hc
    have hw : w.get i = (some a, { w with
        head := update w.head i (w.next a)
        tail := if w.tail i = some a then update w.tail i (w.next a) else w.tail }) := by
      unfold Links.get
      rw [hhead]
    rw [hw]
    refine ⟨rfl, threaded_update h (fun j hj => update_of_ne hj ..) ?_ (fun _ _ _ _ => rfl) ?_ ?_⟩
    · intro j hj
      simp only
      split
      · exact update_of_ne hj ..
      · rfl
    · simp only [update_self]
      exact hc
    · intro _
      simp only
      -- the last node was the first one just when it was the only one
      cases k with
      | nil =>
        have htail : w.tail i = some a := ht
        rw [if_pos htail, update_self]
        exact hc
      | cons b k =>
        rw [List.getLast?_cons_cons] at ht
        have hne : w.tail i ≠ some a := by
          rw [ht]
          exact fun he => (List.nodup_cons.mp hn).1 (List.mem_of_getLast? he)
        rw [if_neg hne]
        exact ht

theorem Threaded.push (h : Threaded Q w l) (hi : ¬ Q i) {a : α} (ha : Apart (update l i (a :: l i))) :
    Threaded Q (w.push i a) (update l i (a :: l i)) := by
  have hn := ha.nodup i
  rw [update_self] at hn
  refine threaded_update h (fun j hj => update_of_ne hj ..) (fun _ _ => rfl) ?_ ?_ fun hq => absurd hq hi
  · intro j hj b hb
    refine update_of_ne ?_ ..
    rintro rfl
    refine ha.disjoint i j (Ne.symm hj) b ?_ ?_
    · rw [update_self]
      exact List.mem_cons_self ..
    · rwa [update_of_ne hj]
  · show Chain (update w.next a (w.head i)) (update w.head i (some a) i) (a :: l i)
    rw [update_self]
    exact (h.chain i).push (List.nodup_cons.mp hn).1

omit [DecidableEq α] in
theorem Threaded.pop (h : Threaded Q w l) (hi : ¬ Q i) :
    (w.pop i).1 = (l i).head? ∧ Threaded Q (w.pop i).2 (update l i (l i).tail) := by
  have hc := h.chain i
  cases hl : l i with
  | nil =>
    rw [hl] at hc
    have hw : w.pop i = (none, w) := by
      unfold Links.pop
      rw [show w.head i = none from hc]
    rw [hw]
    refine ⟨rfl, ?_⟩
    show Threaded Q w (update l i [])
    rw [← hl, update_eq_self]
    exact h
  | cons a k =>
    rw [hl] at hc
    obtain ⟨hhead, hc⟩ := hc
    have hw : w.pop i = (some a, { w with head := update w.head i (w.next a) }) := by
      unfold Links.pop
      rw [hhead]
    rw [hw]
    refine ⟨rfl, threaded_update h (fun j hj => update_of_ne hj ..) (fun _ _ => rfl) (fun _ _ _ _ => rfl) ?_
      fun hq => absurd hq hi⟩
    simp only [update_self]
    exact hc

end

end Threads
