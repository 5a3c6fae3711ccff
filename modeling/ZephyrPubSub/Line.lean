import Mathlib.Data.List.Basic
import Mathlib.Data.List.Pairwise
import Mathlib.Data.List.Nodup
import Mathlib.Logic.Function.Basic
import Mathlib.Tactic.Cases

/-!
# Items in a line

Items stand in a line, the first one in front. An item may overtake others,
leave or join. `R` says which items may stand in front of which. The line may
lead past stations with a queue each, where an item is handed from one to
another.
-/

namespace Line

variable {α : Type*}

/-- `gone` is who may leave, `new` who may join. -/
inductive Step (R : α → α → Prop) (gone new : α → Prop) : List α → List α → Prop
  | stay {l} : Step R gone new l l
  | overtake (front passed u back) : (∀ v ∈ passed, R v u → R u v) →
      Step R gone new (front ++ (passed ++ u :: back)) (front ++ u :: (passed ++ back))
  | leave (front u back) : gone u → Step R gone new (front ++ u :: back) (front ++ back)
  | join (front u back) : new u → (∀ v ∈ front, R v u) → (∀ v ∈ back, R u v) →
      Step R gone new (front ++ back) (front ++ u :: back)

variable {R : α → α → Prop} {gone new : α → Prop} {l m : List α} {u v : α}

theorem Step.pairwise (h : Step R gone new l m) (hl : l.Pairwise R) : m.Pairwise R := by
  cases h with
  | stay => exact hl
  | overtake front passed u back hp =>
    simp only [List.pairwise_append, List.pairwise_cons, List.mem_append, List.mem_cons] at hl ⊢
    obtain ⟨hf, ⟨hpp, ⟨hu, hb⟩, hpu⟩, hfp⟩ := hl
    refine ⟨hf, ⟨?_, hpp, hb, fun v hv w hw => hpu v hv w (Or.inr hw)⟩, ?_⟩
    · rintro v (hv | hv)
      · exact hp v hv (hpu v hv u (Or.inl rfl))
      · exact hu v hv
    · rintro v hv w (rfl | hw | hw)
      · exact hfp v hv w (Or.inr (Or.inl rfl))
      · exact hfp v hv w (Or.inl hw)
      · exact hfp v hv w (Or.inr (Or.inr hw))
  | leave front u back _ =>
    exact hl.sublist ((List.sublist_cons_self u back).append_left front)
  | join front u back _ hfu hub =>
    simp only [List.pairwise_append, List.pairwise_cons, List.mem_cons] at hl ⊢
    obtain ⟨hf, hb, hfb⟩ := hl
    refine ⟨hf, ⟨hub, hb⟩, ?_⟩
    rintro v hv w (rfl | hw)
    · exact hfu v hv
    · exact hfb v hv w hw

theorem Step.mem (h : Step R gone new l m) (hu : u ∈ l) : u ∈ m ∨ gone u := by
  cases h with
  | stay => exact Or.inl hu
  | overtake => simp only [List.mem_append, List.mem_cons] at hu ⊢; tauto
  | leave _ _ _ hg =>
    simp only [List.mem_append, List.mem_cons] at hu ⊢
    rcases hu with hu | rfl | hu
    · exact Or.inl (Or.inl hu)
    · exact Or.inr hg
    · exact Or.inl (Or.inr hu)
  | join => simp only [List.mem_append, List.mem_cons] at hu ⊢; tauto

theorem Step.of_mem (h : Step R gone new l m) (hu : u ∈ m) : u ∈ l ∨ new u := by
  cases h with
  | stay => exact Or.inl hu
  | overtake => simp only [List.mem_append, List.mem_cons] at hu ⊢; tauto
  | leave => simp only [List.mem_append, List.mem_cons] at hu ⊢; tauto
  | join _ _ _ hn =>
    simp only [List.mem_append, List.mem_cons] at hu ⊢
    rcases hu with hu | rfl | hu
    · exact Or.inl (Or.inl hu)
    · exact Or.inr hn
    · exact Or.inl (Or.inr hu)

theorem mem_front (h : (l ++ m).Pairwise R) (hv : v ∈ l) (hu : u ∈ l ++ m) (hr : ¬ R v u) : u ∈ l := by
  rcases List.mem_append.mp hu with hu | hu
  · exact hu
  · exact absurd ((List.pairwise_append.mp h).2.2 v hv u hu) hr

/-- Of two sorted lists one is the beginning of the other if it has no gaps. -/
theorem prefix_of_sorted {lt : α → α → Prop} (hlt : ∀ a b, lt a b → ¬ lt b a) :
    ∀ {l m : List α}, l.Pairwise lt → m.Pairwise lt → (∀ a ∈ l, a ∈ m) →
      (∀ a ∈ m, ∀ b ∈ l, lt a b → a ∈ l) → l <+: m
  | [], m, _, _, _, _ => List.nil_prefix
  | y :: l, [], _, _, hs, _ => absurd (hs y (List.mem_cons_self ..)) List.not_mem_nil
  | y :: l, x :: m, hl, hm, hs, hd => by
    obtain ⟨hy, hl'⟩ := List.pairwise_cons.mp hl
    obtain ⟨hx, hm'⟩ := List.pairwise_cons.mp hm
    have hxy : x = y := by
      rcases List.mem_cons.mp (hs y (List.mem_cons_self ..)) with h | h
      · exact h.symm
      · have hlt' := hx y h
        rcases List.mem_cons.mp (hd x (List.mem_cons_self ..) y (List.mem_cons_self ..) hlt') with h' | h'
        · exact h'
        · exact absurd hlt' (hlt y x (hy x h'))
    subst hxy
    refine List.prefix_cons_iff.mpr (Or.inr ⟨l, rfl, prefix_of_sorted hlt hl' hm' ?_ ?_⟩)
    · intro a ha
      rcases List.mem_cons.mp (hs a (List.mem_cons_of_mem x ha)) with h | h
      · subst h; exact absurd (hy a ha) (hlt a a (hy a ha))
      · exact h
    · intro a ha b hb hab
      rcases List.mem_cons.mp (hd a (List.mem_cons_of_mem x ha) b (List.mem_cons_of_mem x hb) hab) with h | h
      · subst h; exact absurd (hx a ha) (hlt a a (hx a ha))
      · exact h

/-! ## Stations -/

section
variable {ι : Type*} [DecidableEq ι] {cell : ι → List α} {L near mid far : List ι} {y z : ι} {rest hd tl : List α}

theorem cells_update (hy : y ∉ L) (v : List α) : L.flatMap (Function.update cell y v) = L.flatMap cell :=
  List.flatMap_congr fun w hw => Function.update_of_ne (by rintro rfl; exact hy hw) ..

theorem cells_update_split (hn : (near ++ y :: far).Nodup) (v : List α) :
    (near ++ y :: far).flatMap (Function.update cell y v) = near.flatMap cell ++ (v ++ far.flatMap cell) := by
  rw [List.nodup_append, List.nodup_cons] at hn
  have hnear : y ∉ near := fun hm => hn.2.2 y hm y (List.mem_cons_self ..) rfl
  rw [List.flatMap_append, List.flatMap_cons, cells_update hnear, cells_update hn.2.1.1, Function.update_self]

omit [DecidableEq ι] in
theorem forall_cells {P : α → Prop} (h : ∀ w ∈ L, ∀ v ∈ cell w, P v) (v : α) (hv : v ∈ L.flatMap cell) : P v := by
  obtain ⟨w, hw, hv⟩ := List.mem_flatMap.mp hv
  exact h w hw v hv

theorem Step.leave_station (hn : L.Nodup) (hy : y ∈ L) (hc : cell y = u :: rest) (hg : gone u) :
    Step R gone new (hd ++ (L.flatMap cell ++ tl)) (hd ++ (L.flatMap (Function.update cell y rest) ++ tl)) := by
  obtain ⟨near, far, rfl⟩ := List.append_of_mem hy
  have h : Step R gone new _ _ := .leave (hd ++ near.flatMap cell) u (rest ++ (far.flatMap cell ++ tl)) hg
  rw [cells_update_split hn, List.flatMap_append, List.flatMap_cons, hc]
  simpa only [List.append_assoc, List.cons_append] using h

/-- The first item of station `y` is handed to station `z`. -/
theorem Step.hand_over (hn : (near ++ z :: (mid ++ y :: far)).Nodup) (hc : cell y = u :: rest)
    (hp : ∀ w ∈ mid, ∀ v ∈ cell w, R v u → R u v) :
    Step R gone new (hd ++ ((near ++ z :: (mid ++ y :: far)).flatMap cell ++ tl))
      (hd ++ ((near ++ z :: (mid ++ y :: far)).flatMap
        (Function.update (Function.update cell y rest) z (cell z ++ [u])) ++ tl)) := by
  have h : Step R gone new _ _ := .overtake (hd ++ (near.flatMap cell ++ cell z)) (mid.flatMap cell) u
    (rest ++ (far.flatMap cell ++ tl)) (forall_cells hp)
  have hnm : (mid ++ y :: far).Nodup := (List.nodup_cons.mp (List.nodup_append.mp hn).2.1).2
  have hy : y ∉ near := fun hm => (List.nodup_append.mp hn).2.2 y hm y (by simp) rfl
  rw [cells_update_split hn, cells_update hy, cells_update_split hnm, List.flatMap_append, List.flatMap_cons,
    List.flatMap_append, List.flatMap_cons, hc]
  simpa only [List.append_assoc, List.cons_append, List.nil_append] using h

theorem Step.arrive (hn : (near ++ y :: far).Nodup) (hc : cell y = u :: rest)
    (hp : ∀ w ∈ near, ∀ v ∈ cell w, R v u → R u v) :
    Step R gone new (hd ++ ((near ++ y :: far).flatMap cell ++ tl))
      (hd ++ [u] ++ ((near ++ y :: far).flatMap (Function.update cell y rest) ++ tl)) := by
  have h : Step R gone new _ _ := .overtake hd (near.flatMap cell) u (rest ++ (far.flatMap cell ++ tl))
    (forall_cells hp)
  rw [cells_update_split hn, List.flatMap_append, List.flatMap_cons, hc]
  simpa only [List.append_assoc, List.cons_append, List.nil_append] using h

/-- An item behind all stations gets to one of them. -/
theorem Step.enter (hn : (near ++ y :: far).Nodup) (hp : ∀ w ∈ far, ∀ v ∈ cell w, R v u → R u v) :
    Step R gone new (hd ++ ((near ++ y :: far).flatMap cell ++ u :: tl))
      (hd ++ ((near ++ y :: far).flatMap (Function.update cell y (cell y ++ [u])) ++ tl)) := by
  have h : Step R gone new _ _ := .overtake (hd ++ (near.flatMap cell ++ cell y)) (far.flatMap cell) u tl
    (forall_cells hp)
  rw [cells_update_split hn, List.flatMap_append, List.flatMap_cons]
  simpa only [List.append_assoc, List.cons_append, List.nil_append] using h

theorem Step.join_station (hn : L.Nodup) (hy : y ∈ L) (hnew : new u)
    (hr : ∀ v, v ∈ hd ∨ v ∈ L.flatMap cell ∨ v ∈ tl → R v u ∧ R u v) :
    Step R gone new (hd ++ (L.flatMap cell ++ tl))
      (hd ++ (L.flatMap (Function.update cell y (cell y ++ [u])) ++ tl)) := by
  obtain ⟨near, far, rfl⟩ := List.append_of_mem hy
  rw [List.flatMap_append, List.flatMap_cons] at hr
  have h : Step R gone new _ _ := .join (hd ++ (near.flatMap cell ++ cell y)) u (far.flatMap cell ++ tl) hnew
    (fun v hv => (hr v (by simp only [List.mem_append] at hv ⊢; tauto)).1)
    (fun v hv => (hr v (by simp only [List.mem_append] at hv ⊢; tauto)).2)
  rw [cells_update_split hn, List.flatMap_append, List.flatMap_cons]
  simpa only [List.append_assoc, List.cons_append, List.nil_append] using h

end

end Line
