import ZephyrPubSub.SubList
import ZephyrPubSub.Groups
import Mathlib.Data.List.Induction

/-!
# Priorities

Where no attached subscriber's priority is changed, each type is one block of
the list, sorted by priority, and ties stand in the order of their adds. A
priority that is changed in the list is looked at by later insertions.
-/

namespace ZephyrPubSub

open Groups Runs

section
variable {S : Type} {rxType : S → RxType} {priority : S → Nat} {l : List S} {x : S}

theorem insert_place (priority : S → Nat) (l : List S) (x : S) :
    Place rxType x (l.takeWhile (otherType rxType (rxType x)))
      ((l.dropWhile (otherType rxType (rxType x))).takeWhile (notPast rxType priority x))
      (backPart rxType priority l x) where
  not_mem_front := by
    intro y hy
    simpa [otherType] using List.mem_takeWhile_imp hy
  of_mem_block := by
    intro y hy
    have hn := List.mem_takeWhile_imp hy
    simp only [notPast, decide_eq_true_eq, not_or, not_not] at hn
    exact hn.2
  head_back := by
    intro hb y hy
    have hs := List.takeWhile_append_dropWhile (p := notPast rxType priority x)
      (l := l.dropWhile (otherType rxType (rxType x)))
    rw [hb, List.nil_append] at hs
    rw [backPart, hs] at hy
    obtain ⟨rest, hr⟩ := List.head?_eq_some_iff.mp hy
    simpa [otherType] using not_of_dropWhile hr

theorem insert_grouped [DecidableEq S] (hn : l.Nodup) (h : Grouped rxType l) (x : S) :
    Grouped rxType (insertSubscriber rxType priority l x) := by
  have hs := front_append_back rxType priority l x
  rw [frontPart, List.append_assoc] at hs
  rw [insertSubscriber_eq rxType priority hn, frontPart, List.append_assoc]
  apply (insert_place priority l x).insert
  rwa [hs]

def SortedBy (rxType : S → RxType) (priority : S → Nat) (earlier : S → S → Prop) (l : List S) : Prop :=
  l.Pairwise fun y z => rxType y = rxType z → priority y < priority z ∨ priority y = priority z ∧ earlier y z

theorem insert_sortedBy [DecidableEq S] {earlier : S → S → Prop} (hn : l.Nodup) (hg : Grouped rxType l)
    (h : SortedBy rxType priority earlier l) (hx : ∀ y ∈ l, earlier y x) :
    SortedBy rxType priority earlier (insertSubscriber rxType priority l x) := by
  have hs := front_append_back rxType priority l x
  have hg' := hg
  rw [← hs, frontPart, List.append_assoc] at hg'
  unfold SortedBy at h ⊢
  rw [← hs, List.pairwise_append] at h
  obtain ⟨hf, hb, hfb⟩ := h
  have hfx : ∀ y ∈ frontPart rxType priority l x, rxType y = rxType x →
      priority y < priority x ∨ priority y = priority x ∧ earlier y x := by
    intro y hy ht
    have hyl : y ∈ l := by rw [← hs]; exact List.mem_append_left _ hy
    rcases List.mem_append.mp hy with hy | hy
    · exact absurd ht ((insert_place priority l x).not_mem_front y hy)
    · have hle := List.mem_takeWhile_imp hy
      simp only [notPast, decide_eq_true_eq, not_or, not_lt] at hle
      exact (Nat.lt_or_eq_of_le hle.1).imp_right fun he => ⟨he, hx y hyl⟩
  have hxb : ∀ z ∈ backPart rxType priority l x, rxType x = rxType z → priority x < priority z := by
    intro z hz ht
    cases hk : backPart rxType priority l x with
    | nil => rw [hk] at hz; cases hz
    | cons k rest =>
      have hkt := (insert_place priority l x).head hg' hk hz ht.symm
      have hpast : notPast rxType priority x k = false := not_of_dropWhile hk
      have hlt : priority x < priority k := by simpa [notPast, hkt] using hpast
      rw [hk] at hz hb
      rcases List.mem_cons.mp hz with rfl | hz
      · exact hlt
      · rcases (List.pairwise_cons.mp hb).1 z hz (hkt.trans ht) with hlt' | ⟨he, -⟩
        · exact hlt.trans hlt'
        · rwa [← he]
  rw [insertSubscriber_eq rxType priority hn, List.pairwise_append, List.pairwise_cons]
  refine ⟨hf, ⟨fun z hz ht => .inl (hxb z hz ht), hb⟩, ?_⟩
  intro y hy z hz
  rcases List.mem_cons.mp hz with rfl | hz
  · exact hfx y hy
  · exact hfb y hy z hz

end

/-! ## Stable order -/

section
variable {B S : Type}

/-- The last add of `z` comes after every add of `y`. -/
def AddedBefore (ops : List (ListOp B S)) (y z : S) : Prop :=
  ∃ pre b post, ops = pre ++ .add b z :: post ∧ ∀ b', .add b' y ∉ post ∧ .add b' z ∉ post

theorem addedBefore_last {ops : List (ListOp B S)} (b : B) (y z : S) : AddedBefore (ops ++ [.add b z]) y z :=
  ⟨ops, b, [], rfl, fun _ => ⟨List.not_mem_nil, List.not_mem_nil⟩⟩

theorem AddedBefore.concat {ops : List (ListOp B S)} {y z : S} (h : AddedBefore ops y z) {op : ListOp B S}
    (hop : ∀ b', op ≠ .add b' y ∧ op ≠ .add b' z) : AddedBefore (ops ++ [op]) y z := by
  obtain ⟨pre, b, post, rfl, hpost⟩ := h
  refine ⟨pre, b, post ++ [op], by simp, ?_⟩
  intro b'
  rw [List.mem_append, List.mem_append, List.mem_singleton, List.mem_singleton]
  exact ⟨not_or.mpr ⟨(hpost b').1, (hop b').1.symm⟩, not_or.mpr ⟨(hpost b').2, (hop b').2.symm⟩⟩

/-- A priority is only changed while the subscriber is detached. -/
def DetachedPriority (r : Registry B S) : ListOp B S → Prop
  | .setPriority x _ => r.broker x = none
  | _ => True

instance (r : Registry B S) [DecidableEq B] (op : ListOp B S) : Decidable (DetachedPriority r op) := by
  cases op <;> unfold DetachedPriority <;> infer_instance

variable (rxType : S → RxType)

structure StableOrder (ops : List (ListOp B S)) (r : Registry B S) : Prop where
  wf : r.Wf
  grouped : ∀ b, Grouped rxType (r.subscribers b)
  sorted : ∀ b, SortedBy rxType r.priority (AddedBefore ops) (r.subscribers b)

theorem stableOrder_empty (priority : S → Nat) : StableOrder rxType [] (Registry.empty priority : Registry B S) :=
  ⟨Registry.wf_empty priority, fun _ => grouped_nil, fun _ => List.Pairwise.nil⟩

variable [DecidableEq B] [DecidableEq S]

theorem StableOrder.step {ops : List (ListOp B S)} {r r' : Registry B S} {op : ListOp B S}
    (h : StableOrder rxType ops r) (hd : DetachedPriority r op) (hs : listStep rxType r op = .ok r') :
    StableOrder rxType (ops ++ [op]) r' := by
  have hw := h.wf.step rxType hs
  cases op with
  | add b x =>
    simp only [listStep, addSubscriberToBroker] at hs
    split at hs
    · rename_i hx
      cases hs
      have hxl : ∀ b', ∀ y ∈ r.subscribers b', y ≠ x := by
        intro b' y hy he
        have hb := (h.wf.mem_iff b' y).mp hy
        rw [he, hx] at hb
        cases hb
      have hlater : ∀ b', SortedBy rxType r.priority (AddedBefore (ops ++ [.add b x])) (r.subscribers b') := by
        intro b'
        apply List.Pairwise.imp_of_mem _ (h.sorted b')
        intro y z hy hz hyz ht
        refine (hyz ht).imp_right fun hk => ⟨hk.1, hk.2.concat fun b'' => ?_⟩
        exact ⟨fun e => hxl b' y hy (ListOp.add.inj e).2.symm, fun e => hxl b' z hz (ListOp.add.inj e).2.symm⟩
      refine ⟨hw, ?_, ?_⟩
      · intro b'
        by_cases hb : b' = b
        · subst hb
          simpa using insert_grouped (h.wf.nodup b') (h.grouped b') x
        · simpa [hb] using h.grouped b'
      · intro b'
        by_cases hb : b' = b
        · subst hb
          simpa using insert_sortedBy (h.wf.nodup b') (h.grouped b') (hlater b')
            (fun y _ => addedBefore_last b' y x)
        · simpa [hb] using hlater b'
    · cases hs
  | remove x =>
    simp only [listStep, subscriberRemoveBroker] at hs
    split at hs
    · rename_i b _
      cases hs
      have hsub : ∀ b', ((Function.update r.subscribers b ((r.subscribers b).erase x)) b').Sublist
          (r.subscribers b') := by
        intro b'
        by_cases hb : b' = b
        · subst hb
          simpa using List.erase_sublist
        · simp [hb]
      refine ⟨hw, fun b' => (h.grouped b').sublist (hsub b'), ?_⟩
      intro b'
      apply List.Pairwise.sublist (hsub b')
      apply (h.sorted b').imp
      intro y z hyz ht
      exact (hyz ht).imp_right fun hk => ⟨hk.1, hk.2.concat fun b'' => by simp⟩
    · cases hs
  | setPriority x n =>
    cases hs
    refine ⟨hw, h.grouped, ?_⟩
    intro b'
    apply List.Pairwise.imp_of_mem _ (h.sorted b')
    intro y z hy hz hyz ht
    have hne : ∀ y ∈ r.subscribers b', y ≠ x := by
      intro y hy he
      have hb := (h.wf.mem_iff b' y).mp hy
      rw [he, show r.broker x = none from hd] at hb
      cases hb
    simp only [subscriberSetPriority, Function.update_of_ne (hne y hy), Function.update_of_ne (hne z hz)]
    exact (hyz ht).imp_right fun hk => ⟨hk.1, hk.2.concat fun b'' => by simp⟩

theorem StableOrder.exec (priority : S → Nat) (ops : List (ListOp B S)) : ∀ r,
    exec (listStep rxType) (Registry.empty priority) ops = .ok r →
      (∀ p ∈ path (listStep rxType) (Registry.empty priority) ops, DetachedPriority p.1 p.2) →
        StableOrder rxType ops r := by
  induction ops using List.reverseRecOn with
  | nil =>
    intro r h _
    cases h
    exact stableOrder_empty rxType priority
  | append_singleton ops op ih =>
    intro r h hd
    obtain ⟨r₀, h₀, hs⟩ := exec_concat _ h
    rw [path_concat _ h₀] at hd
    have hs₀ := ih r₀ h₀ fun p hp => hd p (List.mem_append_left _ hp)
    exact hs₀.step rxType (hd (r₀, op) (List.mem_append_right _ (List.mem_singleton_self _))) hs

/-- A broker's list has the subscribers whose `broker` field points to it, each once. Those of a type are one
block, in the order of their priorities, and of their last adds where these are equal. -/
theorem stable_priority_order (priority : S → Nat) (ops : List (ListOp B S)) (r : Registry B S)
    (h : exec (listStep rxType) (Registry.empty priority) ops = .ok r)
    (hd : ∀ p ∈ path (listStep rxType) (Registry.empty priority) ops, DetachedPriority p.1 p.2) (b : B) :
    (r.subscribers b).Nodup ∧ (∀ x, x ∈ r.subscribers b ↔ r.broker x = some b) ∧
      (∀ t, ∃ front block back, r.subscribers b = front ++ (block ++ back) ∧ (∀ y ∈ front, rxType y ≠ t) ∧
        (∀ y ∈ block, rxType y = t) ∧ (∀ y ∈ back, rxType y ≠ t) ∧
        block.Pairwise fun y z => r.priority y ≤ r.priority z ∧
          (r.priority y = r.priority z → AddedBefore ops y z)) := by
  have hso := StableOrder.exec rxType priority ops r h hd
  refine ⟨hso.wf.nodup b, hso.wf.mem_iff b, ?_⟩
  intro t
  obtain ⟨front, block, back, he, hf, hb, hk⟩ := (hso.grouped b).blocks t
  refine ⟨front, block, back, he, hf, hb, hk, ?_⟩
  have hsub : block.Sublist (r.subscribers b) := by
    rw [he]
    exact (List.sublist_append_left block back).trans (List.sublist_append_right front _)
  apply List.Pairwise.imp_of_mem _ ((hso.sorted b).sublist hsub)
  intro y z hy hz hyz
  rcases hyz ((hb y hy).trans (hb z hz).symm) with hlt | ⟨heq, ha⟩
  · exact ⟨hlt.le, fun he => absurd he hlt.ne⟩
  · exact ⟨heq.le, fun _ => ha⟩

end

def twoCallbacks : Nat → RxType
  | 0 => .callback
  | 1 => .callback
  | _ => .msgq

def movedBehind : List (ListOp Unit Nat) :=
  [.add () 0, .add () 2, .add () 1, .remove 0, .setPriority 0 3, .add () 0]

/-- Subscriber 0 is moved behind subscriber 1, which has the same priority. -/
theorem stable_priority_order_readd : ∃ r : Registry Unit Nat,
    exec (listStep twoCallbacks) (Registry.empty fun _ => 3) movedBehind = .ok r ∧ r.subscribers () = [1, 0, 2] ∧
      (r.subscribers ()).Nodup ∧ (∀ x, x ∈ r.subscribers () ↔ r.broker x = some ()) ∧
      ∃ front block back, r.subscribers () = front ++ (block ++ back) ∧ (∀ y ∈ front, twoCallbacks y ≠ .callback) ∧
        (∀ y ∈ block, twoCallbacks y = .callback) ∧ (∀ y ∈ back, twoCallbacks y ≠ .callback) ∧
        block.Pairwise fun y z => r.priority y ≤ r.priority z ∧
          (r.priority y = r.priority z → AddedBefore movedBehind y z) := by
  obtain ⟨hn, hm, hblock⟩ := stable_priority_order twoCallbacks (fun _ => 3) movedBehind _ rfl (by decide) ()
  exact ⟨_, rfl, by decide, hn, hm, hblock .callback⟩

/-! ## Changes of attached subscribers' priorities -/

section
variable {S : Type} {rxType : S → RxType}

/-- Where the priorities `held` put `x`, the priorities `p` do too: nothing of its type in front has been
raised above it, and what is next of its type has not been lowered to it. -/
def SamePlace (rxType : S → RxType) (p held : S → Nat) (l : List S) (x : S) : Prop :=
  (∀ y ∈ frontPart rxType held l x, rxType y = rxType x → p y ≤ p x) ∧
    ∀ y, (backPart rxType held l x).head? = some y → rxType y = rxType x → p x < p y

theorem frontPart_eq_iff {p held : S → Nat} (l : List S) (x : S) :
    frontPart rxType p l x = frontPart rxType held l x ↔ SamePlace rxType p held l x := by
  have hpast : ∀ y, notPast rxType p x y = true ↔ p y ≤ p x ∧ rxType y = rxType x := by
    intro y
    simp [notPast]
  rw [frontPart, frontPart, List.append_cancel_left_eq, takeWhile_eq_iff]
  apply and_congr
  · constructor
    · intro h y hy ht
      rcases List.mem_append.mp hy with hy | hy
      · exact absurd ht ((insert_place held l x).not_mem_front y hy)
      · exact ((hpast y).mp (h y hy)).1
    · intro h y hy
      have ht := (insert_place held l x).of_mem_block y hy
      exact (hpast y).mpr ⟨h y (List.mem_append_right _ hy) ht, ht⟩
  · apply forall_congr'
    intro y
    apply imp_congr Iff.rfl
    rw [← Bool.not_eq_true, hpast, not_and', not_le]

theorem insert_eq_iff [DecidableEq S] {p held : S → Nat} {l : List S} {x : S} (hn : l.Nodup) (hx : x ∉ l) :
    insertSubscriber rxType p l x = insertSubscriber rxType held l x ↔ SamePlace rxType p held l x := by
  rw [← frontPart_eq_iff, insertSubscriber_eq rxType p hn, insertSubscriber_eq rxType held hn]
  have hp := front_append_back rxType p l x
  have hh := front_append_back rxType held l x
  constructor
  · intro h
    have hxf : x ∉ frontPart rxType p l x := fun hm => hx (hp ▸ List.mem_append_left _ hm)
    have hxb : x ∉ backPart rxType p l x := fun hm => hx (hp ▸ List.mem_append_right _ hm)
    exact ((List.append_cons_inj_of_notMem hxf hxb).mp h).1
  · intro h
    have hb := hp.trans hh.symm
    rw [h] at hb
    rw [h, List.append_cancel_left hb]

end

/-- A run with the priority changes of attached subscribers put off: those that are, for each subscriber,
and the calls that remain. -/
structure Postponed (B S : Type) where
  attached : S → Bool
  pending : S → List Nat
  ops : List (ListOp B S)

section
variable {B S : Type}

def Postponed.start : Postponed B S := ⟨fun _ => false, fun _ => [], []⟩

/-- A run is at `r`; the one with the changes `t` put off is at `q`. -/
structure Twin (t : Postponed B S) (r q : Registry B S) : Prop where
  wf : r.Wf
  wf' : q.Wf
  attached : ∀ x, t.attached x = true ↔ r.broker x ≠ none
  broker : q.broker = r.broker
  pending : ∀ x, r.broker x = none → t.pending x = []
  priority : ∀ x, r.priority x = (t.pending x).getLastD (q.priority x)

theorem twin_start (priority : S → Nat) :
    Twin .start (Registry.empty priority : Registry B S) (Registry.empty priority) where
  wf := Registry.wf_empty priority
  wf' := Registry.wf_empty priority
  attached := by
    intro x
    simp [Postponed.start, Registry.empty]
  broker := rfl
  pending := fun _ _ => rfl
  priority := fun _ => rfl

variable [DecidableEq S]

def Postponed.next (t : Postponed B S) : ListOp B S → Postponed B S
  | .add b x =>
    { attached := Function.update t.attached x true
      pending := t.pending
      ops := t.ops ++ [.add b x] }
  | .remove x =>
    { attached := Function.update t.attached x false
      pending := Function.update t.pending x []
      ops := t.ops ++ .remove x :: (t.pending x).map (.setPriority x) }
  | .setPriority x n =>
    if t.attached x then { t with pending := Function.update t.pending x (t.pending x ++ [n]) }
    else { t with ops := t.ops ++ [.setPriority x n] }

/-- Every priority change of an attached subscriber comes right after its next removal, or not at all. -/
def postpone (ops : List (ListOp B S)) : List (ListOp B S) := (ops.foldl Postponed.next .start).ops

variable [DecidableEq B] (rxType : S → RxType)

theorem exec_setPriorities (x : S) : ∀ (ns : List Nat) (q : Registry B S),
    exec (listStep rxType) q (ns.map (.setPriority x)) =
      .ok { q with priority := Function.update q.priority x (ns.getLastD (q.priority x)) }
  | [], q => by simp [exec]
  | n :: ns, q => by
    rw [List.map_cons, exec]
    show exec (listStep rxType) (subscriberSetPriority q x n) _ = _
    rw [exec_setPriorities x ns, List.getLastD_cons]
    simp [subscriberSetPriority]

section
variable {rxType} {t : Postponed B S} {r q r' : Registry B S}

theorem Twin.add {b : B} {x : S} (h : Twin t r q) (hs : listStep rxType r (.add b x) = .ok r') :
    ∃ q', listStep rxType q (.add b x) = .ok q' ∧ Twin (t.next (.add b x)) r' q' ∧
      (r.subscribers = q.subscribers →
        (r'.subscribers = q'.subscribers ↔ SamePlace rxType r.priority q.priority (q.subscribers b) x)) := by
  have hw := h.wf.step rxType hs
  simp only [listStep, addSubscriberToBroker] at hs
  split at hs
  · rename_i hx
    cases hs
    have hq : q.broker x = none := by rw [h.broker, hx]
    have hstep : listStep rxType q (.add b x) = .ok _ := if_pos hq
    refine ⟨_, hstep, ⟨hw, h.wf'.step rxType hstep, ?_, ?_, ?_, h.priority⟩, ?_⟩
    · intro y
      by_cases hy : y = x
      · subst hy
        simp [Postponed.next]
      · simpa [Postponed.next, hy] using h.attached y
    · simp only [h.broker]
    · intro y hy
      by_cases hyx : y = x
      · subst hyx
        simp at hy
      · simp only [Function.update_of_ne hyx] at hy
        exact h.pending y hy
    · intro he
      have hxl : x ∉ q.subscribers b := by
        intro hm
        rw [(h.wf'.mem_iff b x).mp hm] at hq
        cases hq
      rw [he, ← insert_eq_iff (h.wf'.nodup b) hxl]
      constructor
      · intro hu
        simpa using congrFun hu b
      · intro hi
        simp only [hi]
  · cases hs

theorem Twin.remove {x : S} (h : Twin t r q) (hs : listStep rxType r (.remove x) = .ok r') :
    ∃ q', exec (listStep rxType) q (.remove x :: (t.pending x).map (.setPriority x)) = .ok q' ∧
      Twin (t.next (.remove x)) r' q' ∧ (r.subscribers = q.subscribers → r'.subscribers = q'.subscribers) := by
  have hw := h.wf.step rxType hs
  simp only [listStep, subscriberRemoveBroker] at hs
  split at hs
  · rename_i b hx
    cases hs
    have hq : q.broker x = some b := by rw [h.broker, hx]
    have hstep : listStep rxType q (.remove x) = .ok
        { q with
          subscribers := Function.update q.subscribers b ((q.subscribers b).erase x)
          broker := Function.update q.broker x none } := by
      simp only [listStep, subscriberRemoveBroker, hq]
    have hw' := h.wf'.step rxType hstep
    have hrun : exec (listStep rxType) q (.remove x :: (t.pending x).map (.setPriority x)) = .ok
        { subscribers := Function.update q.subscribers b ((q.subscribers b).erase x)
          broker := Function.update q.broker x none
          priority := Function.update q.priority x ((t.pending x).getLastD (q.priority x)) } := by
      rw [exec, hstep]
      exact exec_setPriorities rxType x _ _
    refine ⟨_, hrun, ⟨hw, ⟨hw'.nodup, hw'.mem_iff⟩, ?_, ?_, ?_, ?_⟩, ?_⟩
    · intro y
      by_cases hy : y = x
      · subst hy
        simp [Postponed.next]
      · simpa [Postponed.next, hy] using h.attached y
    · simp only [h.broker]
    · intro y hy
      by_cases hyx : y = x
      · subst hyx
        simp [Postponed.next]
      · simp only [Function.update_of_ne hyx] at hy
        simpa [Postponed.next, hyx] using h.pending y hy
    · intro y
      by_cases hyx : y = x
      · subst hyx
        simp [Postponed.next, h.priority y]
      · simpa [Postponed.next, hyx] using h.priority y
    · intro he
      simp only [he]
  · cases hs

theorem Twin.setPriority {x : S} {n : Nat} (h : Twin t r q) (hs : listStep rxType r (.setPriority x n) = .ok r') :
    ∃ new q', (t.next (.setPriority x n)).ops = t.ops ++ new ∧ exec (listStep rxType) q new = .ok q' ∧
      Twin (t.next (.setPriority x n)) r' q' ∧ (r.subscribers = q.subscribers → r'.subscribers = q'.subscribers) := by
  have hw := h.wf.step rxType hs
  cases hs
  by_cases hx : t.attached x = true
  · have hnext : t.next (.setPriority x n) =
        { t with pending := Function.update t.pending x (t.pending x ++ [n]) } := if_pos hx
    rw [hnext]
    refine ⟨[], q, (List.append_nil _).symm, rfl, ⟨hw, h.wf', h.attached, h.broker, ?_, ?_⟩, id⟩
    · intro y hy
      have hyx : y ≠ x := by
        rintro rfl
        exact (h.attached y).mp hx hy
      simpa [hyx] using h.pending y hy
    · intro y
      by_cases hyx : y = x
      · subst hyx
        simp [subscriberSetPriority]
      · simpa [subscriberSetPriority, hyx] using h.priority y
  · have hnext : t.next (.setPriority x n) = { t with ops := t.ops ++ [.setPriority x n] } := if_neg hx
    have hb : r.broker x = none := by
      by_contra hne
      exact hx ((h.attached x).mpr hne)
    rw [hnext]
    refine ⟨[.setPriority x n], subscriberSetPriority q x n, rfl, rfl,
      ⟨hw, ⟨h.wf'.nodup, h.wf'.mem_iff⟩, h.attached, h.broker, h.pending, ?_⟩, id⟩
    intro y
    by_cases hyx : y = x
    · subst hyx
      simp [subscriberSetPriority, h.pending y hb]
    · simpa [subscriberSetPriority, hyx] using h.priority y

/-- Equal lists stay equal, through an add exactly where it finds the same place. -/
theorem Twin.step {op : ListOp B S} (h : Twin t r q) (hs : listStep rxType r op = .ok r') :
    ∃ new q', (t.next op).ops = t.ops ++ new ∧ exec (listStep rxType) q new = .ok q' ∧ Twin (t.next op) r' q' ∧
      (r.subscribers = q.subscribers →
        (r'.subscribers = q'.subscribers ↔
          ∀ b x, op = .add b x → SamePlace rxType r.priority q.priority (q.subscribers b) x)) := by
  cases op with
  | add b x =>
    obtain ⟨q', hq, ht, hl⟩ := h.add hs
    refine ⟨[.add b x], q', rfl, by rw [exec, hq]; rfl, ht, ?_⟩
    intro he
    rw [hl he]
    constructor
    · intro hp b' x' he'
      cases he'
      exact hp
    · exact fun hp => hp b x rfl
  | remove x =>
    obtain ⟨q', hq, ht, hl⟩ := h.remove hs
    exact ⟨_, q', rfl, hq, ht, fun he => iff_of_true (hl he) (by simp)⟩
  | setPriority x n =>
    obtain ⟨new, q', hn, hq, ht, hl⟩ := h.setPriority hs
    exact ⟨new, q', hn, hq, ht, fun he => iff_of_true (hl he) (by simp)⟩

end

omit [DecidableEq B] in
theorem postpone_concat (ops : List (ListOp B S)) (op : ListOp B S) :
    (ops ++ [op]).foldl Postponed.next .start = (ops.foldl Postponed.next .start).next op := by
  rw [List.foldl_append]
  rfl

theorem exec_twin (priority : S → Nat) (ops : List (ListOp B S)) : ∀ r,
    exec (listStep rxType) (Registry.empty priority) ops = .ok r →
      ∃ q, exec (listStep rxType) (Registry.empty priority) (postpone ops) = .ok q ∧
        Twin (ops.foldl Postponed.next .start) r q := by
  induction ops using List.reverseRecOn with
  | nil =>
    intro r h
    cases h
    exact ⟨_, rfl, twin_start priority⟩
  | append_singleton ops op ih =>
    intro r h
    obtain ⟨r₀, h₀, hs⟩ := exec_concat _ h
    obtain ⟨q₀, hq₀, ht₀⟩ := ih r₀ h₀
    obtain ⟨new, q, hnew, hq, ht, -⟩ := ht₀.step hs
    refine ⟨q, ?_, ?_⟩
    · rw [postpone, postpone_concat, hnew]
      exact (exec_append _ hq₀).trans hq
    · rwa [postpone_concat]

def SameLists (priority : S → Nat) (ops : List (ListOp B S)) : Prop :=
  ∀ r q, exec (listStep rxType) (Registry.empty priority) ops = .ok r →
    exec (listStep rxType) (Registry.empty priority) (postpone ops) = .ok q → r.subscribers = q.subscribers

/-- An add of `x` to `b` after `ops` finds the place the priorities of the run with the changes put off give. -/
def AddKeepsPlace (priority : S → Nat) (ops : List (ListOp B S)) (b : B) (x : S) : Prop :=
  ∀ r q, exec (listStep rxType) (Registry.empty priority) ops = .ok r →
    exec (listStep rxType) (Registry.empty priority) (postpone ops) = .ok q →
      SamePlace rxType r.priority q.priority (q.subscribers b) x

theorem sameLists_concat_iff (priority : S → Nat) {ops : List (ListOp B S)} {op : ListOp B S} {r : Registry B S}
    (h : exec (listStep rxType) (Registry.empty priority) (ops ++ [op]) = .ok r)
    (hl : SameLists rxType priority ops) :
    SameLists rxType priority (ops ++ [op]) ↔ ∀ b x, op = .add b x → AddKeepsPlace rxType priority ops b x := by
  obtain ⟨r₀, h₀, hs⟩ := exec_concat _ h
  obtain ⟨q₀, hq₀, ht₀⟩ := exec_twin rxType priority ops r₀ h₀
  obtain ⟨new, q, hnew, hq, -, hstep⟩ := ht₀.step hs
  have hqe : exec (listStep rxType) (Registry.empty priority) (postpone (ops ++ [op])) = .ok q := by
    rw [postpone, postpone_concat, hnew]
    exact (exec_append _ hq₀).trans hq
  have hiff := hstep (hl r₀ q₀ h₀ hq₀)
  constructor
  · intro hsame b x hop r₁ q₁ h₁ hq₁
    cases h₀.symm.trans h₁
    cases hq₀.symm.trans hq₁
    exact hiff.mp (hsame r q h hqe) b x hop
  · intro hk r₁ q₁ h₁ hq₁
    cases h.symm.trans h₁
    cases hqe.symm.trans hq₁
    exact hiff.mpr fun b x hop => hk b x hop r₀ q₀ h₀ hq₀

/-- The run with the priority changes of attached subscribers put off goes through, and the lists are the same
all along exactly when every add finds the same place in both. -/
theorem postponed_order_iff (priority : S → Nat) (ops : List (ListOp B S)) : ∀ r,
    exec (listStep rxType) (Registry.empty priority) ops = .ok r →
      (∃ q, exec (listStep rxType) (Registry.empty priority) (postpone ops) = .ok q) ∧
        ((∀ pre, pre <+: ops → SameLists rxType priority pre) ↔
          ∀ pre b x, pre ++ [.add b x] <+: ops → AddKeepsPlace rxType priority pre b x) := by
  induction ops using List.reverseRecOn with
  | nil =>
    intro r h
    cases h
    refine ⟨⟨_, rfl⟩, ⟨?_, ?_⟩⟩
    · intro _ pre b x hp
      exact absurd (List.prefix_nil.mp hp) (by simp)
    · intro _ pre hp
      obtain rfl := List.prefix_nil.mp hp
      intro r q hr hq
      cases hr
      cases hq
      rfl
  | append_singleton ops op ih =>
    intro r h
    obtain ⟨r₀, h₀, hs⟩ := exec_concat _ h
    obtain ⟨-, hiff⟩ := ih r₀ h₀
    refine ⟨(exec_twin rxType priority _ r h).imp fun q hq => hq.1, ⟨?_, ?_⟩⟩
    · intro hall pre b x hp
      have hpre : ∀ pre, pre <+: ops → SameLists rxType priority pre :=
        fun pre hp => hall pre (hp.trans (List.prefix_append ..))
      rcases List.prefix_concat_iff.mp hp with he | hp
      · obtain ⟨rfl, rfl⟩ := List.append_singleton_inj.mp he
        exact (sameLists_concat_iff rxType priority h (hpre _ List.prefix_rfl)).mp (hall _ List.prefix_rfl) b x rfl
      · exact hiff.mp hpre pre b x hp
    · intro hall
      have hpre := hiff.mpr fun pre b x hp => hall pre b x (hp.trans (List.prefix_append ..))
      intro pre hp
      rcases List.prefix_concat_iff.mp hp with rfl | hp
      · apply (sameLists_concat_iff rxType priority h (hpre _ List.prefix_rfl)).mpr
        intro b x hop
        exact hall ops b x (hop ▸ List.prefix_rfl)
      · exact hpre pre hp

end

def threePriorities : Nat → Nat
  | 0 => 1
  | 1 => 5
  | _ => 3

/-- Subscriber 0 is raised in the list, but not above subscriber 2, and is removed at the end. -/
def raisedBelow : List (ListOp Unit Nat) := [.add () 0, .add () 1, .setPriority 0 2, .add () 2, .remove 0]

theorem raisedBelow_keeps (pre : List (ListOp Unit Nat)) (b : Unit) (x : Nat) (hp : pre ++ [.add b x] <+: raisedBelow) :
    AddKeepsPlace (fun _ => .callback) threePriorities pre b x := by
  have hpre : pre = [] ∨ pre = [.add () 0] ∧ x = 1 ∨ pre = [.add () 0, .add () 1, .setPriority 0 2] ∧ x = 2 := by
    rcases pre with _ | ⟨a, _ | ⟨a₁, _ | ⟨a₂, _ | ⟨a₃, _ | ⟨_, pre⟩⟩⟩⟩⟩
    · exact .inl rfl
    all_goals simp_all [raisedBelow, List.cons_prefix_cons]
  intro r q hr hq
  cases b
  rcases hpre with rfl | ⟨rfl, rfl⟩ | ⟨rfl, rfl⟩
  · cases hr
    cases hq
    exact ⟨by simp [frontPart, Registry.empty], by simp [backPart, Registry.empty]⟩
  · cases hr
    cases hq
    refine ⟨by decide, fun y hy => ?_⟩
    cases hy
  · cases hr
    cases hq
    refine ⟨by decide, fun y hy => ?_⟩
    cases hy
    decide

theorem postponed_order_removed :
    (∃ q, exec (listStep fun _ : Nat => .callback) (Registry.empty threePriorities) (postpone raisedBelow) = .ok q) ∧
      ∀ pre, pre <+: raisedBelow → SameLists (fun _ => .callback) threePriorities pre := by
  obtain ⟨hq, hiff⟩ := postponed_order_iff (fun _ : Nat => .callback) threePriorities raisedBelow _ rfl
  exact ⟨hq, hiff.mpr raisedBelow_keeps⟩

def onePlaceRaised : List (ListOp Unit Nat) := [.add () 0, .add () 1, .setPriority 0 9, .add () 2]

/-- Subscriber 2 is put in front of subscriber 0, whose priority was raised in the list. -/
theorem set_priority_moves_others : ¬ ∀ (priority : Nat → Nat) (ops : List (ListOp Unit Nat))
    (r q : Registry Unit Nat), exec (listStep fun _ => .callback) (Registry.empty priority) ops = .ok r →
      exec (listStep fun _ => .callback) (Registry.empty priority) (postpone ops) = .ok q →
        r.subscribers () = q.subscribers () := by
  intro h
  have hsame := h threePriorities onePlaceRaised _ _ rfl rfl
  revert hsame
  decide

end ZephyrPubSub
