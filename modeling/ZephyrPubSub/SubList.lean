import ZephyrPubSub.Groups
import ZephyrPubSub.Lists
import ZephyrPubSub.Runs
import Mathlib.Data.List.TakeWhile

/-!
# The subscriber list of a broker

`insertSubscriber` is the search and insertion of
`pub_sub_add_subscriber_to_broker`: the first loop looks for the start of the
subscriber's own type, the second for a larger priority value or the next type.
`Registry` runs adds, removals and priority changes on any number of brokers.
-/

namespace ZephyrPubSub

open Lists

inductive Stop where
  | blocked
  | assertion
  | misuse
  | refOverflow
  | refUnderflow
  | nullBroker
  | useAfterFree
  | notFifo
  deriving DecidableEq, Repr

inductive RxType where
  | callback
  | msgq
  | fifo
  deriving DecidableEq, Repr

/-- Position of the type in the order the subscribers get sorted by. -/
def RxType.rank : RxType → Nat
  | .callback => 0
  | .msgq => 1
  | .fifo => 2

section
variable {S : Type} (rxType : S → RxType) (priority : S → Nat)

/-! ## Insertion -/

/-- The first loop: `prev_node` and the nodes from `current` on. -/
def seekType (t : RxType) : Option S → List S → Option S × List S
  | prev, [] => (prev, [])
  | prev, current :: rest =>
    if rxType current = t then (prev, current :: rest) else seekType t (some current) rest

/-- The second loop, from where the first one stopped: the final `prev_node`. -/
def seekPriority (subscriber : S) : Option S → List S → Option S
  | prev, [] => prev
  | prev, current :: rest =>
    if priority current > priority subscriber ∨ rxType current ≠ rxType subscriber then prev
    else seekPriority subscriber (some current) rest

def otherType (t : RxType) (y : S) : Bool := rxType y ≠ t

def notPast (x y : S) : Bool := ¬ (priority y > priority x ∨ rxType y ≠ rxType x)

theorem seekType_eq (t : RxType) : ∀ (prev : Option S) (l : List S),
    seekType rxType t prev l =
      ((l.takeWhile (otherType rxType t)).getLast?.or prev, l.dropWhile (otherType rxType t))
  | prev, [] => by simp [seekType]
  | prev, y :: l => by
    by_cases h : rxType y = t
    · simp [seekType, h, otherType]
    · have ho : otherType rxType t y = true := by simp [otherType, h]
      rw [seekType, if_neg h, seekType_eq t (some y) l, List.takeWhile_cons_of_pos ho,
        List.dropWhile_cons_of_pos ho, List.getLast?_cons]
      cases (l.takeWhile (otherType rxType t)).getLast? <;> rfl

theorem seekPriority_eq (x : S) : ∀ (prev : Option S) (l : List S),
    seekPriority rxType priority x prev l = (l.takeWhile (notPast rxType priority x)).getLast?.or prev
  | prev, [] => by simp [seekPriority]
  | prev, y :: l => by
    by_cases h : priority y > priority x ∨ rxType y ≠ rxType x
    · have hn : notPast rxType priority x y = false := by simp [notPast, h]
      rw [seekPriority, if_pos h, List.takeWhile_cons_of_neg (by simp [hn])]
      rfl
    · have hn : notPast rxType priority x y = true := by simpa [notPast] using h
      rw [seekPriority, if_neg h, seekPriority_eq x (some y) l, List.takeWhile_cons_of_pos hn,
        List.getLast?_cons]
      cases (l.takeWhile (notPast rxType priority x)).getLast? <;> rfl

def frontPart (l : List S) (x : S) : List S :=
  l.takeWhile (otherType rxType (rxType x)) ++
    (l.dropWhile (otherType rxType (rxType x))).takeWhile (notPast rxType priority x)

def backPart (l : List S) (x : S) : List S :=
  (l.dropWhile (otherType rxType (rxType x))).dropWhile (notPast rxType priority x)

theorem front_append_back (l : List S) (x : S) :
    frontPart rxType priority l x ++ backPart rxType priority l x = l := by
  rw [frontPart, backPart, List.append_assoc, List.takeWhile_append_dropWhile,
    List.takeWhile_append_dropWhile]

variable [DecidableEq S]

/-- `sys_slist_insert`: behind `prev`, or at the head when `prev` is NULL. -/
def slistInsert (l : List S) (prev : Option S) (node : S) : List S :=
  match prev with
  | none => node :: l
  | some p => insertAfter p node l

def insertSubscriber (l : List S) (subscriber : S) : List S :=
  let found := seekType rxType (rxType subscriber) none l
  slistInsert l (seekPriority rxType priority subscriber found.1 found.2) subscriber

theorem insertSubscriber_eq {l : List S} (hn : l.Nodup) (x : S) :
    insertSubscriber rxType priority l x =
      frontPart rxType priority l x ++ x :: backPart rxType priority l x := by
  have hs := front_append_back rxType priority l x
  have hf : (frontPart rxType priority l x).Nodup := by
    rw [← hs] at hn; exact (List.nodup_append.mp hn).1
  have hp : seekPriority rxType priority x (seekType rxType (rxType x) none l).1
      (seekType rxType (rxType x) none l).2 = (frontPart rxType priority l x).getLast? := by
    rw [seekType_eq, seekPriority_eq, frontPart, List.getLast?_append, Option.or_none]
  have hi := insertAfter_getLast x (backPart rxType priority l x) hf
  rw [hs] at hi
  rw [insertSubscriber, hp, ← hi]
  rfl

theorem insertSubscriber_perm {l : List S} (hn : l.Nodup) (x : S) :
    (insertSubscriber rxType priority l x).Perm (x :: l) := by
  rw [insertSubscriber_eq rxType priority hn x]
  have hs := front_append_back rxType priority l x
  exact List.perm_middle.trans (by rw [hs])

theorem insertSubscriber_nodup {l : List S} (hn : l.Nodup) {x : S} (hx : x ∉ l) :
    (insertSubscriber rxType priority l x).Nodup :=
  (insertSubscriber_perm rxType priority hn x).nodup_iff.mpr (List.nodup_cons.mpr ⟨hx, hn⟩)

theorem mem_insertSubscriber {l : List S} (hn : l.Nodup) {x y : S} :
    y ∈ insertSubscriber rxType priority l x ↔ y = x ∨ y ∈ l := by
  rw [(insertSubscriber_perm rxType priority hn x).mem_iff, List.mem_cons]

end

/-! ## The order of the types -/

section
variable {S : Type} (rxType : S → RxType)

/-- No subscriber of a later type in front of one of an earlier type. -/
def TypeOrdered (l : List S) : Prop := l.Pairwise fun x y => (rxType x).rank ≤ (rxType y).rank

/-- Behind a FIFO subscriber there are only FIFO subscribers. -/
def FifoLast (l : List S) : Prop := l.Pairwise fun x y => rxType x = .fifo → rxType y = .fifo

/-- The list already has a subscriber of the new one's type, or none of a later type. -/
def AddOk (l : List S) (x : S) : Prop :=
  (∃ y ∈ l, rxType y = rxType x) ∨ ∀ y ∈ l, (rxType y).rank ≤ (rxType x).rank

instance (l : List S) : Decidable (TypeOrdered rxType l) :=
  inferInstanceAs (Decidable (l.Pairwise fun x y => (rxType x).rank ≤ (rxType y).rank))

instance (l : List S) (x : S) : Decidable (AddOk rxType l x) :=
  inferInstanceAs (Decidable ((∃ y ∈ l, _) ∨ ∀ y ∈ l, _))

theorem TypeOrdered.fifoLast {l : List S} (h : TypeOrdered rxType l) : FifoLast rxType l := by
  refine List.Pairwise.imp ?_ h
  intro x y hxy hx
  rw [hx] at hxy
  cases hy : rxType y with
  | fifo => rfl
  | callback => rw [hy] at hxy; exact absurd hxy (by decide)
  | msgq => rw [hy] at hxy; exact absurd hxy (by decide)

theorem FifoLast.split {l : List S} (h : FifoLast rxType l) : ∃ front tail, l = front ++ tail ∧
    (∀ y ∈ front, rxType y ≠ .fifo) ∧ ∀ y ∈ tail, rxType y = .fifo := by
  induction l with
  | nil => exact ⟨[], [], rfl, by simp, by simp⟩
  | cons y l ih =>
    have hc := List.pairwise_cons.mp h
    by_cases hy : rxType y = .fifo
    · refine ⟨[], y :: l, rfl, by simp, ?_⟩
      intro z hz
      rcases List.mem_cons.mp hz with rfl | hz
      · exact hy
      · exact hc.1 z hz hy
    · obtain ⟨front, tail, rfl, hf, ht⟩ := ih hc.2
      refine ⟨y :: front, tail, rfl, ?_, ht⟩
      intro z hz
      rcases List.mem_cons.mp hz with rfl | hz
      · exact hy
      · exact hf z hz

theorem FifoLast.of_after [DecidableEq S] {l : List S} {x y : S} (h : FifoLast rxType l) (hx : rxType x = .fifo)
    (hy : y ∈ after x l) : rxType y = .fifo := by
  by_cases hm : x ∈ l
  · obtain ⟨pre, _, he⟩ := split_of_mem hm
    unfold FifoLast at h
    rw [he, List.pairwise_append, List.pairwise_cons] at h
    exact h.2.1.1 y hy hx
  · rw [after_of_not_mem hm] at hy; cases hy

theorem dropWhile_otherType {l : List S} {t : RxType} (h : ∃ y ∈ l, rxType y = t) :
    ∃ z rest, l.dropWhile (otherType rxType t) = z :: rest ∧ rxType z = t := by
  cases hd : l.dropWhile (otherType rxType t) with
  | nil =>
    obtain ⟨y, hy, ht⟩ := h
    have := List.dropWhile_eq_nil_iff.mp hd y hy
    simp [otherType, ht] at this
  | cons z rest => exact ⟨z, rest, rfl, by simpa [otherType] using Groups.not_of_dropWhile hd⟩

/-- The new node splits an ordered list in the order exactly under `AddOk`. -/
theorem parts_ordered_iff (priority : S → Nat) {l : List S} (ho : TypeOrdered rxType l) (x : S) :
    ((∀ y ∈ frontPart rxType priority l x, (rxType y).rank ≤ (rxType x).rank) ∧
      ∀ y ∈ backPart rxType priority l x, (rxType x).rank ≤ (rxType y).rank) ↔ AddOk rxType l x := by
  by_cases hsame : ∃ y ∈ l, rxType y = rxType x
  · refine ⟨fun _ => Or.inl hsame, fun _ => ?_⟩
    obtain ⟨z, rest, hd, hz⟩ := dropWhile_otherType rxType hsame
    have hl := (List.takeWhile_append_dropWhile (p := otherType rxType (rxType x)) (l := l)).symm
    rw [hd] at hl
    unfold TypeOrdered at ho
    rw [hl, List.pairwise_append, List.pairwise_cons] at ho
    obtain ⟨_, ⟨hzr, _⟩, hcross⟩ := ho
    constructor
    · intro y hy
      rcases List.mem_append.mp hy with hy | hy
      · have := hcross y hy z (List.mem_cons_self ..)
        rwa [hz] at this
      · have := List.mem_takeWhile_imp hy
        simp only [notPast, decide_eq_true_eq, not_or, not_not] at this
        exact Nat.le_of_eq (by rw [this.2])
    · intro y hy
      have hy' : y ∈ z :: rest := by
        rw [← hd]; exact (List.dropWhile_sublist _).subset hy
      rcases List.mem_cons.mp hy' with rfl | hy'
      · exact Nat.le_of_eq (by rw [hz])
      · have := hzr y hy'
        rwa [hz] at this
  · have hnone : l.dropWhile (otherType rxType (rxType x)) = [] := by
      rw [List.dropWhile_eq_nil_iff]
      intro y hy
      simp only [otherType, decide_eq_true_eq, ne_eq]
      exact fun e => hsame ⟨y, hy, e⟩
    have hl := List.takeWhile_append_dropWhile (p := otherType rxType (rxType x)) (l := l)
    rw [hnone, List.append_nil] at hl
    rw [frontPart, backPart, hnone, hl]
    simp only [List.takeWhile_nil, List.append_nil, List.dropWhile_nil, List.not_mem_nil, false_implies,
      implies_true, and_true, AddOk, hsame, false_or]

theorem insertSubscriber_ordered_iff [DecidableEq S] (priority : S → Nat) {l : List S} (hn : l.Nodup)
    (ho : TypeOrdered rxType l) (x : S) :
    TypeOrdered rxType (insertSubscriber rxType priority l x) ↔ AddOk rxType l x := by
  rw [insertSubscriber_eq rxType priority hn, ← parts_ordered_iff rxType priority ho x]
  unfold TypeOrdered at ho ⊢
  rw [← front_append_back rxType priority l x, List.pairwise_append] at ho
  rw [List.pairwise_append, List.pairwise_cons]
  constructor
  · rintro ⟨_, ⟨hb, _⟩, hc⟩
    exact ⟨fun y hy => hc y hy x (List.mem_cons_self ..), hb⟩
  · rintro ⟨hf, hb⟩
    refine ⟨ho.1, ⟨hb, ho.2.1⟩, ?_⟩
    intro y hy z hz
    rcases List.mem_cons.mp hz with rfl | hz
    · exact hf y hy
    · exact ho.2.2 y hy z hz

end

/-! ## Adding and removing -/

structure Registry (B S : Type) where
  subscribers : B → List S
  broker : S → Option B
  priority : S → Nat

inductive ListOp (B S : Type) where
  | add (broker : B) (subscriber : S)
  | remove (subscriber : S)
  | setPriority (subscriber : S) (priority : Nat)

section
variable {B S : Type}

def Registry.empty (priority : S → Nat) : Registry B S := ⟨fun _ => [], fun _ => none, priority⟩

/-- A subscriber is in the list its broker field names and in no other. -/
structure Registry.Wf (r : Registry B S) : Prop where
  nodup : ∀ b, (r.subscribers b).Nodup
  mem_iff : ∀ b x, x ∈ r.subscribers b ↔ r.broker x = some b

theorem Registry.wf_empty (priority : S → Nat) : (Registry.empty priority : Registry B S).Wf :=
  ⟨fun _ => List.nodup_nil, fun _ _ => by simp [Registry.empty]⟩

variable [DecidableEq B] [DecidableEq S] (rxType : S → RxType)

def addSubscriberToBroker (r : Registry B S) (b : B) (x : S) : Except Stop (Registry B S) :=
  if r.broker x = none then
    .ok { r with
      broker := Function.update r.broker x (some b)
      subscribers := Function.update r.subscribers b
        (insertSubscriber rxType r.priority (r.subscribers b) x) }
  else .error .assertion

def subscriberRemoveBroker (r : Registry B S) (x : S) : Except Stop (Registry B S) :=
  match r.broker x with
  | some b =>
    .ok { r with
      subscribers := Function.update r.subscribers b ((r.subscribers b).erase x)
      broker := Function.update r.broker x none }
  | none => .error .assertion

def subscriberSetPriority (r : Registry B S) (x : S) (n : Nat) : Registry B S :=
  { r with priority := Function.update r.priority x n }

def listStep (r : Registry B S) : ListOp B S → Except Stop (Registry B S)
  | .add b x => addSubscriberToBroker rxType r b x
  | .remove x => subscriberRemoveBroker r x
  | .setPriority x n => .ok (subscriberSetPriority r x n)

theorem Registry.Wf.step {r r' : Registry B S} {op : ListOp B S} (h : r.Wf)
    (hs : listStep rxType r op = .ok r') : r'.Wf := by
  cases op with
  | add b x =>
    simp only [listStep, addSubscriberToBroker] at hs
    split at hs
    · rename_i hx
      cases hs
      have hmem : x ∉ r.subscribers b := fun hm => by rw [(h.mem_iff b x).mp hm] at hx; cases hx
      constructor
      · intro b'
        by_cases hb : b' = b
        · subst hb
          simpa using insertSubscriber_nodup rxType r.priority (h.nodup b') hmem
        · simpa [hb] using h.nodup b'
      · intro b' y
        by_cases hb : b' = b
        · subst hb
          by_cases hy : y = x
          · simp [hy, mem_insertSubscriber rxType r.priority (h.nodup b')]
          · simp [hy, mem_insertSubscriber rxType r.priority (h.nodup b'), h.mem_iff]
        · by_cases hy : y = x
          · subst hy
            simp [hb, Ne.symm hb, h.mem_iff, hx]
          · simp [hb, hy, h.mem_iff]
    · cases hs
  | remove x =>
    simp only [listStep, subscriberRemoveBroker] at hs
    split at hs
    · rename_i b hx
      cases hs
      constructor
      · intro b'
        by_cases hb : b' = b
        · subst hb; simpa using (h.nodup b').erase x
        · simpa [hb] using h.nodup b'
      · intro b' y
        by_cases hb : b' = b
        · subst hb
          by_cases hy : y = x
          · simp [hy, (h.nodup b').mem_erase_iff]
          · simp [hy, (h.nodup b').mem_erase_iff, h.mem_iff]
        · by_cases hy : y = x
          · subst hy
            simp [hb, h.mem_iff, hx, Ne.symm hb]
          · simp [hb, hy, h.mem_iff]
    · cases hs
  | setPriority x n => cases hs; exact ⟨h.nodup, h.mem_iff⟩

/-! ## Subscriber-type order -/

def Registry.Ordered (r : Registry B S) : Prop := ∀ b, TypeOrdered rxType (r.subscribers b)

/-- What an add has to find in the list for the types to stay in order. -/
def OpOk (r : Registry B S) : ListOp B S → Prop
  | .add b x => AddOk rxType (r.subscribers b) x
  | _ => True

omit [DecidableEq B] [DecidableEq S] in
instance (r : Registry B S) (op : ListOp B S) : Decidable (OpOk rxType r op) :=
  match op with
  | .add b x => inferInstanceAs (Decidable (AddOk rxType (r.subscribers b) x))
  | .remove _ | .setPriority .. => isTrue trivial

theorem Registry.Ordered.step_iff {r r' : Registry B S} {op : ListOp B S} (hw : r.Wf)
    (ho : r.Ordered rxType) (hs : listStep rxType r op = .ok r') :
    r'.Ordered rxType ↔ OpOk rxType r op := by
  cases op with
  | add b x =>
    simp only [listStep, addSubscriberToBroker] at hs
    split at hs
    · cases hs
      rw [OpOk, ← insertSubscriber_ordered_iff rxType r.priority (hw.nodup b) (ho b) x]
      constructor
      · intro h
        simpa using h b
      · intro h b'
        by_cases hb : b' = b
        · subst hb; simpa using h
        · simpa [hb] using ho b'
    · cases hs
  | remove x =>
    simp only [listStep, subscriberRemoveBroker] at hs
    split at hs
    · rename_i b _
      cases hs
      refine ⟨fun _ => trivial, fun _ b' => ?_⟩
      by_cases hb : b' = b
      · subst hb
        simp only [Function.update_self]
        exact List.Pairwise.sublist List.erase_sublist (ho b')
      · simpa [hb] using ho b'
    · cases hs
  | setPriority x n => cases hs; exact ⟨fun _ => trivial, fun _ => ho⟩

/-- The lists stay in type order throughout a sequence of adds and removals
exactly when each add finds its own type in the list or no later one; then
the FIFO subscribers are the tail of each list. -/
theorem type_order_iff (priority : S → Nat) (ops : List (ListOp B S)) (r : Registry B S)
    (h : Runs.exec (listStep rxType) (Registry.empty priority) ops = .ok r) :
    ((∀ p ∈ Runs.path (listStep rxType) (Registry.empty priority) ops, p.1.Ordered rxType) ∧
        r.Ordered rxType ↔
      ∀ p ∈ Runs.path (listStep rxType) (Registry.empty priority) ops, OpOk rxType p.1 p.2) ∧
    (r.Ordered rxType → ∀ b, ∃ front tail, r.subscribers b = front ++ tail ∧
      (∀ y ∈ front, rxType y ≠ .fifo) ∧ ∀ y ∈ tail, rxType y = .fifo) := by
  constructor
  · refine Runs.path_iff (listStep rxType) (J := Registry.Wf) ?_ ?_ ops _ r (Registry.wf_empty priority) ?_ h
    · intro r op r' hw hs
      exact hw.step rxType hs
    · intro r op r' hw ho hs
      exact ho.step_iff rxType hw hs
    · exact fun _ => List.Pairwise.nil
  · exact fun ho b => ((ho b).fifoLast rxType).split rxType

end

/-- Subscriber 0 is a FIFO subscriber, subscriber 1 a callback one. -/
def fifoThenCallback : Nat → RxType
  | 0 => .fifo
  | _ => .callback

theorem type_order_fifo_callback :
    ∃ r : Registry Unit Nat, Runs.exec (listStep fifoThenCallback) (Registry.empty fun _ => 0)
        [.add () 1, .add () 0, .remove 1] = .ok r ∧
      (∀ p ∈ Runs.path (listStep fifoThenCallback) (Registry.empty fun _ => 0)
        [.add (B := Unit) () 1, .add () 0, .remove 1], p.1.Ordered fifoThenCallback) ∧
      ∀ b, ∃ front tail, r.subscribers b = front ++ tail ∧
        (∀ y ∈ front, fifoThenCallback y ≠ .fifo) ∧ ∀ y ∈ tail, fifoThenCallback y = .fifo := by
  obtain ⟨hiff, htail⟩ := type_order_iff (B := Unit) fifoThenCallback (fun _ => 0)
    [.add () 1, .add () 0, .remove 1] _ rfl
  have hok : ∀ p ∈ Runs.path (listStep fifoThenCallback) (Registry.empty fun _ => 0)
      [.add (B := Unit) () 1, .add () 0, .remove 1], OpOk fifoThenCallback p.1 p.2 := by decide
  obtain ⟨hall, hlast⟩ := hiff.mpr hok
  exact ⟨_, rfl, hall, htail hlast⟩

/-- A callback subscriber added to a list of one FIFO subscriber ends up behind it. -/
theorem type_order_broken : ¬ ∀ (rxType : Nat → RxType) (ops : List (ListOp Unit Nat))
    (r : Registry Unit Nat), Runs.exec (listStep rxType) (Registry.empty fun _ => 0) ops = .ok r →
      ∀ b, TypeOrdered rxType (r.subscribers b) := by
  intro h
  have := h fifoThenCallback [.add () 0, .add () 1] _ rfl ()
  revert this
  decide

end ZephyrPubSub
