import Mathlib.Data.List.Induction
import Mathlib.Tactic.Choose
import ZephyrPubSub.Bitmap
import ZephyrPubSub.Runs
import ZephyrPubSub.Trans

/-!
# The subscription bit arrays

In the running system the subscriptions of a subscriber are a function. Here
each subscriber has the array of words that `common_subscriber_init` clears and
the atomic bit operations work on, and a word outside the array ends the run.
Whatever the threads do, the system goes on as with the functions.
-/

namespace ZephyrPubSub

open Bitmap Runs Function

inductive Fault where
  | outOfBounds
  | call (e : Stop)
  deriving DecidableEq, Repr

def inBounds {α : Type} : Option α → Except Fault α
  | some a => .ok a
  | none => .error .outOfBounds

/-! ## Atomic bit operations -/

section
variable {n : Nat} (target : Words n) (bit : Nat)

def atomicSetBit : Except Fault (Words n) := inBounds (setBit target bit)

def atomicClearBit : Except Fault (Words n) := inBounds (clearBit target bit)

def atomicTestBit : Except Fault Bool := inBounds (testBit target bit)

end

/-! ## The size of an array -/

/-- `ATOMIC_BITMAP_SIZE`, where an `atomic_t` has `n` bytes. -/
def atomicBitmapSize (n numBits : Nat) : Nat := size (n * 8) numBits

/-- `PUB_SUB_SUBS_BITARRAY_BYTE_LEN`; the sum is an int, so that 0xFFFF + 1 is not 0. -/
def subsBitarrayByteLen (n : Nat) (maxMsgId : MsgId) : Nat := atomicBitmapSize n (maxMsgId.toNat + 1) * n

/-- What `PUB_SUB_SUBS_BITARRAY_DEFINE` defines, with any contents; it has `subsBitarrayByteLen` bytes. -/
structure SubsBitarray (n : Nat) (maxMsgId : MsgId) where
  words : Words n
  length_eq : words.length = atomicBitmapSize n (maxMsgId.toNat + 1)

/-! ## Initialization -/

inductive RxQueue (Q : Type) where
  | unset
  | msgq (msgq : Q)
  | fifo

structure Subscriber (B Q : Type) (n : Nat) where
  broker : Option B
  queue : RxQueue Q
  subsBitarray : Words n
  rxType : RxType
  maxPubMsgId : MsgId
  priority : Nat

section
variable {B S Q : Type} {n : Nat} (o : ByteOrder)

def commonSubscriberInit (subscriber : Subscriber B Q n) (subsBitarray : Words n) (maxPubMsgId : MsgId) :
    Except Fault (Subscriber B Q n) := do
  let words ← inBounds (memset o 0#8 subsBitarray (subsBitarrayByteLen n maxPubMsgId))
  .ok { subscriber with broker := none, subsBitarray := words, maxPubMsgId := maxPubMsgId, priority := 0 }

def pubSubInitCallbackSubscriber (subscriber : Subscriber B Q n) (subsBitarray : Words n) (maxPubMsgId : MsgId) :
    Except Fault (Subscriber B Q n) := do
  let subscriber ← commonSubscriberInit o subscriber subsBitarray maxPubMsgId
  .ok { subscriber with rxType := .callback }

def pubSubInitMsgqSubscriber (subscriber : Subscriber B Q n) (subsBitarray : Words n) (maxPubMsgId : MsgId)
    (msgq : Q) : Except Fault (Subscriber B Q n) := do
  let subscriber ← commonSubscriberInit o subscriber subsBitarray maxPubMsgId
  .ok { subscriber with queue := .msgq msgq, rxType := .msgq }

def pubSubInitFifoSubscriber (subscriber : Subscriber B Q n) (subsBitarray : Words n) (maxPubMsgId : MsgId) :
    Except Fault (Subscriber B Q n) := do
  let subscriber ← commonSubscriberInit o subscriber subsBitarray maxPubMsgId
  .ok { subscriber with queue := .fifo, rxType := .fifo }

inductive InitCall (Q : Type) where
  | callback
  | msgq (msgq : Q)
  | fifo

def initSubscriber (subscriber : Subscriber B Q n) (subsBitarray : Words n) (maxPubMsgId : MsgId) :
    InitCall Q → Except Fault (Subscriber B Q n)
  | .callback => pubSubInitCallbackSubscriber o subscriber subsBitarray maxPubMsgId
  | .msgq msgq => pubSubInitMsgqSubscriber o subscriber subsBitarray maxPubMsgId msgq
  | .fifo => pubSubInitFifoSubscriber o subscriber subsBitarray maxPubMsgId

/-- The attributes of initialized subscribers. -/
def Cfg.ofSubscribers (subscriber : S → Subscriber B Q n) (maxMsgs : S → Nat) (numAllocators : Nat) : Cfg S where
  rxType x := (subscriber x).rxType
  maxPubMsgId x := (subscriber x).maxPubMsgId
  maxMsgs := maxMsgs
  numAllocators := numAllocators

end

/-! ## The system with bit arrays -/

/-- The running system; instead of `sys.subs` it uses the arrays. -/
structure BitSys (B S : Type) (n : Nat) where
  sys : Sys B S
  subsBitarray : S → Words n

/-- A turn of a routing loop finds the answer of its lookup here. -/
def Sys.answering {B S : Type} (s : Sys B S) (hit : Bool) : Sys B S := { s with subs := fun _ _ => hit }

namespace BitSys

section
variable {B S : Type} {n : Nat} [DecidableEq B] [DecidableEq S] (c : Cfg S) (t : BitSys B S n)

def subscribe (x : S) (id : MsgId) : Except Fault (BitSys B S n) :=
  if id ≤ c.maxPubMsgId x then do
    let words ← atomicSetBit (t.subsBitarray x) id.toNat
    .ok { t with subsBitarray := update t.subsBitarray x words }
  else .error (.call .assertion)

def unsubscribe (x : S) (id : MsgId) : Except Fault (BitSys B S n) :=
  if id ≤ c.maxPubMsgId x then do
    let words ← atomicClearBit (t.subsBitarray x) id.toNat
    .ok { t with subsBitarray := update t.subsBitarray x words }
  else .error (.call .assertion)

/-- The condition of both routing loops; `&&` looks at the array only for a public id. -/
def lookup (x : S) (id : MsgId) : Except Fault Bool :=
  if id ≤ c.maxPubMsgId x then atomicTestBit (t.subsBitarray x) id.toNat else .ok false

def lift : Except Stop (Sys B S) → Except Fault (BitSys B S n)
  | .ok sys => .ok { t with sys := sys }
  | .error e => .error (.call e)

def workStep (b : B) : Except Fault (BitSys B S n) :=
  match t.sys.work b with
  | .scan p id (some x) _ => do
    let hit ← t.lookup c x id
    t.lift (deliver c (t.sys.answering hit) b p id x)
  | _ => t.lift (ZephyrPubSub.workStep c t.sys b)

def svcStep (x : S) : Except Fault (BitSys B S n) :=
  match t.sys.svc x with
  | .walk p id b (some next) => do
    let hit ← t.lookup c next id
    t.lift (forward c (t.sys.answering hit) x p id b next)
  | _ => t.lift (ZephyrPubSub.svcStep c t.sys x)

def step : Act B S → Except Fault (BitSys B S n)
  | .work b => t.workStep c b
  | .svc x => t.svcStep c x
  | .subscribe x id => t.subscribe c x id
  | .unsubscribe x id => t.unsubscribe c x id
  | a => t.lift (ZephyrPubSub.step c t.sys a)

end

end BitSys

/-! ## Steps that look at no subscription -/

/-- `s'` is `s` with other subscriptions. -/
def SameBut {B S : Type} (subs : S → MsgId → Bool) (s s' : Sys B S) : Prop := s' = { s with subs := subs }

section
variable {B S : Type} {n : Nat} [DecidableEq B] [DecidableEq S] {c : Cfg S} {s : Sys B S} {t : BitSys B S n}
variable {subs : S → MsgId → Bool}

theorem forward_same {x next : S} {p : Pkt B} {id : MsgId} {b : B}
    (hw : s.wants c next id ↔ Sys.wants c { s with subs := subs } next id) :
    Lockstep (SameBut subs) (forward c s x p id b next) (forward c { s with subs := subs } x p id b next) := by
  unfold forward
  rw [← if_congr hw rfl rfl]
  apply Lockstep.ite
  · intro _
    apply Lockstep.ite
    · intro _
      exact Lockstep.bind fun _ => rfl
    · intro _
      exact rfl
  · intro _
    exact rfl

theorem deliver_same {b : B} {p : Pkt B} {id : MsgId} {x : S}
    (hw : s.wants c x id ↔ Sys.wants c { s with subs := subs } x id) :
    Lockstep (SameBut subs) (deliver c s b p id x) (deliver c { s with subs := subs } b p id x) := by
  unfold deliver
  rw [← if_congr hw rfl rfl]
  apply Lockstep.ite
  · intro _
    cases c.rxType x with
    | callback => exact rfl
    | msgq => exact Lockstep.bind fun _ => rfl
    | fifo => exact Lockstep.bind fun _ => rfl
  · intro _
    exact rfl

theorem workStep_same {b : B} (hw : ∀ p id x call, s.work b ≠ .scan p id (some x) call) :
    Lockstep (SameBut subs) (workStep c s b) (workStep c { s with subs := subs } b) := by
  unfold workStep
  cases hwork : s.work b with
  | armed => exact rfl
  | queued => exact rfl
  | get =>
    cases s.fifo b with
    | nil => exact rfl
    | cons p ps => exact Lockstep.bind fun _ => rfl
  | lock p id => exact Lockstep.ite (fun _ => rfl) fun _ => rfl
  | scan p id sub call =>
    cases sub with
    | none => exact rfl
    | some x => exact absurd hwork (hw p id x call)
  | put p id x tmp => exact Lockstep.ite (fun _ => rfl) fun _ => rfl
  | release p => exact Lockstep.bind fun _ => rfl
  | reset => exact rfl
  | submit => exact rfl

theorem svcStep_same {x : S} (hw : ∀ p id b next, s.svc x ≠ .walk p id b (some next)) :
    Lockstep (SameBut subs) (svcStep c s x) (svcStep c { s with subs := subs } x) := by
  unfold svcStep
  cases hsvc : s.svc x with
  | idle =>
    cases c.rxType x with
    | callback => exact rfl
    | msgq | fifo =>
      cases s.queue x with
      | nil => exact rfl
      | cons p ps => exact Lockstep.bind fun _ => rfl
  | got p id =>
    apply Lockstep.ite
    · intro _
      cases s.broker x <;> exact rfl
    · intro _
      exact rfl
  | lock p id b => exact Lockstep.ite (fun _ => rfl) fun _ => rfl
  | walk p id b nextSub =>
    cases nextSub with
    | none => exact rfl
    | some next => exact absurd hsvc (hw p id b next)
  | ready p id => exact rfl
  | running p => exact Lockstep.bind fun _ => rfl

theorem step_same {a : Act B S} (hwork : ∀ b, a ≠ .work b) (hsvc : ∀ x, a ≠ .svc x)
    (hsub : ∀ x id, a ≠ .subscribe x id) (hunsub : ∀ x id, a ≠ .unsubscribe x id) :
    Lockstep (SameBut subs) (step c s a) (step c { s with subs := subs } a) := by
  cases a with
  | work b => exact absurd rfl (hwork b)
  | svc x => exact absurd rfl (hsvc x)
  | publish b m => exact Lockstep.ite (fun _ => rfl) fun _ => rfl
  | publishTo x m =>
    apply Lockstep.ite
    · intro _
      apply Lockstep.bind
      intro id
      apply Lockstep.ite
      · intro _
        cases hrx : c.rxType x with
        | callback | fifo => exact rfl
        | msgq => exact Lockstep.ite (fun _ => rfl) fun _ => rfl
      · intro _
        exact rfl
    · intro _
      exact rfl
  | callReturn x p => exact Lockstep.ite (fun _ => Lockstep.bind fun _ => rfl) fun _ => rfl
  | addStart b x => exact Lockstep.ite (fun _ => Lockstep.ite (fun _ => rfl) fun _ => rfl) fun _ => rfl
  | addLink x =>
    show Lockstep (SameBut subs) (addLink c s x) (addLink c { s with subs := subs } x)
    unfold addLink
    cases s.admin x with
    | idle | removing => exact rfl
    | adding =>
      cases s.broker x with
      | none => exact rfl
      | some b => exact Lockstep.ite (fun _ => rfl) fun _ => rfl
  | removeUnlink x =>
    apply Lockstep.ite
    · intro _
      cases s.broker x with
      | none => exact rfl
      | some b => exact Lockstep.ite (fun _ => rfl) fun _ => rfl
    · intro _
      exact rfl
  | removeClear x => exact Lockstep.ite (fun _ => rfl) fun _ => rfl
  | setPriority x n => exact rfl
  | newMsg m id a => exact Lockstep.bind fun _ => rfl
  | staticMsgInit m id a => exact Lockstep.bind fun _ => rfl
  | acquireStatic m =>
    show Lockstep (SameBut subs) (acquireStatic s m) (acquireStatic { s with subs := subs } m)
    unfold acquireStatic
    cases s.mem.life m with
    | live h => exact Lockstep.ite (fun _ => Lockstep.bind fun _ => rfl) fun _ => rfl
    | _ => exact rfl
  | releaseUnpublished m => exact Lockstep.ite (fun _ => Lockstep.bind fun _ => rfl) fun _ => rfl
  | acquireExtra m =>
    show Lockstep (SameBut subs) (acquireExtra s m) (acquireExtra { s with subs := subs } m)
    unfold acquireExtra
    cases s.mem.life m with
    | live h => exact Lockstep.ite (fun _ => Lockstep.bind fun _ => rfl) fun _ => rfl
    | _ => exact rfl
  | releaseExtra m => exact Lockstep.ite (fun _ => Lockstep.bind fun _ => rfl) fun _ => rfl
  | subscribe x id => exact absurd rfl (hsub x id)
  | unsubscribe x id => exact absurd rfl (hunsub x id)

/-! ## The arrays in step with the functions -/

/-- The bits for the public ids of a subscriber are its subscriptions. -/
def Stores (c : Cfg S) (t : BitSys B S n) (subs : S → MsgId → Bool) : Prop :=
  ∀ x, Holds (t.subsBitarray x) BitVec.toNat (· ≤ c.maxPubMsgId x) (subs x)

/-- The system beside `t` has the subscriptions that `t` stores. -/
inductive Tracks (c : Cfg S) (t : BitSys B S n) : Sys B S → Prop
  | intro {subs : S → MsgId → Bool} (h : Stores c t subs) : Tracks c t { t.sys with subs := subs }

section
omit [DecidableEq B] [DecidableEq S]

theorem lookup_eq (h : Stores c t subs) (x : S) (id : MsgId) :
    t.lookup c x id = .ok (decide (Sys.wants c { t.sys with subs := subs } x id)) := by
  unfold BitSys.lookup
  by_cases hid : id ≤ c.maxPubMsgId x
  · rw [if_pos hid, atomicTestBit, h x id hid]
    simp [inBounds, Sys.wants, hid]
  · rw [if_neg hid]
    simp [Sys.wants, hid]

theorem wants_answering (c : Cfg S) (s s' : Sys B S) (x : S) (id : MsgId) :
    (s.answering (decide (s'.wants c x id))).wants c x id ↔ s'.wants c x id := by
  constructor
  · intro h
    exact of_decide_eq_true h.2
  · intro h
    exact ⟨h.1, decide_eq_true h⟩

theorem lift_tracks (hst : Stores c t subs) {r r' : Except Stop (Sys B S)} (h : Lockstep (SameBut subs) r r') :
    Lockstep (Tracks c) (t.lift r) (r'.mapError Fault.call) := by
  cases r with
  | ok s =>
    obtain ⟨s', rfl, rfl⟩ := h.ok rfl
    exact Tracks.intro hst
  | error e =>
    cases r' with
    | ok s' => exact h.elim
    | error e' => exact congrArg Fault.call h

end

theorem workStep_tracks (h : Stores c t subs) (b : B) :
    Lockstep (Tracks c) (t.workStep c b) ((workStep c { t.sys with subs := subs } b).mapError Fault.call) := by
  unfold BitSys.workStep
  split
  · rename_i p id x call hwork
    rw [lookup_eq h, workStep, hwork]
    exact lift_tracks h (deliver_same (wants_answering c t.sys _ x id))
  · rename_i hwork
    exact lift_tracks h (workStep_same hwork)

theorem svcStep_tracks (h : Stores c t subs) (x : S) :
    Lockstep (Tracks c) (t.svcStep c x) ((svcStep c { t.sys with subs := subs } x).mapError Fault.call) := by
  unfold BitSys.svcStep
  split
  · rename_i p id b next hsvc
    rw [lookup_eq h, svcStep, hsvc]
    exact lift_tracks h (forward_same (wants_answering c t.sys _ next id))
  · rename_i hsvc
    exact lift_tracks h (svcStep_same hsvc)

omit [DecidableEq B] in
theorem Stores.update (hst : Stores c t subs) {x : S} {words : Words n} {p : MsgId → Bool}
    (h : Holds words BitVec.toNat (· ≤ c.maxPubMsgId x) p) :
    Stores c { t with subsBitarray := Function.update t.subsBitarray x words } (Function.update subs x p) := by
  intro y
  by_cases hy : y = x
  · subst hy
    simpa using h
  · simpa [hy] using hst y

theorem step_tracks (hn : 0 < n) {s : Sys B S} (h : Tracks c t s) (a : Act B S) :
    Lockstep (Tracks c) (t.step c a) ((step c s a).mapError Fault.call) := by
  obtain ⟨hst⟩ := h
  have hinj : Injective (BitVec.toNat : MsgId → Nat) := fun _ _ => BitVec.eq_of_toNat_eq
  cases a with
  | work b => exact workStep_tracks hst b
  | svc x => exact svcStep_tracks hst x
  | subscribe x id =>
    simp only [BitSys.step, BitSys.subscribe, step, subscribe]
    by_cases hid : id ≤ c.maxPubMsgId x
    · obtain ⟨words, hwords, hset⟩ := (hst x).setBit hn hinj hid
      rw [if_pos hid, if_pos hid, atomicSetBit, hwords]
      exact Tracks.intro (hst.update hset)
    · rw [if_neg hid, if_neg hid]
      exact rfl
  | unsubscribe x id =>
    simp only [BitSys.step, BitSys.unsubscribe, step, unsubscribe]
    by_cases hid : id ≤ c.maxPubMsgId x
    · obtain ⟨words, hwords, hclear⟩ := (hst x).clearBit hn hinj hid
      rw [if_pos hid, if_pos hid, atomicClearBit, hwords]
      exact Tracks.intro (hst.update hclear)
    · rw [if_neg hid, if_neg hid]
      exact rfl
  -- no other call looks at the subscriptions
  | setPriority x k => exact Tracks.intro hst
  | _ => exact lift_tracks hst (step_same (by simp) (by simp) (by simp) (by simp))

theorem exec_tracks (hn : 0 < n) {s : Sys B S} (h : Tracks c t s) (as : List (Act B S)) :
    Lockstep (Tracks c) (exec (BitSys.step c) t as) ((exec (step c) s as).mapError Fault.call) := by
  rw [← exec_mapError]
  exact exec_lockstep (fun t s a h => step_tracks hn h a) as t s h

/-! ## The last call -/

/-- The last `subscribe` or `unsubscribe` of `x` for `id` was a `subscribe`. -/
def Subscribed (as : List (Act B S)) (x : S) (id : MsgId) : Prop :=
  ∃ pre post, as = pre ++ .subscribe x id :: post ∧ .unsubscribe x id ∉ post

omit [DecidableEq B] [DecidableEq S] in
theorem subscribed_concat {as : List (Act B S)} {a : Act B S} {x : S} {id : MsgId} :
    Subscribed (as ++ [a]) x id ↔ a = .subscribe x id ∨ a ≠ .unsubscribe x id ∧ Subscribed as x id := by
  constructor
  · rintro ⟨pre, post, he, hpost⟩
    induction post using List.reverseRecOn with
    | nil =>
      obtain ⟨-, ha⟩ := List.append_inj' he rfl
      exact Or.inl (List.singleton_inj.mp ha)
    | append_singleton post b =>
      rw [← List.cons_append, ← List.append_assoc] at he
      obtain ⟨rfl, ha⟩ := List.append_inj' he rfl
      obtain rfl := List.singleton_inj.mp ha
      rw [List.mem_append, List.mem_singleton, not_or] at hpost
      exact Or.inr ⟨Ne.symm hpost.2, pre, post, rfl, hpost.1⟩
  · rintro (rfl | ⟨ha, pre, post, rfl, hpost⟩)
    · exact ⟨as, [], rfl, List.not_mem_nil⟩
    · refine ⟨pre, post ++ [a], by simp, ?_⟩
      rw [List.mem_append, List.mem_singleton, not_or]
      exact ⟨hpost, Ne.symm ha⟩

omit [DecidableEq B] in
theorem update_subs (subs : S → MsgId → Bool) (x y : S) (i id : MsgId) (v : Bool) :
    update subs y (update (subs y) i v) x id = if y = x ∧ i = id then v else subs x id := by
  by_cases hx : y = x
  · subst hx
    by_cases hi : i = id
    · subst hi
      simp
    · simp [hi, Ne.symm hi]
  · simp [hx, Ne.symm hx]

theorem trans_subs {s' : Sys B S} {a : Act B S} (h : Trans c s a s') (x : S) (id : MsgId) :
    s'.subs x id = true ↔ a = .subscribe x id ∨ a ≠ .unsubscribe x id ∧ s.subs x id = true := by
  cases h with
  | subscribe | unsubscribe =>
    simp only [update_subs]
    split <;> simp [*]
  | mem hm => cases hm <;> simp
  | _ => simp

theorem exec_subs (s : Sys B S) (as : List (Act B S)) (x : S) (id : MsgId) : ∀ s',
    exec (step c) { s with subs := fun _ _ => false } as = .ok s' → (s'.subs x id = true ↔ Subscribed as x id) := by
  induction as using List.reverseRecOn with
  | nil =>
    intro s' h
    cases h
    simp [Subscribed]
  | append_singleton as a ih =>
    intro s' h
    obtain ⟨s₁, h₁, hs⟩ := exec_concat _ h
    rw [trans_subs (step_trans hs), subscribed_concat, ih s₁ h₁]

end

/-! ## From the initialization on -/

section
variable {B S Q : Type} {n : Nat}

theorem commonSubscriberInit_empty (hn : 0 < n) (o : ByteOrder) (subscriber : Subscriber B Q n) {maxPubMsgId : MsgId}
    (prev : SubsBitarray n maxPubMsgId) :
    ∃ subscriber', commonSubscriberInit o subscriber prev.words maxPubMsgId = .ok subscriber' ∧
      subscriber'.maxPubMsgId = maxPubMsgId ∧
      Holds subscriber'.subsBitarray BitVec.toNat (· ≤ maxPubMsgId) fun _ => false := by
  have hlt : ∀ id, id ≤ maxPubMsgId → id.toNat < maxPubMsgId.toNat + 1 := fun _ h => Nat.lt_succ_of_le h
  obtain ⟨words, hwords, hempty⟩ := holds_memset o hn prev.length_eq hlt
  refine ⟨{ subscriber with broker := none, subsBitarray := words, maxPubMsgId := maxPubMsgId, priority := 0 },
    ?_, rfl, hempty⟩
  rw [commonSubscriberInit, subsBitarrayByteLen, atomicBitmapSize, hwords]
  rfl

theorem initSubscriber_empty (hn : 0 < n) (o : ByteOrder) (subscriber : Subscriber B Q n) {maxPubMsgId : MsgId}
    (prev : SubsBitarray n maxPubMsgId) (call : InitCall Q) :
    ∃ subscriber', initSubscriber o subscriber prev.words maxPubMsgId call = .ok subscriber' ∧
      subscriber'.maxPubMsgId = maxPubMsgId ∧
      Holds subscriber'.subsBitarray BitVec.toNat (· ≤ maxPubMsgId) fun _ => false := by
  obtain ⟨subscriber₁, hinit, hmax, hempty⟩ := commonSubscriberInit_empty hn o subscriber prev
  cases call with
  | callback =>
    refine ⟨{ subscriber₁ with rxType := .callback }, ?_, hmax, hempty⟩
    rw [initSubscriber, pubSubInitCallbackSubscriber, hinit]
    rfl
  | msgq msgq =>
    refine ⟨{ subscriber₁ with queue := .msgq msgq, rxType := .msgq }, ?_, hmax, hempty⟩
    rw [initSubscriber, pubSubInitMsgqSubscriber, hinit]
    rfl
  | fifo =>
    refine ⟨{ subscriber₁ with queue := .fifo, rxType := .fifo }, ?_, hmax, hempty⟩
    rw [initSubscriber, pubSubInitFifoSubscriber, hinit]
    rfl

def BitSys.start (subscriber : S → Subscriber B Q n) (sys : Sys B S) : BitSys B S n :=
  ⟨sys, fun x => (subscriber x).subsBitarray⟩

variable [DecidableEq B] [DecidableEq S]

/-- Along `as` the arrays of `t` stand for sets that are empty at first. -/
structure RefinesSet (c : Cfg S) (t : BitSys B S n) (as : List (Act B S)) : Prop where
  lockstep : Lockstep (Tracks c) (exec (BitSys.step c) t as)
    ((exec (step c) { t.sys with subs := fun _ _ => false } as).mapError Fault.call)
  inBounds : exec (BitSys.step c) t as ≠ .error .outOfBounds
  lookup : ∀ t', exec (BitSys.step c) t as = .ok t' → ∀ x id,
    ∃ hit, t'.lookup c x id = .ok hit ∧ (hit = true ↔ id ≤ c.maxPubMsgId x ∧ Subscribed as x id)

theorem refinesSet_of_empty (hn : 0 < n) {c : Cfg S} {t : BitSys B S n}
    (h : Stores c t fun _ _ => false) (as : List (Act B S)) : RefinesSet c t as := by
  have hl := exec_tracks hn (Tracks.intro h) as
  refine ⟨hl, ?_, ?_⟩
  · intro he
    rw [he] at hl
    cases hx : exec (step c) { t.sys with subs := fun _ _ => false } as with
    | ok s => rw [hx] at hl; exact hl
    | error e => rw [hx] at hl; cases hl
  · intro t' ht x id
    obtain ⟨s, hs, ⟨hst⟩⟩ := hl.ok ht
    cases hx : exec (step c) { t.sys with subs := fun _ _ => false } as with
    | error e => rw [hx] at hs; cases hs
    | ok s' =>
      rw [hx] at hs
      obtain rfl := Except.ok.inj hs
      -- the lookup is the test of the system beside it, whose subscriptions are what the calls have left
      refine ⟨_, lookup_eq hst x id, ?_⟩
      rw [decide_eq_true_iff, Sys.wants, exec_subs t.sys as x id _ hx]

/-- Whatever their arrays held, initialized subscribers have bit arrays that refine sets. No run of the system
accesses a word outside an array, and the lookups find what was subscribed to last. -/
theorem bitarray_refines_set (hn : 0 < n) (o : ByteOrder) (maxPubMsgId : S → MsgId) (call : S → InitCall Q)
    (subscriber : S → Subscriber B Q n) (prev : ∀ x, SubsBitarray n (maxPubMsgId x)) :
    ∃ subscriber' : S → Subscriber B Q n,
      (∀ x, initSubscriber o (subscriber x) (prev x).words (maxPubMsgId x) (call x) = .ok (subscriber' x) ∧
        (subscriber' x).maxPubMsgId = maxPubMsgId x) ∧
      ∀ (maxMsgs : S → Nat) (numAllocators : Nat) (sys : Sys B S) (as : List (Act B S)),
        RefinesSet (Cfg.ofSubscribers subscriber' maxMsgs numAllocators) (BitSys.start subscriber' sys) as := by
  choose subscriber' hinit hmax hempty using fun x => initSubscriber_empty hn o (subscriber x) (prev x) (call x)
  refine ⟨subscriber', fun x => ⟨hinit x, hmax x⟩, ?_⟩
  intro maxMsgs numAllocators sys as
  apply refinesSet_of_empty hn
  intro x
  have h := hempty x
  rw [← hmax x] at h
  exact h

end

/-! ## A limit of 32 -/

def staleBitarray : SubsBitarray 4 32 := ⟨[0xFFFFFFFF, 0xFFFFFFFF], rfl⟩

def staleSubscriber : Subscriber Unit Unit 4 := ⟨some (), .fifo, [], .fifo, 0, 7⟩

def clearedSubscriber : Subscriber Unit Unit 4 := ⟨none, .fifo, [0, 0], .callback, 32, 0⟩

def limitCfg : Cfg Unit := .ofSubscribers (fun _ => clearedSubscriber) (fun _ => 0) 0

def limitStart : BitSys Unit Unit 4 :=
  .start (fun _ => clearedSubscriber) (Sys.init (fun _ => []) (fun _ => none) (fun _ _ => true) fun _ => 0)

def limitCalls : List (Act Unit Unit) :=
  [.subscribe () 32, .subscribe () 31, .addStart () (), .addLink (), .removeUnlink ()] ++ [.unsubscribe () 31]

theorem bitarray_refines_set_limit :
    initSubscriber .big staleSubscriber staleBitarray.words 32 .callback = .ok clearedSubscriber ∧
      ∃ t, exec (BitSys.step limitCfg) limitStart limitCalls = .ok t ∧
        t.lookup limitCfg () 32 = .ok true ∧ t.lookup limitCfg () 31 = .ok false := by
  obtain ⟨subscriber', hinit, h⟩ := bitarray_refines_set (B := Unit) (by decide) .big (fun _ : Unit => 32)
    (fun _ => .callback) (fun _ => staleSubscriber) fun _ => staleBitarray
  have hcleared : initSubscriber .big staleSubscriber staleBitarray.words 32 .callback = .ok clearedSubscriber := rfl
  obtain rfl : subscriber' = fun _ => clearedSubscriber := by
    funext x
    exact Except.ok.inj ((hinit x).1.symm.trans hcleared)
  obtain ⟨t, hrun⟩ : ∃ t, exec (BitSys.step limitCfg) limitStart limitCalls = .ok t := ⟨_, rfl⟩
  have hlookup := (h (fun _ => 0) 0 limitStart.sys limitCalls).lookup t hrun ()
  refine ⟨hcleared, t, hrun, ?_, ?_⟩
  · obtain ⟨hit, hlook, hiff⟩ := hlookup 32
    have hhit : hit = true := hiff.mpr ⟨by decide, [], limitCalls.tail, rfl, by simp [limitCalls]⟩
    exact hhit ▸ hlook
  · obtain ⟨hit, hlook, hiff⟩ := hlookup 31
    have hhit : hit = false := by
      rw [← Bool.not_eq_true, hiff]
      rintro ⟨-, hsub⟩
      rcases subscribed_concat.mp hsub with hne | ⟨hne, -⟩
      · cases hne
      · exact hne rfl
    exact hhit ▸ hlook

end ZephyrPubSub
