import ZephyrPubSub.RefCount

/-!
# Delayable messages

A delayable message is a static message with a kernel timeout and the
subscriber it goes to; `Timed` adds these to the running system. A timeout is
linked into the kernel's list or not. When it expires the kernel unlinks it and
calls `pub_sub_delayable_msg_handler` in the timer interrupt, so the handler is
one step.
-/

namespace ZephyrPubSub

open Function Runs Outcome

/-- `k_timeout_t` -/
inductive Delay where
  | ticks (n : Nat)
  | forever
  deriving DecidableEq, Repr

def einval : Int := 22

structure Timed (B S : Type) where
  sys : Sys B S
  /-- `timeout.node` is linked. -/
  linked : Msg → Bool
  /-- The `subscriber` field of a delayable message. -/
  subscriber : Msg → Option S
  /-- Publications by `pub_sub_delayable_msg_handler`. -/
  expiries : Msg → Nat
  /-- Handler calls that have returned, the message released. -/
  handled : Msg → Nat

namespace Mem

def getRefCnt (μ : Mem) (m : Msg) : Except Stop Nat :=
  match μ.life m with
  | .live h => .ok h.refCnt
  | _ => .error .useAfterFree

/-- Who acquires the reference owns the message. -/
def own (μ : Mem) (m : Msg) : Mem := { μ with owned := update μ.owned m true }

end Mem

section
variable {B S : Type} [DecidableEq B] [DecidableEq S] (c : Cfg S) (t : Timed B S)

def zAddTimeout (m : Msg) : Delay → Except Stop (Timed B S)
  | .forever => .ok t
  | .ticks _ => if t.linked m then .error .assertion else .ok { t with linked := update t.linked m true }

def zAbortTimeout (m : Msg) : Int × Timed B S :=
  if t.linked m then (0, { t with linked := update t.linked m false }) else (-einval, t)

def delayableMsgInit (m : Msg) (x : S) (id : MsgId) : Except Stop (Timed B S) := do
  let mem ← t.sys.mem.staticMsgInit m id allocIdStaticMsg
  .ok { t with
    sys := { t.sys with mem := mem }
    linked := update t.linked m false
    subscriber := update t.subscriber m (some x) }

def delayableMsgStart (m : Msg) (delay : Delay) : Except Stop (Timed B S) := zAddTimeout t m delay

def delayableMsgAbort (m : Msg) : Except Stop (Int × Timed B S) :=
  let r := zAbortTimeout t m
  if r.1 ≠ 0 then do
    let cnt ← r.2.sys.mem.getRefCnt m
    .ok (if cnt = 0 then 0 else r.1, r.2)
  else .ok r

def delayableMsgUpdateTimeout (m : Msg) (delay : Delay) : Except Stop (Int × Timed B S) := do
  let r ← delayableMsgAbort t m
  let t ← delayableMsgStart r.2 m delay
  .ok (r.1, t)

def delayableMsgHandler (m : Msg) : Except Stop (Timed B S) :=
  match t.subscriber m with
  | none => .error .misuse
  | some x => do
    let cnt ← t.sys.mem.getRefCnt m
    if cnt = 0 then do
      let mem ← t.sys.mem.acquireMsg m
      let sys ← publishToSubscriber c { t.sys with mem := mem.own m } x m
      .ok { t with sys := sys, expiries := update t.expiries m (t.expiries m + 1) }
    else .error .assertion

/-- The kernel's side of an expiry. -/
def expire (m : Msg) : Except Stop (Timed B S) :=
  if t.linked m then delayableMsgHandler c { t with linked := update t.linked m false } m else .error .misuse

/-- The message whose handling a step ends. -/
def finished (s : Sys B S) : Act B S → Option Msg
  | .svc x =>
    match s.svc x with
    | .running p => some p.msg
    | _ => none
  | .callReturn _ p => some p.msg
  | _ => none

def bump (f : Msg → Nat) : Option Msg → Msg → Nat
  | some m => update f m (f m + 1)
  | none => f

inductive TimedAct (B S : Type) where
  | sys (a : Act B S)
  | init (m : Msg) (x : S) (id : MsgId)
  | start (m : Msg) (delay : Delay)
  | updateTimeout (m : Msg) (delay : Delay)
  | abort (m : Msg)
  | expire (m : Msg)

def timedStep : TimedAct B S → Except Stop (Timed B S)
  | .sys a => do
    let sys ← step c t.sys a
    .ok { t with sys := sys, handled := bump t.handled (finished t.sys a) }
  | .init m x id => delayableMsgInit t m x id
  | .start m delay => delayableMsgStart t m delay
  | .updateTimeout m delay => do
    let r ← delayableMsgUpdateTimeout t m delay
    .ok r.2
  | .abort m => do
    let r ← delayableMsgAbort t m
    .ok r.2
  | .expire m => expire c t m

structure TimedInit : Prop where
  sys : Init c t.sys
  linked : ∀ m, t.linked m = false
  subscriber : ∀ m, t.subscriber m = none
  expiries : ∀ m, t.expiries m = 0
  handled : ∀ m, t.handled m = 0

end

/-! ## What a step can do -/

def Delay.links : Delay → Bool
  | .ticks _ => true
  | .forever => false

section
variable {B S : Type} [DecidableEq B] [DecidableEq S]

inductive TimedTrans (c : Cfg S) (t : Timed B S) : TimedAct B S → Timed B S → Prop
  | sys {a s'} : step c t.sys a = .ok s' →
      TimedTrans c t (.sys a) { t with sys := s', handled := bump t.handled (finished t.sys a) }
  | init {m x id μ} : t.sys.mem.staticMsgInit m id allocIdStaticMsg = .ok μ →
      TimedTrans c t (.init m x id)
        { t with
          sys := { t.sys with mem := μ }
          linked := update t.linked m false
          subscriber := update t.subscriber m (some x) }
  | start {m delay} : (delay.links = true → t.linked m = false) →
      TimedTrans c t (.start m delay) { t with linked := update t.linked m (t.linked m || delay.links) }
  | updateTimeout {m delay} :
      TimedTrans c t (.updateTimeout m delay) { t with linked := update t.linked m delay.links }
  | abort {m} : TimedTrans c t (.abort m) { t with linked := update t.linked m false }
  | expire {m x h μ s'} : t.linked m = true → t.subscriber m = some x → t.sys.mem.life m = .live h →
      h.refCnt = 0 → t.sys.mem.acquireMsg m = .ok μ →
      publishToSubscriber c { t.sys with mem := μ.own m } x m = .ok s' →
      TimedTrans c t (.expire m)
        { t with
          sys := s'
          linked := update t.linked m false
          expiries := update t.expiries m (t.expiries m + 1) }

variable {c : Cfg S} {t t' : Timed B S}

section
omit [DecidableEq B] [DecidableEq S]

theorem linked_same {m : Msg} {v : Bool} (h : t.linked m = v) : { t with linked := update t.linked m v } = t := by
  rw [← h, update_eq_self]

theorem zAddTimeout_ok {m : Msg} {delay : Delay} (h : zAddTimeout t m delay = .ok t') :
    (delay.links = true → t.linked m = false) ∧
      t' = { t with linked := update t.linked m (t.linked m || delay.links) } := by
  cases delay with
  | forever =>
    cases h
    exact ⟨fun h => (Bool.noConfusion h), by rw [Delay.links, Bool.or_false, update_eq_self]⟩
  | ticks n =>
    rw [zAddTimeout] at h
    split at h
    · cases h
    · rename_i hl
      cases h
      exact ⟨fun _ => by simpa using hl, by rw [Delay.links, Bool.or_true]⟩

/-- Whatever it returns, `pub_sub_delayable_msg_abort` leaves the timeout unlinked. -/
theorem delayableMsgAbort_ok {m : Msg} {ret : Int} (h : delayableMsgAbort t m = .ok (ret, t')) :
    t' = { t with linked := update t.linked m false } := by
  have hz : (zAbortTimeout t m).2 = { t with linked := update t.linked m false } := by
    unfold zAbortTimeout
    split
    · rfl
    · rename_i hl
      exact (linked_same (by simpa using hl)).symm
  unfold delayableMsgAbort at h
  simp only at h
  split at h
  · obtain ⟨cnt, _, h⟩ := bind_ok h
    cases h
    exact hz
  · have : (zAbortTimeout t m).2 = t' := by rw [Except.ok.inj h]
    rw [← this, hz]

theorem delayableMsgUpdateTimeout_ok {m : Msg} {delay : Delay} {ret : Int}
    (h : delayableMsgUpdateTimeout t m delay = .ok (ret, t')) :
    t' = { t with linked := update t.linked m delay.links } := by
  obtain ⟨⟨ret₁, t₁⟩, habort, h⟩ := bind_ok h
  obtain ⟨t₂, hstart, h⟩ := bind_ok h
  cases h
  obtain rfl := delayableMsgAbort_ok habort
  obtain ⟨_, rfl⟩ := zAddTimeout_ok hstart
  simp only [update_self, Bool.false_or, update_idem]

theorem abort_goes {m : Msg} {hd : Hdr} (hl : t.sys.mem.life m = .live hd) :
    ∃ ret, delayableMsgAbort t m = .ok (ret, { t with linked := update t.linked m false }) := by
  have hr : ∃ r, delayableMsgAbort t m = .ok r := by
    unfold delayableMsgAbort zAbortTimeout
    simp only
    split
    · exact ⟨_, rfl⟩
    · simp only [Mem.getRefCnt, hl]
      exact ⟨_, rfl⟩
  obtain ⟨⟨ret, t'⟩, hr⟩ := hr
  rw [hr, delayableMsgAbort_ok hr]
  exact ⟨ret, rfl⟩

theorem start_goes {m : Msg} (hl : t.linked m = false) (delay : Delay) :
    ∃ t', delayableMsgStart t m delay = .ok t' := by
  cases delay with
  | forever => exact ⟨t, rfl⟩
  | ticks n => exact ⟨_, by rw [delayableMsgStart, zAddTimeout, hl]; rfl⟩

end

theorem expire_ok {m : Msg} (h : expire c t m = .ok t') : TimedTrans c t (.expire m) t' := by
  unfold expire at h
  split at h
  · rename_i hl
    unfold delayableMsgHandler at h
    cases hx : t.subscriber m with
    | none => simp only [hx] at h; cases h
    | some x =>
      simp only [hx] at h
      obtain ⟨cnt, hcnt, h⟩ := bind_ok h
      unfold Mem.getRefCnt at hcnt
      split at hcnt
      · rename_i hd hlife
        cases hcnt
        split at h
        · rename_i h0
          obtain ⟨μ, hμ, h⟩ := bind_ok h
          obtain ⟨s', hs, h⟩ := bind_ok h
          cases h
          exact .expire hl hx hlife h0 hμ hs
        · cases h
      · cases hcnt
  · cases h

theorem timedStep_trans {a : TimedAct B S} (h : timedStep c t a = .ok t') : TimedTrans c t a t' := by
  cases a with
  | sys a => obtain ⟨s', hs, h⟩ := bind_ok h; cases h; exact .sys hs
  | init m x id => obtain ⟨μ, hμ, h⟩ := bind_ok h; cases h; exact .init hμ
  | start m delay => obtain ⟨hl, rfl⟩ := zAddTimeout_ok h; exact .start hl
  | updateTimeout m delay =>
    obtain ⟨⟨ret, t₁⟩, hr, h⟩ := bind_ok h
    cases h
    obtain rfl := delayableMsgUpdateTimeout_ok hr
    exact .updateTimeout
  | abort m =>
    obtain ⟨⟨ret, t₁⟩, hr, h⟩ := bind_ok h
    cases h
    obtain rfl := delayableMsgAbort_ok hr
    exact .abort
  | expire m => exact expire_ok h

/-! ## Runs of the system underneath -/

/-- A delayable message is a static one. -/
def StaticHdrs (t : Timed B S) : Prop := ∀ m x, t.subscriber m = some x → HasAlloc t.sys m allocIdStaticMsg

/-- The steps of the system that the functions for delayable messages consist of. -/
def Act.ofTimer : Act B S → Bool
  | .staticMsgInit .. | .acquireStatic _ | .publishTo .. => true
  | _ => false

/-- `pub_sub_delayable_msg_handler` acquires its message like the owner of a static message. -/
theorem expire_acquires {m : Msg} {x : S} {h : Hdr} {μ : Mem} (hs : StaticHdrs t) (hx : t.subscriber m = some x)
    (hl : t.sys.mem.life m = .live h) (h0 : h.refCnt = 0) (hμ : t.sys.mem.acquireMsg m = .ok μ) :
    step c t.sys (.acquireStatic m) = .ok { t.sys with mem := μ.own m } := by
  have ha : h.allocId = allocIdStaticMsg := by
    obtain ⟨hd, ha, hl' | hl'⟩ := hs m x hx
    · rw [hl] at hl'; cases hl'; exact ha
    · rw [hl] at hl'; cases hl'
  rw [step, acquireStatic, hl]
  simp only [ha, h0, true_or, and_self, if_true, hμ]
  rfl

theorem TimedTrans.run {a : TimedAct B S} (ht : TimedTrans c t a t') (hs : StaticHdrs t) :
    Run (step c) (fun s a' => s.subscribers = t.sys.subscribers ∧ (a = .sys a' ∨ a'.ofTimer = true))
      t.sys t'.sys := by
  cases ht with
  | sys h => exact .single _ ⟨rfl, Or.inl rfl⟩ h
  | @init m x id μ h =>
    refine .single (.staticMsgInit m id allocIdStaticMsg) ⟨rfl, Or.inr rfl⟩ ?_
    rw [step, h]
    rfl
  | @expire m x h μ s' _ hx hl h0 hμ hs' =>
    have hacq := expire_acquires (c := c) hs hx hl h0 hμ
    exact .tail (.publishTo x m) (.single (.acquireStatic m) ⟨rfl, Or.inr rfl⟩ hacq) ⟨rfl, Or.inr rfl⟩ hs'
  | _ => exact .refl _

theorem StaticHdrs.trans {a : TimedAct B S} (hs : StaticHdrs t) (ht : TimedTrans c t a t') : StaticHdrs t' := by
  have hkeep : ∀ {m}, HasAlloc t.sys m allocIdStaticMsg → HasAlloc t'.sys m allocIdStaticMsg := by
    intro m hm
    exact (ht.run hs).invariant (I := fun s => HasAlloc s m allocIdStaticMsg)
      (fun _ _ _ hi _ hstep => hi.trans (step_trans hstep)) hm
  intro m x hx
  cases ht with
  | @init k y id μ h =>
    by_cases hm : m = k
    · subst hm
      obtain ⟨_, _, rfl⟩ := Mem.staticMsgInit_ok h
      exact ⟨_, rfl, Or.inl (Mem.setLife_self ..)⟩
    · simp only [update_of_ne hm] at hx
      exact hkeep (hs m x hx)
  | _ => exact hkeep (hs m x hx)

theorem sys_reachable {G : Timed B S → TimedAct B S → Prop} {P : Sys B S → Act B S → Prop}
    (hG : ∀ t a s a', G t a → s.subscribers = t.sys.subscribers → a = .sys a' ∨ a'.ofTimer = true → P s a')
    (h : Reachable (timedStep c) (TimedInit c) G t) : Reachable (step c) (Init c) P t.sys ∧ StaticHdrs t := by
  apply h.invariant (I := fun t => Reachable (step c) (Init c) P t.sys ∧ StaticHdrs t)
  · intro t hi
    exact ⟨⟨t.sys, hi.sys, .refl _⟩, fun m x hx => by rw [hi.subscriber] at hx; cases hx⟩
  · intro t a t' ⟨hr, hs⟩ hg hstep
    have ht := timedStep_trans hstep
    refine ⟨hr.run ((ht.run hs).mono ?_), hs.trans ht⟩
    intro s a' hp
    exact hG t a s a' hg hp.1 hp.2

def Timed.idle (s : Sys B S) : Timed B S := ⟨s, fun _ => false, fun _ => none, fun _ => 0, fun _ => 0⟩

omit [DecidableEq B] [DecidableEq S] in
theorem timedInit_idle {s : Sys B S} (h : Init c s) : TimedInit c (Timed.idle s) :=
  ⟨h, fun _ => rfl, fun _ => rfl, fun _ => rfl, fun _ => rfl⟩

end

end ZephyrPubSub
