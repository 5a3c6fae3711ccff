import ZephyrPubSub.Delayable
import ZephyrPubSub.Direct

/-!
# The timer interrupt

`pub_sub_delayable_msg_handler` runs in the timer interrupt and publishes with
the function that threads use. It completes unless the subscriber's msgq is
full: `k_msgq_put` would have to wait there.
-/

namespace ZephyrPubSub

open Function Runs Outcome

section
variable {B S : Type} [DecidableEq B] [DecidableEq S] {c : Cfg S} {t t' : Timed B S}
variable {m : Msg} {x : S} {hd : Hdr}

def MsgqFull (c : Cfg S) (s : Sys B S) (x : S) : Prop := c.rxType x = .msgq ∧ c.maxMsgs x ≤ (s.queue x).length

omit [DecidableEq B] in
theorem publishTo_goes {s : Sys B S} {id : MsgId} (ho : s.mem.owned m = true) (hid : s.mem.getMsgId m = .ok id)
    (hlt : c.maxPubMsgId x < id) : (∃ s', publishToSubscriber c s x m = .ok s') ↔ ¬ MsgqFull c s x := by
  unfold publishToSubscriber MsgqFull
  rw [if_pos ho, hid]
  simp only [bind, Except.bind, if_pos hlt]
  cases hrx : c.rxType x with
  | callback => simp
  | msgq =>
    by_cases hlen : (s.queue x).length < c.maxMsgs x
    · simp [hlen]
    · simp [hlen, Nat.le_of_not_lt hlen]
  | fifo => simp

theorem published_life {s s' : Sys B S} {μ : Mem} (hl : s.mem.life m = .live hd) (hμ : s.mem.acquireMsg m = .ok μ)
    (hs : publishToSubscriber c { s with mem := μ.own m } x m = .ok s') :
    s'.mem.life m = .live { hd with refCnt := hd.refCnt + 1 } := by
  obtain rfl := Mem.acquireMsg_of_live hl hμ
  cases publishTo_trans hs with
  | mem hm => cases hm
  | publishToCallback => exact Mem.setLife_self ..
  | publishToQueue => exact Mem.setLife_self ..

def Mem.expired (μ : Mem) (m : Msg) (hd : Hdr) : Mem :=
  (μ.setLife m (.live { hd with refCnt := hd.refCnt + 1 })).own m

theorem expire_publishes (hl : t.linked m = true) (hx : t.subscriber m = some x) (hlife : t.sys.mem.life m = .live hd)
    (h0 : hd.refCnt = 0) : timedStep c t (.expire m) =
      publishToSubscriber c { t.sys with mem := t.sys.mem.expired m hd } x m >>= fun sys =>
        .ok { t with
          sys := sys
          linked := update t.linked m false
          expiries := update t.expiries m (t.expiries m + 1) } := by
  obtain ⟨i, a, r⟩ := hd
  obtain rfl : r = 0 := h0
  simp only [timedStep, expire, hl, if_true, delayableMsgHandler, hx, Mem.getRefCnt, Mem.acquireMsg, hlife]
  rfl

theorem expire_goes (hl : t.linked m = true) (hx : t.subscriber m = some x) (hlife : t.sys.mem.life m = .live hd)
    (h0 : hd.refCnt = 0) (hid : c.maxPubMsgId x < hd.msgId) :
    (∃ t', timedStep c t (.expire m) = .ok t') ↔ ¬ MsgqFull c t.sys x := by
  have hpub : (∃ s', publishToSubscriber c { t.sys with mem := t.sys.mem.expired m hd } x m = .ok s') ↔
      ¬ MsgqFull c t.sys x := by
    apply publishTo_goes
    · exact update_self ..
    · unfold Mem.getMsgId
      rw [show (t.sys.mem.expired m hd).life m = _ from Mem.setLife_self ..]
    · exact hid
  rw [← hpub, expire_publishes hl hx hlife h0]
  constructor
  · intro ⟨t', h⟩
    obtain ⟨s', hs, _⟩ := bind_ok h
    exact ⟨s', hs⟩
  · intro ⟨s', hs⟩
    rw [hs]
    exact ⟨_, rfl⟩

variable [Fintype B] [Fintype S]

omit [Fintype B] [Fintype S] in
theorem timed_run {G : Timed B S → TimedAct B S → Prop} (hr : Run (timedStep c) G t t') (hs : StaticHdrs t) :
    Run (step c) (fun _ _ => True) t.sys t'.sys := by
  refine (hr.invariant (I := fun t₁ => Run (step c) (fun _ _ => True) t.sys t₁.sys ∧ StaticHdrs t₁) ?_
    ⟨.refl _, hs⟩).1
  intro t₁ a t₂ ⟨hr, hs⟩ _ hstep
  have ht := timedStep_trans hstep
  exact ⟨hr.trans ((ht.run hs).mono fun _ _ _ => trivial), hs.trans ht⟩

/-- The expiry of `m` does not wait, and `x` gets the message once. -/
def ExpiryOk (c : Cfg S) (t : Timed B S) (m : Msg) (x : S) : Prop :=
  ∃ t', timedStep c t (.expire m) = .ok t' ∧
    (∀ t'', Run (timedStep c) (fun _ _ => True) t' t'' → Sent t''.sys x ⟨m, t.sys.nextTag, none⟩) ∧
    -- the handler of a callback subscriber is called in the interrupt, too
    (c.rxType x = .callback → ∃ t'', timedStep c t' (.sys (.callReturn x ⟨m, t.sys.nextTag, none⟩)) = .ok t'')

/-- In whatever state the timer expires, the handler completes unless the msgq is full. -/
theorem expiry_ok_iff (h : Reachable (timedStep c) (TimedInit c) (fun _ _ => True) t) (hl : t.linked m = true)
    (hx : t.subscriber m = some x) (hlife : t.sys.mem.life m = .live hd) (h0 : hd.refCnt = 0)
    (hid : c.maxPubMsgId x < hd.msgId) : ExpiryOk c t m x ↔ ¬ MsgqFull c t.sys x := by
  rw [← expire_goes hl hx hlife h0 hid]
  constructor
  · intro ⟨t', ht', _⟩
    exact ⟨t', ht'⟩
  · intro ⟨t', ht'⟩
    obtain ⟨hsys, hs⟩ := sys_reachable (P := fun _ _ => True) (fun _ _ _ _ _ _ _ => trivial) h
    obtain ⟨hsys', hs'⟩ := sys_reachable (P := fun _ _ => True) (fun _ _ _ _ _ _ _ => trivial) (h.tail trivial ht')
    refine ⟨t', ht', ?_⟩
    cases timedStep_trans ht' with
    | @expire _ y hd' μ s' _ hy hlife' h0' hμ hpub =>
      rw [hx] at hy
      cases hy
      have hmid := (carried_reachable hsys).trans (step_trans (expire_acquires (c := c) hs hx hlife' h0' hμ))
      obtain ⟨hsent, htag⟩ := sent_publish hmid hpub
      constructor
      · intro t'' hr
        exact hsent.run (carried_reachable hsys') rfl htag (timed_run hr hs')
      · intro hcb
        have hcall : (x, ⟨m, t.sys.nextTag, none⟩) ∈ s'.calls := by
          cases publishTo_trans hpub with
          | publishToCallback _ _ _ _ => exact List.mem_append_right _ (List.mem_singleton_self _)
          | publishToQueue _ _ _ hne _ => exact absurd hcb hne
          | mem hm => cases hm
        obtain ⟨μ', hμ'⟩ := (accounted_reachable hsys').releases (refs_calls hcall)
        simp only [timedStep, step, callReturn, hcall, if_true, hμ']
        exact ⟨_, rfl⟩

end

/-- A delayable message for msgq subscriber 0 is due when the broker is about to put another one into the msgq. -/
def dueInTraffic : List (TimedAct Unit (Fin 2)) :=
  [.init 1 0 9, .start 1 (.ticks 5), .sys (.newMsg 0 3 0), .sys (.publish () 0)] ++ List.replicate 4 (.sys (.work ()))

theorem expiry_ok_room : ∃ t, Runs.exec (timedStep msgqAndFifo) (Timed.idle msgqAndFifoInit) dueInTraffic = .ok t ∧
    ExpiryOk msgqAndFifo t 1 0 := by
  refine ⟨_, rfl, (expiry_ok_iff ⟨Timed.idle msgqAndFifoInit,
    timedInit_idle msgqAndFifo_init, Run.of_exec (timedStep msgqAndFifo) dueInTraffic _ _ rfl
    fun _ _ => trivial⟩ rfl rfl rfl rfl (by decide)).mpr ?_⟩
  unfold MsgqFull
  decide

theorem expiry_blocked : ¬ ∀ t : Timed Unit (Fin 2),
    Reachable (timedStep msgqAndFifo) (TimedInit msgqAndFifo) (fun _ _ => True) t → t.linked 1 = true →
      t.subscriber 1 = some 0 → t.sys.mem.life 1 = .live ⟨9, allocIdStaticMsg, 0⟩ → ExpiryOk msgqAndFifo t 1 0 := by
  intro h
  obtain ⟨t', ht', _⟩ := h _ ⟨Timed.idle msgqAndFifoInit, timedInit_idle msgqAndFifo_init,
    Run.of_exec (timedStep msgqAndFifo) (dueInTraffic ++ [.sys (.work ())]) _ _ rfl fun _ _ => trivial⟩ rfl rfl rfl
  cases ht'

end ZephyrPubSub
