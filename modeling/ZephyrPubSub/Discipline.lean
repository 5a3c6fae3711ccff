import ZephyrPubSub.Copies

/-!
# One outstanding publication

A delayable message for a FIFO subscriber that nobody else takes a reference
to. Each expiry acquires the only reference and the end of the handling
releases it, so the count is 1 while the message is queued or handled, and
expiries that wait for the end of the handling find it 0.
-/

namespace ZephyrPubSub

open Function Runs Outcome

section
variable {B S : Type} [DecidableEq B] [DecidableEq S] [Fintype B] [Fintype S]
variable {c : Cfg S} {s s' : Sys B S} {a : Act B S} {t t' : Timed B S} {m : Msg} {x : S}

/-! ## The message in the system -/

/-- A static message with a private id, published to `x` by its timer only. -/
structure TimerMsg (c : Cfg S) (s : Sys B S) (m : Msg) (x : S) : Prop where
  alone : Alone s m x
  life : ∃ hd, s.mem.life m = .live hd ∧ hd.allocId = allocIdStaticMsg ∧ c.maxPubMsgId x < hd.msgId
  kept : s.mem.callsFor m = []

omit [DecidableEq B] [DecidableEq S] [Fintype B] [Fintype S] in
theorem TimerMsg.used (h : TimerMsg c s m x) : s.mem.used m := by
  obtain ⟨hd, hl, _⟩ := h.life
  unfold Mem.used
  rw [hl]
  exact Life.noConfusion

section
omit [Fintype B] [Fintype S]

theorem TimerMsg.trans (h : TimerMsg c s m x) (hn : c.numAllocators ≤ 126) (hc : Carried c s) (ht : Trans c s a s')
    (ha : LeavesAlone m a) : TimerMsg c s' m x := by
  obtain ⟨hd, hl, hal, hid⟩ := h.life
  obtain ⟨hd', hl', hal', hcalls⟩ := (trans_mem ht).reused hl (Or.inl ⟨hal, hn⟩)
  refine ⟨h.alone.trans hc ht ha h.used, ⟨hd', hl', hal'.trans hal, ?_⟩, ?_⟩
  · have hkept := ((trans_later ht).1 m h.used).2
    unfold Mem.idOf at hkept
    rw [hl, hl'] at hkept
    rw [show hd'.msgId = hd.msgId from hkept]
    exact hid
  · rw [hcalls, h.kept, lastCalls, hal, if_neg (show ¬ allocIdStaticMsg = allocIdCallbackMsg by decide), ite_self]
    rfl

theorem step_running {p : Pkt B} (hv : s.svc x = .running p) (h : step c s (.svc x) = .ok s') :
    s.mem.releaseMsg c.numAllocators p.msg = .ok s'.mem := by
  simp only [step, svcStep, hv] at h
  obtain ⟨μ, hμ, h⟩ := bind_ok h
  cases h
  exact hμ

theorem finished_iff (h : Alone s m x) (ht : Trans c s a s') :
    finished s a = some m ↔ ∃ p, a = .svc x ∧ s.svc x = .running p ∧ p.msg = m := by
  constructor
  · intro hf
    cases a with
    | svc y =>
      unfold finished at hf
      simp only at hf
      split at hf
      · rename_i p hv
        cases hf
        obtain rfl := h.svc p y (by rw [hv]; rfl) rfl
        exact ⟨p, rfl, hv, rfl⟩
      · cases hf
    | callReturn y p =>
      cases ht with
      | callReturn hcall _ => exact absurd (Option.some.inj hf) (h.calls p y hcall)
      | mem hm => cases hm
    | _ => cases hf
  · rintro ⟨p, rfl, hv, rfl⟩
    simp only [finished, hv]

end

theorem TimerMsg.handled (h : TimerMsg c s m x) (hc : Carried c s) (hb : Accounted c s) (hs : step c s a = .ok s')
    (ha : LeavesAlone m a) (f : Msg → Nat) : bump f (finished s a) m + refs s' m = f m + refs s m := by
  have ht := step_trans hs
  by_cases hf : finished s a = some m
  · obtain ⟨p, rfl, hv, rfl⟩ := (finished_iff h.alone ht).mp hf
    have := hb.released (hb.trans ht) (step_running hv hs) rfl
    rw [hf, bump, update_self]
    omega
  · have hb' : bump f (finished s a) m = f m := by
      cases hk : finished s a with
      | none => rfl
      | some k => exact update_of_ne (fun e => hf (by rw [hk, e])) ..
    rcases h.alone.refs_step hc hb ht ha h.used with ⟨_, hr⟩ | ⟨hp, _⟩
    · rw [hb', hr]
    · exact absurd ((finished_iff h.alone ht).mpr hp) hf

theorem TimerMsg.publish {hd : Hdr} {μ : Mem} (h : TimerMsg c s m x) (hb : Accounted c s)
    (hl : s.mem.life m = .live hd) (h0 : hd.refCnt = 0) (hrx : c.rxType x = .fifo)
    (hμ : s.mem.acquireMsg m = .ok μ) (hs : publishToSubscriber c { s with mem := μ.own m } x m = .ok s') :
    TimerMsg c s' m x ∧ s'.mem.life m = .live { hd with refCnt := 1 } := by
  have hfree : refs s m = 0 := (hb.refCnt hl).symm.trans h0
  obtain ⟨hd₁, hl₁, hal, hid⟩ := h.life
  rw [hl] at hl₁
  cases hl₁
  obtain ⟨_, hext⟩ := Mem.acquireMsg_owners hμ
  obtain ⟨hsolo, _⟩ := solo_publish hfree (by rw [hext]; exact h.alone.extra) hs
  have hlife := published_life hl hμ hs
  rw [h0] at hlife
  obtain ⟨hcalls, hkept⟩ : s'.calls = s.calls ∧ s'.mem.callsFor m = s.mem.callsFor m := by
    obtain rfl := Mem.acquireMsg_of_live hl hμ
    cases publishTo_trans hs with
    | publishToCallback _ _ _ hcb =>
      rw [hrx] at hcb
      cases hcb
    | publishToQueue => exact ⟨rfl, rfl⟩
    | mem hm => cases hm
  refine ⟨⟨⟨hsolo.owned, hsolo.extra, hsolo.direct, hsolo.queue, hsolo.svc, ?_⟩, ⟨_, hlife, hal, hid⟩, ?_⟩, hlife⟩
  · intro p y hp hm
    rw [hcalls] at hp
    exact not_carries hfree p hm (.call hp)
  · rw [hkept]
    exact h.kept

/-! ## Every run -/

/-- Who uses the message `m`: its timer, for a FIFO subscriber, and the handlers without extra references. -/
def UsesTimer (c : Cfg S) (m : Msg) : TimedAct B S → Prop
  | .sys a => LeavesAlone m a
  | .init k x id => k = m → c.rxType x = .fifo ∧ c.maxPubMsgId x < id
  | _ => True

/-- The count is the number of expiries that have not been handled, which is at most one. -/
structure Outstanding (c : Cfg S) (t : Timed B S) (m : Msg) (x : S) : Prop where
  fifo : c.rxType x = .fifo
  timer : TimerMsg c t.sys m x
  le_one : refs t.sys m ≤ 1
  balance : t.expiries m = t.handled m + refs t.sys m

structure TimerInv (c : Cfg S) (t : Timed B S) (m : Msg) : Prop where
  accounted : Accounted c t.sys
  carried : Carried c t.sys
  headers : StaticHdrs t
  unused : t.sys.mem.life m = .unused → t.expiries m = 0 ∧ t.handled m = 0
  outstanding : ∀ x, t.subscriber m = some x → Outstanding c t m x

theorem Outstanding.sys_step (h : Outstanding c t m x) (hn : c.numAllocators ≤ 126) (hc : Carried c t.sys)
    (hb : Accounted c t.sys) (ha : LeavesAlone m a) (hs : step c t.sys a = .ok s') (hsys : t'.sys = s')
    (he : t'.expiries m = t.expiries m) (hh : t'.handled m = bump t.handled (finished t.sys a) m) :
    Outstanding c t' m x := by
  subst hsys
  have hr := h.timer.handled hc hb hs ha t.handled
  have hbal := h.balance
  have hle := h.le_one
  refine ⟨h.fifo, h.timer.trans hn hc (step_trans hs) ha, ?_, by omega⟩
  rcases h.timer.alone.refs_step hc hb (step_trans hs) ha h.timer.used with ⟨_, hr'⟩ | ⟨_, hr'⟩
  · omega
  · omega

theorem finished_held (ht : Trans c s a s') (hf : finished s a = some m) : 0 < refs s m := by
  cases a with
  | svc y =>
    simp only [finished] at hf
    split at hf
    · rename_i p hv
      cases hf
      exact (Carries.svc (x := y) (by rw [hv]; rfl)).refs
    · cases hf
  | callReturn y p =>
    cases hf
    cases ht with
    | callReturn hcall _ => exact refs_calls hcall
    | mem hm => cases hm
  | _ => cases hf

theorem TimerInv.unused_step {a : TimedAct B S} (h : TimerInv c t m) (ht : TimedTrans c t a t')
    (hu : t.sys.mem.life m = .unused) : t'.expiries m = 0 ∧ t'.handled m = 0 := by
  obtain ⟨he, hh⟩ := h.unused hu
  cases ht with
  | @sys a s' hs =>
    refine ⟨he, ?_⟩
    cases hf : finished t.sys a with
    | none => exact hh
    | some k =>
      by_cases hk : m = k
      · subst hk
        obtain ⟨hd, hl, _⟩ := h.accounted.live (finished_held (step_trans hs) hf)
        rw [hu] at hl
        cases hl
      · exact (update_of_ne hk ..).trans hh
  | @expire k x hd μ s' _ _ hl _ _ _ =>
    have hk : m ≠ k := by
      rintro rfl
      rw [hu] at hl
      cases hl
    exact ⟨(update_of_ne hk ..).trans he, hh⟩
  | _ => exact ⟨he, hh⟩

theorem TimerInv.init_step (h : TimerInv c t m) (h' : Accounted c t'.sys) {id : MsgId} {μ : Mem}
    (hμ : t.sys.mem.staticMsgInit m id allocIdStaticMsg = .ok μ) (hsys : t'.sys = { t.sys with mem := μ })
    (he : t'.expiries = t.expiries) (hh : t'.handled = t.handled) (hrx : c.rxType x = .fifo)
    (hid : c.maxPubMsgId x < id) : Outstanding c t' m x := by
  obtain ⟨hu, _, rfl⟩ := Mem.staticMsgInit_ok hμ
  have hl : t'.sys.mem.life m = .live ⟨id, allocIdStaticMsg, 0⟩ := by
    rw [hsys]
    exact Mem.setLife_self ..
  have hzero : refs t'.sys m = 0 := (h'.refCnt hl).symm
  obtain ⟨he₀, hh₀⟩ := h.unused hu
  have hkept : t'.sys.mem.callsFor m = [] := by
    have hpool := h.accounted.pool m
    unfold Mem.PoolOk at hpool
    rw [hu] at hpool
    rw [hsys]
    exact hpool
  exact ⟨hrx, ⟨alone_of_free hzero x, ⟨_, hl, rfl, hid⟩, hkept⟩, by omega, by rw [he, hh, he₀, hh₀, hzero]⟩

theorem TimerInv.step {a : TimedAct B S} (h : TimerInv c t m) (hn : c.numAllocators ≤ 126) (ht : TimedTrans c t a t')
    (ha : UsesTimer c m a) : TimerInv c t' m := by
  have hrun := ht.run h.headers
  obtain ⟨hacc, hcar, hlife⟩ := hrun.invariant
    (I := fun s => Accounted c s ∧ Carried c s ∧ (s.mem.life m = .unused → t.sys.mem.life m = .unused))
    (fun s _ s' hi _ hstep => ⟨hi.1.trans (step_trans hstep), hi.2.1.trans (step_trans hstep), fun hu => hi.2.2 (by
      have := (trans_mem (step_trans hstep)).lifeStep m
      rw [hu] at this
      generalize s.mem.life m = l at this
      cases this
      rfl)⟩) ⟨h.accounted, h.carried, id⟩
  refine ⟨hacc, hcar, h.headers.trans ht, fun hu => h.unused_step ht (hlife hu), ?_⟩
  intro x hx
  cases ht with
  | sys hs => exact (h.outstanding x hx).sys_step hn h.carried h.accounted ha hs rfl rfl rfl
  | @init k y id μ hμ =>
    by_cases hk : m = k
    · subst hk
      simp only [update_self, Option.some.injEq] at hx
      subst hx
      obtain ⟨hrx, hid⟩ := ha rfl
      exact h.init_step hacc hμ rfl rfl rfl hrx hid
    · simp only [update_of_ne hk] at hx
      refine (h.outstanding x hx).sys_step (a := .staticMsgInit k id allocIdStaticMsg) hn h.carried h.accounted
        rfl ?_ rfl rfl rfl
      rw [ZephyrPubSub.step, hμ]
      rfl
  | @expire k y hd μ s' _ hy hl h0 hμ hs =>
    by_cases hk : m = k
    · subst hk
      have ho := h.outstanding x hx
      rw [hx] at hy
      cases hy
      obtain ⟨htimer, hl'⟩ := ho.timer.publish h.accounted hl h0 ho.fifo hμ hs
      have hone : refs s' m = 1 := (hacc.refCnt hl').symm
      have hzero : refs t.sys m = 0 := (h.accounted.refCnt hl).symm.trans h0
      have hbal := ho.balance
      refine ⟨ho.fifo, htimer, by rw [hone], ?_⟩
      show update t.expiries m (t.expiries m + 1) m = t.handled m + refs s' m
      rw [update_self]
      omega
    · have hacq := expire_acquires (c := c) h.headers hy hl h0 hμ
      have hmid : Outstanding c { t with sys := { t.sys with mem := μ.own k } } m x :=
        (h.outstanding x hx).sys_step (a := .acquireStatic k) hn h.carried h.accounted (decide_eq_true (Ne.symm hk))
          hacq rfl rfl rfl
      refine hmid.sys_step (a := .publishTo y k) hn (h.carried.trans (step_trans hacq))
        (h.accounted.trans (step_trans hacq)) rfl hs rfl ?_ rfl
      exact update_of_ne hk ..
  | _ =>
    have ho := h.outstanding x hx
    exact ⟨ho.fifo, ho.timer, ho.le_one, ho.balance⟩

omit [DecidableEq B] [DecidableEq S] in
theorem timerInv_init (h : TimedInit c t) (m : Msg) : TimerInv c t m := by
  refine ⟨accounted_init h.sys, carried_init h.sys, ?_, fun _ => ⟨h.expiries m, h.handled m⟩, ?_⟩
  · intro k x hx
    rw [h.subscriber] at hx
    cases hx
  · intro x hx
    rw [h.subscriber] at hx
    cases hx

/-! ## The functions -/

theorem Outstanding.handles (h : Outstanding c t m x) (hc : Carried c t.sys) (hb : Accounted c t.sys) {p : Pkt B}
    (hp : p.msg = m)
    (hv : (t.sys.svc x).pkt = some p ∨ t.sys.svc x = .idle ∧ ∃ ps, t.sys.queue x = p :: ps) :
    ∃ t', timedStep c t (.sys (.svc x)) = .ok t' := by
  suffices hs : ∃ s', svcStep c t.sys x = .ok s' by
    obtain ⟨s', hs⟩ := hs
    exact ⟨_, by rw [timedStep, step, hs]; rfl⟩
  subst hp
  rcases hv with hv | ⟨hv, ps, hq⟩
  · have hsrc := h.timer.alone.direct p (.svc hv) rfl
    cases hs : t.sys.svc x with
    | idle =>
      rw [hs] at hv
      cases hv
    | got q id =>
      rw [hs] at hv
      cases hv
      obtain ⟨hqueue, hid, _⟩ := hc.svc_at hs
      simp only [svcStep, hs, if_neg (hid ▸ hqueue.private hsrc : ¬ id ≤ c.maxPubMsgId x)]
      exact ⟨_, rfl⟩
    | lock q id b =>
      rw [hs] at hv
      cases hv
      exact absurd hs (hc.not_lock hsrc)
    | walk q id b n =>
      rw [hs] at hv
      cases hv
      exact absurd hs (hc.not_walk hsrc)
    | ready q id => exact ⟨_, by rw [svcStep, hs]⟩
    | running q =>
      rw [hs] at hv
      cases hv
      obtain ⟨μ, hμ⟩ := hb.releases (Carries.svc (x := x) (by rw [hs]; rfl)).refs
      exact ⟨_, by simp only [svcStep, hs, hμ]; rfl⟩
  · obtain ⟨hd, hl, _⟩ := h.timer.life
    exact ⟨_, by simp only [svcStep, hv, h.fifo, hq, Mem.getMsgId, hl]; rfl⟩

/-- What the discipline gives in every state: no assertion fails, and the count
is 1 exactly while the message is queued or handled. -/
structure DisciplineOk (c : Cfg S) (t : Timed B S) (m : Msg) (x : S) : Prop where
  count : ∃ hd, t.sys.mem.life m = .live hd ∧ hd.refCnt ≤ 1 ∧ (hd.refCnt = 1 ↔ Busy t.sys x m) ∧
    t.expiries m = t.handled m + hd.refCnt
  start : t.linked m = false → ∀ delay, ∃ t', timedStep c t (.start m delay) = .ok t'
  updateTimeout : ∀ delay, ∃ t', timedStep c t (.updateTimeout m delay) = .ok t'
  abort : ∃ t', timedStep c t (.abort m) = .ok t'
  /-- The previous publication has been handled and released. -/
  expire : t.linked m = true → t.handled m = t.expiries m → ∃ t', timedStep c t (.expire m) = .ok t'
  handle : ∀ p : Pkt B, p.msg = m →
    (t.sys.svc x).pkt = some p ∨ t.sys.svc x = .idle ∧ (∃ ps, t.sys.queue x = p :: ps) →
    ∃ t', timedStep c t (.sys (.svc x)) = .ok t'
  kept : t.sys.mem.callsFor m = []

/-- In every run in which only its timer publishes the delayable message of a FIFO
subscriber and nobody takes extra references, the message has at most one outstanding publication. -/
theorem delayable_disciplined (hn : c.numAllocators ≤ 126)
    (h : Reachable (timedStep c) (TimedInit c) (fun _ a => UsesTimer c m a) t) (hx : t.subscriber m = some x) :
    DisciplineOk c t m x := by
  have hinv := h.invariant (I := fun t => TimerInv c t m) (fun _ hi => timerInv_init hi m)
    fun _ _ _ hi ha hstep => hi.step hn (timedStep_trans hstep) ha
  have ho := hinv.outstanding x hx
  have hle := ho.le_one
  have hbal := ho.balance
  obtain ⟨hd, hl, hal, hid⟩ := ho.timer.life
  have hcnt := hinv.accounted.refCnt hl
  have hbusy := ho.timer.alone.busy hinv.carried
  obtain ⟨ret, habort⟩ := abort_goes hl
  constructor
  · refine ⟨hd, hl, by omega, ?_, by omega⟩
    rw [← hbusy]
    omega
  · intro hlink delay
    exact start_goes hlink delay
  · intro delay
    obtain ⟨t', hstart⟩ := start_goes (t := { t with linked := update t.linked m false }) (update_self ..) delay
    exact ⟨t', by simp only [timedStep, delayableMsgUpdateTimeout, habort, hstart, bind, Except.bind]⟩
  · exact ⟨{ t with linked := update t.linked m false }, by simp only [timedStep, habort, bind, Except.bind]⟩
  · intro hlink heq
    refine (expire_goes hlink hx hl (by omega) hid).mpr ?_
    intro hfull
    have hrx := hfull.1
    rw [ho.fifo] at hrx
    cases hrx
  · intro p hp hv
    exact ho.handles hinv.carried hinv.accounted hp hv
  · exact ho.timer.kept

end

def restarted : List (TimedAct Unit (Fin 2)) :=
  [.init 0 1 9, .start 0 (.ticks 5), .expire 0] ++ List.replicate 3 (.sys (.svc 1)) ++
    [.updateTimeout 0 (.ticks 2), .sys (.svc 1), .expire 0]

instance (c : Cfg (Fin 2)) (m : Msg) (a : TimedAct Unit (Fin 2)) : Decidable (UsesTimer c m a) :=
  match a with
  | .sys a => inferInstanceAs (Decidable (LeavesAlone m a))
  | .init k x id => inferInstanceAs (Decidable (k = m → c.rxType x = .fifo ∧ c.maxPubMsgId x < id))
  | .start .. | .updateTimeout .. | .abort _ | .expire _ => isTrue trivial

theorem delayable_disciplined_restarted : ∃ t,
    Runs.exec (timedStep twoFifos) (Timed.idle twoFifosInit) restarted = .ok t ∧ t.handled 0 = 1 ∧
      DisciplineOk twoFifos t 0 1 := by
  refine ⟨_, rfl, by decide, delayable_disciplined (by decide) ⟨Timed.idle twoFifosInit, timedInit_idle twoFifos_init,
    Run.of_acts (K := UsesTimer twoFifos 0) (timedStep twoFifos) restarted rfl (by decide)⟩ rfl⟩

/-- The last runtime allocator has the id of the static messages. -/
def allAllocators : Cfg (Fin 2) := { twoFifos with numAllocators := 127 }

theorem delayable_taken_for_pool : ¬ ∀ t : Timed Unit (Fin 2),
    Reachable (timedStep allAllocators) (TimedInit allAllocators) (fun _ a => UsesTimer allAllocators 0 a) t →
      t.subscriber 0 = some 1 → t.sys.mem.callsFor 0 = [] := by
  intro h
  have hinit : Init allAllocators twoFifosInit :=
    init_of_lists _ _ (by decide) (by decide) (by unfold FifoLast; decide)
  have := h _ ⟨Timed.idle twoFifosInit, timedInit_idle hinit,
    Run.of_acts (K := UsesTimer allAllocators 0) (timedStep allAllocators) (restarted.take 8) rfl (by decide)⟩ rfl
  revert this
  decide

end ZephyrPubSub
