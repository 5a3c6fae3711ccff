import ZephyrPubSub.Cycles
import ZephyrPubSub.Interrupt

/-!
# Copies of a delayable message

How often the subscriber's handler has been called with the message, and where
the copy is that has been published and not been handled. Only an expiry
publishes another one.
-/

namespace ZephyrPubSub

open Function Runs

section
variable {B S : Type}

def Svc.waits (m : Msg) : Svc B S → Nat
  | .got p _ | .lock p _ _ | .walk p _ _ _ | .ready p _ => one m p
  | _ => 0

def Svc.runs (m : Msg) : Svc B S → Nat
  | .running p => one m p
  | _ => 0

def Event.calls [DecidableEq S] (x : S) (m : Msg) : Event B S → Nat
  | .handed y p => if y = x then one m p else 0
  | .published _ => 0

/-- How often the handler of `x` has been called with the message. -/
def timesCalled [DecidableEq S] (l : List (Event B S)) (x : S) (m : Msg) : Nat := (l.map (Event.calls x m)).sum

/-- Published copies whose handler call is still to come. -/
def unhandled (s : Sys B S) (x : S) (m : Msg) : Nat := inList m (s.queue x) + (s.svc x).waits m

def inHandler (s : Sys B S) (x : S) (m : Msg) : Nat := (s.svc x).runs m + inList m (s.calls.map Prod.snd)

theorem Svc.waits_idle (m : Msg) : (Svc.idle : Svc B S).waits m = 0 := rfl

theorem Svc.runs_idle (m : Msg) : (Svc.idle : Svc B S).runs m = 0 := rfl

variable [DecidableEq B] [DecidableEq S] [Fintype B] [Fintype S]
variable {c : Cfg S} {s s' : Sys B S} {a : Act B S} {p : Pkt B} {m : Msg} {x : S}

section
omit [DecidableEq B] [Fintype B] [Fintype S]

theorem timesCalled_append (l k : List (Event B S)) (x : S) (m : Msg) :
    timesCalled (l ++ k) x m = timesCalled l x m + timesCalled k x m := by
  simp [timesCalled]

theorem timesCalled_handed (y : S) (p : Pkt B) : timesCalled [.handed y p] x m = if y = x then one m p else 0 := rfl

theorem timesCalled_published (p : Pkt B) : timesCalled ([.published p] : List (Event B S)) x m = 0 := rfl

end

/-! ## One step -/

/-- The message is handed on from where it waits to where it is handled, and then released. -/
structure CountsKept (s s' : Sys B S) (x : S) (m : Msg) : Prop where
  total : timesCalled s'.log x m + unhandled s' x m = timesCalled s.log x m + unhandled s x m
  held : unhandled s' x m + inHandler s' x m ≤ unhandled s x m + inHandler s x m

section
omit [DecidableEq B] [Fintype B] [Fintype S]

theorem counts_same (hl : timesCalled s'.log x m = timesCalled s.log x m)
    (hq : inList m (s'.queue x) = inList m (s.queue x)) (hw : (s'.svc x).waits m = (s.svc x).waits m)
    (hr : (s'.svc x).runs m ≤ (s.svc x).runs m)
    (hc : inList m (s'.calls.map Prod.snd) ≤ inList m (s.calls.map Prod.snd)) : CountsKept s s' x m := by
  refine ⟨?_, ?_⟩
  · rw [unhandled, unhandled, hl, hq, hw]
  · rw [unhandled, unhandled, inHandler, inHandler, hq, hw]
    omega

theorem inList_push_ne {y : S} (h : p.msg ≠ m) (g : S → List (Pkt B)) :
    inList m (update g y (g y ++ [p]) x) = inList m (g x) := by
  refine update_view (f := inList m) ?_ x
  rw [inList_append, inList_cons, inList_nil, one_ne h, Nat.add_zero]

theorem waits_same {y : S} {v w : Svc B S} (hv : s.svc y = w) (hw : v.waits m = w.waits m) :
    (update s.svc y v x).waits m = (s.svc x).waits m :=
  update_view (f := Svc.waits m) (by rw [hv, hw]) x

theorem runs_le {y : S} {v w : Svc B S} (hv : s.svc y = w) (hr : v.runs m ≤ w.runs m) :
    (update s.svc y v x).runs m ≤ (s.svc x).runs m := by
  by_cases hx : x = y
  · subst hx
    rw [update_self, hv]
    exact hr
  · rw [update_of_ne hx]

end

omit [DecidableEq B] [Fintype B] [Fintype S] in
theorem counts_take {y : S} {ps : List (Pkt B)} {v : Svc B S} (hi : s.svc y = .idle) (hq : s.queue y = p :: ps)
    (hw : v.waits m = one m p) (hr : v.runs m = 0) :
    CountsKept s { s with queue := update s.queue y ps, svc := update s.svc y v } x m := by
  by_cases hx : x = y
  · subst hx
    have hu : unhandled { s with queue := update s.queue x ps, svc := update s.svc x v } x m = unhandled s x m := by
      simp only [unhandled, update_self, hi, hq, hw, inList_cons, Svc.waits_idle]
      omega
    refine ⟨by rw [hu], ?_⟩
    rw [hu]
    simp only [inHandler, update_self, hi, hr, Svc.runs_idle, Nat.le_refl]
  · refine counts_same rfl ?_ ?_ ?_ (Nat.le_refl _)
    · simp only [update_of_ne hx]
    · simp only [update_of_ne hx]
    · simp only [update_of_ne hx, Nat.le_refl]

omit [Fintype B] [Fintype S] in
theorem Solo.counts (h : Solo s m x) (hc : Carried c s) (ht : Trans c s a s') : CountsKept s s' x m := by
  cases ht with
  | @scanCallback b p id y tmp hw _ _ =>
    have hp := h.not_work hc (b := b) (p := p) (by rw [hw]; rfl)
    refine counts_same ?_ rfl rfl (Nat.le_refl _) (Nat.le_refl _)
    rw [timesCalled_append, timesCalled_handed, one_ne hp, ite_self, Nat.add_zero]
  | @scanFifo b p id y tmp μ hw _ _ _ =>
    have hp := h.not_work hc (b := b) (p := p) (by rw [hw]; rfl)
    exact counts_same rfl (inList_push_ne hp s.queue) rfl (Nat.le_refl _) (Nat.le_refl _)
  | @put b p id y tmp hw _ =>
    have hp := h.not_work hc (b := b) (p := p) (by rw [hw]; rfl)
    exact counts_same rfl (inList_push_ne hp s.queue) rfl (Nat.le_refl _) (Nat.le_refl _)
  | takeMsgq hi _ hq _ => exact counts_take hi hq rfl rfl
  | takeFifo hi _ hq _ => exact counts_take hi hq rfl rfl
  | gotPublic hv _ _ | gotPrivate hv _ | svcLock hv _ | walkEnd hv | walkSkip hv _ =>
    exact counts_same rfl rfl (waits_same hv rfl) (runs_le hv (Nat.le_refl _)) (Nat.le_refl _)
  | walkGive hv _ _ _ =>
    exact counts_same rfl (inList_push_ne (h.not_walk hc hv) s.queue) (waits_same hv rfl) (runs_le hv (Nat.le_refl _))
      (Nat.le_refl _)
  | @handle y p id hv =>
    by_cases hx : x = y
    · subst hx
      refine ⟨?_, ?_⟩
      · simp only [timesCalled_append, timesCalled_handed, if_true, unhandled, update_self, hv, Svc.waits]
        omega
      · simp only [unhandled, inHandler, update_self, hv, Svc.waits, Svc.runs]
        omega
    · refine counts_same ?_ rfl ?_ ?_ (Nat.le_refl _)
      · rw [timesCalled_append, timesCalled_handed, if_neg (Ne.symm hx), Nat.add_zero]
      · simp only [update_of_ne hx]
      · simp only [update_of_ne hx, Nat.le_refl]
  | svcRelease hv _ => exact counts_same rfl rfl (waits_same hv rfl) (runs_le hv (Nat.zero_le _)) (Nat.le_refl _)
  | publish _ =>
    refine counts_same ?_ rfl rfl (Nat.le_refl _) (Nat.le_refl _)
    rw [timesCalled_append, timesCalled_published, Nat.add_zero]
  | @publishToCallback y k id ho _ _ _ =>
    have hissued : Issues s (.publishTo y k) ⟨k, s.nextTag, none⟩ := ⟨ho, rfl⟩
    have hk := not_issued h.owned _ hissued
    refine counts_same ?_ rfl rfl (Nat.le_refl _) ?_
    · rw [timesCalled_append]
      simp only [timesCalled, List.map_cons, List.map_nil, Event.calls, one_ne hk, ite_self, List.sum_cons,
        List.sum_nil, Nat.add_zero]
    · simp only [List.map_append, List.map_cons, List.map_nil, inList_append, inList_cons, one_ne hk, inList_nil,
        Nat.add_zero, Nat.le_refl]
  | @publishToQueue y k id ho _ _ _ _ =>
    have hissued : Issues s (.publishTo y k) ⟨k, s.nextTag, none⟩ := ⟨ho, rfl⟩
    have hk := not_issued h.owned _ hissued
    refine counts_same ?_ (inList_push_ne hk s.queue) rfl (Nat.le_refl _) (Nat.le_refl _)
    rw [timesCalled_append, timesCalled_published, Nat.add_zero]
  | @callReturn y p μ hcall _ =>
    have he := erase_inList hcall m
    exact counts_same rfl rfl rfl (Nat.le_refl _) (by simp only; omega)
  | _ => exact counts_same rfl rfl rfl (Nat.le_refl _) (Nat.le_refl _)

/-! ## Copies hold the reference -/

omit [DecidableEq B] [DecidableEq S] [Fintype B] [Fintype S] in
theorem Svc.refs_eq (m : Msg) (v : Svc B S) : v.refs m = v.waits m + v.runs m := by
  cases v with
  | running p => exact (Nat.zero_add _).symm
  | _ => rfl

omit [DecidableEq B] in
theorem counts_of_free (h0 : refs s m = 0) (x : S) : unhandled s x m = 0 ∧ inHandler s x m = 0 := by
  have hq := Ledger.le_sum (fun x => inList m (s.queue x)) x
  have hv := Ledger.le_sum (fun x => (s.svc x).refs m) x
  have hr := Svc.refs_eq m (s.svc x)
  simp only [refs] at h0
  simp only [unhandled, inHandler]
  omega

omit [DecidableEq B] in
theorem Solo.free_iff (h : Solo s m x) (hc : Carried c s) :
    refs s m = 0 ↔ unhandled s x m = 0 ∧ inHandler s x m = 0 := by
  refine ⟨fun h0 => counts_of_free h0 x, ?_⟩
  intro ⟨hu, hi⟩
  apply refs_zero h.owned h.extra
  rintro p rfl hp
  have hsrc := h.direct p hp rfl
  simp only [unhandled, inHandler] at hu hi
  cases hp with
  | @fifo b hp =>
    rw [(hc.fifo b p hp).2] at hsrc
    cases hsrc
  | work hp => exact h.not_work hc hp rfl
  | @queue y hp =>
    obtain rfl := h.queue p y hp rfl
    have := inList_pos hp
    omega
  | @svc y hp =>
    obtain rfl := h.svc p y hp rfl
    have := Svc.refs_pkt hp
    rw [Svc.refs_eq] at this
    omega
  | @call y hp =>
    have := inList_pos (List.mem_map_of_mem (f := Prod.snd) hp)
    simp only at this
    omega

omit [DecidableEq B] [DecidableEq S] [Fintype B] [Fintype S] in
theorem Solo.of_places (ho : s.mem.owned m = false) (he : s.mem.extra m = 0)
    (hf : ∀ p b, p ∈ s.fifo b → p.msg ≠ m) (hw : ∀ p b, (s.work b).pkt = some p → p.msg ≠ m)
    (hv : ∀ p y, (s.svc y).pkt = some p → p.msg ≠ m)
    (hq : ∀ p y, p ∈ s.queue y → p.msg = m → p.src = none ∧ y = x)
    (hc : ∀ p y, (y, p) ∈ s.calls → p.msg = m → p.src = none ∧ y = x) : Solo s m x := by
  refine ⟨ho, he, ?_, fun p y hp hm => (hq p y hp hm).2, fun p y hp hm => absurd hm (hv p y hp),
    fun p y hp hm => (hc p y hp hm).2⟩
  intro p hp hm
  cases hp with
  | fifo hp => exact absurd hm (hf p _ hp)
  | work hp => exact absurd hm (hw p _ hp)
  | queue hp => exact (hq p _ hp hm).1
  | svc hp => exact absurd hm (hv p _ hp)
  | call hp => exact (hc p _ hp hm).1

theorem solo_publish {μ : Mem} (h0 : refs s m = 0) (hext : μ.extra m = 0)
    (hs : publishToSubscriber c { s with mem := μ.own m } x m = .ok s') :
    Solo s' m x ∧ timesCalled s'.log x m + unhandled s' x m = timesCalled s.log x m + 1 ∧
      unhandled s' x m + inHandler s' x m = 1 := by
  have nobody := not_carries h0
  obtain ⟨hu, hi⟩ := counts_of_free h0 x
  have hone : one m (⟨m, s.nextTag, none⟩ : Pkt B) = 1 := one_self (⟨m, s.nextTag, none⟩ : Pkt B)
  have hf : ∀ p b, p ∈ s.fifo b → p.msg ≠ m := fun p b hp hm => nobody p hm (.fifo hp)
  have hw : ∀ p b, (s.work b).pkt = some p → p.msg ≠ m := fun p b hp hm => nobody p hm (.work hp)
  have hv : ∀ p y, (s.svc y).pkt = some p → p.msg ≠ m := fun p y hp hm => nobody p hm (.svc hp)
  simp only [unhandled, inHandler] at hu hi
  cases publishTo_trans hs with
  | mem hm => cases hm
  | publishToCallback _ _ _ _ =>
    refine ⟨.of_places (update_self ..) hext hf hw hv ?_ ?_, ?_, ?_⟩
    · intro p y hp hm
      exact absurd (.queue hp) (nobody p hm)
    · intro p y hp hm
      rcases List.mem_append.mp hp with hp | hp
      · exact absurd (.call hp) (nobody p hm)
      · cases List.mem_singleton.mp hp
        exact ⟨rfl, rfl⟩
    · simp only [timesCalled, List.map_append, List.map_cons, List.map_nil, List.sum_append, List.sum_cons,
        List.sum_nil, Event.calls, if_true, hone, unhandled]
      omega
    · simp only [unhandled, inHandler, List.map_append, List.map_cons, List.map_nil, inList_append, inList_cons,
        inList_nil, hone]
      omega
  | publishToQueue _ _ _ _ _ =>
    refine ⟨.of_places (update_self ..) hext hf hw hv ?_ ?_, ?_, ?_⟩
    · intro p y hp hm
      by_cases hy : y = x
      · subst hy
        simp only [update_self] at hp
        rcases List.mem_append.mp hp with hp | hp
        · exact absurd (.queue hp) (nobody p hm)
        · cases List.mem_singleton.mp hp
          exact ⟨rfl, rfl⟩
      · simp only [update_of_ne hy] at hp
        exact absurd (.queue hp) (nobody p hm)
    · intro p y hp hm
      exact absurd (.call hp) (nobody p hm)
    · simp only [timesCalled_append, timesCalled_published, unhandled, update_self, inList_append, inList_cons,
        inList_nil, hone]
      omega
    · simp only [unhandled, inHandler, update_self, inList_append, inList_cons, inList_nil, hone]
      omega

/-! ## Every run -/

/-- The message `m` of subscriber `x`: at most one copy is on its way, and it is handled before the next expiry. -/
structure Copies (c : Cfg S) (s : Sys B S) (m : Msg) (x : S) : Prop where
  used : s.mem.used m
  solo : Solo s m x
  le_one : unhandled s x m + inHandler s x m ≤ 1
  /-- No runtime allocator has the id of the static messages. -/
  live : c.numAllocators ≤ 126 →
    ∃ hd, s.mem.life m = .live hd ∧ hd.allocId = allocIdStaticMsg ∧ c.maxPubMsgId x < hd.msgId

omit [Fintype B] [Fintype S] in
theorem Copies.trans (h : Copies c s m x) (hc : Carried c s) (ht : Trans c s a s') (ha : LeavesAlone m a) :
    Copies c s' m x := by
  have hkept := (trans_later ht).1 m h.used
  refine ⟨hkept.1, h.solo.trans hc ht ha h.used, Nat.le_trans (h.solo.counts hc ht).held h.le_one, ?_⟩
  intro hn
  obtain ⟨hd, hl, hal, hid⟩ := h.live hn
  obtain ⟨hd', hl', hal', _⟩ := (trans_mem ht).reused hl (Or.inl ⟨hal, hn⟩)
  have hsame := hkept.2
  unfold Mem.idOf at hsame
  rw [hl, hl'] at hsame
  exact ⟨hd', hl', hal'.trans hal, by rw [show hd'.msgId = hd.msgId from hsame]; exact hid⟩

omit [DecidableEq B] [Fintype B] [Fintype S] in
theorem CountsKept.refl (s : Sys B S) (x : S) (m : Msg) : CountsKept s s x m := ⟨rfl, Nat.le_refl _⟩

omit [DecidableEq B] [Fintype B] [Fintype S] in
theorem CountsKept.trans {s'' : Sys B S} (h₁ : CountsKept s s' x m) (h₂ : CountsKept s' s'' x m) :
    CountsKept s s'' x m :=
  ⟨h₂.total.trans h₁.total, Nat.le_trans h₂.held h₁.held⟩

omit [Fintype B] [Fintype S] in
theorem Copies.run (h : Copies c s m x) (hc : Carried c s) (hr : Run (step c) (fun _ a => LeavesAlone m a) s s') :
    Copies c s' m x ∧ CountsKept s s' x m := by
  refine (hr.invariant (I := fun u => (Copies c u m x ∧ CountsKept s u x m) ∧ Carried c u) ?_
    ⟨⟨h, .refl s x m⟩, hc⟩).1
  intro u a u' ⟨⟨h, hk⟩, hc⟩ ha hstep
  have ht := step_trans hstep
  exact ⟨⟨h.trans hc ht ha, hk.trans (h.solo.counts hc ht)⟩, hc.trans ht⟩

variable {t t' : Timed B S}

def OwnTimer (c : Cfg S) (m : Msg) : TimedAct B S → Prop
  | .sys a => LeavesAlone m a
  | .init k x id => k = m → c.maxPubMsgId x < id
  | _ => True

omit [Fintype B] [Fintype S] in
theorem TimedTrans.leaves {a : TimedAct B S} (ht : TimedTrans c t a t') (hs : StaticHdrs t) (ha : OwnTimer c m a)
    (hne : a ≠ .expire m) : Run (step c) (fun _ a => LeavesAlone m a) t.sys t'.sys := by
  cases ht with
  | sys h => exact .single _ ha h
  | @init k x id μ h =>
    refine .single (.staticMsgInit k id allocIdStaticMsg) rfl ?_
    rw [step, h]
    rfl
  | @expire k x h μ s' _ hx hl h0 hμ hs' =>
    have hk : k ≠ m := fun e => hne (e ▸ rfl)
    have hacq := expire_acquires (c := c) hs hx hl h0 hμ
    exact .tail (.publishTo x k) (.single (.acquireStatic k) (decide_eq_true hk) hacq) rfl hs'
  | _ => exact .refl _

structure CopiesInv (c : Cfg S) (t : Timed B S) (m : Msg) : Prop where
  accounted : Accounted c t.sys
  carried : Carried c t.sys
  headers : StaticHdrs t
  copies : ∀ x, t.subscriber m = some x → Copies c t.sys m x

theorem Copies.init {id : MsgId} {μ : Mem} (hμ : s.mem.staticMsgInit m id allocIdStaticMsg = .ok μ)
    (hb : Accounted c { s with mem := μ }) (hid : c.maxPubMsgId x < id) : Copies c { s with mem := μ } m x := by
  obtain ⟨_, _, rfl⟩ := Mem.staticMsgInit_ok hμ
  have hl : (s.mem.setLife m (.live ⟨id, allocIdStaticMsg, 0⟩)).life m = .live ⟨id, allocIdStaticMsg, 0⟩ :=
    Mem.setLife_self ..
  have hzero := (hb.refCnt hl).symm
  obtain ⟨hu, hi⟩ := counts_of_free hzero x
  refine ⟨?_, (alone_of_free hzero x).solo, by omega, fun _ => ⟨_, hl, rfl, hid⟩⟩
  unfold Mem.used
  rw [show (s.mem.setLife m _).life m = _ from hl]
  exact Life.noConfusion

theorem Copies.expire {hd : Hdr} {μ : Mem} (h : Copies c s m x) (hb : Accounted c s)
    (hl : s.mem.life m = .live hd) (h0 : hd.refCnt = 0) (hμ : s.mem.acquireMsg m = .ok μ)
    (hs : publishToSubscriber c { s with mem := μ.own m } x m = .ok s') :
    Copies c s' m x ∧ unhandled s x m = 0 ∧
      timesCalled s'.log x m + unhandled s' x m = timesCalled s.log x m + 1 := by
  have hfree : refs s m = 0 := (hb.refCnt hl).symm.trans h0
  obtain ⟨_, hext⟩ := Mem.acquireMsg_owners hμ
  obtain ⟨hsolo, htotal, hheld⟩ := solo_publish hfree (by rw [hext]; exact h.solo.extra) hs
  have hlife := published_life hl hμ hs
  refine ⟨⟨?_, hsolo, by omega, ?_⟩, (counts_of_free hfree x).1, htotal⟩
  · unfold Mem.used
    rw [hlife]
    exact Life.noConfusion
  · intro hn
    obtain ⟨hd', hl', hal, hid⟩ := h.live hn
    rw [hl] at hl'
    cases hl'
    exact ⟨_, hlife, hal, hid⟩

theorem CopiesInv.step {a : TimedAct B S} (h : CopiesInv c t m) (ht : TimedTrans c t a t') (ha : OwnTimer c m a) :
    CopiesInv c t' m := by
  have hrun := ht.run h.headers
  have hacc := hrun.invariant (I := Accounted c) (fun _ _ _ hi _ hstep => hi.trans (step_trans hstep)) h.accounted
  have hcar := hrun.invariant (I := Carried c) (fun _ _ _ hi _ hstep => hi.trans (step_trans hstep)) h.carried
  refine ⟨hacc, hcar, h.headers.trans ht, ?_⟩
  intro x hx
  have hkept : a ≠ .expire m → t.subscriber m = some x → Copies c t'.sys m x :=
    fun hne hx => ((h.copies x hx).run h.carried (ht.leaves h.headers ha hne)).1
  cases ht with
  | @init k y id μ hμ =>
    by_cases hk : m = k
    · subst hk
      simp only [update_self, Option.some.injEq] at hx
      subst hx
      exact Copies.init hμ hacc (ha rfl)
    · simp only [update_of_ne hk] at hx
      exact hkept (by simp) hx
  | @expire k y hd μ s' _ hy hl h0 hμ hs =>
    by_cases hk : m = k
    · subst hk
      rw [hx] at hy
      cases hy
      exact ((h.copies x hx).expire h.accounted hl h0 hμ hs).1
    · refine hkept ?_ hx
      intro he
      cases he
      exact hk rfl
  | _ => exact hkept (by simp) hx

theorem copies_reachable (h : Reachable (timedStep c) (TimedInit c) (fun _ a => OwnTimer c m a) t) :
    CopiesInv c t m := by
  apply h.invariant (I := fun t => CopiesInv c t m)
  · intro t hi
    refine ⟨accounted_init hi.sys, carried_init hi.sys, ?_, ?_⟩
    · intro k x hx
      rw [hi.subscriber] at hx
      cases hx
    · intro x hx
      rw [hi.subscriber] at hx
      cases hx
  · intro t a t' hi ha hstep
    exact hi.step (timedStep_trans hstep) ha

end

end ZephyrPubSub
