import ZephyrPubSub.Discipline

/-!
# What abort and update answer

`pub_sub_delayable_msg_abort` looks at the timer and, if that was not running,
at the reference count. `Owed` is what its answer is about: how often the
handler is going to be called, if nobody starts or updates the timer.
-/

namespace ZephyrPubSub

open Function Runs Outcome

section
variable {B S : Type} [DecidableEq B] [DecidableEq S] [Fintype B] [Fintype S]
variable {c : Cfg S} {t t' : Timed B S} {m : Msg} {x : S}

/-- Handler calls to come: for the copy under way, and for the timer. -/
def due (t : Timed B S) (x : S) (m : Msg) : Nat := unhandled t.sys x m + (t.linked m).toNat

/-- The timer of `m` is left alone: no start, no update and no abort that stops it. -/
def Quiet (m : Msg) (t : Timed B S) : TimedAct B S → Prop
  | .sys a => LeavesAlone m a
  | .init k _ _ | .start k _ | .updateTimeout k _ => k ≠ m
  | .abort k => k = m → t.linked m = false
  | .expire _ => True

def AllDirect (s : Sys B S) (x : S) : Prop := ∀ p, p ∈ s.queue x ∨ (s.svc x).pkt = some p → p.src = none

/-- No routing of other messages can stop the thread of `x`, and there is room for the message. -/
structure Unhindered (c : Cfg S) (t : Timed B S) (x : S) : Prop where
  allocators : c.numAllocators ≤ 126
  room : c.rxType x = .msgq → 0 < c.maxMsgs x
  direct : AllDirect t.sys x

/-- The handler of `x` is going to be called `n` more times with the message: however the
system goes on, the calls made and to come are `n`, and it can go on until all are made. -/
structure Owed (c : Cfg S) (t : Timed B S) (m : Msg) (x : S) (n : Nat) : Prop where
  all : ∀ t', Run (timedStep c) (Quiet m) t t' →
    timesCalled t'.sys.log x m + due t' x m = timesCalled t.sys.log x m + n
  comes : Unhindered c t x → ∃ t', Run (timedStep c) (Quiet m) t t' ∧
    timesCalled t'.sys.log x m = timesCalled t.sys.log x m + n

/-! ## Nothing is lost -/

omit [DecidableEq B] [DecidableEq S] [Fintype B] [Fintype S] in
theorem Quiet.ownTimer {a : TimedAct B S} (h : Quiet m t a) : OwnTimer c m a := by
  cases a with
  | sys a => exact h
  | init k x id => exact fun hk => absurd hk h
  | _ => trivial

structure DueKept (c : Cfg S) (t t' : Timed B S) (m : Msg) (x : S) : Prop where
  inv : CopiesInv c t' m
  subscriber : t'.subscriber m = some x
  total : timesCalled t'.sys.log x m + due t' x m = timesCalled t.sys.log x m + due t x m

theorem CopiesInv.quiet {a : TimedAct B S} (h : CopiesInv c t m) (hx : t.subscriber m = some x)
    (ht : TimedTrans c t a t') (ha : Quiet m t a) : DueKept c t t' m x := by
  have hinv := h.step ht ha.ownTimer
  have hsame : a ≠ .expire m → t'.linked m = t.linked m →
      timesCalled t'.sys.log x m + due t' x m = timesCalled t.sys.log x m + due t x m := by
    intro hne hl
    have := ((h.copies x hx).run h.carried (ht.leaves h.headers ha.ownTimer hne)).2.total
    rw [due, due, hl]
    omega
  cases ht with
  | sys _ => exact ⟨hinv, hx, hsame (by simp) rfl⟩
  | @init k y id μ _ =>
    have hk : m ≠ k := Ne.symm ha
    exact ⟨hinv, (update_of_ne hk ..).trans hx, hsame (by simp) (update_of_ne hk ..)⟩
  | start _ | updateTimeout => exact ⟨hinv, hx, hsame (by simp) (update_of_ne (Ne.symm ha) ..)⟩
  | @abort k =>
    refine ⟨hinv, hx, hsame (by simp) ?_⟩
    by_cases hk : m = k
    · subst hk
      rw [ha rfl]
      exact update_self ..
    · exact update_of_ne hk ..
  | @expire k y hd μ s' hl hy hlife h0 hμ hs =>
    refine ⟨hinv, hx, ?_⟩
    by_cases hk : m = k
    · subst hk
      rw [hx] at hy
      cases hy
      obtain ⟨-, hzero, htotal⟩ := (h.copies x hx).expire h.accounted hlife h0 hμ hs
      simp only [due, update_self, hl, Bool.toNat_true, Bool.toNat_false]
      omega
    · exact hsame (by simpa using Ne.symm hk) (update_of_ne hk ..)

theorem CopiesInv.kept (h : CopiesInv c t m) (hx : t.subscriber m = some x)
    (hr : Run (timedStep c) (Quiet m) t t') : DueKept c t t' m x := by
  refine hr.invariant (I := fun u => DueKept c t u m x) ?_ ⟨h, hx, rfl⟩
  intro u a u' hi ha hstep
  have hk := hi.inv.quiet hi.subscriber (timedStep_trans hstep) ha
  exact ⟨hk.inv, hk.subscriber, hk.total.trans hi.total⟩

/-! ## All of it comes -/

def Svc.stage : Svc B S → Nat
  | .idle => 0
  | .running _ => 1
  | .ready .. => 2
  | _ => 3

def load (s : Sys B S) (x : S) : Nat := 4 * (s.queue x).length + (s.svc x).stage

variable {s s' : Sys B S}

omit [DecidableEq B] [DecidableEq S] [Fintype B] [Fintype S] in
theorem load_zero (h : load s x = 0) : s.queue x = [] ∧ s.svc x = .idle := by
  unfold load at h
  refine ⟨List.eq_nil_of_length_eq_zero (by omega), ?_⟩
  cases hv : s.svc x with
  | idle => rfl
  | _ =>
    rw [hv] at h
    simp only [Svc.stage] at h
    omega

omit [Fintype B] [Fintype S] in
theorem goes_to {q : List (Pkt B)} {v : Svc B S} (hs : step c s (.svc x) = .ok s') (hq : s'.queue x = q)
    (hv : s'.svc x = v) (hlt : 4 * q.length + v.stage < load s x)
    (hd : ∀ p, p ∈ q ∨ v.pkt = some p → p.src = none) :
    ∃ s', step c s (.svc x) = .ok s' ∧ load s' x < load s x ∧ AllDirect s' x := by
  refine ⟨s', hs, ?_, ?_⟩
  · rw [load, hq, hv]
    exact hlt
  · unfold AllDirect
    rw [hq, hv]
    exact hd

theorem take_goes (hc : Carried c s) (hb : Accounted c s) (hd : AllDirect s x) (hv : s.svc x = .idle) {p : Pkt B}
    {ps : List (Pkt B)} (hq : s.queue x = p :: ps) :
    ∃ s', step c s (.svc x) = .ok s' ∧ load s' x < load s x ∧ AllDirect s' x := by
  have hp : p ∈ s.queue x := by rw [hq]; exact List.mem_cons_self ..
  obtain ⟨hdr, hlife, _⟩ := hb.live (refs_queue hq)
  have hload : load s x = 4 * (ps.length + 1) := by rw [load, hq, hv]; rfl
  have hps : ∀ q, q ∈ ps ∨ some p = some q → q.src = none := by
    rintro q (h | h)
    · exact hd q (Or.inl (by rw [hq]; exact List.mem_cons_of_mem p h))
    · cases h
      exact hd p (Or.inl hp)
  cases hrx : c.rxType x with
  | callback => exact absurd hrx (hc.queue x p hp).2.2
  | msgq =>
    have hs : step c s (.svc x) =
        .ok { s with queue := update s.queue x ps, svc := update s.svc x (.ready p hdr.msgId) } := by
      simp only [step, svcStep, hv, hrx, hq, Mem.getMsgId, hlife]
      rfl
    refine goes_to hs (update_self ..) (update_self ..) ?_ hps
    change 4 * ps.length + 2 < _
    omega
  | fifo =>
    have hs : step c s (.svc x) =
        .ok { s with queue := update s.queue x ps, svc := update s.svc x (.got p hdr.msgId) } := by
      simp only [step, svcStep, hv, hrx, hq, Mem.getMsgId, hlife]
      rfl
    refine goes_to hs (update_self ..) (update_self ..) ?_ hps
    change 4 * ps.length + 3 < _
    omega

theorem direct_goes (hc : Carried c s) (hb : Accounted c s) (hd : AllDirect s x) (hl : load s x ≠ 0) :
    ∃ s', step c s (.svc x) = .ok s' ∧ load s' x < load s x ∧ AllDirect s' x := by
  have hqueue : ∀ p ∈ s.queue x, p.src = none := fun p hp => hd p (Or.inl hp)
  have hgo : ∀ {p : Pkt B}, (s.svc x).pkt = some p → ∀ q, q ∈ s.queue x ∨ some p = some q → q.src = none := by
    intro p hp q hq
    exact hd q (hq.imp_right fun h => hp.trans h)
  cases hv : s.svc x with
  | idle =>
    cases hq : s.queue x with
    | nil => exact absurd (by simp [load, hq, hv, Svc.stage]) hl
    | cons p ps => exact take_goes hc hb hd hv hq
  | got p id =>
    obtain ⟨hok, hid, _⟩ := hc.svc_at hv
    have hpkt : (s.svc x).pkt = some p := by rw [hv]; rfl
    have hpriv := hok.private (hd p (Or.inr hpkt))
    have hs : step c s (.svc x) = .ok { s with svc := update s.svc x (.ready p id) } := by
      simp only [step, svcStep, hv, if_neg (hid ▸ hpriv : ¬ id ≤ c.maxPubMsgId x)]
    refine goes_to hs rfl (update_self ..) ?_ (hgo hpkt)
    simp only [load, hv, Svc.stage]
    omega
  | lock p id b => exact absurd hv (hc.not_lock (hd p (Or.inr (by rw [hv]; rfl))))
  | walk p id b n => exact absurd hv (hc.not_walk (hd p (Or.inr (by rw [hv]; rfl))))
  | ready p id =>
    have hs : step c s (.svc x) =
        .ok { s with log := s.log ++ [.handed x p], svc := update s.svc x (.running p) } := by
      simp only [step, svcStep, hv]
    refine goes_to hs rfl (update_self ..) ?_ (hgo (by rw [hv]; rfl))
    simp only [load, hv, Svc.stage]
    omega
  | running p =>
    obtain ⟨μ, hμ⟩ := hb.releases (Carries.svc (x := x) (by rw [hv]; rfl)).refs
    have hs : step c s (.svc x) = .ok { s with mem := μ, svc := update s.svc x .idle } := by
      simp only [step, svcStep, hv, hμ]
      rfl
    refine goes_to hs rfl (update_self ..) ?_ ?_
    · simp only [load, hv, Svc.stage]
      omega
    · rintro p (hp | hp)
      · exact hqueue p hp
      · cases hp

theorem drains (n : Nat) : ∀ s : Sys B S, Carried c s → Accounted c s → AllDirect s x → load s x = n →
    ∃ s', Run (step c) (fun _ a => a = .svc x) s s' ∧ load s' x = 0 := by
  induction n using Nat.strong_induction_on with
  | _ n ih =>
    intro s hc hb hd hn
    by_cases h0 : load s x = 0
    · exact ⟨s, .refl s, h0⟩
    · obtain ⟨u, hu, hlt, hd'⟩ := direct_goes hc hb hd h0
      have ht := step_trans hu
      obtain ⟨s', hr, h0'⟩ := ih (load u x) (hn ▸ hlt) u (hc.trans ht) (hb.trans ht) hd' rfl
      have hfirst : Run (step c) (fun _ a => a = .svc x) s u := .single _ rfl hu
      exact ⟨s', hfirst.trans hr, h0'⟩

omit [Fintype B] [Fintype S] in
theorem lift_run {P : Sys B S → Act B S → Prop} (hP : ∀ s a, P s a → LeavesAlone m a) (hr : Run (step c) P s s') :
    ∀ t : Timed B S, t.sys = s → ∃ t', Run (timedStep c) (Quiet m) t t' ∧ t'.sys = s' ∧ t'.linked = t.linked := by
  intro t ht
  subst ht
  induction hr with
  | refl => exact ⟨t, .refl t, rfl, rfl⟩
  | @tail _ s₂ a _ ha hs ih =>
    obtain ⟨u, hu, hsys, hl⟩ := ih
    refine ⟨{ u with sys := s₂, handled := bump u.handled (finished u.sys a) }, ?_, rfl, hl⟩
    refine .tail (.sys a) hu (hP _ _ ha) ?_
    rw [timedStep, hsys, hs]
    rfl

theorem returns (h : Copies c s m x) (hb : Accounted c s) (hr : 0 < inList m (s.calls.map Prod.snd)) :
    ∃ y p s', step c s (.callReturn y p) = .ok s' ∧ s'.queue = s.queue ∧ s'.svc = s.svc ∧
      inList m (s'.calls.map Prod.snd) = 0 := by
  obtain ⟨p, hp, rfl⟩ := mem_of_inList hr
  obtain ⟨⟨y, p⟩, hcall, rfl⟩ := List.mem_map.mp hp
  obtain ⟨μ, hμ⟩ := hb.releases (refs_calls hcall)
  refine ⟨y, p, { s with mem := μ, calls := s.calls.erase (y, p) }, ?_, rfl, rfl, ?_⟩
  · simp only [step, callReturn, hcall, if_true, hμ]
    rfl
  · have he := erase_inList hcall p.msg
    have hle := h.le_one
    simp only [one_self, inHandler, unhandled] at he hle ⊢
    omega

theorem settles (h : CopiesInv c t m) (hx : t.subscriber m = some x) (hd : AllDirect t.sys x) :
    ∃ t', Run (timedStep c) (Quiet m) t t' ∧ t'.linked = t.linked ∧ load t'.sys x = 0 ∧ refs t'.sys m = 0 := by
  obtain ⟨s₁, hr₁, hl₁⟩ := drains _ t.sys h.carried h.accounted hd rfl
  obtain ⟨t₁, ht₁, rfl, hlink₁⟩ := lift_run (m := m) (fun _ a ha => by rw [ha]; trivial) hr₁ t rfl
  have hk₁ := h.kept hx ht₁
  have hcop := hk₁.inv.copies x hk₁.subscriber
  obtain ⟨hq, hv⟩ := load_zero hl₁
  by_cases hcalls : inList m (t₁.sys.calls.map Prod.snd) = 0
  · refine ⟨t₁, ht₁, hlink₁, hl₁, (hcop.solo.free_iff hk₁.inv.carried).mpr ?_⟩
    rw [unhandled, inHandler, hq, hv, hcalls]
    exact ⟨rfl, rfl⟩
  · obtain ⟨y, p, s₂, hs₂, hq₂, hv₂, hcalls₂⟩ := returns hcop hk₁.inv.accounted (Nat.pos_of_ne_zero hcalls)
    have hone : Run (step c) (fun _ a => a = .callReturn y p) t₁.sys s₂ := .single _ rfl hs₂
    obtain ⟨t₂, ht₂, rfl, hlink₂⟩ := lift_run (m := m) (fun _ a ha => by rw [ha]; trivial) hone t₁ rfl
    have hk₂ := hk₁.inv.kept hk₁.subscriber ht₂
    refine ⟨t₂, ht₁.trans ht₂, hlink₂.trans hlink₁, ?_, ?_⟩
    · rw [load, hq₂, hv₂]
      exact hl₁
    · refine ((hk₂.inv.copies x hk₂.subscriber).solo.free_iff hk₂.inv.carried).mpr ?_
      rw [unhandled, inHandler, hq₂, hv₂, hcalls₂, hq, hv]
      exact ⟨rfl, rfl⟩

theorem expires (h : CopiesInv c t m) (hx : t.subscriber m = some x) (hu : Unhindered c t x)
    (hl : t.linked m = true) (h0 : load t.sys x = 0) (hfree : refs t.sys m = 0) :
    ∃ t', timedStep c t (.expire m) = .ok t' ∧ t'.linked m = false ∧ AllDirect t'.sys x := by
  obtain ⟨hd, hlife, _, hid⟩ := (h.copies x hx).live hu.allocators
  obtain ⟨hq, _⟩ := load_zero h0
  have hroom : ¬ MsgqFull c t.sys x := by
    intro ⟨hrx, hlen⟩
    have := hu.room hrx
    rw [hq, List.length_nil] at hlen
    omega
  obtain ⟨t', ht'⟩ := (expire_goes hl hx hlife ((h.accounted.refCnt hlife).trans hfree) hid).mpr hroom
  refine ⟨t', ht', ?_⟩
  cases timedStep_trans ht' with
  | @expire _ y hd' μ s' _ hy _ _ _ hpub =>
    rw [hx] at hy
    cases hy
    refine ⟨update_self .., ?_⟩
    cases publishTo_trans hpub with
    | mem hm => cases hm
    | publishToCallback _ _ _ _ => exact hu.direct
    | publishToQueue _ _ _ _ _ =>
      rintro p (hp | hp)
      · simp only [update_self, hq, List.nil_append] at hp
        rw [List.mem_singleton.mp hp]
      · exact hu.direct p (Or.inr hp)

theorem owed_iff (h : CopiesInv c t m) (hx : t.subscriber m = some x) (n : Nat) :
    Owed c t m x n ↔ due t x m = n := by
  constructor
  · intro ho
    have := ho.all t (.refl t)
    omega
  · rintro rfl
    refine ⟨fun t' hr => (h.kept hx hr).total, ?_⟩
    intro hu
    suffices hdone : ∃ t', Run (timedStep c) (Quiet m) t t' ∧ due t' x m = 0 by
      obtain ⟨t', hr, h0⟩ := hdone
      have := (h.kept hx hr).total
      exact ⟨t', hr, by omega⟩
    obtain ⟨t₁, hr₁, hl₁, hload₁, hfree₁⟩ := settles h hx hu.direct
    have hk₁ := h.kept hx hr₁
    cases hl : t₁.linked m with
    | false =>
      refine ⟨t₁, hr₁, ?_⟩
      rw [due, hl, (counts_of_free hfree₁ x).1]
      rfl
    | true =>
      obtain ⟨hq, hv⟩ := load_zero hload₁
      have hd₁ : AllDirect t₁.sys x := by
        intro p hp
        simp [hq, hv, Svc.pkt] at hp
      obtain ⟨t₂, ht₂, hl₂, hd₂⟩ :=
        expires hk₁.inv hk₁.subscriber ⟨hu.allocators, hu.room, hd₁⟩ hl hload₁ hfree₁
      have hr₂ : Run (timedStep c) (Quiet m) t t₂ := .tail (.expire m) hr₁ trivial ht₂
      have hk₂ := h.kept hx hr₂
      obtain ⟨t₃, hr₃, hl₃, _, hfree₃⟩ := settles hk₂.inv hk₂.subscriber hd₂
      refine ⟨t₃, hr₂.trans hr₃, ?_⟩
      rw [due, hl₃, hl₂, (counts_of_free hfree₃ x).1]
      rfl

/-! ## The answers -/

omit [DecidableEq B] [DecidableEq S] [Fintype B] [Fintype S] in
theorem due_set (v : Bool) :
    due { t with linked := update t.linked m v } x m = unhandled t.sys x m + v.toNat := by
  simp only [due, update_self]

omit [DecidableEq B] in
theorem abort_answer (h : CopiesInv c t m) (hx : t.subscriber m = some x) {ret : Int}
    (ha : delayableMsgAbort t m = .ok (ret, t')) :
    ret = (if t.linked m = true ∨ unhandled t.sys x m = 0 ∧ inHandler t.sys x m = 0 then 0 else -einval) := by
  unfold delayableMsgAbort zAbortTimeout at ha
  cases hl : t.linked m with
  | true =>
    simp only [hl, if_true, ne_eq, not_true, if_false] at ha
    cases ha
    simp
  | false =>
    have hne : -einval ≠ 0 := by decide
    simp only [hl, Bool.false_eq_true, if_false, ne_eq, hne, not_false_iff, if_true] at ha
    obtain ⟨cnt, hcnt, ha⟩ := bind_ok ha
    cases ha
    unfold Mem.getRefCnt at hcnt
    split at hcnt
    · rename_i hd hlife
      cases hcnt
      rw [h.accounted.refCnt hlife]
      simp only [Bool.false_eq_true, false_or, (h.copies x hx).solo.free_iff h.carried]
    · cases hcnt

structure AbortTells (c : Cfg S) (t : Timed B S) (m : Msg) (x : S) (ret : Int) : Prop where
  zero_iff : ret = 0 ↔ Owed c t m x 0
  nonzero : ret ≠ 0 → Owed c t m x 1

structure UpdateTells (c : Cfg S) (t : Timed B S) (m : Msg) (x : S) (ret : Int) : Prop where
  zero : ret = 0 → Owed c t m x 1
  invalid : ret = -einval → Owed c t m x 2

/-- The timer does not run while a copy waits to be handled, and it runs while the handler does. -/
def OneSource (t : Timed B S) (m : Msg) (x : S) : Prop :=
  (unhandled t.sys x m ≠ 0 → t.linked m = false) ∧ (inHandler t.sys x m ≠ 0 → t.linked m = true)

omit [Fintype B] [Fintype S] in
/-- An answer of 0 stands for `k` calls and one of -EINVAL for another one, when `k` calls are
owed beside the copies. -/
theorem answer_iff {k : Nat} {ret : Int} (hle : unhandled t.sys x m + inHandler t.sys x m ≤ 1)
    (hret : ret =
      if t.linked m = true ∨ unhandled t.sys x m = 0 ∧ inHandler t.sys x m = 0 then 0 else -einval)
    (howed : ∀ n, Owed c t' m x n ↔ unhandled t.sys x m + k = n) :
    ((ret = 0 → Owed c t' m x k) ∧ (ret = -einval → Owed c t' m x (k + 1))) ↔ OneSource t m x := by
  have hne : (0 : Int) ≠ -einval := by decide
  rw [howed, howed]
  unfold OneSource
  cases hl : t.linked m with
  | true =>
    simp only [hl, true_or, if_true] at hret
    subst hret
    simp only [true_implies, hne, false_implies, and_true, Bool.true_eq_false, imp_false, not_not, implies_true]
    omega
  | false =>
    by_cases hidle : unhandled t.sys x m = 0 ∧ inHandler t.sys x m = 0
    · simp only [hl, hidle, and_self, or_true, if_true] at hret
      subst hret
      simp [hidle, hne]
    · simp only [hl, Bool.false_eq_true, hidle, or_false, if_false] at hret
      subst hret
      simp only [hne.symm, false_implies, true_and, true_implies, implies_true, Bool.false_eq_true, imp_false, not_not]
      omega

omit [DecidableEq B] [DecidableEq S] in
theorem CopiesInv.abort_returns (h : CopiesInv c t m) (hx : t.subscriber m = some x) (hn : c.numAllocators ≤ 126) :
    ∃ ret, delayableMsgAbort t m = .ok (ret, { t with linked := update t.linked m false }) := by
  obtain ⟨hd, hl, _⟩ := (h.copies x hx).live hn
  exact abort_goes hl

/-- The return value of an abort tells whether the handler is going to be called
exactly when no timer runs beside a waiting copy and no handler runs without the timer. -/
theorem abort_tells_iff (h : Reachable (timedStep c) (TimedInit c) (fun _ a => OwnTimer c m a) t)
    (hx : t.subscriber m = some x) :
    (c.numAllocators ≤ 126 → ∃ ret t', delayableMsgAbort t m = .ok (ret, t')) ∧
      ∀ ret t', delayableMsgAbort t m = .ok (ret, t') → (AbortTells c t' m x ret ↔ OneSource t m x) := by
  have hinv := copies_reachable h
  have hcop := hinv.copies x hx
  refine ⟨?_, ?_⟩
  · intro hn
    obtain ⟨ret, hr⟩ := hinv.abort_returns hx hn
    exact ⟨ret, _, hr⟩
  · intro ret t' ha
    have hret := abort_answer hinv hx ha
    obtain rfl := delayableMsgAbort_ok ha
    have howed : ∀ n, Owed c { t with linked := update t.linked m false } m x n ↔ unhandled t.sys x m + 0 = n := by
      intro n
      rw [owed_iff (hinv.step (a := .abort m) .abort trivial) hx, due_set, Bool.toNat_false]
    rw [← answer_iff hcop.le_one hret howed]
    constructor
    · intro htells
      exact ⟨htells.zero_iff.mp, fun he => htells.nonzero (by rw [he]; decide)⟩
    · intro ⟨hzero, hone⟩
      have hnonzero : ret ≠ 0 → Owed c { t with linked := update t.linked m false } m x 1 := by
        intro hne
        refine hone ?_
        split at hret
        · exact absurd hret hne
        · exact hret
      refine ⟨⟨hzero, ?_⟩, hnonzero⟩
      intro h0
      by_contra hne
      have h1 := (howed 1).mp (hnonzero hne)
      rw [(howed 0).mp h0] at h1
      cases h1

/-- The return value of an update tells how often the handler is going to be called in the same states. -/
theorem update_tells_iff (h : Reachable (timedStep c) (TimedInit c) (fun _ a => OwnTimer c m a) t)
    (hx : t.subscriber m = some x) {delay : Delay} (hdelay : delay ≠ .forever) :
    (c.numAllocators ≤ 126 → ∃ ret t', delayableMsgUpdateTimeout t m delay = .ok (ret, t')) ∧
      ∀ ret t', delayableMsgUpdateTimeout t m delay = .ok (ret, t') → (UpdateTells c t' m x ret ↔ OneSource t m x) := by
  have hinv := copies_reachable h
  have hcop := hinv.copies x hx
  refine ⟨?_, ?_⟩
  · intro hn
    obtain ⟨ret, hr⟩ := hinv.abort_returns hx hn
    obtain ⟨t', hstart⟩ := start_goes (t := { t with linked := update t.linked m false }) (update_self ..) delay
    exact ⟨ret, t', by simp only [delayableMsgUpdateTimeout, hr, hstart, bind, Except.bind]⟩
  · intro ret t' hu
    obtain ⟨⟨_, t₁⟩, ha, hstart⟩ := bind_ok hu
    obtain ⟨_, _, he⟩ := bind_ok hstart
    cases he
    have hret := abort_answer hinv hx ha
    obtain rfl := delayableMsgUpdateTimeout_ok hu
    have hlinks : delay.links.toNat = 1 := by
      cases delay with
      | forever => exact absurd rfl hdelay
      | ticks n => rfl
    have howed : ∀ n, Owed c { t with linked := update t.linked m delay.links } m x n ↔
        unhandled t.sys x m + 1 = n := by
      intro n
      rw [owed_iff (hinv.step (a := .updateTimeout m delay) .updateTimeout trivial) hx, due_set, hlinks]
    rw [← answer_iff hcop.le_one hret howed]
    exact ⟨fun htells => ⟨htells.zero, htells.invalid⟩, fun htells => ⟨htells.1, htells.2⟩⟩

end

instance (c : Cfg (Fin 2)) (m : Msg) (a : TimedAct Unit (Fin 2)) : Decidable (OwnTimer c m a) :=
  match a with
  | .sys a => inferInstanceAs (Decidable (LeavesAlone m a))
  | .init k x id => inferInstanceAs (Decidable (k = m → c.maxPubMsgId x < id))
  | .start .. | .updateTimeout .. | .abort _ | .expire _ => isTrue trivial

instance (t : Timed Unit (Fin 2)) (m : Msg) (x : Fin 2) : Decidable (OneSource t m x) :=
  inferInstanceAs (Decidable (_ ∧ _))

def expiredOnce : List (TimedAct Unit (Fin 2)) := [.init 0 1 9, .start 0 (.ticks 5), .expire 0]

def handlingOnce : List (TimedAct Unit (Fin 2)) := expiredOnce ++ List.replicate 3 (.sys (.svc 1))

def startedAgain : List (TimedAct Unit (Fin 2)) := expiredOnce ++ [.start 0 (.ticks 2)]

theorem abort_tells_expired : ∃ t t', Runs.exec (timedStep twoFifos) (Timed.idle twoFifosInit) expiredOnce = .ok t ∧
    delayableMsgAbort t 0 = .ok (-einval, t') ∧ AbortTells twoFifos t' 0 1 (-einval) := by
  have hrun : ∃ t, Runs.exec (timedStep twoFifos) (Timed.idle twoFifosInit) expiredOnce = .ok t ∧
      t.subscriber 0 = some 1 ∧ OneSource t 0 1 ∧ ∃ t', delayableMsgAbort t 0 = .ok (-einval, t') :=
    ⟨_, rfl, rfl, by decide, _, rfl⟩
  obtain ⟨t, ht, hx, hone, t', ha⟩ := hrun
  exact ⟨t, t', ht, ha, ((abort_tells_iff ⟨Timed.idle twoFifosInit, timedInit_idle twoFifos_init,
    Run.of_acts (K := OwnTimer twoFifos 0) (timedStep twoFifos) expiredOnce ht (by decide)⟩ hx).2 _ _ ha).mpr hone⟩

/-- In the handler an abort returns -EINVAL with nothing owed; while the message waits and
the timer has been started again, it returns 0 with a call owed. -/
theorem abort_misleads :
    (∃ t t', Runs.exec (timedStep twoFifos) (Timed.idle twoFifosInit) handlingOnce = .ok t ∧
      delayableMsgAbort t 0 = .ok (-einval, t') ∧ ¬ AbortTells twoFifos t' 0 1 (-einval)) ∧
    ∃ t t', Runs.exec (timedStep twoFifos) (Timed.idle twoFifosInit) startedAgain = .ok t ∧
      delayableMsgAbort t 0 = .ok (0, t') ∧ ¬ AbortTells twoFifos t' 0 1 0 := by
  refine ⟨⟨_, _, rfl, rfl, ?_⟩, ⟨_, _, rfl, rfl, ?_⟩⟩
  · intro htells
    have := (htells.nonzero (by decide)).all _ (.refl _)
    revert this
    decide
  · intro htells
    have := (htells.zero_iff.mp rfl).all _ (.refl _)
    revert this
    decide

theorem update_tells_expired : ∃ t t', Runs.exec (timedStep twoFifos) (Timed.idle twoFifosInit) expiredOnce = .ok t ∧
    delayableMsgUpdateTimeout t 0 (.ticks 2) = .ok (-einval, t') ∧ UpdateTells twoFifos t' 0 1 (-einval) := by
  have hrun : ∃ t, Runs.exec (timedStep twoFifos) (Timed.idle twoFifosInit) expiredOnce = .ok t ∧
      t.subscriber 0 = some 1 ∧ OneSource t 0 1 ∧
      ∃ t', delayableMsgUpdateTimeout t 0 (.ticks 2) = .ok (-einval, t') := ⟨_, rfl, rfl, by decide, _, rfl⟩
  obtain ⟨t, ht, hx, hone, t', hu⟩ := hrun
  exact ⟨t, t', ht, hu, ((update_tells_iff ⟨Timed.idle twoFifosInit, timedInit_idle twoFifos_init,
    Run.of_acts (K := OwnTimer twoFifos 0) (timedStep twoFifos) expiredOnce ht (by decide)⟩ hx
    (by decide : Delay.ticks 2 ≠ .forever)).2 _ _ hu).mpr hone⟩

/-- An update in the handler returns -EINVAL with one call owed, one after a start beside
the waiting message returns 0 with two. -/
theorem update_misleads :
    (∃ t t', Runs.exec (timedStep twoFifos) (Timed.idle twoFifosInit) handlingOnce = .ok t ∧
      delayableMsgUpdateTimeout t 0 (.ticks 2) = .ok (-einval, t') ∧ ¬ UpdateTells twoFifos t' 0 1 (-einval)) ∧
    ∃ t t', Runs.exec (timedStep twoFifos) (Timed.idle twoFifosInit) startedAgain = .ok t ∧
      delayableMsgUpdateTimeout t 0 (.ticks 2) = .ok (0, t') ∧ ¬ UpdateTells twoFifos t' 0 1 0 := by
  refine ⟨⟨_, _, rfl, rfl, ?_⟩, ⟨_, _, rfl, rfl, ?_⟩⟩
  · intro htells
    have := (htells.invalid rfl).all _ (.refl _)
    revert this
    decide
  · intro htells
    have := (htells.zero rfl).all _ (.refl _)
    revert this
    decide

end ZephyrPubSub
