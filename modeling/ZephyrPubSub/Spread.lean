import ZephyrPubSub.Holdings

/-!
# A message held by everybody

A schedule in which the references of a message add up: the dispatch stops
before it releases the broker's own one, every msgq holds a copy, and the FIFO
subscribers pass the message on while none of their handlers returns.
-/

namespace ZephyrPubSub

open Lists Function Runs

section
variable {B S : Type} [DecidableEq B] [DecidableEq S] {c : Cfg S} {s s' : Sys B S}
variable {b : B} {x : S} {p : Pkt B} {i : MsgId} {hd : Hdr} {pre skip rest : List S}

/-- The message has a reference for the broker and one for each subscriber in `l` that takes it. -/
def Counted (c : Cfg S) (s : Sys B S) (l : List S) (p : Pkt B) (i : MsgId) (hd : Hdr) : Prop :=
  s.mem.life p.msg = .live hd ∧ hd.msgId = i ∧ hd.refCnt = 1 + l.countP fun x => decide (Takes c s i x)

omit [DecidableEq B] [DecidableEq S] in
theorem countP_untaken {l : List S} (h : ∀ y ∈ l, ¬ s.wants c y i) :
    l.countP (fun x => decide (Takes c s i x)) = 0 := by
  apply List.countP_eq_zero.mpr
  intro y hy ht
  exact h y hy (of_decide_eq_true ht).2

omit [DecidableEq B] [DecidableEq S] in
theorem countP_split {l : List S} (hskip : ∀ y ∈ skip, ¬ s.wants c y i) :
    (pre ++ x :: (skip ++ l)).countP (fun x => decide (Takes c s i x)) =
      (pre ++ [x]).countP (fun x => decide (Takes c s i x)) + l.countP fun x => decide (Takes c s i x) := by
  simp only [List.countP_append, List.countP_cons, List.countP_nil, countP_untaken hskip]
  omega

section
omit [DecidableEq B] [DecidableEq S]

theorem countP_take {l : List S} (h : Takes c s i x) :
    (l ++ [x]).countP (fun x => decide (Takes c s i x)) = l.countP (fun x => decide (Takes c s i x)) + 1 := by
  rw [List.countP_append, List.countP_singleton, if_pos (decide_eq_true h)]

theorem takes_fifo (hrx : c.rxType x = .fifo) (hx : s.wants c x i) : Takes c s i x :=
  ⟨by rw [hrx]; exact RxType.noConfusion, hx⟩

theorem Counted.untaken {l : List S} (h : Counted c s l p i hd) (hx : ¬ Takes c s i x) :
    Counted c s (l ++ [x]) p i hd := by
  refine ⟨h.1, h.2.1, ?_⟩
  rw [h.2.2, List.countP_append, List.countP_singleton, if_neg (mt of_decide_eq_true hx), Nat.add_zero]

end

omit [DecidableEq B] [DecidableEq S] in
theorem Counted.taken {l : List S} (h : Counted c s l p i hd) (hx : Takes c s i x) (hm : s'.mem =
    s.mem.setLife p.msg (.live { hd with refCnt := hd.refCnt + 1 })) (hs : s'.subs = s.subs) :
    Counted c s' (l ++ [x]) p i { hd with refCnt := hd.refCnt + 1 } := by
  have htake : ∀ y, decide (Takes c s' i y) = decide (Takes c s i y) := by
    intro y
    rw [decide_eq_decide, Takes, Takes, Sys.wants, Sys.wants, hs]
  refine ⟨by rw [hm, Mem.setLife_self], h.2.1, ?_⟩
  simp only [htake, countP_take hx, h.2.2, Nat.add_assoc]

omit [DecidableEq B] [DecidableEq S] in
theorem Counted.passed (h : Counted c s (pre ++ [x]) p i hd) (hskip : ∀ y ∈ skip, ¬ s.wants c y i) :
    Counted c s (pre ++ x :: skip) p i hd := by
  refine ⟨h.1, h.2.1, ?_⟩
  rw [h.2.2, ← List.append_nil skip, countP_split hskip, List.countP_nil, Nat.add_zero]

/-- From the FIFO of `x` on, every FIFO subscriber gets the message and keeps it. -/
theorem spreads_on (pre skip : List S) (hlink : Linked s) (hl : s.subscribers b = pre ++ x :: (skip ++ rest))
    (hskip : ∀ y ∈ skip, ¬ s.wants c y i) (hrx : c.rxType x = .fifo) (hfifo : ∀ y ∈ rest, c.rxType y = .fifo)
    (hx : s.wants c x i) (hidle : s.svc x = .idle) (hq : s.queue x = [p])
    (hrest : ∀ y ∈ rest, s.svc y = .idle ∧ s.queue y = []) (hmutex : s.mutex b = none)
    (hcount : Counted c s (pre ++ [x]) p i hd)
    (hle : (s.subscribers b).countP (fun x => decide (Takes c s i x)) ≤ 254) :
    ∃ s' hd', Leads c s s' ∧ Counted c s' (s.subscribers b) p i hd' := by
  induction rest generalizing s x pre skip hd with
  | nil =>
    rw [List.append_nil] at hl
    exact ⟨s, hd, .refl s, hl ▸ hcount.passed hskip⟩
  | cons n rest ih =>
    by_cases hn : s.wants c n i
    · have hcnt := hcount.2.2
      obtain ⟨hidlen, hqn⟩ := hrest n (List.mem_cons_self ..)
      have hrxn := hfifo n (List.mem_cons_self ..)
      have htot := hle
      rw [hl, countP_split hskip, List.countP_cons, if_pos (decide_eq_true (takes_fifo hrxn hn))] at htot
      have hl' : s.subscribers b = (pre ++ x :: skip) ++ n :: ([] ++ rest) := by rw [hl]; simp
      have hnx : n ≠ x := ne_behind hlink hl (by simp)
      have h₁ := passes_on hlink hl hskip hrx hx.1 hrxn hn hidle hq hmutex hcount.1 hcount.2.1 (by omega)
      have hrest' : ∀ y ∈ rest, update s.svc x (.ready p i) y = .idle ∧
          update (update s.queue x []) n (s.queue n ++ [p]) y = [] := by
        intro y hy
        have hyx : y ≠ x := ne_behind hlink hl (by simp [hy])
        have hyn : y ≠ n := ne_behind hlink hl' (by simp [hy])
        obtain ⟨hidley, hqy⟩ := hrest y (List.mem_cons_of_mem n hy)
        exact ⟨(update_of_ne hyx ..).trans hidley, (update_of_ne hyn ..).trans ((update_of_ne hyx ..).trans hqy)⟩
      obtain ⟨s', hd', h₂, hc⟩ := ih
        (s := { s with
          mem := s.mem.setLife p.msg (.live { hd with refCnt := hd.refCnt + 1 })
          queue := update (update s.queue x []) n (s.queue n ++ [p])
          svc := update s.svc x (.ready p i) })
        (x := n) (pre ++ x :: skip) [] ⟨hlink.nodup, hlink.mem_iff⟩ hl'
        (fun y hy => absurd hy List.not_mem_nil) hrxn (fun y hy => hfifo y (List.mem_cons_of_mem n hy)) hn
        ((update_of_ne hnx ..).trans hidlen) ((update_self ..).trans (by rw [hqn]; rfl)) hrest' hmutex
        ((hcount.passed hskip).taken (takes_fifo hrxn hn) rfl rfl) hle
      exact ⟨s', hd', h₁.trans h₂, hc⟩
    · exact ih pre (skip ++ [n]) hlink (by rw [hl]; simp)
        (List.forall_mem_append.mpr ⟨hskip, List.forall_mem_singleton.mpr hn⟩) hrx
        (fun y hy => hfifo y (List.mem_cons_of_mem n hy)) hx hidle hq
        (fun y hy => hrest y (List.mem_cons_of_mem n hy)) hmutex hcount hle

/-- From `rest` on, the dispatch hands the message to everybody up to the first FIFO subscriber. -/
theorem scan_spreads (pre : List S) (hlink : Linked s) (hl : s.subscribers b = pre ++ rest) {call : Option S}
    (hw : s.work b = .scan p i rest.head? call) (hlast : FifoLast c.rxType (s.subscribers b))
    (hrest : ∀ y ∈ rest, s.svc y = .idle ∧ s.queue y = [])
    (hcap : ∀ y ∈ s.subscribers b, c.rxType y = .msgq → s.wants c y i → 0 < c.maxMsgs y)
    (hcount : Counted c s pre p i hd)
    (hle : (s.subscribers b).countP (fun x => decide (Takes c s i x)) ≤ 254) :
    ∃ s' hd', Leads c s s' ∧ Counted c s' (s.subscribers b) p i hd' := by
  induction rest generalizing s pre hd call with
  | nil =>
    rw [List.append_nil] at hl
    exact ⟨s, hd, .refl s, hl ▸ hcount⟩
  | cons x rest ih =>
    have hnext : s.nextSub x = rest.head? := nextSub_split hlink hl
    have hl' : s.subscribers b = (pre ++ [x]) ++ rest := by rw [hl]; simp
    have hbehind : ∀ y ∈ rest, y ≠ x := fun y hy => ne_behind hlink hl hy
    have hrest' : ∀ y ∈ rest, s.svc y = .idle ∧ s.queue y = [] := fun y hy => hrest y (List.mem_cons_of_mem x hy)
    by_cases hx : s.wants c x i
    · cases hrx : c.rxType x with
      | callback =>
        have h₁ := Leads.work (.refl s) (.scanCallback hw hx hrx)
        obtain ⟨s', hd', h₂, hc⟩ := ih
          (s := { s with
            log := s.log ++ [.handed x p]
            work := update s.work b (.scan p i (s.nextSub x) (some x)) })
          (pre ++ [x]) ⟨hlink.nodup, hlink.mem_iff⟩ hl' ((update_self ..).trans (by rw [hnext])) hlast hrest' hcap
          (hcount.untaken fun ht => ht.1 hrx) hle
        exact ⟨s', hd', h₁.trans h₂, hc⟩
      | msgq =>
        have ht : Takes c s i x := ⟨by rw [hrx]; exact RxType.noConfusion, hx⟩
        have htot := hle
        rw [hl, List.countP_append, List.countP_cons, if_pos (decide_eq_true ht), ← Nat.add_assoc] at htot
        have hq := (hrest x (List.mem_cons_self ..)).2
        have h₁ := Leads.work (.refl s) (.scanMsgq hw hx hrx (acquireMsg_live hcount.1 (by rw [hcount.2.2]; omega)))
        have h₂ := h₁.work (.put (update_self ..) (by
          show (s.queue x).length < _
          rw [hq]
          exact hcap x (by rw [hl]; simp) hrx hx))
        simp only [update_idem] at h₂
        obtain ⟨s', hd', h₃, hc⟩ := ih
          (s := { s with
            mem := s.mem.setLife p.msg (.live { hd with refCnt := hd.refCnt + 1 })
            queue := update s.queue x (s.queue x ++ [p])
            work := update s.work b (.scan p i (s.nextSub x) none) })
          (pre ++ [x]) ⟨hlink.nodup, hlink.mem_iff⟩ hl' ((update_self ..).trans (by rw [hnext])) hlast
          (fun y hy => ⟨(hrest' y hy).1, (update_of_ne (hbehind y hy) ..).trans (hrest' y hy).2⟩) hcap
          (hcount.taken ht rfl rfl) hle
        exact ⟨s', hd', h₂.trans h₃, hc⟩
      | fifo =>
        have ht := takes_fifo hrx hx
        have htot := hle
        rw [hl, List.countP_append, List.countP_cons, if_pos (decide_eq_true ht), ← Nat.add_assoc] at htot
        obtain ⟨hidle, hq⟩ := hrest x (List.mem_cons_self ..)
        have h₁ := Leads.work (.refl s) (.scanFifo hw hx hrx (acquireMsg_live hcount.1 (by rw [hcount.2.2]; omega)))
        have htail : ∀ y ∈ rest, c.rxType y = .fifo := by
          intro y hy
          have hp := hlast
          rw [FifoLast, hl, List.pairwise_append, List.pairwise_cons] at hp
          exact hp.2.1.1 y hy hrx
        obtain ⟨s', hd', h₂, hc⟩ := spreads_on
          (s := { s with
            mem := s.mem.setLife p.msg (.live { hd with refCnt := hd.refCnt + 1 })
            queue := update s.queue x (s.queue x ++ [p])
            mutex := update s.mutex b none
            work := update s.work b (.release p) })
          pre [] ⟨hlink.nodup, hlink.mem_iff⟩ hl (fun y hy => absurd hy List.not_mem_nil) hrx htail hx hidle
          ((update_self ..).trans (by rw [hq]; rfl))
          (fun y hy => ⟨(hrest' y hy).1, (update_of_ne (hbehind y hy) ..).trans (hrest' y hy).2⟩) (update_self ..)
          (hcount.taken ht rfl rfl) hle
        exact ⟨s', hd', h₁.trans h₂, hc⟩
    · have h₁ := Leads.work (.refl s) (.scanSkip hw hx)
      obtain ⟨s', hd', h₂, hc⟩ := ih
        (s := { s with work := update s.work b (.scan p i (s.nextSub x) none) })
        (pre ++ [x]) ⟨hlink.nodup, hlink.mem_iff⟩ hl' ((update_self ..).trans (by rw [hnext])) hlast hrest' hcap
        (hcount.untaken fun ht => hx ht.2) hle
      exact ⟨s', hd', h₁.trans h₂, hc⟩

def subscribed (c : Cfg S) (s : Sys B S) (b : B) (k : RxType) (i : MsgId) : Nat :=
  (s.subscribers b).countP fun x => decide (c.rxType x = k ∧ s.wants c x i)

omit [DecidableEq B] [DecidableEq S] in
theorem countP_takes (c : Cfg S) (s : Sys B S) (b : B) (i : MsgId) :
    (s.subscribers b).countP (fun x => decide (Takes c s i x)) =
      subscribed c s b .msgq i + subscribed c s b .fifo i := by
  unfold subscribed
  induction s.subscribers b with
  | nil => rfl
  | cons x l ih =>
    simp only [List.countP_cons, ih, decide_eq_true_eq]
    cases hrx : c.rxType x <;> by_cases hx : s.wants c x i <;> simp [Takes, hrx, hx] <;> omega

omit [DecidableEq B] [DecidableEq S] in
theorem subscribed_congr (hl : s'.subscribers = s.subscribers) (hw : ∀ y k, s'.wants c y k ↔ s.wants c y k)
    (k : RxType) :
    subscribed c s' b k i = subscribed c s b k i := by
  unfold subscribed
  rw [hl]
  congr 1
  funext x
  rw [decide_eq_decide, hw]

theorem dispatch_starts (h₀ : Init c s) (b : B) (i : MsgId) : ∃ s' p hd, Leads c s s' ∧ .published p ∈ s'.log ∧
    p.src = some b ∧ Linked s' ∧
    s'.work b = .scan p i (s.subscribers b).head? none ∧
    (∀ y, s'.svc y = .idle ∧ s'.queue y = []) ∧ Counted c s' [] p i hd := by
  have h₁ := publishes (c := c) b i (h₀.life 0) (h₀.owned 0)
  simp only [h₀.fifo, h₀.work, wake, List.nil_append] at h₁
  have h₂ := Leads.work h₁ (.workQueued (update_self ..))
  have h₃ := h₂.work (.workGet (update_self ..) (update_self ..) (getMsgId_live (Mem.setLife_self ..)))
  have h₄ := h₃.work (.workLock (update_self ..) (h₀.mutex b))
  have hlink := (wf_init h₀).linked
  refine ⟨_, ⟨0, s.nextTag, some b⟩, ⟨i, allocIdStaticMsg, 1⟩, h₄, ?_, rfl, ?_, ?_, ?_, ?_⟩
  · exact List.mem_append_right _ (List.mem_singleton_self _)
  · exact ⟨hlink.nodup, hlink.mem_iff⟩
  · exact update_self ..
  · exact fun y => ⟨h₀.svc y, h₀.queue y⟩
  · exact ⟨Mem.setLife_self .., rfl, rfl⟩

theorem bound_reached {s₀ : Sys B S} (h₀ : Init c s₀)
    (hle : subscribed c s₀ b .msgq i + subscribed c s₀ b .fifo i ≤ 254)
    (hcap : ∀ y ∈ s₀.subscribers b, c.rxType y = .msgq → s₀.wants c y i → 0 < c.maxMsgs y) :
    ∃ s p hd, Leads c s₀ s ∧ .published p ∈ s.log ∧ p.src = some b ∧ s.mem.life p.msg = .live hd ∧ hd.msgId = i ∧
      hd.refCnt = 1 + subscribed c s₀ b .msgq i + subscribed c s₀ b .fifo i := by
  obtain ⟨s₁, p, hd, h₁, hpub, hsrc, hlink, hw, hrest, hcount⟩ := dispatch_starts h₀ b i
  obtain ⟨hl, hwant⟩ := fixed_run (h₁.mono fun _ _ hp => ⟨hp.1, hp.2.1⟩)
  have hlast := h₀.fifoLast b
  rw [← hl] at hcap hw hlast
  rw [← subscribed_congr hl hwant, ← subscribed_congr hl hwant, ← countP_takes] at hle
  obtain ⟨s₂, hd', h₂, hc⟩ := scan_spreads [] hlink rfl hw hlast (fun y _ => hrest y)
    (fun y hy hrx hy' => hcap y hy hrx ((hwant y i).mp hy')) hcount hle
  obtain ⟨hl₂, hwant₂⟩ := fixed_run ((h₁.trans h₂).mono fun _ _ hp => ⟨hp.1, hp.2.1⟩)
  refine ⟨s₂, p, hd', h₁.trans h₂, ?_, hsrc, hc.1, hc.2.1, ?_⟩
  · exact h₂.invariant (I := fun s => .published p ∈ s.log)
      (fun _ _ _ h _ hstep => log_kept (step_trans hstep) h) hpub
  · rw [hc.2.2, hl, ← hl₂, countP_takes, subscribed_congr hl₂ hwant₂, subscribed_congr hl₂ hwant₂, Nat.add_assoc]

variable [Fintype B] [Fintype S]

/-- With fixed lists and subscriptions, a message of broker `b` never has more
references than the broker's, one for each msgq and each FIFO subscriber of its
id, and the extra ones. With at most 254 of these subscribers and a place in
each msgq some run reaches the bound, and no run without extra references
overflows the counter. -/
theorem refCnt_bounded {s₀ : Sys B S} (h₀ : Init c s₀) (b : B) :
    (∀ s, Run (step c) (fun _ a => KeepsLists a ∧ KeepsSubs a) s₀ s → ∀ m hd, s.mem.life m = .live hd →
      OnlyFrom s b m → hd.refCnt ≤
        1 + subscribed c s₀ b .msgq hd.msgId + subscribed c s₀ b .fifo hd.msgId + s.mem.extra m) ∧
    (∀ i, subscribed c s₀ b .msgq i + subscribed c s₀ b .fifo i ≤ 254 →
      (∀ y ∈ s₀.subscribers b, c.rxType y = .msgq → s₀.wants c y i → 0 < c.maxMsgs y) →
      ∃ s p hd, Leads c s₀ s ∧ .published p ∈ s.log ∧ p.src = some b ∧ s.mem.life p.msg = .live hd ∧ hd.msgId = i ∧
        s.mem.extra p.msg = 0 ∧ hd.refCnt = 1 + subscribed c s₀ b .msgq i + subscribed c s₀ b .fifo i) ∧
    ((∀ b i, subscribed c s₀ b .msgq i + subscribed c s₀ b .fifo i ≤ 254) →
      ∀ s, Leads c s₀ s → ∀ a, NoExtra a → step c s a ≠ .error .refOverflow) := by
  refine ⟨?_, ?_, ?_⟩
  · intro s hr m hd hlive hm
    have h := held_run h₀ hr
    obtain ⟨hl, hwant⟩ := fixed_run hr
    have hle := h.refs_le hm
    have hid : s.mem.idOf m = hd.msgId := by rw [Mem.idOf, hlive]; rfl
    rw [hid, countP_takes, subscribed_congr hl hwant, subscribed_congr hl hwant] at hle
    rw [h.accounted.refCnt hlive]
    omega
  · intro i hle hcap
    obtain ⟨s, p, hd, hr, hpub, hsrc, hlive, hi, hcnt⟩ := bound_reached h₀ hle hcap
    exact ⟨s, p, hd, hr, hpub, hsrc, hlive, hi, extra_run h₀ hr p.msg, hcnt⟩
  · intro hle s hr a ha
    have hr' : Run (step c) (fun _ a => KeepsLists a ∧ KeepsSubs a) s₀ s := hr.mono fun _ _ hp => ⟨hp.1, hp.2.1⟩
    obtain ⟨hl, hwant⟩ := fixed_run hr'
    refine (held_run h₀ hr').no_overflow (extra_run h₀ hr) (fun b i => ?_) ha
    rw [countP_takes, subscribed_congr hl hwant, subscribed_congr hl hwant]
    exact hle b i

omit [DecidableEq B] [DecidableEq S] [Fintype B] [Fintype S] in
theorem subscribed_le (c : Cfg S) (s : Sys B S) (b : B) (k : RxType) (i : MsgId) :
    subscribed c s b k i ≤ (s.subscribers b).length := List.countP_le_length

end

theorem refCnt_bounded_msgqAndFifo :
    (∀ s, Run (step msgqAndFifo) (fun _ a => KeepsLists a ∧ KeepsSubs a) msgqAndFifoInit s → ∀ m hd,
      s.mem.life m = .live hd → OnlyFrom s () m → hd.msgId = 3 → hd.refCnt ≤ 3 + s.mem.extra m) ∧
    (∃ s p hd, Leads msgqAndFifo msgqAndFifoInit s ∧ .published p ∈ s.log ∧ p.src = some () ∧
      s.mem.life p.msg = .live hd ∧ hd.msgId = 3 ∧ s.mem.extra p.msg = 0 ∧ hd.refCnt = 3) ∧
    ∀ s, Leads msgqAndFifo msgqAndFifoInit s → ∀ a, NoExtra a → step msgqAndFifo s a ≠ .error .refOverflow := by
  have h := refCnt_bounded msgqAndFifo_init ()
  refine ⟨?_, ?_, ?_⟩
  · intro s hr m hd hlive hm hi
    have hle := h.1 s hr m hd hlive hm
    rw [hi] at hle
    exact hle
  · exact h.2.1 3 (by decide) (by decide)
  · apply h.2.2
    intro b i
    have h₁ := subscribed_le msgqAndFifo msgqAndFifoInit b .msgq i
    have h₂ := subscribed_le msgqAndFifo msgqAndFifoInit b .fifo i
    have hl : (msgqAndFifoInit.subscribers b).length = 2 := rfl
    omega

/-! ## Brokers that do not reach the bound -/

section
variable {B S : Type} [DecidableEq B] [DecidableEq S] [Fintype B] [Fintype S] {c : Cfg S} {s s' : Sys B S}

/-- With msgqs that have no place nothing gets to a subscriber. -/
structure Stuck (s : Sys B S) : Prop where
  queue : ∀ x, s.queue x = []
  svc : ∀ x, s.svc x = .idle
  calls : s.calls = []

omit [Fintype B] [Fintype S] in
theorem Stuck.trans {a : Act B S} (h : Stuck s) (hm : ∀ x, c.rxType x = .msgq ∧ c.maxMsgs x = 0)
    (ht : Trans c s a s') : Stuck s' := by
  have no_queue : ∀ {x p ps}, s.queue x ≠ p :: ps := fun {x p ps} hq => by rw [h.queue] at hq; cases hq
  have no_svc : ∀ {x v}, s.svc x = v → v = .idle := fun {x v} hv => by rw [← hv, h.svc]
  have no_place : ∀ {x}, ¬ (s.queue x).length < c.maxMsgs x := fun {x} hlt => by
    rw [(hm x).2] at hlt
    exact Nat.not_lt_zero _ hlt
  cases ht with
  | put _ hlt => exact absurd hlt no_place
  | @scanFifo _ _ _ x _ _ _ _ hrx => rw [(hm x).1] at hrx; cases hrx
  | takeMsgq _ _ hq => exact absurd hq no_queue
  | takeFifo _ _ hq => exact absurd hq no_queue
  | gotPublic hv | gotPrivate hv | svcLock hv | walkEnd hv | walkSkip hv | walkGive hv | handle hv
  | svcRelease hv =>
    cases no_svc hv
  | @publishToCallback x _ _ _ _ _ hrx => rw [(hm x).1] at hrx; cases hrx
  | @publishToQueue x _ _ _ _ _ _ hlen => exact absurd (hlen (hm x).1) no_place
  | callReturn hc => rw [h.calls] at hc; cases hc
  | _ => exact ⟨h.queue, h.svc, h.calls⟩

omit [DecidableEq B] [Fintype B] in
theorem Work.putRefs_le (m : Msg) (w : Work B S) : ∑ x, w.putRefs m x ≤ w.pubRefs m := by
  cases w <;> simp [Work.putRefs, Work.pubRefs]

omit [DecidableEq B] in
theorem Stuck.refs_le (h : Stuck s) {m : Msg} (hs : OneShare c s m) (hx : s.mem.extra m = 0) : refs s m ≤ 2 := by
  have hput : ∑ x, holdings s m x ≤ ∑ b, (s.work b).pubRefs m := by
    have he : ∀ x, holdings s m x = ∑ b, (s.work b).putRefs m x := by
      intro x
      simp [holdings, h.queue, h.svc]
    simp only [he]
    rw [Finset.sum_comm]
    exact Finset.sum_le_sum fun b _ => (s.work b).putRefs_le m
  have hpub := hs.pubRefs
  rw [refs_split, h.calls, hx]
  simp only [pubRefs] at hpub ⊢
  simp only [List.map_nil, inList_nil]
  omega

end

def manyFifos (n : Nat) : Cfg (Fin n) where
  rxType _ := .fifo
  maxPubMsgId _ := 7
  maxMsgs _ := 0
  numAllocators := 0

def manyFifosInit (n : Nat) : Sys Unit (Fin n) :=
  Sys.init (fun _ => List.finRange n) (fun _ => some ()) (fun _ _ => true) fun _ => 0

theorem manyFifos_init (n : Nat) : Init (manyFifos n) (manyFifosInit n) := by
  apply init_of_lists
  · exact fun _ => List.nodup_finRange n
  · intro b x
    simp
  · intro b
    exact List.pairwise_of_forall fun _ _ _ => rfl

theorem manyFifos_subscribed (n : Nat) : subscribed (manyFifos n) (manyFifosInit n) () .fifo 3 = n := by
  have hl : (manyFifosInit n).subscribers () = List.finRange n := rfl
  rw [subscribed, hl]
  refine (List.countP_eq_length.mpr ?_).trans List.length_finRange
  intro x _
  exact decide_eq_true ⟨rfl, show (3 : MsgId) ≤ 7 by decide, rfl⟩

def noPlace : Cfg (Fin 2) where
  rxType _ := .msgq
  maxPubMsgId _ := 7
  maxMsgs _ := 0
  numAllocators := 0

def noPlaceInit : Sys Unit (Fin 2) :=
  Sys.init (fun _ => [0, 1]) (fun _ => some ()) (fun _ _ => true) fun x => x.val

theorem noPlace_init : Init noPlace noPlaceInit :=
  init_of_lists _ _ (by decide) (by decide) (by unfold FifoLast; decide)

/-- With 255 FIFO subscribers the bound does not fit into the counter, and a msgq
without a place keeps the dispatch from the subscribers behind it. -/
theorem bound_not_reached :
    (¬ ∃ s m hd, Leads (manyFifos 255) (manyFifosInit 255) s ∧ s.mem.life m = .live hd ∧ hd.msgId = 3 ∧
      hd.refCnt = 1 + subscribed (manyFifos 255) (manyFifosInit 255) () .msgq 3 +
        subscribed (manyFifos 255) (manyFifosInit 255) () .fifo 3) ∧
    ¬ ∃ s m hd, Leads noPlace noPlaceInit s ∧ s.mem.life m = .live hd ∧ hd.msgId = 3 ∧
      hd.refCnt = 1 + subscribed noPlace noPlaceInit () .msgq 3 + subscribed noPlace noPlaceInit () .fifo 3 := by
  constructor
  · intro ⟨s, m, hd, hr, hlive, _, hcnt⟩
    have hbyte := (accounted_reachable ⟨_, manyFifos_init 255, hr⟩).byte m hd hlive
    rw [manyFifos_subscribed] at hcnt
    omega
  · intro ⟨s, m, hd, hr, hlive, _, hcnt⟩
    have hheld := held_run noPlace_init (hr.mono fun _ _ hp => ⟨hp.1, hp.2.1⟩)
    have hstuck : Stuck s := hr.invariant (fun _ _ _ h _ hstep => h.trans (fun _ => ⟨rfl, rfl⟩) (step_trans hstep))
      ⟨fun _ => rfl, fun _ => rfl, rfl⟩
    have hle := hstuck.refs_le (hheld.share m) (extra_run noPlace_init hr m)
    rw [hheld.accounted.refCnt hlive, show subscribed noPlace noPlaceInit () .msgq 3 = 2 by decide] at hcnt
    omega

end ZephyrPubSub
