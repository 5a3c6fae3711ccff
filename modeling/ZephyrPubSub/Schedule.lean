import ZephyrPubSub.Delivery
import ZephyrPubSub.Sequence

/-!
# Schedules

A schedule can be built from the constructors of `Trans`. The pieces here lead
a message from its publication through the dispatch and from one FIFO subscriber
to the next, with lists and subscriptions fixed and no extra references.
-/

namespace ZephyrPubSub

open Lists Function Runs

section
variable {B S : Type} [DecidableEq B] [DecidableEq S] {c : Cfg S} {s s' : Sys B S}

/-! ## Runs with fixed lists and subscriptions -/

theorem fixed_run (hr : Run (step c) (fun _ a => KeepsLists a ∧ KeepsSubs a) s s') :
    s'.subscribers = s.subscribers ∧ ∀ y k, s'.wants c y k ↔ s.wants c y k := by
  refine hr.invariant (I := fun t => t.subscribers = s.subscribers ∧ ∀ y k, t.wants c y k ↔ s.wants c y k) ?_
    ⟨rfl, fun _ _ => Iff.rfl⟩
  intro t a t' ⟨hl, hw⟩ ⟨hkl, hks⟩ hstep
  have ht := step_trans hstep
  exact ⟨(lists_kept ht hkl).1.trans hl, fun y k => (wants_same ht hks y k).trans (hw y k)⟩

theorem log_kept {a : Act B S} (ht : Trans c s a s') {e : Event B S} (he : e ∈ s.log) : e ∈ s'.log := by
  cases ht with
  | scanCallback | handle | publish | publishToCallback | publishToQueue => exact List.mem_append_left _ he
  | _ => exact he

/-! ## Building schedules -/

def NoExtra : Act B S → Prop
  | .acquireExtra _ => False
  | _ => True

def Plain (a : Act B S) : Prop := KeepsLists a ∧ KeepsSubs a ∧ NoExtra a

abbrev Leads (c : Cfg S) (s s' : Sys B S) : Prop := Run (step c) (fun _ a => Plain a) s s'

variable {s'' : Sys B S} {b : B} {x z n : S} {p : Pkt B} {ps : List (Pkt B)} {i : MsgId} {hd : Hdr}
variable {pre skip rest far : List S}

theorem Leads.work (h : Leads c s s') (ht : Trans c s' (.work b) s'') : Leads c s s'' :=
  .tail (.work b) h ⟨rfl, rfl, trivial⟩ ht.step

theorem Leads.svc (h : Leads c s s') (ht : Trans c s' (.svc x) s'') : Leads c s s'' :=
  .tail (.svc x) h ⟨rfl, rfl, trivial⟩ ht.step

theorem getMsgId_live {μ : Mem} {m : Msg} (hl : μ.life m = .live hd) : μ.getMsgId m = .ok hd.msgId := by
  rw [Mem.getMsgId, hl]

theorem acquireMsg_live {μ : Mem} {m : Msg} (hl : μ.life m = .live hd) (hlt : hd.refCnt < 255) :
    μ.acquireMsg m = .ok (μ.setLife m (.live { hd with refCnt := hd.refCnt + 1 })) := by
  rw [Mem.acquireMsg, hl]
  exact if_pos hlt

theorem releaseMsg_live {μ : Mem} {m : Msg} (k : Nat) (hl : μ.life m = .live hd) (h1 : 1 < hd.refCnt) :
    μ.releaseMsg k m = .ok (μ.setLife m (.live { hd with refCnt := hd.refCnt - 1 })) := by
  simp only [Mem.releaseMsg, hl, if_pos (show 0 < hd.refCnt by omega), if_neg (show ¬ hd.refCnt = 1 by omega)]

theorem setLife_back {μ : Mem} {m : Msg} (hl : μ.life m = .live hd) :
    (μ.setLife m (.live { hd with refCnt := hd.refCnt + 1 })).setLife m
        (.live { hd with refCnt := hd.refCnt + 1 - 1 }) =
      μ := by
  show { μ with life := update (update μ.life m _) m (.live hd) } = μ
  rw [← hl, update_idem, update_eq_self]

omit [DecidableEq B] in
theorem nextSub_split (hlink : Linked s) (hl : s.subscribers b = pre ++ x :: rest) : s.nextSub x = rest.head? := by
  have hn := hlink.nodup b
  rw [hl, List.nodup_append] at hn
  have hpre : x ∉ pre := fun hm => hn.2.2 x hm x (List.mem_cons_self ..) rfl
  rw [hlink.nextSub (by rw [hl]; simp), hl, after_append rest hpre]

theorem walks_to (pre skip rest : List S) (hlink : Linked s) (hl : s.subscribers b = pre ++ (skip ++ rest))
    (hskip : ∀ y ∈ skip, ¬ s.wants c y i) (hv : s.svc x = .walk p i b (skip ++ rest).head?) :
    Leads c s { s with svc := update s.svc x (.walk p i b rest.head?) } := by
  induction skip generalizing pre s with
  | nil =>
    have he : s.svc x = .walk p i b rest.head? := hv
    rw [← he, update_eq_self]
    exact .refl s
  | cons y skip ih =>
    have hnext : s.nextSub y = (skip ++ rest).head? := nextSub_split hlink hl
    have h₁ := Leads.svc (.refl s) (.walkSkip (c := c) hv (hskip y (List.mem_cons_self ..)))
    have h₂ := ih (s := { s with svc := update s.svc x (.walk p i b (s.nextSub y)) }) (pre ++ [y])
      ⟨hlink.nodup, hlink.mem_iff⟩ (by rw [List.append_assoc]; exact hl)
      (fun w hw => hskip w (List.mem_cons_of_mem y hw)) ((update_self ..).trans (by rw [hnext]))
    have h₃ := h₁.trans h₂
    simpa only [update_idem] using h₃

theorem scans_to (pre skip rest : List S) (hlink : Linked s) (hl : s.subscribers b = pre ++ (skip ++ rest))
    (hskip : ∀ y ∈ skip, ¬ s.wants c y i)
    (hw : s.work b = .scan p i (skip ++ rest).head? none) :
    Leads c s { s with work := update s.work b (.scan p i rest.head? none) } := by
  induction skip generalizing pre s with
  | nil =>
    have he : s.work b = .scan p i rest.head? none := hw
    rw [← he, update_eq_self]
    exact .refl s
  | cons y skip ih =>
    have hnext : s.nextSub y = (skip ++ rest).head? := nextSub_split hlink hl
    have h₁ := Leads.work (.refl s) (.scanSkip (c := c) hw (hskip y (List.mem_cons_self ..)))
    have h₂ := ih (s := { s with work := update s.work b (.scan p i (s.nextSub y) none) }) (pre ++ [y])
      ⟨hlink.nodup, hlink.mem_iff⟩ (by rw [List.append_assoc]; exact hl)
      (fun w hw => hskip w (List.mem_cons_of_mem y hw)) ((update_self ..).trans (by rw [hnext]))
    have h₃ := h₁.trans h₂
    rw [update_idem] at h₃
    exact h₃

/-- A FIFO subscriber takes the message in front of its FIFO and passes it on to
the next one that wants it, before its handler is called. -/
theorem passes_on (hlink : Linked s) (hl : s.subscribers b = pre ++ x :: (skip ++ n :: far))
    (hskip : ∀ y ∈ skip, ¬ s.wants c y i) (hrx : c.rxType x = .fifo) (hx : i ≤ c.maxPubMsgId x)
    (hrn : c.rxType n = .fifo) (hn : s.wants c n i) (hidle : s.svc x = .idle) (hq : s.queue x = p :: ps)
    (hmutex : s.mutex b = none) (hlive : s.mem.life p.msg = .live hd) (hi : hd.msgId = i) (hlt : hd.refCnt < 255) :
    Leads c s { s with
      mem := s.mem.setLife p.msg (.live { hd with refCnt := hd.refCnt + 1 })
      queue := update (update s.queue x ps) n (s.queue n ++ [p])
      svc := update s.svc x (.ready p i) } := by
  have hid : s.mem.getMsgId p.msg = .ok i := by rw [getMsgId_live hlive, hi]
  have hmem : x ∈ s.subscribers b := by rw [hl]; simp
  have hb : s.broker x = some b := ((hlink.mem_iff b x).mp hmem).2
  have hne : n ≠ x := by
    have hnd := hlink.nodup b
    rw [hl, List.nodup_append] at hnd
    intro he
    subst he
    exact (List.nodup_cons.mp hnd.2.1).1 (by simp)
  have hback : update s.mutex b none = s.mutex := by rw [← hmutex, update_eq_self]
  have h₁ := Leads.svc (.refl s) (.takeFifo hidle hrx hq hid)
  have h₂ := h₁.svc (.gotPublic (update_self ..) hx hb)
  have h₃ := h₂.svc (.svcLock (update_self ..) hmutex)
  have h₄ := h₃.trans (walks_to (i := i) (pre ++ [x]) skip (n :: far) ⟨hlink.nodup, hlink.mem_iff⟩
    (by rw [List.append_assoc]; exact hl) hskip ((update_self ..).trans (by
      show Svc.walk p i b (s.nextSub x) = _
      rw [nextSub_split hlink hl])))
  have h₅ := Leads.svc h₄ (.walkGive (update_self ..) hn hrn (acquireMsg_live hlive hlt))
  simp only [update_idem, update_of_ne hne, hback] at h₅
  exact h₅

theorem finishes (hv : s.svc x = .ready p i) (hlive : s.mem.life p.msg = .live hd) (h1 : 1 < hd.refCnt) :
    Leads c s { s with
      mem := s.mem.setLife p.msg (.live { hd with refCnt := hd.refCnt - 1 })
      svc := update s.svc x .idle
      log := s.log ++ [.handed x p] } := by
  have h₁ := Leads.svc (.refl s) (.handle (c := c) hv)
  have h₂ := h₁.svc (.svcRelease (update_self ..) (releaseMsg_live c.numAllocators hlive h1))
  simp only [update_idem] at h₂
  exact h₂

/-- Nobody is in a loop of broker `b`, and `p`, of message id `i`, has a count with room. -/
structure Movable (s : Sys B S) (b : B) (p : Pkt B) (i : MsgId) : Prop where
  linked : Linked s
  mutex : s.mutex b = none
  live : ∃ hd, s.mem.life p.msg = .live hd ∧ hd.msgId = i ∧ 0 < hd.refCnt ∧ hd.refCnt < 255

omit [DecidableEq B] [DecidableEq S] in
theorem Movable.of_fields (h : Movable s b p i) (hmem : s'.mem = s.mem) (hmutex : s'.mutex = s.mutex)
    (hl : s'.subscribers = s.subscribers) (ha : s'.admin = s.admin) (hb : s'.broker = s.broker) :
    Movable s' b p i := by
  obtain ⟨⟨hn, hm⟩, hx, hlive⟩ := h
  exact ⟨⟨by rwa [hl], by rwa [hl, ha, hb]⟩, by rwa [hmutex], by rwa [hmem]⟩

theorem relays (h : Movable s b p i) (hl : s.subscribers b = pre ++ x :: (skip ++ n :: far))
    (hskip : ∀ y ∈ skip, ¬ s.wants c y i) (hrx : c.rxType x = .fifo) (hx : i ≤ c.maxPubMsgId x)
    (hrn : c.rxType n = .fifo) (hn : s.wants c n i) (hidle : s.svc x = .idle) (hq : s.queue x = p :: ps) :
    Leads c s { s with
      queue := update (update s.queue x ps) n (s.queue n ++ [p])
      log := s.log ++ [.handed x p] } := by
  obtain ⟨hlink, hmutex, hd, hlive, hi, hpos, hlt⟩ := h
  have h₁ := passes_on hlink hl hskip hrx hx hrn hn hidle hq hmutex hlive hi hlt
  have h₂ := h₁.trans (finishes (update_self ..) (Mem.setLife_self ..) (Nat.succ_lt_succ hpos))
  simp only [update_idem] at h₂
  rw [show update s.svc x .idle = s.svc by rw [← hidle, update_eq_self]] at h₂
  rw [setLife_back hlive] at h₂
  exact h₂

theorem dispatches (h : Movable s b p i) (hl : s.subscribers b = skip ++ n :: far)
    (hskip : ∀ y ∈ skip, ¬ s.wants c y i)
    (hrn : c.rxType n = .fifo) (hn : s.wants c n i) (hw : s.work b = .get) (hf : s.fifo b = p :: ps) :
    Leads c s { s with
      fifo := update s.fifo b ps
      queue := update s.queue n (s.queue n ++ [p]) } := by
  obtain ⟨hlink, hmutex, hd, hlive, hi, hpos, hlt⟩ := h
  have hid : s.mem.getMsgId p.msg = .ok i := by rw [getMsgId_live hlive, hi]
  have hback : update s.mutex b none = s.mutex := by rw [← hmutex, update_eq_self]
  have h₁ := Leads.work (.refl s) (.workGet (c := c) hw hf hid)
  have h₂ := h₁.work (.workLock (update_self ..) hmutex)
  have h₃ := h₂.trans (scans_to (i := i) [] skip (n :: far) ⟨hlink.nodup, hlink.mem_iff⟩
    hl hskip ((update_self ..).trans (by rw [← hl])))
  have h₄ := Leads.work h₃ (.scanFifo (update_self ..) hn hrn (acquireMsg_live hlive hlt))
  have h₅ := h₄.work (.workRelease (update_self ..) (releaseMsg_live c.numAllocators (Mem.setLife_self ..)
    (Nat.succ_lt_succ hpos)))
  simp only [update_idem, hback] at h₅
  rw [show update s.work b .get = s.work by rw [← hw, update_eq_self]] at h₅
  rw [setLife_back hlive] at h₅
  exact h₅

omit [DecidableEq B] [DecidableEq S] in
theorem ne_behind (hlink : Linked s) (hl : s.subscribers b = pre ++ x :: rest) {y : S} (hy : y ∈ rest) : y ≠ x := by
  have hn := hlink.nodup b
  rw [hl, List.nodup_append] at hn
  intro he
  subst he
  exact (List.nodup_cons.mp hn.2.1).1 hy

/-- From `x` to `n`, every subscriber in between that wants the message handles it. -/
theorem relays_to {mid : List S} (pre skip : List S) (h : Movable s b p i)
    (hl : s.subscribers b = pre ++ x :: (skip ++ (mid ++ n :: far)))
    (hskip : ∀ y ∈ skip, ¬ s.wants c y i) (hfifo : ∀ y ∈ s.subscribers b, c.rxType y = .fifo) (hx : s.wants c x i)
    (hn : s.wants c n i) (hidle : s.svc x = .idle) (hq : s.queue x = [p])
    (hmid : ∀ y ∈ mid, s.wants c y i → s.svc y = .idle ∧ s.queue y = []) :
    ∃ evs, (∀ e ∈ evs, ∃ w ∈ x :: mid, e = .handed w p) ∧
      Leads c s { s with queue := update (update s.queue x []) n (s.queue n ++ [p]), log := s.log ++ evs } := by
  induction mid generalizing s x pre skip with
  | nil =>
    refine ⟨[.handed x p], ?_, ?_⟩
    · intro e he
      exact ⟨x, List.mem_cons_self .., List.mem_singleton.mp he⟩
    · exact relays h hl hskip (hfifo x (by rw [hl]; simp)) hx.1 (hfifo n (by rw [hl]; simp)) hn hidle hq
  | cons w mid ih =>
    by_cases hw : s.wants c w i
    · obtain ⟨hidlew, hqw⟩ := hmid w (List.mem_cons_self ..) hw
      have hwx : w ≠ x := ne_behind h.linked hl (by simp)
      have hnx : n ≠ x := ne_behind h.linked hl (by simp)
      have hl' : s.subscribers b = (pre ++ x :: skip) ++ w :: (mid ++ n :: far) := by rw [hl]; simp
      have hnw : n ≠ w := ne_behind h.linked hl' (by simp)
      have h₁ := relays (c := c) h hl hskip (hfifo x (by rw [hl]; simp)) hx.1 (hfifo w (by rw [hl]; simp)) hw hidle hq
      obtain ⟨evs, hevs, h₂⟩ := ih
        (s := { s with queue := update (update s.queue x []) w (s.queue w ++ [p]), log := s.log ++ [.handed x p] })
        (x := w) (pre ++ x :: skip) [] (h.of_fields rfl rfl rfl rfl rfl) hl' (by simp) hfifo hw hn hidlew
        ((update_self ..).trans (by rw [hqw]; rfl)) (by
          intro y hy hyw
          obtain ⟨hidley, hqy⟩ := hmid y (List.mem_cons_of_mem w hy) hyw
          have hyx : y ≠ x := ne_behind h.linked hl (by simp [hy])
          have hyw : y ≠ w := ne_behind h.linked hl' (by simp [hy])
          exact ⟨hidley, (update_of_ne hyw ..).trans ((update_of_ne hyx ..).trans hqy)⟩)
      refine ⟨.handed x p :: evs, ?_, ?_⟩
      · intro e he
        rcases List.mem_cons.mp he with rfl | he
        · exact ⟨x, List.mem_cons_self .., rfl⟩
        · obtain ⟨v, hv, rfl⟩ := hevs e he
          exact ⟨v, List.mem_cons_of_mem x hv, rfl⟩
      · have h₃ := h₁.trans h₂
        have hback : update (update s.queue x []) w [] = update s.queue x [] := by
          rw [update_eq_iff]
          exact ⟨by rw [update_of_ne hwx, hqw], fun _ _ => rfl⟩
        simp only [update_idem, update_of_ne hnw, update_of_ne hnx, hback, List.append_assoc] at h₃
        exact h₃
    · obtain ⟨evs, hevs, h₁⟩ := ih pre (skip ++ [w]) h (by rw [hl]; simp)
        (List.forall_mem_append.mpr ⟨hskip, List.forall_mem_singleton.mpr hw⟩) hfifo hx hn hidle hq
        fun y hy => hmid y (List.mem_cons_of_mem w hy)
      refine ⟨evs, fun e he => ?_, h₁⟩
      obtain ⟨v, hv, rfl⟩ := hevs e he
      exact ⟨v, (List.cons_subset_cons x (List.subset_cons_self w mid)) hv, rfl⟩

/-- The message in front of the publish FIFO gets to `n`, and is handled on the way
by whoever wants it. -/
theorem carries_to {mid : List S} (skip : List S) (h : Movable s b p i)
    (hl : s.subscribers b = skip ++ (mid ++ n :: far))
    (hskip : ∀ y ∈ skip, ¬ s.wants c y i) (hfifo : ∀ y ∈ s.subscribers b, c.rxType y = .fifo) (hn : s.wants c n i)
    (hw : s.work b = .get) (hf : s.fifo b = p :: ps)
    (hmid : ∀ y ∈ mid, s.wants c y i → s.svc y = .idle ∧ s.queue y = []) :
    ∃ evs, (∀ e ∈ evs, ∃ w ∈ mid, e = .handed w p) ∧
      Leads c s { s with
        fifo := update s.fifo b ps
        queue := update s.queue n (s.queue n ++ [p])
        log := s.log ++ evs } := by
  induction mid generalizing skip with
  | nil =>
    refine ⟨[], fun e he => absurd he List.not_mem_nil, ?_⟩
    rw [List.append_nil]
    exact dispatches h hl hskip (hfifo n (by rw [hl]; simp)) hn hw hf
  | cons w mid ih =>
    by_cases hwant : s.wants c w i
    · obtain ⟨hidle, hq⟩ := hmid w (List.mem_cons_self ..) hwant
      have hnw : n ≠ w := ne_behind h.linked hl (by simp)
      have h₁ := dispatches h hl hskip (hfifo w (by rw [hl]; simp)) hwant hw hf
      obtain ⟨evs, hevs, h₂⟩ := relays_to
        (s := { s with fifo := update s.fifo b ps, queue := update s.queue w (s.queue w ++ [p]) })
        (x := w) skip [] (h.of_fields rfl rfl rfl rfl rfl) hl (by simp) hfifo hwant hn hidle
        ((update_self ..).trans (by rw [hq]; rfl)) (by
          intro y hy hyw
          obtain ⟨hidley, hqy⟩ := hmid y (List.mem_cons_of_mem w hy) hyw
          have hyw : y ≠ w := ne_behind h.linked hl (by simp [hy])
          exact ⟨hidley, (update_of_ne hyw ..).trans hqy⟩)
      refine ⟨evs, hevs, ?_⟩
      have h₃ := h₁.trans h₂
      have hback : update s.queue w [] = s.queue := by rw [← hq, update_eq_self]
      simp only [update_idem, update_of_ne hnw, hback] at h₃
      exact h₃
    · obtain ⟨evs, hevs, h₁⟩ := ih (skip ++ [w]) (by rw [hl]; simp)
        (List.forall_mem_append.mpr ⟨hskip, List.forall_mem_singleton.mpr hwant⟩)
        fun y hy => hmid y (List.mem_cons_of_mem w hy)
      refine ⟨evs, fun e he => ?_, h₁⟩
      obtain ⟨v, hv, rfl⟩ := hevs e he
      exact ⟨v, List.mem_cons_of_mem w hv, rfl⟩

theorem handles (h : Movable s b p i) (hl : s.subscribers b = pre ++ x :: rest)
    (hfifo : ∀ y ∈ s.subscribers b, c.rxType y = .fifo) (hx : i ≤ c.maxPubMsgId x) (hidle : s.svc x = .idle)
    (hq : s.queue x = p :: ps) : ∃ s', Leads c s s' ∧ s'.log = s.log ++ [.handed x p] := by
  have hmem : x ∈ s.subscribers b := by rw [hl]; simp
  have ready : ∃ s', Leads c s s' ∧ s'.svc x = .ready p i ∧ s'.log = s.log := by
    obtain ⟨hlink, hmutex, hd, hlive, hi, hpos, hlt⟩ := h
    cases hfind : rest.find? (fun y => decide (s.wants c y i)) with
    | some n =>
      obtain ⟨hn, skip, far, he, hskip⟩ := List.find?_eq_some_iff_append.mp hfind
      rw [he] at hl
      refine ⟨_, passes_on hlink hl (fun y hy => by simpa using hskip y hy) (hfifo x hmem) hx
        (hfifo n (by rw [hl]; simp)) (of_decide_eq_true hn) hidle hq hmutex hlive hi hlt, update_self .., rfl⟩
    | none =>
      have hid : s.mem.getMsgId p.msg = .ok i := by rw [getMsgId_live hlive, hi]
      have hskip : ∀ y ∈ rest, ¬ s.wants c y i := fun y hy => by simpa using List.find?_eq_none.mp hfind y hy
      have h₁ := Leads.svc (.refl s) (.takeFifo hidle (hfifo x hmem) hq hid)
      have h₂ := h₁.svc (.gotPublic (update_self ..) hx ((hlink.mem_iff b x).mp hmem).2)
      have h₃ := h₂.svc (.svcLock (update_self ..) hmutex)
      have h₄ := h₃.trans (walks_to (i := i) (pre ++ [x]) rest []
        ⟨hlink.nodup, hlink.mem_iff⟩ (by rw [List.append_assoc, List.append_nil]; exact hl) hskip
        ((update_self ..).trans (by
          show Svc.walk p i b (s.nextSub x) = _
          rw [nextSub_split hlink hl, List.append_nil])))
      exact ⟨_, Leads.svc h₄ (.walkEnd (update_self ..)), update_self .., rfl⟩
  obtain ⟨s', hr, hv, hlog⟩ := ready
  exact ⟨_, hr.svc (.handle hv), by rw [← hlog]⟩

theorem publishes {m : Msg} (b : B) (i : MsgId) (hlife : s.mem.life m = .unused) (howned : s.mem.owned m = false) :
    Leads c s { s with
      mem := s.mem.setLife m (.live ⟨i, allocIdStaticMsg, 1⟩)
      fifo := update s.fifo b (s.fifo b ++ [⟨m, s.nextTag, some b⟩])
      work := update s.work b (wake (s.work b))
      nextTag := s.nextTag + 1
      log := s.log ++ [.published ⟨m, s.nextTag, some b⟩] } := by
  have h₁ : Leads c s { s with mem := s.mem.setLife m (.live ⟨i, allocIdStaticMsg, 0⟩) } :=
    .tail (.staticMsgInit m i allocIdStaticMsg) (.refl s) ⟨rfl, rfl, trivial⟩
      (Trans.mem (.staticMsgInit (if_pos ⟨hlife, Or.inl rfl⟩))).step
  have h₂ := Run.tail (Act.acquireStatic m) h₁ ⟨rfl, rfl, trivial⟩
    (Trans.mem (.acquireStatic (Mem.setLife_self ..) (Or.inl rfl) rfl
      (acquireMsg_live (Mem.setLife_self ..) (show 0 < 255 by decide)))).step
  have h₃ := Run.tail (Act.publish b m) h₂ ⟨rfl, rfl, trivial⟩ (Trans.publish (update_self ..)).step
  simp only [Mem.transfer, Mem.setLife, update_idem] at h₃
  rw [show update s.mem.owned m false = s.mem.owned by rw [← howned, update_eq_self]] at h₃
  exact h₃

end

end ZephyrPubSub
