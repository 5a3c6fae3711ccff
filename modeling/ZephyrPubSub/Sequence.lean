import ZephyrPubSub.Delivery

/-!
# The sequence a callback or msgq subscriber sees

With fixed lists and subscriptions, what a subscriber in front of the FIFO
subscribers has been handed, is about to be handed and has in its msgq is the
published sequence up to where the dispatch is, filtered by its subscriptions.
-/

namespace ZephyrPubSub

open Lists Function Runs

section
variable {B S : Type} [DecidableEq B]

def Event.publishedTo (b : B) : Event B S → Option (Pkt B)
  | .published p => if p.src = some b then some p else none
  | _ => none

/-- What has been published to the broker, in the order of the `k_fifo_put`s. -/
def pubSeq (l : List (Event B S)) (b : B) : List (Pkt B) := l.filterMap (Event.publishedTo b)

def fromBroker (b : B) (p : Pkt B) : Bool := p.src = some b

variable [DecidableEq S]

def Event.handedTo (b : B) (x : S) : Event B S → Option (Pkt B)
  | .handed y p => if y = x ∧ p.src = some b then some p else none
  | _ => none

def handedSeq (l : List (Event B S)) (b : B) (x : S) : List (Pkt B) := l.filterMap (Event.handedTo b x)

/-- Dequeued from the msgq, the handler is about to be called. -/
def Svc.inHand (b : B) : Svc B S → List (Pkt B)
  | .ready p _ => if p.src = some b then [p] else []
  | _ => []

def Work.blockedOn (x : S) : Work B S → List (Pkt B)
  | .put p _ y _ => if y = x then [p] else []
  | _ => []

/-- Everything on its way to the subscriber's handler, oldest first. -/
def stream (s : Sys B S) (b : B) (x : S) : List (Pkt B) :=
  handedSeq s.log b x ++ (s.svc x).inHand b ++ (s.queue x).filter (fromBroker b) ++ (s.work b).blockedOn x

def taken (s : Sys B S) (b : B) : List (Pkt B) :=
  (pubSeq s.log b).take ((pubSeq s.log b).length - (s.fifo b).length)

/-- The subscribers the dispatch in progress has still to come to. -/
def Work.ahead (list : List S) : Work B S → List S
  | .lock .. => list
  | .scan _ _ sub _ => fromPtr list sub
  | .put _ _ x _ => after x list
  | _ => []

def reached (s : Sys B S) (b : B) (x : S) : List (Pkt B) :=
  if x ∈ (s.work b).ahead (s.subscribers b) then (taken s b).dropLast else taken s b

/-- The message in the list loop, or on its way to it. -/
def Work.current : Work B S → Option (Pkt B)
  | .lock p _ | .scan p _ _ _ | .put p _ _ _ => some p
  | _ => none

omit [DecidableEq B] [DecidableEq S] in
theorem wake_current (w : Work B S) : (wake w).current = w.current := by
  cases w <;> rfl

omit [DecidableEq B] in
theorem wake_ahead (l : List S) (w : Work B S) : (wake w).ahead l = w.ahead l := by
  cases w <;> rfl

def takes (c : Cfg S) (s : Sys B S) (x : S) (p : Pkt B) : Bool := s.wants c x (s.mem.idOf p.msg)

def Act.keepsSubs : Act B S → Bool
  | .subscribe .. | .unsubscribe .. => false
  | _ => true

def KeepsSubs (a : Act B S) : Prop := a.keepsSubs = true

instance (a : Act B S) : Decidable (KeepsSubs a) := inferInstanceAs (Decidable (_ = true))

variable {c : Cfg S} {s s' : Sys B S} {b : B} {x : S} {t : List (Pkt B)}

omit [DecidableEq S] in
theorem pubSeq_append (l k : List (Event B S)) (b : B) : pubSeq (l ++ k) b = pubSeq l b ++ pubSeq k b :=
  List.filterMap_append ..

theorem handedSeq_append (l k : List (Event B S)) (b : B) (x : S) :
    handedSeq (l ++ k) b x = handedSeq l b x ++ handedSeq k b x :=
  List.filterMap_append ..

omit [DecidableEq S] in
theorem published_of_mem {l : List (Event B S)} {p : Pkt B} (h : p ∈ pubSeq l b) :
    .published p ∈ l ∧ p.src = some b := by
  obtain ⟨e, he, hp⟩ := List.mem_filterMap.mp h
  cases e with
  | published q =>
    simp only [Event.publishedTo] at hp
    split at hp
    · cases hp; exact ⟨he, ‹_›⟩
    · cases hp
  | handed y q => cases hp

theorem handedSeq_published (p : Pkt B) : handedSeq [.published p] b x = ([] : List (Pkt B)) := rfl

theorem handedSeq_ne {y : S} {p : Pkt B} (h : y ≠ x ∨ p.src ≠ some b) : handedSeq [.handed y p] b x = [] := by
  have : ¬ (y = x ∧ p.src = some b) := fun hc => h.elim (fun h => h hc.1) fun h => h hc.2
  simp [handedSeq, Event.handedTo, this]

theorem handedSeq_self {p : Pkt B} (h : p.src = some b) : handedSeq [.handed x p] b x = [p] := by
  simp [handedSeq, Event.handedTo, h]

/-- The stream of `x` is the subscribed part of what the dispatch has reached it with; `t` is what has been taken. -/
structure InStep (c : Cfg S) (s : Sys B S) (b : B) (x : S) (t : List (Pkt B)) : Prop where
  pub : pubSeq s.log b = t ++ s.fifo b
  current : ∀ p, (s.work b).current = some p → ∃ front, t = front ++ [p]
  eq : stream s b x =
    (if x ∈ (s.work b).ahead (s.subscribers b) then t.dropLast else t).filter (takes c s x)

theorem InStep.taken (h : InStep c s b x t) : taken s b = t := by
  rw [ZephyrPubSub.taken, h.pub, List.length_append, Nat.add_sub_cancel, List.take_left']
  rfl

theorem wants_same {a : Act B S} (ht : Trans c s a s') (hk : KeepsSubs a) (x : S) (i : MsgId) :
    s'.wants c x i ↔ s.wants c x i := by
  have hsubs : s'.subs = s.subs := by
    cases ht with
    | subscribe | unsubscribe => exact absurd hk Bool.false_ne_true
    | _ => rfl
  unfold Sys.wants
  rw [hsubs]

theorem takes_same {a : Act B S} (hc : Carried c s) (ht : Trans c s a s') (hk : KeepsSubs a) {p : Pkt B}
    (hp : .published p ∈ s.log) : takes c s' x p = takes c s x p := by
  have hid : s'.mem.idOf p.msg = s.mem.idOf p.msg := (trans_later ht).id (hc.log _ hp)
  refine decide_eq_decide.mpr ?_
  rw [wants_same ht hk, hid]

theorem InStep.filter_same {a : Act B S} (h : InStep c s b x t) (hc : Carried c s) (ht : Trans c s a s')
    (hk : KeepsSubs a) {l : List (Pkt B)} (hl : ∀ p ∈ l, p ∈ t) :
    l.filter (takes c s' x) = l.filter (takes c s x) := by
  refine List.filter_congr fun p hp => takes_same hc ht hk ?_
  exact (published_of_mem (b := b) (by rw [h.pub]; exact List.mem_append_left _ (hl p hp))).1

omit [DecidableEq B] in
theorem mem_reached {P : Prop} [Decidable P] {t : List (Pkt B)} {p : Pkt B} (hp : p ∈ if P then t.dropLast else t) :
    p ∈ t := by
  split at hp
  · exact List.dropLast_subset t hp
  · exact hp

theorem InStep.keep {a : Act B S} (h : InStep c s b x t) (hc : Carried c s) (ht : Trans c s a s') (hk : KeepsSubs a)
    (hp : pubSeq s'.log b = t ++ s'.fifo b)
    (hcur : (s'.work b).current = (s.work b).current ∨ (s'.work b).current = none)
    (hs : stream s' b x = stream s b x)
    (ha : x ∈ (s'.work b).ahead (s'.subscribers b) ↔ x ∈ (s.work b).ahead (s.subscribers b)) :
    InStep c s' b x t := by
  refine ⟨hp, fun p hp => ?_, ?_⟩
  · rcases hcur with hcur | hcur
    · exact h.current p (hcur ▸ hp)
    · rw [hcur] at hp; cases hp
  · rw [hs, h.eq, h.filter_same hc ht hk fun p hp => mem_reached hp]
    simp only [ha]

theorem InStep.pass {a : Act B S} (h : InStep c s b x t) (hc : Carried c s) (ht : Trans c s a s') (hk : KeepsSubs a)
    {p : Pkt B} (hp : pubSeq s'.log b = t ++ s'.fifo b) (hcur : (s.work b).current = some p)
    (hcur' : (s'.work b).current = some p)
    (hs : stream s' b x = stream s b x ++ if takes c s x p then [p] else [])
    (ha : x ∈ (s.work b).ahead (s.subscribers b)) (ha' : x ∉ (s'.work b).ahead (s'.subscribers b)) :
    InStep c s' b x t := by
  obtain ⟨front, rfl⟩ := h.current p hcur
  refine ⟨hp, fun q hq => ?_, ?_⟩
  · rw [hcur'] at hq; cases hq; exact ⟨front, rfl⟩
  · rw [hs, h.eq, if_pos ha, if_neg ha', h.filter_same hc ht hk fun q hq => hq, List.dropLast_concat,
      List.filter_append, List.filter_singleton]
    cases takes c s x p <;> rfl

omit [DecidableEq B] [DecidableEq S] in
theorem svc_msgq (hc : Carried c s) (hx : c.rxType x ≠ .fifo) (hcb : c.rxType x = .callback) : s.svc x = .idle := by
  have hv := hc.svc x
  cases hvx : s.svc x with
  | idle => rfl
  | got p id => rw [hvx] at hv; exact absurd hv.2.2 hx
  | lock p id b => rw [hvx] at hv; exact absurd hv.2.2.1 hx
  | walk p id b n => rw [hvx] at hv; exact absurd hv.2.2.1 hx
  | ready p id => rw [hvx] at hv; exact absurd hcb hv.1.2.2
  | running p => rw [hvx] at hv; exact absurd hcb hv.2.2

omit [DecidableEq B] [DecidableEq S] in
theorem queue_callback (hc : Carried c s) (hcb : c.rxType x = .callback) : s.queue x = [] := by
  cases hq : s.queue x with
  | nil => rfl
  | cons p ps => exact absurd hcb (hc.queue x p (by rw [hq]; exact List.mem_cons_self ..)).2.2

omit [DecidableEq B] in
theorem blocked_callback (hc : Carried c s) (hcb : c.rxType x = .callback) : (s.work b).blockedOn x = [] := by
  have hw := hc.work b
  cases hwb : s.work b with
  | put p id y tmp =>
    rw [hwb] at hw
    have hrx := hw.2.2.2
    have hyx : y ≠ x := fun e => by rw [e, hcb] at hrx; cases hrx
    simp [Work.blockedOn, hyx]
  | _ => rfl

theorem stream_callback (hc : Carried c s) (hcb : c.rxType x = .callback) : stream s b x = handedSeq s.log b x := by
  rw [stream, svc_msgq hc (by simp [hcb]) hcb, queue_callback hc hcb, blocked_callback hc hcb]
  simp [Svc.inHand]

/-! ## One step -/

theorem stream_same (hl : handedSeq s'.log b x = handedSeq s.log b x) (hv : (s'.svc x).inHand b = (s.svc x).inHand b)
    (hq : (s'.queue x).filter (fromBroker b) = (s.queue x).filter (fromBroker b))
    (hw : (s'.work b).blockedOn x = (s.work b).blockedOn x) : stream s' b x = stream s b x := by
  rw [stream, stream, hl, hv, hq, hw]

theorem handed_push {y : S} {p : Pkt B} (h : y ≠ x ∨ p.src ≠ some b) (l : List (Event B S)) :
    handedSeq (l ++ [.handed y p]) b x = handedSeq l b x := by
  rw [handedSeq_append, handedSeq_ne h, List.append_nil]

omit [DecidableEq S] in
theorem pub_handed {y : S} {p : Pkt B} (l : List (Event B S)) : pubSeq (l ++ [.handed y p]) b = pubSeq l b := by
  rw [pubSeq_append]
  exact List.append_nil _

omit [DecidableEq B] in
theorem filter_push_ne {y : S} {p : Pkt B} (h : x ≠ y) (f : Pkt B → Bool) :
    (update s.queue y (s.queue y ++ [p]) x).filter f = (s.queue x).filter f := by
  rw [update_of_ne h]

theorem InStep.work_keep {a : Act B S} {b₁ : B} {w : Work B S} (h : InStep c s b x t) (hc : Carried c s)
    (ht : Trans c s a s') (hk : KeepsSubs a) (he : s'.work = update s.work b₁ w) (hlog : s'.log = s.log)
    (hf : s'.fifo = s.fifo) (hq : s'.queue = s.queue) (hv : s'.svc = s.svc) (hl : s'.subscribers = s.subscribers)
    (hcur : w.current = (s.work b₁).current ∨ w.current = none)
    (hb : w.blockedOn x = (s.work b₁).blockedOn x)
    (ha : b₁ = b → (x ∈ w.ahead (s.subscribers b) ↔ x ∈ (s.work b).ahead (s.subscribers b))) : InStep c s' b x t := by
  refine h.keep hc ht hk (by rw [hlog, hf]; exact h.pub) ?_ ?_ ?_
  · rw [he]
    by_cases hbb : b = b₁
    · subst hbb; rwa [update_self]
    · rw [update_of_ne hbb]; exact Or.inl rfl
  · refine stream_same (by rw [hlog]) (by rw [hv]) (by rw [hq]) ?_
    rw [he]
    exact update_view (f := Work.blockedOn x) hb b
  · rw [he, hl]
    by_cases hbb : b = b₁
    · subst hbb; rw [update_self]; exact ha rfl
    · rw [update_of_ne hbb]

theorem InStep.svc_keep {a : Act B S} (h : InStep c s b x t) (hc : Carried c s) (ht : Trans c s a s')
    (hk : KeepsSubs a) (hw : s'.work = s.work) (hf : s'.fifo = s.fifo) (hl : s'.subscribers = s.subscribers)
    (hlog : pubSeq s'.log b = pubSeq s.log b) (hs : stream s' b x = stream s b x) : InStep c s' b x t :=
  h.keep hc ht hk (by rw [hlog, hf]; exact h.pub) (Or.inl (by rw [hw])) hs (by rw [hw, hl])

omit [DecidableEq B] [DecidableEq S] in
theorem takes_of_wants {p : Pkt B} {id : MsgId} (hid : id = s.mem.idOf p.msg) (h : s.wants c x id) :
    takes c s x p = true := by
  rw [hid] at h
  exact decide_eq_true h

omit [DecidableEq B] [DecidableEq S] in
theorem not_takes {p : Pkt B} {id : MsgId} (hid : id = s.mem.idOf p.msg) (h : ¬ s.wants c x id) :
    takes c s x p = false := by
  rw [hid] at h
  exact decide_eq_false h

omit [DecidableEq S] in
theorem other_thread {y : S} (hx : c.rxType x ≠ .fifo) (hy : c.rxType y = .fifo) : x ≠ y := by
  rintro rfl
  exact hx hy

section
variable {p : Pkt B} {ps : List (Pkt B)} {id : MsgId} {y : S} {b₁ : B} {call : Option S}

theorem InStep.workGet (h : InStep c s b x t) (hc : Carried c s) (hx : x ∈ s.subscribers b) (hw : s.work b₁ = .get)
    (hf : s.fifo b₁ = p :: ps) (hid : s.mem.getMsgId p.msg = .ok id) :
    ∃ t', InStep c { s with fifo := update s.fifo b₁ ps, work := update s.work b₁ (.lock p id) } b x t' := by
  by_cases hb : b = b₁
  · subst hb
    -- the message is taken, the dispatch has still to come to everybody
    refine ⟨t ++ [p], ?_, ?_, ?_⟩
    · simp [h.pub, hf]
    · simp [Work.current]
    · have h' := h.eq
      rw [hw] at h'
      simp only [update_self, Work.ahead, if_pos hx, List.dropLast_concat]
      rw [if_neg (by simp [Work.ahead])] at h'
      exact Eq.trans (b := stream s b x) (stream_same rfl rfl rfl (by simp [hw, Work.blockedOn])) h'
  · refine ⟨t, h.keep hc (.workGet hw hf hid) rfl ?_ (Or.inl (by simp [hb]))
      (stream_same rfl rfl rfl (by simp [hb])) (by simp [hb])⟩
    simp only [update_of_ne hb]
    exact h.pub

theorem InStep.scanSkip (h : InStep c s b x t) (hs : Sound c s) (hw : s.work b₁ = .scan p id (some y) call)
    (hy : ¬ s.wants c y id) :
    InStep c { s with work := update s.work b₁ (.scan p id (s.nextSub y) none) } b x t := by
  have hc := hs.carried
  have hn := hs.wf.linked.nodup b
  have ht := Trans.scanSkip hw hy
  have hwork : (b₁ = b → (x ∈ (Work.scan p id (s.nextSub y) none).ahead (s.subscribers b) ↔
      x ∈ (s.work b).ahead (s.subscribers b))) → InStep c _ b x t :=
    h.work_keep hc ht rfl rfl rfl rfl rfl rfl rfl (Or.inl (by rw [hw]; rfl)) (by rw [hw]; rfl)
  by_cases hb : b = b₁
  · subst hb
    by_cases hyx : y = x
    · subst hyx
      refine h.pass hc ht rfl h.pub (by rw [hw]; rfl) (by simp [Work.current]) ?_ ?_ ?_
      · rw [not_takes (hc.work_at hw).2 hy]
        simp [stream, hw, Work.blockedOn]
      · rw [hw]; exact List.mem_cons_self ..
      · simp only [update_self, Work.ahead, hs.placed.scan_next hs.wf hw, fromPtr_head _ hn]
        exact not_mem_after_self hn
    · refine hwork fun _ => ?_
      rw [hw]
      simp only [Work.ahead, hs.placed.scan_next hs.wf hw, fromPtr_head _ hn, mem_fromPtr_some, Ne.symm hyx, false_or]
  · exact hwork fun e => absurd e.symm hb

theorem InStep.scanCallback (h : InStep c s b x t) (hs : Sound c s) (hw : s.work b₁ = .scan p id (some y) call)
    (hy : s.wants c y id) (hcb : c.rxType y = .callback) :
    InStep c { s with
      log := s.log ++ [.handed y p]
      work := update s.work b₁ (.scan p id (s.nextSub y) (some y)) } b x t := by
  have hc := hs.carried
  have hn := hs.wf.linked.nodup b
  have ht := Trans.scanCallback hw hy hcb
  obtain ⟨hp, hid⟩ := hc.work_at hw
  by_cases hb : b = b₁
  · subst hb
    by_cases hyx : y = x
    · subst hyx
      refine h.pass hc ht rfl (by rw [pub_handed]; exact h.pub) (by rw [hw]; rfl) (by simp [Work.current]) ?_ ?_ ?_
      · rw [stream_callback hc hcb, stream_callback (hc.trans ht) hcb, handedSeq_append, handedSeq_self hp.2,
          takes_of_wants hid hy, if_pos rfl]
      · rw [hw]; exact List.mem_cons_self ..
      · simp only [update_self, Work.ahead, hs.placed.scan_next hs.wf hw, fromPtr_head _ hn]
        exact not_mem_after_self hn
    · refine h.keep hc ht rfl (by rw [pub_handed]; exact h.pub) (Or.inl (by rw [hw]; simp [Work.current])) ?_ ?_
      · exact stream_same (handed_push (Or.inl hyx) s.log) rfl rfl (by simp [hw, Work.blockedOn])
      · rw [hw]
        simp only [update_self, Work.ahead, hs.placed.scan_next hs.wf hw, fromPtr_head _ hn, mem_fromPtr_some,
          Ne.symm hyx, false_or]
  · have hsrc : p.src ≠ some b := fun e => hb (hp.broker e).symm
    exact h.keep hc ht rfl (by rw [pub_handed]; exact h.pub) (Or.inl (by simp [hb]))
      (stream_same (handed_push (Or.inr hsrc) s.log) rfl rfl (by simp [hb])) (by simp [hb])

theorem InStep.scanMsgq (h : InStep c s b x t) (hs : Sound c s) {μ : Mem} (hw : s.work b₁ = .scan p id (some y) call)
    (hy : s.wants c y id) (hq : c.rxType y = .msgq) (hμ : s.mem.acquireMsg p.msg = .ok μ) :
    InStep c { s with mem := μ, work := update s.work b₁ (.put p id y (s.nextSub y)) } b x t := by
  have hc := hs.carried
  have hn := hs.wf.linked.nodup b
  have ht := Trans.scanMsgq hw hy hq hμ
  by_cases hb : b = b₁
  · subst hb
    by_cases hyx : y = x
    · subst hyx
      refine h.pass hc ht rfl h.pub (by rw [hw]; rfl) (by simp [Work.current]) ?_ ?_ ?_
      · rw [takes_of_wants (hc.work_at hw).2 hy, if_pos rfl]
        simp [stream, hw, Work.blockedOn]
      · rw [hw]; exact List.mem_cons_self ..
      · simp only [update_self, Work.ahead]
        exact not_mem_after_self hn
    · refine h.work_keep hc ht rfl rfl rfl rfl rfl rfl rfl (Or.inl (by rw [hw]; rfl))
        (by simp [hw, Work.blockedOn, hyx]) fun _ => ?_
      rw [hw]
      simp only [Work.ahead, mem_fromPtr_some, Ne.symm hyx, false_or]
  · exact h.keep hc ht rfl h.pub (Or.inl (by simp [hb])) (stream_same rfl rfl rfl (by simp [hb])) (by simp [hb])

theorem InStep.scanFifo (h : InStep c s b x t) (hc : Carried c s) (htail : FifoTail c s) {μ : Mem}
    (hrx : c.rxType x ≠ .fifo) (hw : s.work b₁ = .scan p id (some y) call) (hy : s.wants c y id)
    (hq : c.rxType y = .fifo) (hμ : s.mem.acquireMsg p.msg = .ok μ) :
    InStep c { s with
      mem := μ
      queue := update s.queue y (s.queue y ++ [p])
      mutex := update s.mutex b₁ none
      work := update s.work b₁ (.release p) } b x t := by
  have hyx := other_thread hrx hq
  refine h.keep hc (.scanFifo hw hy hq hμ) rfl h.pub ?_ ?_ ?_
  · by_cases hb : b = b₁
    · subst hb; exact Or.inr (by simp [Work.current])
    · exact Or.inl (by simp [hb])
  · refine stream_same rfl rfl (filter_push_ne hyx _) (update_view (f := Work.blockedOn x) ?_ b)
    rw [hw]; rfl
  · by_cases hb : b = b₁
    · subst hb
      -- all subscribers behind a FIFO subscriber are FIFO subscribers
      have : x ∉ fromPtr (s.subscribers b) (some y) := by
        intro hm
        rcases List.mem_cons.mp hm with e | hm
        · exact hyx e
        · exact hrx ((htail.lists b).of_after c.rxType hq hm)
      rw [hw]
      simp only [update_self, Work.ahead, List.not_mem_nil, false_iff]
      exact this
    · simp [hb]

theorem InStep.put (h : InStep c s b x t) (hs : Sound c s) {tmp : Option S} (hw : s.work b₁ = .put p id y tmp)
    (hr : (s.queue y).length < c.maxMsgs y) :
    InStep c { s with
      queue := update s.queue y (s.queue y ++ [p])
      work := update s.work b₁ (.scan p id tmp none) } b x t := by
  have hc := hs.carried
  have hp := (hc.work_at hw).1
  have ht := Trans.put hw hr
  by_cases hb : b = b₁
  · subst hb
    refine h.keep hc ht rfl h.pub (Or.inl (by rw [hw]; simp [Work.current])) ?_ ?_
    · by_cases hyx : y = x
      · subst hyx
        simp [stream, hw, Work.blockedOn, fromBroker, hp.2]
      · exact stream_same rfl rfl (filter_push_ne (Ne.symm hyx) _) (by simp [hw, Work.blockedOn, hyx])
    · rw [hw]
      simp only [update_self, Work.ahead, hs.placed.put b p id y tmp hw, fromPtr_head _ (hs.wf.linked.nodup b)]
  · have hsrc : p.src ≠ some b := fun e => hb (hp.broker e).symm
    refine h.keep hc ht rfl h.pub (Or.inl (by simp [hb])) (stream_same rfl rfl ?_ (by simp [hb])) (by simp [hb])
    by_cases hyx : x = y
    · subst hyx; simp [fromBroker, hsrc]
    · exact filter_push_ne hyx _

theorem stream_takeMsgq (hv : s.svc y = .idle) (hq : s.queue y = p :: ps) :
    stream { s with queue := update s.queue y ps, svc := update s.svc y (.ready p id) } b x = stream s b x := by
  by_cases hyx : x = y
  · subst hyx
    simp only [stream, update_self, hv, hq, Svc.inHand, List.append_nil, List.filter_cons, fromBroker]
    by_cases hsrc : p.src = some b <;> simp [hsrc]
  · exact stream_same rfl (by simp [hyx]) (by simp [hyx]) rfl

theorem stream_handle (hv : s.svc y = .ready p id) :
    stream { s with log := s.log ++ [.handed y p], svc := update s.svc y (.running p) } b x = stream s b x := by
  by_cases hyx : x = y
  · subst hyx
    by_cases hsrc : p.src = some b
    · simp [stream, handedSeq_append, handedSeq_self hsrc, hv, Svc.inHand, hsrc]
    · simp [stream, handedSeq_append, handedSeq_ne (Or.inr hsrc), hv, Svc.inHand, hsrc]
  · exact stream_same (handed_push (Or.inl (Ne.symm hyx)) _) (by simp [hyx]) rfl rfl

end

/-- A step of a broker's work item. -/
theorem InStep.work_trans (h : InStep c s b x t) (hs : Sound c s) (htail : FifoTail c s) {b₁ : B}
    (ht : Trans c s (.work b₁) s') (hx : x ∈ s.subscribers b) (hrx : c.rxType x ≠ .fifo) :
    ∃ t', InStep c s' b x t' := by
  have hc := hs.carried
  have hwork := fun {w : Work B S} (he : s'.work = update s.work b₁ w) => h.work_keep hc ht rfl he
  cases ht with
  | workQueued hw | workGetNone hw _ | scanEnd hw | workRelease hw _ | workReset hw =>
    refine ⟨t, hwork rfl rfl rfl rfl rfl rfl (Or.inr rfl) (by rw [hw]; rfl) fun e => ?_⟩
    subst e
    rw [hw]
    rfl
  | workSubmit hw =>
    refine ⟨t, hwork rfl rfl rfl rfl rfl rfl (Or.inr (by split <;> rfl)) (by rw [hw]; split <;> rfl) fun e => ?_⟩
    subst e
    rw [hw]
    split <;> rfl
  | workLock hw _ =>
    refine ⟨t, hwork rfl rfl rfl rfl rfl rfl (Or.inl (by rw [hw]; rfl)) (by rw [hw]; rfl) fun e => ?_⟩
    subst e
    rw [hw]
    simp only [Work.ahead, fromPtr_head_self]
  | workGet hw hf hid => exact h.workGet hc hx hw hf hid
  | scanSkip hw hy => exact ⟨t, h.scanSkip hs hw hy⟩
  | scanCallback hw hy hcb => exact ⟨t, h.scanCallback hs hw hy hcb⟩
  | scanMsgq hw hy hq hμ => exact ⟨t, h.scanMsgq hs hw hy hq hμ⟩
  | scanFifo hw hy hq hμ => exact ⟨t, h.scanFifo hc htail hrx hw hy hq hμ⟩
  | put hw hr => exact ⟨t, h.put hs hw hr⟩
  | mem hμ => cases hμ

/-- A step of a subscriber's thread. -/
theorem InStep.svc_trans (h : InStep c s b x t) (hc : Carried c s) {y : S} (ht : Trans c s (.svc y) s')
    (hrx : c.rxType x ≠ .fifo) : InStep c s' b x t := by
  have hsvc := h.svc_keep hc ht rfl
  cases ht with
  | takeMsgq hv _ hq _ => exact hsvc rfl rfl rfl rfl (stream_takeMsgq hv hq)
  | takeFifo _ hq _ _ =>
    have hyx := other_thread hrx hq
    exact hsvc rfl rfl rfl rfl (stream_same rfl (by simp [hyx]) (by simp [hyx]) rfl)
  | gotPublic hv _ _ | gotPrivate hv _ =>
    have hyx := other_thread hrx (hc.svc_at hv).2.2
    exact hsvc rfl rfl rfl rfl (stream_same rfl (by simp [hyx]) rfl rfl)
  | svcLock hv _ | walkEnd hv | walkSkip hv _ =>
    have hyx := other_thread hrx (hc.svc_at hv).2.2.1
    exact hsvc rfl rfl rfl rfl (stream_same rfl (by simp [hyx]) rfl rfl)
  | walkGive hv _ hrn _ =>
    have hyx := other_thread hrx (hc.svc_at hv).2.2.1
    have hnx := other_thread hrx hrn
    exact hsvc rfl rfl rfl rfl (stream_same rfl (by simp [hyx]) (filter_push_ne hnx _) rfl)
  | handle hv => exact hsvc rfl rfl rfl (pub_handed _) (stream_handle hv)
  | svcRelease hv _ =>
    refine hsvc rfl rfl rfl rfl (stream_same rfl ?_ rfl rfl)
    exact update_view (f := Svc.inHand b) (by rw [hv]; rfl) x
  | mem hμ => cases hμ

theorem InStep.trans {a : Act B S} (h : InStep c s b x t) (hs : Sound c s) (htail : FifoTail c s)
    (ht : Trans c s a s') (hl : KeepsLists a) (hk : KeepsSubs a) (hx : x ∈ s.subscribers b)
    (hrx : c.rxType x ≠ .fifo) : ∃ t', InStep c s' b x t' := by
  have hkeep := h.keep hs.carried ht hk
  cases a with
  | work b₁ => exact h.work_trans hs htail ht hx hrx
  | svc y => exact ⟨t, h.svc_trans hs.carried ht hrx⟩
  | publish b₁ m =>
    cases ht with
    | mem hμ => cases hμ
    | publish =>
      have hblock : ∀ w : Work B S, (wake w).blockedOn x = w.blockedOn x := fun w => by cases w <;> rfl
      refine ⟨t, hkeep ?_ (Or.inl (update_view (f := Work.current) (wake_current _) b)) (stream_same ?_ rfl rfl
        (update_view (f := Work.blockedOn x) (hblock _) b)) ?_⟩
      · rw [pubSeq_append, h.pub]
        by_cases hb : b = b₁
        · subst hb; simp [pubSeq, Event.publishedTo]
        · simp [pubSeq, Event.publishedTo, hb, Ne.symm hb]
      · rw [handedSeq_append, handedSeq_published, List.append_nil]
      · rw [update_view (f := Work.ahead (s.subscribers b)) (wake_ahead _ _) b]
  | publishTo y m =>
    cases ht with
    | mem hμ => cases hμ
    | publishToCallback =>
      refine ⟨t, hkeep ?_ (Or.inl rfl) (stream_same ?_ rfl rfl rfl) Iff.rfl⟩
      · rw [pubSeq_append, h.pub]; simp [pubSeq, Event.publishedTo]
      · rw [handedSeq_append]; simp [handedSeq, Event.handedTo]
    | publishToQueue =>
      refine ⟨t, hkeep ?_ (Or.inl rfl) (stream_same ?_ rfl ?_ rfl) Iff.rfl⟩
      · rw [pubSeq_append, h.pub]; simp [pubSeq, Event.publishedTo]
      · rw [handedSeq_append, handedSeq_published, List.append_nil]
      · by_cases hyx : x = y
        · subst hyx; simp [fromBroker]
        · exact filter_push_ne hyx _
  | addStart | addLink | removeUnlink | removeClear => exact absurd hl Bool.false_ne_true
  | _ => cases ht <;> exact ⟨t, hkeep h.pub (Or.inl rfl) rfl Iff.rfl⟩

/-! ## Every run -/

theorem inStep_init (h : Init c s) : InStep c s b x [] := by
  refine ⟨?_, fun p hp => ?_, ?_⟩
  · rw [h.log, h.fifo]; rfl
  · rw [h.work] at hp; cases hp
  · rw [stream, h.log, h.svc, h.queue, h.work]; simp [handedSeq, Svc.inHand, Work.blockedOn, Work.ahead]

theorem inStep_run (h : Reachable (step c) (Init c) (fun _ a => KeepsLists a ∧ KeepsSubs a) s)
    (hx : x ∈ s.subscribers b) (hrx : c.rxType x ≠ .fifo) : Carried c s ∧ ∃ t, InStep c s b x t := by
  have key : (Routed c s ∧ Settled s) ∧ (x ∈ s.subscribers b → ∃ t, InStep c s b x t) := by
    refine h.invariant (I := fun s => (Routed c s ∧ Settled s) ∧ (x ∈ s.subscribers b → ∃ t, InStep c s b x t))
      (fun s hi => ⟨⟨routed_init hi, settled_init hi⟩, fun _ => ⟨[], inStep_init hi⟩⟩) ?_
    rintro s a s' ⟨⟨hr, hset⟩, hi⟩ ⟨hl, hk⟩ hstep
    have ht := step_trans hstep
    refine ⟨⟨hr.trans ht (hset.removal hl), hset.trans hr.sound ht hl⟩, fun hx => ?_⟩
    rw [(lists_kept ht hl).1] at hx
    obtain ⟨t, hin⟩ := hi hx
    exact hin.trans hr.sound hr.tail ht hl hk hx hrx
  exact ⟨key.1.1.sound.carried, key.2 hx⟩

/-- With fixed lists and subscriptions, a callback subscriber has been handed
the subscribed messages its dispatch has passed, and the handled, held, queued
and blocked messages of a msgq subscriber are the subscribed ones its dispatch
has reached, in the published order. -/
theorem published_sequence (h : Reachable (step c) (Init c) (fun _ a => KeepsLists a ∧ KeepsSubs a) s)
    (hx : x ∈ s.subscribers b) (hrx : c.rxType x ≠ .fifo) :
    pubSeq s.log b = taken s b ++ s.fifo b ∧
    (c.rxType x = .callback → handedSeq s.log b x = (reached s b x).filter (takes c s x)) ∧
    (c.rxType x = .msgq → handedSeq s.log b x ++ (s.svc x).inHand b ++ (s.queue x).filter (fromBroker b) ++
      (s.work b).blockedOn x = (reached s b x).filter (takes c s x)) := by
  obtain ⟨hc, t, hin⟩ := inStep_run h hx hrx
  have he : stream s b x = (reached s b x).filter (takes c s x) := by
    rw [hin.eq, reached, hin.taken]
  refine ⟨by rw [hin.taken]; exact hin.pub, fun hcb => ?_, fun _ => he⟩
  rw [← stream_callback hc hcb]
  exact he

end

def callbackAndMsgq : Cfg (Fin 2) where
  rxType x := if x = 0 then .callback else .msgq
  maxPubMsgId _ := 7
  maxMsgs _ := 1
  numAllocators := 0

def callbackAndMsgqInit : Sys Unit (Fin 2) :=
  Sys.init (fun _ => [0, 1]) (fun _ => some ()) (fun _ _ => true) fun _ => 0

theorem callbackAndMsgq_init : Init callbackAndMsgq callbackAndMsgqInit :=
  init_of_lists _ _ (by decide) (by decide) (by unfold FifoLast; decide)

theorem published_sequence_blocked : ∃ s, Runs.exec (step callbackAndMsgq) callbackAndMsgqInit
      ([.newMsg 0 3 0, .newMsg 1 4 0, .publish () 0, .publish () 1] ++ List.replicate 12 (.work ())) = .ok s ∧
    (s.work ()).blockedOn 1 = [⟨1, 1, some ()⟩] ∧
    handedSeq s.log () 0 = (reached s () 0).filter (takes callbackAndMsgq s 0) :=
  ⟨_, rfl, by decide, (published_sequence (b := ()) (x := 0) ⟨callbackAndMsgqInit, callbackAndMsgq_init,
    Run.of_acts (K := fun a => KeepsLists a ∧ KeepsSubs a) (step callbackAndMsgq)
      ([.newMsg 0 3 0, .newMsg 1 4 0, .publish () 0, .publish () 1] ++ List.replicate 12 (.work ())) rfl
      (by decide)⟩ (by decide) (by decide)).2.1 rfl⟩

end ZephyrPubSub
