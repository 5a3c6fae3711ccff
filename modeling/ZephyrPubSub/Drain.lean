import ZephyrPubSub.Progress

/-!
# Coming to rest

Every step of the framework is paid for when a message is published. Getting a
message through the broker takes eight steps, and each subscriber of the broker
adds at most seven: one turn of the list loop and six from its queue on. What
has been paid for and not been done yet is the `effort` of a state. It is used
up exactly when the system is at rest, and only then has no thread anything to do.
-/

namespace ZephyrPubSub

open Function Lists Ledger Runs

/-- A step of a thread inside the framework. A direct publisher returns to it from the handler. -/
def Act.ofFramework {B S : Type} : Act B S → Bool
  | .work _ | .svc _ | .callReturn .. => true
  | _ => false

section
variable {B S : Type} [DecidableEq B] [DecidableEq S] (c : Cfg S) (s : Sys B S)

/-! ## What is left to do -/

/-- The subscribers behind `x` in its list. -/
def Sys.behind (x : S) : List S := after x (s.listOf x)

/-- The steps a message in the queue of `x` can lead to, those of the FIFO
subscribers behind it included. -/
def pktCost (x : S) (p : Pkt B) : Nat :=
  match c.rxType x, p.src with
  | .fifo, some _ => 6 * (s.behind x).length + 6
  | .fifo, none => 4
  | _, _ => 3

def workEffort (b : B) : Work B S → Nat
  | .armed => 0
  | .queued => 4
  | .get => 3
  | .lock _ _ => 7 * (s.subscribers b).length + 6
  | .scan _ _ sub _ => 7 * (fromPtr (s.subscribers b) sub).length + 5
  | .put _ _ x _ => 7 * (after x (s.subscribers b)).length + 9
  | .release _ => 4
  -- with a message in the FIFO the work item is going to be queued again
  | .reset => if s.fifo b = [] then 2 else 6
  | .submit => if s.fifo b = [] then 1 else 5

def svcEffort (x : S) : Svc B S → Nat
  | .idle => 0
  | .got p _ =>
    match p.src with
    | some _ => 6 * (s.behind x).length + 5
    | none => 3
  | .lock _ _ _ => 6 * (s.behind x).length + 4
  | .walk _ _ b n => 6 * (fromPtr (s.subscribers b) n).length + 3
  | .ready _ _ => 2
  | .running _ => 1

def brokerEffort (b : B) : Nat :=
  workEffort s b (s.work b) + (s.fifo b).length * (7 * (s.subscribers b).length + 4)

def queueEffort (x : S) : Nat := ((s.queue x).map (pktCost c s x)).sum

variable [Fintype B] [Fintype S]

def effort : Nat :=
  (∑ b, brokerEffort s b) + (∑ x, svcEffort s x (s.svc x)) + (∑ x, queueEffort c s x) + s.calls.length

omit [Fintype B] [Fintype S] in
/-- What an action brings in. -/
def price : Act B S → Nat
  | .publish b _ => 7 * (s.subscribers b).length + 8
  | .publishTo x _ =>
    match c.rxType x with
    | .callback => 1
    | .msgq => 3
    | .fifo => 4
  | _ => 0

structure AtRest : Prop where
  fifo : ∀ b, s.fifo b = []
  work : ∀ b, s.work b = .armed
  queue : ∀ x, s.queue x = []
  svc : ∀ x, s.svc x = .idle
  calls : s.calls = []

end

section
variable {B S : Type} [DecidableEq B] [DecidableEq S] {c : Cfg S} {s s' : Sys B S}

/-! ## Where a step changes it -/

structure SamePlaces (s s' : Sys B S) : Prop where
  subscribers : s'.subscribers = s.subscribers
  behind : s'.behind = s.behind

theorem samePlaces {a : Act B S} (ht : Trans c s a s') (hk : KeepsLists a) : SamePlaces s s' := by
  obtain ⟨hs, ha, hb⟩ := lists_kept ht hk
  refine ⟨hs, funext fun x => ?_⟩
  unfold Sys.behind Sys.listOf
  rw [hs, ha, hb]

section
omit [DecidableEq B]

theorem SamePlaces.price (h : SamePlaces s s') (a : Act B S) : price c s' a = price c s a := by
  unfold ZephyrPubSub.price
  rw [h.subscribers]

theorem SamePlaces.pktCost (h : SamePlaces s s') : pktCost c s' = pktCost c s := by
  funext x p
  unfold ZephyrPubSub.pktCost
  rw [h.behind]

theorem SamePlaces.svcEffort (h : SamePlaces s s') : svcEffort s' = svcEffort s := by
  funext x v
  unfold ZephyrPubSub.svcEffort
  rw [h.behind, h.subscribers]

theorem SamePlaces.brokerEffort (h : SamePlaces s s') {b : B} (hw : s'.work b = s.work b) (hf : s'.fifo b = s.fifo b) :
    brokerEffort s' b = brokerEffort s b := by
  unfold ZephyrPubSub.brokerEffort ZephyrPubSub.workEffort
  rw [h.subscribers, hw, hf]

end

omit [DecidableEq B] in
theorem SamePlaces.queueEffort (h : SamePlaces s s') {x : S} (hq : s'.queue x = s.queue x) :
    queueEffort c s' x = queueEffort c s x := by
  unfold ZephyrPubSub.queueEffort
  rw [h.pktCost, hq]

variable [Fintype B] [Fintype S]

omit [Fintype S] in
theorem brokers_step (h : SamePlaces s s') (b : B) {k l : Nat}
    (hne : ∀ b', b' ≠ b → s'.work b' = s.work b' ∧ s'.fifo b' = s.fifo b')
    (hb : brokerEffort s' b + k ≤ brokerEffort s b + l) :
    (∑ b, brokerEffort s' b) + k ≤ (∑ b, brokerEffort s b) + l :=
  sum_change b (fun b' hb' => h.brokerEffort (hne b' hb').1 (hne b' hb').2) hb

omit [DecidableEq B] [Fintype S] in
theorem brokers_same (h : SamePlaces s s') (hw : s'.work = s.work) (hf : s'.fifo = s.fifo) :
    (∑ b, brokerEffort s' b) = ∑ b, brokerEffort s b :=
  Finset.sum_congr rfl fun b _ => h.brokerEffort (congrFun hw b) (congrFun hf b)

section
omit [Fintype B]

omit [DecidableEq B] in
theorem threads_step (h : SamePlaces s s') (x : S) {v : Svc B S} {k : Nat} (hv : s'.svc = update s.svc x v)
    (hx : svcEffort s x v + k ≤ svcEffort s x (s.svc x)) :
    (∑ x, svcEffort s' x (s'.svc x)) + k ≤ ∑ x, svcEffort s x (s.svc x) := by
  refine sum_change (l := 0) x (fun y hy => ?_) ?_
  · rw [h.svcEffort, hv, update_of_ne hy]
  · rw [h.svcEffort, hv, update_self]
    exact hx

omit [DecidableEq B] in
theorem threads_same (h : SamePlaces s s') (hv : s'.svc = s.svc) :
    (∑ x, svcEffort s' x (s'.svc x)) = ∑ x, svcEffort s x (s.svc x) := by
  rw [h.svcEffort, hv]

section
omit [DecidableEq B]

theorem queues_same (h : SamePlaces s s') (hq : s'.queue = s.queue) :
    (∑ x, queueEffort c s' x) = ∑ x, queueEffort c s x :=
  Finset.sum_congr rfl fun x _ => h.queueEffort (congrFun hq x)

theorem queues_push (h : SamePlaces s s') {x : S} {p : Pkt B} (hq : s'.queue = update s.queue x (s.queue x ++ [p])) :
    (∑ x, queueEffort c s' x) ≤ (∑ x, queueEffort c s x) + pktCost c s x p := by
  refine sum_change (k := 0) x (fun y hy => ?_) (Nat.le_of_eq ?_)
  · apply h.queueEffort
    rw [hq, update_of_ne hy]
  · rw [queueEffort, h.pktCost, hq, update_self, List.map_append, List.sum_append]
    rfl

theorem queues_pop (h : SamePlaces s s') {x : S} {p : Pkt B} {ps : List (Pkt B)} (hx : s.queue x = p :: ps)
    (hq : s'.queue = update s.queue x ps) : (∑ x, queueEffort c s' x) + pktCost c s x p ≤ ∑ x, queueEffort c s x := by
  refine sum_change (l := 0) x (fun y hy => ?_) (Nat.le_of_eq ?_)
  · apply h.queueEffort
    rw [hq, update_of_ne hy]
  · rw [queueEffort, queueEffort, h.pktCost, hq, update_self, hx, List.map_cons, List.sum_cons, Nat.add_comm]
    rfl

end

end

/-! ## Pointers into the list -/

omit [DecidableEq B] [Fintype B] [Fintype S] in
theorem Linked.behind (h : Linked s) {b : B} {x : S} (hx : x ∈ s.subscribers b) :
    s.behind x = after x (s.subscribers b) := by
  rw [Sys.behind, h.listOf hx]

omit [DecidableEq B] [Fintype B] [Fintype S] in
theorem Linked.fromPtr_nextSub (h : Linked s) {b : B} {x : S} (hx : x ∈ s.subscribers b) :
    fromPtr (s.subscribers b) (s.nextSub x) = after x (s.subscribers b) := by
  rw [h.nextSub hx, fromPtr_head _ (h.nodup b)]

omit [Fintype B] [Fintype S] in
theorem length_fromPtr_some (l : List S) (x : S) : (fromPtr l (some x)).length = (after x l).length + 1 := rfl

/-! ## What a step costs -/

omit [Fintype B] [Fintype S] in
/-- A work item's effort at its next place, where the FIFO stays as it is. -/
theorem brokerEffort_at (h : SamePlaces s s') {b : B} {v w : Work B S} (hv : s.work b = v)
    (hw : s'.work = update s.work b w)
    (hf : s'.fifo = s.fifo) {k l : Nat} (hle : workEffort s b w + k ≤ workEffort s b v + l) :
    brokerEffort s' b + k ≤ brokerEffort s b + l := by
  have he : workEffort s' b w = workEffort s b w := by
    unfold workEffort
    rw [h.subscribers, hf]
  unfold brokerEffort
  rw [hv, h.subscribers, hf, hw, update_self, he]
  omega

omit [Fintype S] in
theorem work_moves (h : SamePlaces s s') {b : B} {v w : Work B S} (hv : s.work b = v) (hw : s'.work = update s.work b w)
    (hf : s'.fifo = s.fifo) {k l : Nat} (hle : workEffort s b w + k ≤ workEffort s b v + l) :
    (∑ b, brokerEffort s' b) + k ≤ (∑ b, brokerEffort s b) + l := by
  apply brokers_step h b _ (brokerEffort_at h hv hw hf hle)
  intro b' hb'
  rw [hw, hf, update_of_ne hb']
  exact ⟨rfl, rfl⟩

/-- The work item moves and does nothing else. -/
theorem effort_work (h : SamePlaces s s') {b : B} {v w : Work B S} (hv : s.work b = v)
    (hw : s'.work = update s.work b w)
    (hf : s'.fifo = s.fifo) (hsvc : s'.svc = s.svc) (hq : s'.queue = s.queue) (hc : s'.calls = s.calls)
    (hle : workEffort s b w + 1 ≤ workEffort s b v) : effort c s' + 1 ≤ effort c s := by
  have hb := work_moves h hv hw hf (k := 1) (l := 0) hle
  unfold effort
  rw [threads_same h hsvc, queues_same h hq, hc]
  omega

/-- The work item queues the message for a subscriber. -/
theorem effort_deliver (h : SamePlaces s s') {b : B} {x : S} {p : Pkt B} {v w : Work B S} (hv : s.work b = v)
    (hw : s'.work = update s.work b w) (hf : s'.fifo = s.fifo) (hsvc : s'.svc = s.svc)
    (hq : s'.queue = update s.queue x (s.queue x ++ [p])) (hc : s'.calls = s.calls)
    (hle : workEffort s b w + pktCost c s x p + 1 ≤ workEffort s b v) : effort c s' + 1 ≤ effort c s := by
  have hb := work_moves h hv hw hf (k := pktCost c s x p + 1) (l := 0) (by omega)
  have hp := queues_push (c := c) h hq
  unfold effort
  rw [threads_same h hsvc, hc]
  omega

section
omit [DecidableEq B]

/-- The service thread moves and does nothing else. -/
theorem effort_svc (h : SamePlaces s s') {x : S} {u v : Svc B S} (hu : s.svc x = u) (hv : s'.svc = update s.svc x v)
    (hw : s'.work = s.work) (hf : s'.fifo = s.fifo) (hq : s'.queue = s.queue) (hc : s'.calls = s.calls)
    (hle : svcEffort s x v + 1 ≤ svcEffort s x u) : effort c s' + 1 ≤ effort c s := by
  have ht := threads_step h x hv (k := 1) (by rw [hu]; exact hle)
  unfold effort
  rw [brokers_same h hw hf, queues_same h hq, hc]
  omega

theorem effort_take (h : SamePlaces s s') {x : S} {p : Pkt B} {ps : List (Pkt B)} {v : Svc B S}
    (hx : s.queue x = p :: ps) (hv : s'.svc = update s.svc x v) (hw : s'.work = s.work) (hf : s'.fifo = s.fifo)
    (hq : s'.queue = update s.queue x ps) (hc : s'.calls = s.calls)
    (hle : svcEffort s x v + 1 ≤ pktCost c s x p) : effort c s' + 1 ≤ effort c s := by
  have hp := queues_pop (c := c) h hx hq
  have ht : (∑ x, svcEffort s' x (s'.svc x)) ≤ (∑ x, svcEffort s x (s.svc x)) + svcEffort s x v := by
    refine sum_change (k := 0) x (fun y hy => ?_) ?_
    · rw [h.svcEffort, hv, update_of_ne hy]
    · rw [h.svcEffort, hv, update_self]
      omega
  unfold effort
  rw [brokers_same h hw hf, hc]
  omega

theorem effort_forward (h : SamePlaces s s') {x n : S} {p : Pkt B} {u v : Svc B S} (hu : s.svc x = u)
    (hv : s'.svc = update s.svc x v) (hw : s'.work = s.work) (hf : s'.fifo = s.fifo)
    (hq : s'.queue = update s.queue n (s.queue n ++ [p])) (hc : s'.calls = s.calls)
    (hle : svcEffort s x v + pktCost c s n p + 1 ≤ svcEffort s x u) : effort c s' + 1 ≤ effort c s := by
  have ht := threads_step h x hv (k := pktCost c s n p + 1) (by rw [hu]; omega)
  have hp := queues_push (c := c) h hq
  unfold effort
  rw [brokers_same h hw hf, hc]
  omega

end

section
omit [DecidableEq B] [Fintype B] [Fintype S]

theorem workEffort_scan_some (b : B) (p : Pkt B) (id : MsgId) (x : S) (call : Option S) :
    workEffort s b (.scan p id (some x) call) = 7 * (after x (s.subscribers b)).length + 12 := by
  rw [workEffort, length_fromPtr_some]
  omega

theorem Linked.workEffort_next (h : Linked s) {b : B} {x : S} (hx : x ∈ s.subscribers b) (p : Pkt B) (id : MsgId)
    (call : Option S) :
    workEffort s b (.scan p id (s.nextSub x) call) = 7 * (after x (s.subscribers b)).length + 5 := by
  rw [workEffort, h.fromPtr_nextSub hx]

theorem Linked.pktCost_le (h : Linked s) {b : B} {x : S} (hx : x ∈ s.subscribers b) (p : Pkt B) :
    pktCost c s x p ≤ 6 * (after x (s.subscribers b)).length + 6 := by
  unfold pktCost
  rw [h.behind hx]
  split <;> omega

end

theorem Steady.work_step (h : Steady c s) {b : B} (ht : Trans c s (.work b) s') : effort c s' + 1 ≤ effort c s := by
  have hl := samePlaces ht rfl
  have hwf := h.routed.sound.wf
  cases ht with
  | workQueued hw => exact effort_work hl hw rfl rfl rfl rfl rfl (by simp [workEffort])
  | workGetNone hw hf => exact effort_work hl hw rfl rfl rfl rfl rfl (by simp [workEffort, hf])
  | @workGet _ p ps id hw hf =>
    have hb := brokers_step hl b (k := 1) (l := 0) (fun b' hb' => ⟨update_of_ne hb' .., update_of_ne hb' ..⟩) (by
      unfold brokerEffort workEffort
      simp only [update_self, hw, hf, List.length_cons, Nat.succ_mul]
      omega)
    show _ + _ + _ + s.calls.length + 1 ≤ _
    rw [threads_same hl rfl, queues_same hl rfl]
    unfold effort
    omega
  | @workLock _ p id hw =>
    refine effort_work hl hw rfl rfl rfl rfl rfl ?_
    rw [workEffort, workEffort, fromPtr_head_self]
  | scanEnd hw => exact effort_work hl hw rfl rfl rfl rfl rfl (by simp [workEffort, fromPtr])
  | @scanSkip _ p id x call hw | @scanCallback _ p id x call hw =>
    refine effort_work hl hw rfl rfl rfl rfl rfl ?_
    rw [hwf.linked.workEffort_next (h.settled.scan b p id x call hw), workEffort_scan_some]
    omega
  | @scanMsgq _ p id x call _ hw =>
    refine effort_work hl hw rfl rfl rfl rfl rfl ?_
    rw [workEffort_scan_some, workEffort]
    omega
  | @scanFifo _ p id x call _ hw =>
    have hx := h.settled.scan b p id x call hw
    refine effort_deliver hl hw rfl rfl rfl rfl rfl ?_
    have := hwf.linked.pktCost_le (c := c) hx p
    rw [workEffort_scan_some, workEffort]
    omega
  | @put _ p id x tmp hw =>
    have hrx := (h.routed.sound.carried.work_at hw).2.2.2
    refine effort_deliver hl hw rfl rfl rfl rfl rfl ?_
    rw [h.routed.sound.placed.put b p id x tmp hw, ← hwf.linked.nextSub (h.settled.put b p id x tmp hw),
      hwf.linked.workEffort_next (h.settled.put b p id x tmp hw), workEffort, pktCost, hrx]
    simp only
    omega
  | workRelease hw => exact effort_work hl hw rfl rfl rfl rfl rfl (by simp [workEffort])
  | workReset hw =>
    refine effort_work hl hw rfl rfl rfl rfl rfl ?_
    simp only [workEffort]
    split <;> omega
  | workSubmit hw =>
    refine effort_work hl hw rfl rfl rfl rfl rfl ?_
    by_cases hf : s.fifo b = [] <;> simp [hf, workEffort]
  | mem hm => cases hm

theorem Steady.svc_step (h : Steady c s) {x : S} (ht : Trans c s (.svc x) s') : effort c s' + 1 ≤ effort c s := by
  have hl := samePlaces ht rfl
  have hwf := h.routed.sound.wf
  cases ht with
  | @takeMsgq _ p ps id _ hrx hq =>
    refine effort_take hl hq rfl rfl rfl rfl rfl ?_
    rw [svcEffort, pktCost, hrx]
  | @takeFifo _ p ps id _ hrx hq =>
    refine effort_take hl hq rfl rfl rfl rfl rfl ?_
    rw [svcEffort, pktCost, hrx]
    cases p.src <;> exact Nat.le_refl _
  | @gotPublic _ p id b hv hle hb =>
    -- a message no broker published is private to the subscriber
    obtain ⟨hq, hid, _⟩ := h.routed.sound.carried.svc_at hv
    obtain ⟨b', hsrc⟩ := hq.src hid hle
    refine effort_svc hl hv rfl rfl rfl rfl rfl ?_
    rw [svcEffort, svcEffort, hsrc]
  | @gotPrivate _ p id hv =>
    refine effort_svc hl hv rfl rfl rfl rfl rfl ?_
    rw [svcEffort, svcEffort]
    cases p.src with
    | none => exact Nat.le_refl _
    | some b => exact Nat.le_add_left ..
  | @svcLock _ p id b hv =>
    have hx := h.settled.lock x p id b hv
    refine effort_svc hl hv rfl rfl rfl rfl rfl ?_
    rw [svcEffort, svcEffort, hwf.linked.fromPtr_nextSub hx, hwf.linked.behind hx]
  | walkEnd hv => exact effort_svc hl hv rfl rfl rfl rfl rfl (by simp [svcEffort, fromPtr])
  | @walkSkip _ p id b n hv =>
    have hn := (h.routed.sound.placed.walk x p id b n hv).2
    refine effort_svc hl hv rfl rfl rfl rfl rfl ?_
    rw [svcEffort, svcEffort, hwf.linked.fromPtr_nextSub hn, length_fromPtr_some]
    omega
  | @walkGive _ p id b n _ hv =>
    have hn := (h.routed.sound.placed.walk x p id b n hv).2
    have := hwf.linked.pktCost_le (c := c) hn p
    refine effort_forward hl hv rfl rfl rfl rfl rfl ?_
    rw [svcEffort, svcEffort, length_fromPtr_some]
    omega
  | handle hv => exact effort_svc hl hv rfl rfl rfl rfl rfl (by simp [svcEffort])
  | svcRelease hv => exact effort_svc hl hv rfl rfl rfl rfl rfl (by simp [svcEffort])
  | mem hm => cases hm

omit [DecidableEq B] in
theorem effort_same (h : SamePlaces s s') (hw : s'.work = s.work) (hf : s'.fifo = s.fifo) (hv : s'.svc = s.svc)
    (hq : s'.queue = s.queue) (hc : s'.calls = s.calls) : effort c s' = effort c s := by
  unfold effort
  rw [brokers_same h hw hf, threads_same h hv, queues_same h hq, hc]

omit [DecidableEq B] [Fintype B] [Fintype S] in
/-- A work item that is woken, or finds a message when it is armed again, is queued. -/
theorem workEffort_wake (h : SamePlaces s s') (b : B) (w : Work B S) :
    workEffort s' b (wake w) ≤ workEffort s b w + 4 := by
  unfold workEffort
  rw [h.subscribers]
  cases w with
  | reset | submit =>
    simp only [wake]
    split <;> split <;> omega
  | _ =>
    simp only [wake]
    omega

theorem effort_publish (h : SamePlaces s s') {b : B} {p : Pkt B} (hw : s'.work = update s.work b (wake (s.work b)))
    (hf : s'.fifo = update s.fifo b (s.fifo b ++ [p])) (hv : s'.svc = s.svc) (hq : s'.queue = s.queue)
    (hc : s'.calls = s.calls) : effort c s' ≤ effort c s + (7 * (s.subscribers b).length + 8) := by
  have hle : brokerEffort s' b + 0 ≤ brokerEffort s b + (7 * (s.subscribers b).length + 8) := by
    have := workEffort_wake h b (s.work b)
    unfold brokerEffort
    rw [h.subscribers, hw, hf, update_self, update_self, List.length_append, List.length_singleton, Nat.add_one_mul]
    omega
  have hb := brokers_step h b (fun b' hb' => by rw [hw, hf, update_of_ne hb', update_of_ne hb']; exact ⟨rfl, rfl⟩) hle
  unfold effort
  rw [threads_same h hv, queues_same h hq, hc]
  omega

/-- A step is paid for by what the action brings in and by the effort it uses up. -/
theorem Steady.effort_step (h : Steady c s) {a : Act B S} (hk : KeepsLists a) (ht : Trans c s a s') :
    effort c s' + a.ofFramework.toNat ≤ effort c s + price c s a := by
  have hl := samePlaces ht hk
  cases a with
  | work b => exact h.work_step ht
  | svc x => exact h.svc_step ht
  | publish b m =>
    cases ht with
    | publish => exact effort_publish hl rfl rfl rfl rfl rfl
    | mem hm => cases hm
  | publishTo x m =>
    cases ht with
    | publishToCallback _ _ _ hrx =>
      have hp : price c s (.publishTo x m) = 1 := by rw [price, hrx]
      rw [hp]
      unfold effort
      rw [brokers_same hl rfl rfl, threads_same hl rfl, queues_same hl rfl, List.length_append]
      exact Nat.le_refl _
    | publishToQueue _ _ _ hrx _ =>
      have hq := queues_push (c := c) hl rfl
      have hp : pktCost c s x ⟨m, s.nextTag, none⟩ = price c s (.publishTo x m) := by
        rw [price, pktCost]
        cases hr : c.rxType x with
        | callback => exact absurd hr hrx
        | msgq | fifo => rfl
      rw [← hp]
      unfold effort
      rw [brokers_same hl rfl rfl, threads_same hl rfl]
      show _ + _ + _ + s.calls.length + 0 ≤ _
      omega
    | mem hm => cases hm
  | callReturn x p =>
    cases ht with
    | callReturn hc =>
      have hlen := List.length_erase_of_mem hc
      have hpos := List.length_pos_of_mem hc
      unfold effort
      rw [brokers_same hl rfl rfl, threads_same hl rfl, queues_same hl rfl]
      show _ + _ + _ + (s.calls.erase (x, p)).length + 1 ≤ _
      omega
    | mem hm => cases hm
  | addStart | addLink | removeUnlink | removeClear => exact absurd hk Bool.false_ne_true
  | setPriority | newMsg | staticMsgInit | acquireStatic | releaseUnpublished | acquireExtra | releaseExtra |
    subscribe | unsubscribe =>
    cases ht with
    | _ => exact Nat.le_of_eq (effort_same hl rfl rfl rfl rfl rfl)

/-! ## Nothing left to do -/

section
omit [DecidableEq B] [Fintype B] [Fintype S]

theorem workEffort_eq_zero {b : B} {w : Work B S} : workEffort s b w = 0 ↔ w = .armed := by
  unfold workEffort
  cases w with
  | armed => simp
  | reset | submit =>
    simp only [reduceCtorEq, iff_false]
    split <;> omega
  | _ => simp

theorem svcEffort_eq_zero {x : S} {v : Svc B S} : svcEffort s x v = 0 ↔ v = .idle := by
  unfold svcEffort
  cases v with
  | idle => simp
  | got p id =>
    simp only [reduceCtorEq, iff_false]
    split <;> omega
  | _ => simp

theorem pktCost_pos (c : Cfg S) (s : Sys B S) (x : S) (p : Pkt B) : 0 < pktCost c s x p := by
  unfold pktCost
  split <;> omega

end

omit [DecidableEq B] [Fintype B] [Fintype S] in
theorem brokerEffort_eq_zero {b : B} : brokerEffort s b = 0 ↔ s.work b = .armed ∧ s.fifo b = [] := by
  unfold brokerEffort
  rw [Nat.add_eq_zero_iff, workEffort_eq_zero, Nat.mul_eq_zero, List.length_eq_zero_iff]
  simp

omit [DecidableEq B] [Fintype B] [Fintype S] in
theorem queueEffort_eq_zero {x : S} : queueEffort c s x = 0 ↔ s.queue x = [] := by
  unfold queueEffort
  cases s.queue x with
  | nil => simp
  | cons p ps =>
    have := pktCost_pos c s x p
    simp only [List.map_cons, List.sum_cons, reduceCtorEq, iff_false]
    omega

omit [DecidableEq B] in
theorem effort_eq_zero : effort c s = 0 ↔ AtRest s := by
  unfold effort
  simp only [Nat.add_eq_zero_iff, Finset.sum_eq_zero_iff, Finset.mem_univ, true_imp_iff, brokerEffort_eq_zero,
    svcEffort_eq_zero, queueEffort_eq_zero, List.length_eq_zero_iff]
  constructor
  · rintro ⟨⟨⟨hb, hv⟩, hq⟩, hc⟩
    exact ⟨fun b => (hb b).2, fun b => (hb b).1, hq, hv, hc⟩
  · intro h
    exact ⟨⟨⟨fun b => ⟨h.work b, h.fifo b⟩, h.svc⟩, h.queue⟩, h.calls⟩

theorem sum_toNat {α : Type} (f : α → Bool) : ∀ l : List α, (l.map fun a => (f a).toNat).sum = l.countP f
  | [] => rfl
  | a :: l => by
    rw [List.map_cons, List.sum_cons, sum_toNat f l, List.countP_cons]
    cases f a <;> simp [Nat.add_comm]

/-- With fixed lists the framework's threads make no more steps than the
messages published meanwhile, and what was there before, pay for: eight for a
message and seven for each subscriber of its broker. All is used up when the
system is at rest. -/
theorem steps_bounded (h : Reachable (step c) (Init c) (fun _ a => KeepsLists a) s) {as : List (Act B S)}
    (hk : ∀ a ∈ as, KeepsLists a) (he : exec (step c) s as = .ok s') :
    effort c s' + as.countP Act.ofFramework ≤ effort c s + (as.map (price c s)).sum ∧
      (effort c s' = 0 ↔ AtRest s') := by
  -- the prices are those of the first state, whose lists stay
  have hstep : ∀ t a u, Reachable (step c) (Init c) (fun _ a => KeepsLists a) t ∧ SamePlaces s t → KeepsLists a →
      step c t a = .ok u → (Reachable (step c) (Init c) (fun _ a => KeepsLists a) u ∧ SamePlaces s u) ∧
        effort c u + a.ofFramework.toNat ≤ effort c t + price c s a := by
    rintro t a u ⟨hr, hl⟩ ha hs
    have ht := step_trans hs
    have hlu := samePlaces ht ha
    rw [← hl.price]
    exact ⟨⟨hr.tail ha hs, hlu.subscribers.trans hl.subscribers, hlu.behind.trans hl.behind⟩,
      (steady_run hr).effort_step ha ht⟩
  refine ⟨?_, effort_eq_zero⟩
  rw [← sum_toNat]
  exact exec_amortized (step c) hstep as s s' ⟨h, rfl, rfl⟩ hk he

/-! ## What stops the threads -/

variable {T : Type} {thread : S → T} {order : B → Nat}

/-- No thread of the framework can make a step. -/
def Stopped (c : Cfg S) (thread : S → T) (s : Sys B S) : Prop :=
  ∀ a : Act B S, a.ofFramework = true → OneAtATime thread s a → ¬ Goes c s a

omit [Fintype B] [Fintype S] in
theorem Alive.not_stopped (h : Alive c thread s) : ¬ Stopped c thread s := by
  intro hs
  obtain ⟨a, ha, hone, hgo⟩ := h
  have hf : a.ofFramework = true := by
    cases a with
    | work | svc => rfl
    | _ => cases ha
  exact hs a hf hone hgo

theorem Steady.stopped_rest (h : Steady c s) (hcap : ∀ x, c.rxType x = .msgq → 0 < c.maxMsgs x)
    (hord : Ordered c thread order s) (hs : Stopped c thread s) : AtRest s := by
  have hlock : ∀ b, s.mutex b = none := by
    intro b
    by_contra hm
    exact (h.owner_alive hcap hord b hm).not_stopped hs
  have hwork : ∀ b, s.work b = .armed := by
    intro b
    by_contra hb
    exact (h.dispatch_alive hcap hord hb).not_stopped hs
  refine ⟨fun b => h.woken b (hwork b), hwork, fun x => ?_, fun x => ?_, ?_⟩
  · by_contra hq
    have ha : Alive c thread s := h.queue_alive hq fun _ b _ _ _ hm => absurd (hlock b) hm
    exact ha.not_stopped hs
  · have hx : (s.svc x).isIdle = true := by
      by_contra hx
      have ha : Alive c thread s := h.call_alive (Bool.eq_false_iff.mpr hx) fun b _ _ hm => absurd (hlock b) hm
      exact ha.not_stopped hs
    cases hv : s.svc x with
    | idle => rfl
    | _ => rw [hv] at hx; cases hx
  · -- a handler called by a direct publisher can return
    apply List.eq_nil_iff_forall_not_mem.mpr
    rintro ⟨x, p⟩ hc
    obtain ⟨μ, hμ⟩ := h.accounted.releases (refs_calls hc)
    exact hs (.callReturn x p) rfl (.other rfl) (Or.inl ⟨_, (Trans.callReturn hc hμ).step⟩)

omit [Fintype B] [Fintype S] in
theorem AtRest.stopped (h : AtRest s) : Stopped c thread s := by
  rintro a ha - (⟨s', hs⟩ | hs)
  all_goals
    cases a with
    | work b => simp only [step, workStep, h.work b, reduceCtorEq, Except.error.injEq] at hs
    | svc x =>
      simp only [step, svcStep, h.svc x, h.queue x] at hs
      cases hrx : c.rxType x <;> rw [hrx] at hs <;> cases hs
    | callReturn x p => simp [step, ZephyrPubSub.callReturn, h.calls] at hs
    | _ => cases ha

omit [DecidableEq B] [DecidableEq S] in
theorem AtRest.refs (h : AtRest s) (m : Msg) : refs s m = (s.mem.owned m).toNat + s.mem.extra m := by
  simp [ZephyrPubSub.refs, h.fifo, h.work, h.queue, h.svc, h.calls]

/-- Whether the threads of the framework have nothing to do depends on nothing but
whether the system is at rest: then every message that is in use is
referred to by its owners alone, and one they have let go of is back with its allocator. -/
theorem stops_at_rest (h : Reachable (step c) (Init c) (fun _ a => KeepsLists a) s)
    (hcap : ∀ x, c.rxType x = .msgq → 0 < c.maxMsgs x) (hord : Ordered c thread order s) :
    (Stopped c thread s ↔ AtRest s) ∧
    (AtRest s → ∀ m hd, s.mem.life m = .live hd → hd.refCnt = (s.mem.owned m).toNat + s.mem.extra m ∧
      (Mem.Registered c.numAllocators hd.allocId → s.mem.owned m = true ∨ 0 < s.mem.extra m)) := by
  have hs := steady_run h
  refine ⟨⟨hs.stopped_rest hcap hord, AtRest.stopped⟩, fun hr m hd hl => ?_⟩
  have hn := hs.accounted.refCnt hl
  have hp := hs.accounted.pool m
  unfold Mem.PoolOk at hp
  rw [hl] at hp
  rw [hr.refs m] at hn
  refine ⟨hn, fun hreg => ?_⟩
  have hpos := (hp hreg).1
  cases ho : s.mem.owned m with
  | true => exact Or.inl rfl
  | false =>
    rw [ho] at hn
    refine Or.inr ?_
    simp only [Bool.toNat_false, Nat.zero_add] at hn
    omega

end

def oneMessageHandled : List (Act Unit (Fin 2)) := oneMessage ++ .svc 1 :: List.replicate 3 (.work ())

theorem oneMessageHandled_rests : ∃ s, exec (step msgqAndFifo) msgqAndFifoInit oneMessageHandled = .ok s ∧
    AtRest s := by
  refine ⟨_, rfl, fun b => ?_, fun b => ?_, fun x => ?_, fun x => ?_, ?_⟩
  · rfl
  · rfl
  · match x with
    | 0 => rfl
    | 1 => rfl
  · match x with
    | 0 => rfl
    | 1 => rfl
  · rfl

theorem steps_bounded_oneMessage : ∃ s, exec (step msgqAndFifo) msgqAndFifoInit oneMessageHandled = .ok s ∧
    oneMessageHandled.countP Act.ofFramework = 19 ∧
    (oneMessageHandled.map (price msgqAndFifo msgqAndFifoInit)).sum = 22 ∧
    effort msgqAndFifo s + oneMessageHandled.countP Act.ofFramework ≤
      effort msgqAndFifo msgqAndFifoInit + (oneMessageHandled.map (price msgqAndFifo msgqAndFifoInit)).sum ∧
    (effort msgqAndFifo s = 0 ↔ AtRest s) := by
  obtain ⟨s, hs, -⟩ := oneMessageHandled_rests
  exact ⟨s, hs, rfl, rfl, steps_bounded ⟨msgqAndFifoInit, msgqAndFifo_init, .refl _⟩ (by decide) hs⟩

theorem stops_at_rest_oneMessage : ∃ s, exec (step msgqAndFifo) msgqAndFifoInit oneMessageHandled = .ok s ∧
    Stopped msgqAndFifo id s ∧ ∀ m hd, s.mem.life m = .live hd →
      hd.refCnt = (s.mem.owned m).toNat + s.mem.extra m ∧
      (Mem.Registered 0 hd.allocId → s.mem.owned m = true ∨ 0 < s.mem.extra m) := by
  have hord : ∀ s : Sys Unit (Fin 2), Ordered msgqAndFifo id (fun _ => 0) s := by
    rintro s x y b b' (rfl : x = y) hf hq
    rw [hf] at hq
    cases hq
  obtain ⟨s, hs, hrest⟩ := oneMessageHandled_rests
  obtain ⟨hiff, hrefs⟩ := stops_at_rest ⟨msgqAndFifoInit, msgqAndFifo_init,
    Run.of_acts (K := KeepsLists) (step msgqAndFifo) oneMessageHandled hs (by decide)⟩ (by decide) (hord s)
  exact ⟨s, hs, hiff.mpr hrest, hrefs hrest⟩

end ZephyrPubSub
