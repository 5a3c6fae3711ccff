import ZephyrPubSub.Delivery

/-!
# Messages and the lists of other brokers

A FIFO subscriber passes a message on along the list it is in at that moment,
and a dispatch goes on behind its next subscriber. As long as no subscriber
takes a message or a dispatch of one broker into the list of another one, only
subscribers of the message's own broker get it.
-/

namespace ZephyrPubSub

open Lists Function Runs

section
variable {B S : Type} [DecidableEq B] [DecidableEq S] {c : Cfg S} {s s' : Sys B S}
variable {b : B} {p : Pkt B} {x : S}

/-- The message has got to the subscriber, is being put into its msgq or is to be offered to it next. -/
def Given (s : Sys B S) (x : S) (p : Pkt B) : Prop :=
  Reached s x p ∨ (∃ b id tmp, s.work b = .put p id x tmp) ∨ ∃ b id call, s.work b = .scan p id (some x) call

section
omit [DecidableEq B] [DecidableEq S]

theorem given_of_log (h : .handed x p ∈ s.log) : Given s x p := Or.inl (Or.inl h)

theorem given_of_queue (h : p ∈ s.queue x) : Given s x p := Or.inl (Or.inr (Or.inl h))

theorem given_of_svc (h : (s.svc x).pkt = some p) : Given s x p := Or.inl (Or.inr (Or.inr h))

theorem given_of_put {id : MsgId} {tmp : Option S} (h : s.work b = .put p id x tmp) : Given s x p :=
  Or.inr (Or.inl ⟨b, id, tmp, h⟩)

theorem given_of_next {id : MsgId} {call : Option S} (h : s.work b = .scan p id (some x) call) : Given s x p :=
  Or.inr (Or.inr ⟨b, id, call, h⟩)

end

omit [DecidableEq B] in
theorem given_push {y : S} {q : Pkt B} (h : p ∈ update s.queue y (s.queue y ++ [q]) x) :
    Given s x p ∨ (x = y ∧ p = q) := by
  by_cases hxy : x = y
  · subst hxy
    rw [update_self] at h
    rcases List.mem_append.mp h with h | h
    · exact Or.inl (given_of_queue h)
    · exact Or.inr ⟨rfl, List.mem_singleton.mp h⟩
  · rw [update_of_ne hxy] at h
    exact Or.inl (given_of_queue h)

omit [DecidableEq B] [DecidableEq S] in
theorem given_log {e : Event B S} (h : .handed x p ∈ s.log ++ [e]) : Given s x p ∨ e = .handed x p := by
  rcases List.mem_append.mp h with h | h
  · exact Or.inl (given_of_log h)
  · exact Or.inr (List.mem_singleton.mp h).symm

omit [DecidableEq B] in
theorem given_svc {y : S} {v : Svc B S} (hv : v.pkt = none ∨ v.pkt = (s.svc y).pkt)
    (h : (update s.svc y v x).pkt = some p) : Given s x p := by
  apply given_of_svc
  by_cases hxy : x = y
  · subst hxy
    rw [update_self] at h
    rcases hv with hv | hv
    · rw [hv] at h; cases h
    · rwa [← hv]
  · rwa [update_of_ne hxy] at h

omit [DecidableEq B] [DecidableEq S] in
theorem given_known (hc : Carried c s) (h : Given s x p) : Known s p := by
  rcases h with (h | h | h) | ⟨b, id, tmp, h⟩ | ⟨b, id, call, h⟩
  · exact hc.log _ h
  · exact (hc.queue x p h).1
  · have hv := hc.svc x
    cases hx : s.svc x with
    | idle => rw [hx] at h; cases h
    | running q => rw [hx] at h hv; cases h; exact hv.1
    | _ => rw [hx] at h hv; cases h; exact hv.1.1
  · exact (hc.work_at h).1.1
  · exact (hc.work_at h).1.1

/-- Who becomes the next one of a dispatch is in the list of the message's broker. -/
theorem Sound.pointed {a : Act B S} (hs : Sound c s) (ht : Trans c s a s') (hsrc : p.src = some b) {b₁ : B} {id : MsgId}
    {call : Option S} (hw : s'.work b₁ = .scan p id (some x) call) :
    s.work b₁ = .scan p id (some x) call ∨ (x ∈ s.subscribers b ∧ Known s p) := by
  rcases hs.placed.pointer hs.wf ht hw with hold | ⟨rfl, hx⟩
  · exact Or.inl hold
  · have hp : s.work b₁ = .scan p id (some x) call ∨ FifoOk s b₁ p := by
      rcases scan_of_trans ht hw with hold | ⟨-, ⟨hl, -⟩ | ⟨y, d, hy, -⟩ | ⟨y, hy⟩⟩
      · exact Or.inl hold
      · exact Or.inr (hs.carried.work_at hl).1
      · exact Or.inr (hs.carried.work_at hy).1
      · exact Or.inr (hs.carried.work_at hy).1
    refine hp.imp_right fun hp => ⟨?_, hp.1⟩
    rwa [hp.broker hsrc] at hx

omit [DecidableEq B] in
theorem given_pop {y : S} {q : Pkt B} {ps : List (Pkt B)} {v : Svc B S} (hq : s.queue y = q :: ps)
    (hv : v.pkt = some q) (h : (update s.svc y v x).pkt = some p) : Given s x p := by
  by_cases hxy : x = y
  · subst hxy
    rw [update_self, hv, Option.some.injEq] at h
    exact given_of_queue (by rw [hq, h]; exact List.mem_cons_self ..)
  · rw [update_of_ne hxy] at h
    exact given_of_svc h

theorem handed_of_trans {a : Act B S} (ht : Trans c s a s') (hsrc : p.src = some b) (h : .handed x p ∈ s'.log) :
    Given s x p := by
  cases ht with
  | publish =>
    rcases given_log h with h | h
    · exact h
    · cases h
  | scanCallback hw _ _ =>
    rcases given_log h with h | h
    · exact h
    · cases h
      exact given_of_next hw
  | handle hv =>
    rcases given_log h with h | h
    · exact h
    · cases h
      exact given_of_svc (by rw [hv]; rfl)
  | publishToCallback =>
    simp only [List.mem_append, List.mem_cons, List.not_mem_nil, or_false, reduceCtorEq, false_or] at h
    rcases h with h | h
    · exact given_of_log h
    · cases h; cases hsrc
  | publishToQueue =>
    rcases given_log h with h | h
    · exact h
    · cases h
  | _ => exact given_of_log h

theorem queued_of_trans {a : Act B S} (hs : Sound c s) (ht : Trans c s a s') (hsrc : p.src = some b)
    (h : p ∈ s'.queue x) : Given s x p ∨ (x ∈ s.subscribers b ∧ Known s p) := by
  cases ht with
  | scanFifo hw _ _ _ =>
    rcases given_push h with h | ⟨rfl, rfl⟩
    · exact Or.inl h
    · exact Or.inl (given_of_next hw)
  | put hw _ =>
    rcases given_push h with h | ⟨rfl, rfl⟩
    · exact Or.inl h
    · exact Or.inl (given_of_put hw)
  | takeMsgq _ _ hq _ | takeFifo _ _ hq _ => exact Or.inl (given_of_queue (queue_pop hq x p h))
  | @walkGive y q id b₁ n μ hv _ _ _ =>
    rcases given_push h with h | ⟨rfl, rfl⟩
    · exact Or.inl h
    · obtain ⟨hb, hm⟩ := hs.placed.walk y p id b₁ x hv
      rw [hsrc] at hb; cases hb
      exact Or.inr ⟨hm, (hs.carried.svc_at hv).1.1⟩
  | publishToQueue =>
    rcases given_push h with h | ⟨rfl, rfl⟩
    · exact Or.inl h
    · cases hsrc
  | _ => exact Or.inl (given_of_queue h)

theorem inHand_of_trans {a : Act B S} (ht : Trans c s a s') (h : (s'.svc x).pkt = some p) : Given s x p := by
  cases ht with
  | takeMsgq _ _ hq _ | takeFifo _ _ hq _ => exact given_pop hq rfl h
  | gotPublic hv | gotPrivate hv | svcLock hv | walkEnd hv | walkSkip hv | walkGive hv | handle hv =>
    exact given_svc (Or.inr (by rw [hv]; rfl)) h
  | svcRelease => exact given_svc (Or.inl rfl) h
  | _ => exact given_of_svc h

theorem given_trans {a : Act B S} (hs : Sound c s) (ht : Trans c s a s') (hsrc : p.src = some b)
    (h : Given s' x p) : Given s x p ∨ (x ∈ s.subscribers b ∧ Known s p) := by
  rcases h with (h | h | h) | ⟨b₁, id, tmp, h⟩ | ⟨b₁, id, call, h⟩
  · exact Or.inl (handed_of_trans ht hsrc h)
  · exact queued_of_trans hs ht hsrc h
  · exact Or.inl (inHand_of_trans ht h)
  · rcases put_of_trans ht h with hold | ⟨-, -, call, hold⟩
    · exact Or.inl (given_of_put hold)
    · exact Or.inl (given_of_next hold)
  · exact (hs.pointed ht hsrc h).imp_left given_of_next

/-- In every run in which subscribers are only linked with their broker's
messages in hand and as the next ones of their broker's dispatch, a public
message gets to nobody who was not in its broker's list meanwhile. -/
theorem isolation {m : Msg} {s₀ s₁ : Sys B S} (h₀ : Reachable (step c) (Init c) (MoveOk c) s₀)
    (hp : step c s₀ (.publish b m) = .ok s₁)
    (hr : Run (step c) (fun s a => MoveOk c s a ∧ x ∉ s.subscribers b) s₁ s) : ¬ Reached s x (s₀.newPkt b m) := by
  have hs₀ : Sound c s₀ := h₀.invariant (fun _ => sound_init) fun _ _ _ h hm hstep => h.trans (step_trans hstep) hm
  have hnew : ¬ Known s₀ (s₀.newPkt b m) := fun hk => Nat.lt_irrefl _ hk.2
  have hstart : Sound c s₁ ∧ ¬ Given s₁ x (s₀.newPkt b m) := by
    refine ⟨hs₀.trans (step_trans hp) trivial, fun hg => ?_⟩
    rcases given_trans hs₀ (step_trans hp) rfl hg with hg | ⟨_, hk⟩
    · exact hnew (given_known hs₀.carried hg)
    · exact hnew hk
  have hend : Sound c s ∧ ¬ Given s x (s₀.newPkt b m) := by
    refine hr.invariant (I := fun s => Sound c s ∧ ¬ Given s x (s₀.newPkt b m)) ?_ hstart
    rintro t a t' ⟨ht, hg⟩ ⟨hm, hx⟩ hstep
    refine ⟨ht.trans (step_trans hstep) hm, fun hg' => ?_⟩
    rcases given_trans ht (step_trans hstep) rfl hg' with h | ⟨h, _⟩
    · exact hg h
    · exact hx h
  exact fun h => hend.2 (Or.inl h)

end

def twoBrokersInit : Sys Bool (Fin 2) :=
  Sys.init (fun b => if b then [1] else [0]) (fun x => some (x = 1)) (fun _ _ => true) fun x => x.val

theorem twoBrokers_init : Init twoFifos twoBrokersInit :=
  init_of_lists _ _ (by decide) (by decide) (by unfold FifoLast; decide)

def sendToFirst : List (Act Bool (Fin 2)) := .publish false 0 :: List.replicate 4 (.work false)

theorem isolation_twoBrokers : ∃ s₀ s, step twoFifos twoBrokersInit (.newMsg 0 3 0) = .ok s₀ ∧
    Runs.exec (step twoFifos) s₀ (sendToFirst ++ List.replicate 6 (.svc 0)) = .ok s ∧
    Reached s 0 ⟨0, 0, some false⟩ ∧ ¬ Reached s 1 ⟨0, 0, some false⟩ :=
  ⟨_, _, rfl, rfl, Or.inl (by decide), isolation (b := false) (m := 0)
    ⟨twoBrokersInit, twoBrokers_init, .single (.newMsg 0 3 0) trivial rfl⟩ rfl
    ((Run.of_path (K := KeepsLists) (P := fun s : Sys Bool (Fin 2) => 1 ∉ s.subscribers false) (step twoFifos)
      (List.replicate 4 (.work false) ++ List.replicate 6 (.svc 0)) rfl (by decide) (by decide)).mono
        fun _ _ h => ⟨h.1.moveOk, h.2⟩)⟩

/-- Subscriber 0 is moved to the other broker with the message in its FIFO. -/
def moveWithMessage : List (Act Bool (Fin 2)) :=
  List.replicate 4 (.work false) ++ [.removeUnlink 0, .removeClear 0, .addStart true 0, .addLink 0] ++
    List.replicate 4 (.svc 0)

def callbacks : Cfg (Fin 3) where
  rxType _ := .callback
  maxPubMsgId _ := 7
  maxMsgs _ := 0
  numAllocators := 0

def callbacksInit : Sys Bool (Fin 3) :=
  Sys.init (fun b => if b then [2] else [0, 1]) (fun x => some (x = 2)) (fun _ _ => true) fun x => x.val

theorem callbacks_init : Init callbacks callbacksInit :=
  init_of_lists _ _ (by decide) (by decide) (by unfold FifoLast; decide)

/-- The handler of callback 0 moves callback 1, which is next, to the other broker. -/
def moveInHandler : List (Act Bool (Fin 3)) :=
  List.replicate 4 (.work false) ++ [.removeUnlink 1, .removeClear 1, .addStart true 1, .addLink 1] ++
    List.replicate 2 (.work false)

theorem isolation_broken :
    (¬ ∀ (b : Bool) (m : Msg) (x : Fin 2) (s₀ s₁ s : Sys Bool (Fin 2)),
      Reachable (step twoFifos) (Init twoFifos) (fun _ _ => True) s₀ → step twoFifos s₀ (.publish b m) = .ok s₁ →
        Run (step twoFifos) (fun s _ => x ∉ s.subscribers b) s₁ s → ¬ Reached s x (s₀.newPkt b m)) ∧
    ¬ ∀ (b : Bool) (m : Msg) (x : Fin 3) (s₀ s₁ s : Sys Bool (Fin 3)),
      Reachable (step callbacks) (Init callbacks) (fun _ _ => True) s₀ → step callbacks s₀ (.publish b m) = .ok s₁ →
        Run (step callbacks) (fun s _ => x ∉ s.subscribers b) s₁ s → ¬ Reached s x (s₀.newPkt b m) := by
  constructor
  · intro h
    refine h false 0 1 _ _ _ ⟨twoBrokersInit, twoBrokers_init, .single (.newMsg 0 3 0) trivial rfl⟩ rfl
      (Run.of_exec (step twoFifos) moveWithMessage _ _ rfl (by decide)) (Or.inr (Or.inl (by decide)))
  · intro h
    refine h false 0 2 _ _ _ ⟨callbacksInit, callbacks_init, .single (.newMsg 0 3 0) trivial rfl⟩ rfl
      (Run.of_exec (step callbacks) moveInHandler _ _ rfl (by decide)) (Or.inl (by decide))

end ZephyrPubSub
