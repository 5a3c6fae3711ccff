import ZephyrPubSub.Trans
import ZephyrPubSub.Runs

/-!
# Waking the broker

One broker with its publish FIFO of `P`s, the `k_work_poll` item and
`publish_work_handler`, and any number of publishers. Of Zephyr it is assumed
that `k_work_poll_submit` queues the item at once if the FIFO has data and arms
it otherwise, and that `k_fifo_put` queues an armed item. The running system
shows every broker in a state of this component.
-/

namespace ZephyrPubSub

open Runs Function

variable {P : Type}

inductive PollItem where
  /-- Not submitted. -/
  | idle
  | armed
  /-- On the work queue. -/
  | queued
  deriving DecidableEq, Repr

inductive Handler (P : Type) where
  | out
  | get
  /-- In `process_msg`. -/
  | process (p : P)
  | reset
  | submit
  deriving DecidableEq, Repr

structure PollBroker (P : Type) where
  fifo : List P
  item : PollItem
  handler : Handler P
  /-- `publish_work_poll_event.state` is not `K_POLL_STATE_NOT_READY`. -/
  eventReady : Bool
  deriving DecidableEq, Repr

inductive PollStop where
  | blocked
  /-- The item is submitted while it is armed or queued. -/
  | pending
  deriving DecidableEq, Repr

inductive PollAct (P : Type) where
  | publish (p : P)
  /-- The work queue's thread. -/
  | work

def kFifoPut (p : P) (w : PollBroker P) : PollBroker P :=
  if w.item = .armed then { w with fifo := w.fifo ++ [p], item := .queued, eventReady := true }
  else { w with fifo := w.fifo ++ [p] }

def kWorkPollSubmit (w : PollBroker P) : Except PollStop (PollBroker P) :=
  if w.item = .idle then .ok { w with item := if w.fifo = [] then .armed else .queued }
  else .error .pending

/-- `pub_sub_init_broker` -/
def initBroker : Except PollStop (PollBroker P) := kWorkPollSubmit ⟨[], .idle, .out, false⟩

/-- The next statement of `publish_work_handler`, or its call when the item is queued. -/
def handlerStep (w : PollBroker P) : Except PollStop (PollBroker P) :=
  match w.handler with
  | .out => if w.item = .queued then .ok { w with item := .idle, handler := .get } else .error .blocked
  | .get =>
    match w.fifo with
    | [] => .ok { w with handler := .reset }
    | p :: ps => .ok { w with fifo := ps, handler := .process p }
  | .process _ => .ok { w with handler := .get }
  | .reset => .ok { w with eventReady := false, handler := .submit }
  | .submit => do
    let w ← kWorkPollSubmit w
    .ok { w with handler := .out }

def pollStep (w : PollBroker P) : PollAct P → Except PollStop (PollBroker P)
  | .publish p => .ok (kFifoPut p w)
  | .work => handlerStep w

/-! ## The invariant -/

/-- The item is submitted exactly while the handler is not running, and armed only on an empty FIFO. -/
structure Watched (w : PollBroker P) : Prop where
  armed : w.item = .armed → w.fifo = []
  idle : w.item = .idle ↔ w.handler ≠ .out
  notReady : w.item = .armed ∨ w.handler = .submit → w.eventReady = false

theorem watched_init {w : PollBroker P} (h : initBroker = .ok w) : Watched w := by
  cases h
  constructor
  · intro _
    rfl
  · simp
  · intro _
    rfl

theorem Watched.put {w : PollBroker P} (h : Watched w) (p : P) : Watched (kFifoPut p w) := by
  unfold kFifoPut
  split
  · rename_i ha
    have hi := h.idle
    rw [ha] at hi
    have hout : w.handler = .out := by simpa using hi
    exact ⟨by simp, by simp [hout], by simp [hout]⟩
  · rename_i ha
    exact ⟨fun e => absurd e ha, h.idle, h.notReady⟩

theorem Watched.handler {w w' : PollBroker P} (h : Watched w) (hs : handlerStep w = .ok w') : Watched w' := by
  have hi := h.idle
  unfold handlerStep at hs
  cases hh : w.handler with
  | out =>
    simp only [hh] at hs
    split at hs
    · cases hs
      exact ⟨by simp, by simp, by simp⟩
    · cases hs
  | get =>
    have hidle : w.item = .idle := hi.2 (by simp [hh])
    simp only [hh] at hs
    split at hs
    · cases hs
      exact ⟨by simp [hidle], by simp [hidle], by simp [hidle]⟩
    · cases hs
      exact ⟨by simp [hidle], by simp [hidle], by simp [hidle]⟩
  | process p =>
    have hidle : w.item = .idle := hi.2 (by simp [hh])
    simp only [hh] at hs
    cases hs
    exact ⟨by simp [hidle], by simp [hidle], by simp [hidle]⟩
  | reset =>
    have hidle : w.item = .idle := hi.2 (by simp [hh])
    simp only [hh] at hs
    cases hs
    exact ⟨by simp [hidle], by simp [hidle], fun _ => rfl⟩
  | submit =>
    have hidle : w.item = .idle := hi.2 (by simp [hh])
    have hready := h.notReady (Or.inr hh)
    simp only [hh, kWorkPollSubmit, if_pos hidle] at hs
    cases hs
    refine ⟨?_, ?_, fun _ => hready⟩
    · simp only
      split
      · intro _
        assumption
      · simp
    · simp only
      split <;> simp

theorem Watched.step {w w' : PollBroker P} {a : PollAct P} (h : Watched w) (hs : pollStep w a = .ok w') :
    Watched w' := by
  cases a with
  | publish p => cases hs; exact h.put p
  | work => exact h.handler hs

abbrev PollReachable (w : PollBroker P) : Prop :=
  Reachable pollStep (fun w => initBroker = .ok w) (fun _ _ => True) w

theorem watched_reachable {w : PollBroker P} (h : PollReachable w) : Watched w :=
  h.invariant (fun _ => watched_init) fun _ _ _ hw _ hs => hw.step hs

/-! ## Draining -/

abbrev WorkRun (w w' : PollBroker P) : Prop := Run pollStep (fun _ a => a = .work) w w'

theorem workRun_cons {w w₁ w' : PollBroker P} (hs : handlerStep w = .ok w₁) (h : WorkRun w₁ w') :
    WorkRun w w' := by
  have h₁ : WorkRun w w₁ := Run.single .work rfl hs
  exact h₁.trans h

theorem drain_get {l : List P} {w : PollBroker P} (hf : w.fifo = l) (hh : w.handler = .get) :
    ∃ w', WorkRun w w' ∧ w'.fifo = [] := by
  induction l generalizing w with
  | nil => exact ⟨w, .refl w, hf⟩
  | cons p l ih =>
    obtain ⟨w', hr, he⟩ := ih (w := { w with fifo := l, handler := .get }) rfl rfl
    have hget : handlerStep w = .ok { w with fifo := l, handler := .process p } := by simp only [handlerStep, hh, hf]
    exact ⟨w', workRun_cons hget (workRun_cons rfl hr), he⟩

theorem drain_queued {w : PollBroker P} (hi : w.item = .queued) (hh : w.handler = .out) :
    ∃ w', WorkRun w w' ∧ w'.fifo = [] := by
  obtain ⟨w', hr, he⟩ := drain_get (w := { w with item := .idle, handler := .get }) rfl rfl
  exact ⟨w', workRun_cons (by simp only [handlerStep, hh, hi, if_true]) hr, he⟩

theorem drain_submit {w : PollBroker P} (hi : w.item = .idle) (hh : w.handler = .submit) :
    ∃ w', WorkRun w w' ∧ w'.fifo = [] := by
  by_cases hf : w.fifo = []
  · exact ⟨w, .refl w, hf⟩
  · obtain ⟨w', hr, he⟩ := drain_queued (w := { w with item := .queued, handler := .out }) rfl rfl
    refine ⟨w', workRun_cons ?_ hr, he⟩
    simp only [handlerStep, hh, kWorkPollSubmit, if_pos hi, if_neg hf]
    rfl

theorem Watched.drain {w : PollBroker P} (h : Watched w) : ∃ w', WorkRun w w' ∧ w'.fifo = [] := by
  have hi := h.idle
  cases hh : w.handler with
  | out =>
    cases hit : w.item with
    | idle => exact absurd hh (hi.1 hit)
    | armed => exact ⟨w, .refl w, h.armed hit⟩
    | queued => exact drain_queued hit hh
  | get => exact drain_get rfl hh
  | process p =>
    obtain ⟨w', hr, he⟩ := drain_get (w := { w with handler := .get }) rfl rfl
    exact ⟨w', workRun_cons (by simp only [handlerStep, hh]) hr, he⟩
  | reset =>
    obtain ⟨w', hr, he⟩ := drain_submit (w := { w with eventReady := false, handler := .submit })
      (hi.2 (by simp [hh])) rfl
    exact ⟨w', workRun_cons (by simp only [handlerStep, hh]) hr, he⟩
  | submit => exact drain_submit (hi.2 (by simp [hh])) hh

/-- While the FIFO has data the handler is running or queued, the item is never submitted twice, and
what is published is taken out without another publish. -/
theorem no_lost_wakeup {w : PollBroker P} (h : PollReachable w) :
    (w.fifo ≠ [] → w.item = .queued ∨ w.handler ≠ .out) ∧ (∀ a, pollStep w a ≠ .error .pending) ∧
      ∃ w', WorkRun w w' ∧ w'.fifo = [] := by
  have hw := watched_reachable h
  refine ⟨?_, ?_, hw.drain⟩
  · intro hf
    cases hit : w.item with
    | idle => exact Or.inr (hw.idle.1 hit)
    | armed => exact absurd (hw.armed hit) hf
    | queued => exact Or.inl rfl
  · intro a ha
    cases a with
    | publish p => cases ha
    | work =>
      simp only [pollStep, handlerStep] at ha
      cases hh : w.handler with
      | out => simp only [hh] at ha; split at ha <;> cases ha
      | get => simp only [hh] at ha; split at ha <;> cases ha
      | process p => simp only [hh] at ha; cases ha
      | reset => simp only [hh] at ha; cases ha
      | submit =>
        have hidle : w.item = .idle := hw.idle.2 (by simp [hh])
        simp only [hh, kWorkPollSubmit, if_pos hidle] at ha
        cases ha

theorem no_lost_wakeup_late : ∃ w : PollBroker Nat, PollReachable w ∧ w.fifo = [1] ∧ w.item = .queued ∧
    (w.fifo ≠ [] → w.item = .queued ∨ w.handler ≠ .out) ∧ ∃ w', WorkRun w w' ∧ w'.fifo = [] := by
  have hr : PollReachable (⟨[1], .queued, .out, false⟩ : PollBroker Nat) := by
    refine ⟨_, rfl, Run.of_exec pollStep
      [.publish 0, .work, .work, .work, .work, .publish 1, .work, .work] _ _ rfl ?_⟩
    intro _ _
    trivial
  have h := no_lost_wakeup hr
  exact ⟨_, hr, rfl, rfl, h.1, h.2.2⟩

/-! ## The brokers of the running system -/

section
variable {B S : Type} {s s' : Sys B S}

def Work.item : Work B S → PollItem
  | .armed => .armed
  | .queued => .queued
  | _ => .idle

def Work.handler : Work B S → Handler (Pkt B)
  | .armed => .out
  | .queued => .out
  | .get => .get
  | .lock p _ => .process p
  | .scan p _ _ _ => .process p
  | .put p _ _ _ => .process p
  | .release p => .process p
  | .reset => .reset
  | .submit => .submit

/-- Broker `b` of the system is in state `w`. -/
structure Shows (s : Sys B S) (b : B) (w : PollBroker (Pkt B)) : Prop where
  fifo : w.fifo = s.fifo b
  item : w.item = (s.work b).item
  handler : w.handler = (s.work b).handler

/-- The component stands still or makes one step. -/
def Simulated (s' : Sys B S) (b : B) (w : PollBroker (Pkt B)) : Prop :=
  ∃ w', (w' = w ∨ ∃ a, pollStep w a = .ok w') ∧ Shows s' b w'

variable {b : B} {w w' : PollBroker (Pkt B)}

theorem Shows.stay (h : Shows s b w) (hf : s'.fifo b = s.fifo b) (hi : (s'.work b).item = (s.work b).item)
    (hh : (s'.work b).handler = (s.work b).handler) : Simulated s' b w :=
  ⟨w, Or.inl rfl, h.fifo.trans hf.symm, h.item.trans hi.symm, h.handler.trans hh.symm⟩

theorem Shows.work (w' : PollBroker (Pkt B)) (hs : handlerStep w = .ok w') (h : Shows s' b w') : Simulated s' b w :=
  ⟨w', Or.inr ⟨.work, hs⟩, h⟩

variable [DecidableEq B] [DecidableEq S] {c : Cfg S}

theorem shows_work (h : Shows s b w) (ht : Trans c s (.work b) s') : Simulated s' b w := by
  have hf := h.fifo
  have hi := h.item
  have hh := h.handler
  cases ht with
  | workQueued hw =>
    rw [hw] at hi hh
    refine Shows.work { w with item := .idle, handler := .get } ?_ ⟨hf, ?_, ?_⟩
    · simp only [handlerStep, hh, Work.handler, hi, Work.item, if_true]
    · simp [Work.item]
    · simp [Work.handler]
  | workGetNone hw hnil =>
    rw [hw] at hi hh
    rw [hnil] at hf
    refine Shows.work { w with handler := .reset } ?_ ⟨hf.trans hnil.symm, ?_, ?_⟩
    · simp only [handlerStep, hh, Work.handler, hf]
    · simp [hi, Work.item]
    · simp [Work.handler]
  | workGet hw hcons hid =>
    rename_i p ps id
    rw [hw] at hi hh
    rw [hcons] at hf
    refine Shows.work { w with fifo := ps, handler := .process p } ?_ ⟨?_, ?_, ?_⟩
    · simp only [handlerStep, hh, Work.handler, hf]
    · simp
    · simp [hi, Work.item]
    · simp [Work.handler]
  | workLock hw _ | scanEnd hw | scanSkip hw _ | scanCallback hw _ _ | scanMsgq hw _ _ _ | scanFifo hw _ _ _
  | put hw _ =>
    exact h.stay rfl (by simp [hw, Work.item]) (by simp [hw, Work.handler])
  | workRelease hw _ =>
    rw [hw] at hi hh
    refine Shows.work { w with handler := .get } ?_ ⟨hf, ?_, ?_⟩
    · simp only [handlerStep, hh, Work.handler]
    · simp [hi, Work.item]
    · simp [Work.handler]
  | workReset hw =>
    rw [hw] at hi hh
    refine Shows.work { w with eventReady := false, handler := .submit } ?_ ⟨hf, ?_, ?_⟩
    · simp only [handlerStep, hh, Work.handler]
    · simp [hi, Work.item]
    · simp [Work.handler]
  | workSubmit hw =>
    rw [hw] at hi hh
    refine Shows.work { w with item := if w.fifo = [] then .armed else .queued, handler := .out } ?_
      ⟨hf, ?_, ?_⟩
    · simp only [handlerStep, hh, Work.handler, kWorkPollSubmit, hi, Work.item, if_true]
      rfl
    · simp only [hf, update_self]
      split <;> rfl
    · simp only [update_self]
      split <;> rfl
  | mem hm => cases hm

theorem work_frame {b₁ : B} (hne : b ≠ b₁) (ht : Trans c s (.work b₁) s') :
    s'.fifo b = s.fifo b ∧ s'.work b = s.work b := by
  cases ht with
  | workGet => exact ⟨update_of_ne hne .., update_of_ne hne ..⟩
  | mem hm => cases hm
  | _ => exact ⟨rfl, update_of_ne hne ..⟩

theorem shows_step {a : Act B S} (h : Shows s b w) (ht : Trans c s a s') : Simulated s' b w := by
  cases a with
  | work b₁ =>
    by_cases hb : b = b₁
    · subst hb
      exact shows_work h ht
    · obtain ⟨hf, hw⟩ := work_frame hb ht
      exact h.stay hf (congrArg _ hw) (congrArg _ hw)
  | publish b₁ m =>
    cases ht with
    | publish ho =>
      by_cases hb : b = b₁
      · subst hb
        refine ⟨kFifoPut ⟨m, s.nextTag, some b⟩ w, Or.inr ⟨.publish _, rfl⟩, ?_⟩
        have hi := h.item
        have hh := h.handler
        unfold kFifoPut
        cases hw : s.work b <;> rw [hw] at hi hh <;> simp only [Work.item] at hi <;>
          constructor <;> simp [hi, hh, h.fifo, wake, Work.item, Work.handler]
      · have hw : update s.work b₁ (wake (s.work b₁)) b = s.work b := update_of_ne hb ..
        exact h.stay (update_of_ne hb ..) (congrArg _ hw) (congrArg _ hw)
    | mem hm => cases hm
  | _ => cases ht <;> exact h.stay rfl rfl rfl

omit [DecidableEq B] [DecidableEq S] in
theorem shows_init (h : Init c s) : ∃ w, initBroker = .ok w ∧ Shows s b w := by
  refine ⟨_, rfl, (h.fifo b).symm, ?_, ?_⟩
  · rw [h.work]
    rfl
  · rw [h.work]
    rfl

theorem shows_reachable {G : Sys B S → Act B S → Prop} (h : Reachable (step c) (Init c) G s) (b : B) :
    ∃ w, PollReachable w ∧ Shows s b w := by
  obtain ⟨s₀, h₀, hr⟩ := h
  induction hr with
  | refl =>
    obtain ⟨w, hw, hsh⟩ := shows_init h₀ (b := b)
    exact ⟨w, ⟨w, hw, .refl w⟩, hsh⟩
  | tail a _ _ hs ih =>
    obtain ⟨w, hw, hsh⟩ := ih
    obtain ⟨w', hw', hsh'⟩ := shows_step hsh (step_trans hs)
    rcases hw' with rfl | ⟨a', ha'⟩
    · exact ⟨w', hw, hsh'⟩
    · exact ⟨w', hw.tail trivial ha', hsh'⟩

/-- An armed work item has nothing to do. -/
theorem fifo_of_armed {G : Sys B S → Act B S → Prop} (h : Reachable (step c) (Init c) G s) {b : B}
    (ha : s.work b = .armed) : s.fifo b = [] := by
  obtain ⟨w, hw, hsh⟩ := shows_reachable h b
  rw [← hsh.fifo]
  apply (watched_reachable hw).armed
  rw [hsh.item, ha]
  rfl

end

end ZephyrPubSub
