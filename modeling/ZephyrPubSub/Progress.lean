import ZephyrPubSub.Delivery
import ZephyrPubSub.RefCount
import ZephyrPubSub.WakeUp

/-!
# Who can go on

A dispatch holds the list mutex while it waits for room in a msgq, and a FIFO
subscriber's thread waits for that mutex. Whoever waits is followed to somebody
who does not: from the mutex to its owner, from a full msgq to the thread that
services it. The way ends when the brokers can be numbered so that it goes down.
-/

namespace ZephyrPubSub

open Function Runs

section
variable {B S T : Type} [DecidableEq B] [DecidableEq S] {c : Cfg S} {s s' : Sys B S}

def Svc.isIdle : Svc B S → Bool
  | .idle => true
  | _ => false

def Act.serviced : Act B S → Option S
  | .svc x => some x
  | _ => none

/-- A service thread takes a message for one of its subscribers only when it is in no other call. -/
def OneAtATime (thread : S → T) (s : Sys B S) (a : Act B S) : Prop :=
  ∀ x ∈ a.serviced, (s.svc x).isIdle = true → ∀ y, thread y = thread x → (s.svc y).isIdle = true

omit [DecidableEq B] [DecidableEq S] in
theorem OneAtATime.other {thread : S → T} {s : Sys B S} {a : Act B S} (h : a.serviced = none) :
    OneAtATime thread s a := by
  intro x hx
  rw [h] at hx
  cases hx

omit [DecidableEq B] [DecidableEq S] in
theorem OneAtATime.serves {thread : S → T} {s : Sys B S} {x : S}
    (h : (s.svc x).isIdle = true → ∀ y, thread y = thread x → (s.svc y).isIdle = true) :
    OneAtATime thread s (.svc x) := by
  intro x' hx
  cases hx
  exact h

/-- The step does not wait. A message may have all of its 255 references in use. -/
def Goes (c : Cfg S) (s : Sys B S) (a : Act B S) : Prop :=
  (∃ s', step c s a = .ok s') ∨ step c s a = .error .refOverflow

def Alive (c : Cfg S) (thread : S → T) (s : Sys B S) : Prop :=
  ∃ a : Act B S, a.ofThread = true ∧ OneAtATime thread s a ∧ Goes c s a

def Pending (s : Sys B S) : Prop :=
  (∃ b, s.fifo b ≠ []) ∨ (∃ b, (s.work b).pkt ≠ none) ∨ ∃ x, s.queue x ≠ []

/-- A thread that services a msgq subscriber of a broker services FIFO subscribers of lower brokers only. -/
def Ordered (c : Cfg S) (thread : S → T) (order : B → Nat) (s : Sys B S) : Prop :=
  ∀ x y b b', thread x = thread y → c.rxType x = .fifo → c.rxType y = .msgq →
    x ∈ s.subscribers b → y ∈ s.subscribers b' → order b < order b'

/-! ## Waiting is all that stops a thread -/

variable [Fintype B] [Fintype S]

theorem mem_error_goes (ha : Accounted c s) {a : Act B S} {e : Stop} (he : step c s a = .error e)
    (hm : e.ofMem = true) : Goes c s a := by
  obtain ⟨hfree, hunder, _⟩ := ha.failOk he
  cases e with
  | refOverflow => exact Or.inr he
  | useAfterFree => exact absurd rfl hfree
  | refUnderflow => exact absurd rfl hunder
  | _ => cases hm

theorem work_goes (ha : Accounted c s) {b : B} (hw : ¬ WorkWaits c s b) : Goes c s (.work b) := by
  cases he : step c s (.work b) with
  | ok s' => exact Or.inl ⟨s', he⟩
  | error e =>
    rcases workStep_error he with hm | ⟨_, hw'⟩
    · exact mem_error_goes ha he hm
    · exact absurd hw' hw

theorem svc_goes (ha : Accounted c s) (hr : Routed c s) {x : S} (hv : ¬ SvcWaits c s x) : Goes c s (.svc x) := by
  cases he : step c s (.svc x) with
  | ok s' => exact Or.inl ⟨s', he⟩
  | error e =>
    obtain ⟨hb, hf⟩ := hr.attached.safe hr.sound hr.tail x
    rcases svcStep_error he with hm | ⟨_, hv'⟩ | ⟨rfl, _⟩ | ⟨rfl, _⟩
    · exact mem_error_goes ha he hm
    · exact absurd hv' hv
    · exact absurd he hf
    · exact absurd he hb

/-! ## Following who waits -/

/-- What is known of every state of a run with fixed lists. -/
structure Steady (c : Cfg S) (s : Sys B S) : Prop where
  routed : Routed c s
  accounted : Accounted c s
  settled : Settled s
  woken : ∀ b, s.work b = .armed → s.fifo b = []

theorem steady_run (h : Reachable (step c) (Init c) (fun _ a => KeepsLists a) s) : Steady c s := by
  have hrs : Routed c s ∧ Settled s := by
    apply h.invariant (I := fun s => Routed c s ∧ Settled s)
    · intro s hi
      exact ⟨routed_init hi, settled_init hi⟩
    · intro s a s' ⟨hr, hs⟩ hk hstep
      have ht := step_trans hstep
      exact ⟨hr.trans ht (hs.removal hk), hs.trans hr.sound ht hk⟩
  exact ⟨hrs.1, accounted_reachable (h.mono fun _ _ _ => trivial), hrs.2, fun _ => fifo_of_armed h⟩

variable {thread : S → T} {order : B → Nat}

theorem Steady.work_alive (h : Steady c s) {b : B} (hw : ¬ WorkWaits c s b) : Alive c thread s :=
  ⟨.work b, rfl, .other rfl, work_goes h.accounted hw⟩

/-- A thread in the middle of a call goes on, or waits for a mutex in the list of a FIFO subscriber. -/
theorem Steady.call_alive (h : Steady c s) {x : S} (hx : (s.svc x).isIdle = false)
    (hlock : ∀ b, c.rxType x = .fifo → x ∈ s.subscribers b → s.mutex b ≠ none → Alive c thread s) :
    Alive c thread s := by
  by_cases hv : SvcWaits c s x
  · cases hvx : s.svc x with
    | lock p id b =>
      have hrx := (h.routed.sound.carried.svc_at hvx).2.2.1
      unfold SvcWaits at hv
      rw [hvx] at hv
      exact hlock b hrx (h.settled.lock x p id b hvx) hv
    | idle => rw [hvx] at hx; cases hx
    | _ => unfold SvcWaits at hv; rw [hvx] at hv; exact hv.elim
  · refine ⟨.svc x, rfl, .serves fun hi => ?_, svc_goes h.accounted h.routed hv⟩
    rw [hx] at hi
    cases hi

theorem Steady.queue_alive (h : Steady c s) {x : S} (hq : s.queue x ≠ [])
    (hlock : ∀ y b, thread y = thread x → c.rxType y = .fifo → y ∈ s.subscribers b → s.mutex b ≠ none →
      Alive c thread s) : Alive c thread s := by
  by_cases hidle : ∀ y, thread y = thread x → (s.svc y).isIdle = true
  · refine ⟨.svc x, rfl, .serves fun _ => hidle, svc_goes h.accounted h.routed ?_⟩
    intro hv
    obtain ⟨p, hp⟩ := List.exists_mem_of_ne_nil _ hq
    have hrx := (h.routed.sound.carried.queue x p hp).2.2
    have hx := hidle x rfl
    cases hvx : s.svc x with
    | idle =>
      unfold SvcWaits at hv
      rw [hvx] at hv
      exact hv.elim hrx hq
    | _ => rw [hvx] at hx; cases hx
  · simp only [not_forall] at hidle
    obtain ⟨y, hy, hyi⟩ := hidle
    exact h.call_alive (Bool.eq_false_iff.mpr hyi) fun b => hlock y b hy

theorem Steady.walk_alive (h : Steady c s) {b : B} {x : S} (hx : (s.svc x).walking = some b) : Alive c thread s := by
  cases hvx : s.svc x with
  | walk p id b' n =>
    refine ⟨.svc x, rfl, .serves fun hi => ?_, svc_goes h.accounted h.routed fun hv => ?_⟩
    · rw [hvx] at hi; cases hi
    · unfold SvcWaits at hv; rw [hvx] at hv; exact hv
  | _ => rw [hvx] at hx; cases hx

/-- The owner of a mutex goes on, or waits for somebody who does. -/
theorem Steady.owner_alive (h : Steady c s) (hcap : ∀ x, c.rxType x = .msgq → 0 < c.maxMsgs x)
    (hord : Ordered c thread order s) (b : B) (hm : s.mutex b ≠ none) : Alive c thread s := by
  -- on the number of the broker: a full msgq leads to the mutex of a lower one
  induction hn : order b using Nat.strong_induction_on generalizing b with
  | _ n ih =>
    have hwf := h.routed.sound.wf
    obtain ⟨o, ho⟩ := Option.ne_none_iff_exists'.mp hm
    cases o with
    | svc x => exact h.walk_alive ((hwf.locked.svc_iff b x).mp ho)
    | work =>
      have hscan := (hwf.locked.work_iff b).mp ho
      cases hwb : s.work b with
      | scan =>
        apply h.work_alive (b := b)
        unfold WorkWaits
        rw [hwb]
        exact id
      | put p id y tmp =>
        have hrx := (h.routed.sound.carried.work_at hwb).2.2.2
        have hy := h.settled.put b p id y tmp hwb
        by_cases hq : s.queue y = []
        · -- there is room
          apply h.work_alive (b := b)
          unfold WorkWaits
          rw [hwb]
          simpa [hq, Nat.pos_iff_ne_zero] using hcap y hrx
        · apply h.queue_alive hq
          intro z b' hz hrz hzb hm'
          exact ih (order b') (hn ▸ hord z y b' b hz hrz hrx hzb hy) b' hm' rfl
      | _ => rw [hwb] at hscan; cases hscan

theorem Steady.dispatch_alive (h : Steady c s) (hcap : ∀ x, c.rxType x = .msgq → 0 < c.maxMsgs x)
    (hord : Ordered c thread order s) {b : B} (hb : s.work b ≠ .armed) : Alive c thread s := by
  by_cases hw : WorkWaits c s b
  · apply h.owner_alive hcap hord b
    unfold WorkWaits at hw
    cases hwb : s.work b with
    | armed => exact absurd hwb hb
    | lock => rw [hwb] at hw; exact hw
    | put => rw [h.routed.sound.wf.locked.work hwb rfl]; simp
    | _ => rw [hwb] at hw; exact hw.elim
  · exact h.work_alive hw

/-- With fixed lists and room in every msgq, as long as a message is pending the
work item of a broker or a service thread goes on, provided no thread services
both a msgq and a FIFO subscriber of one broker, and with several brokers the
threads that mix the types go down in a numbering of the brokers. -/
theorem never_stuck (h : Reachable (step c) (Init c) (fun _ a => KeepsLists a) s)
    (hcap : ∀ x, c.rxType x = .msgq → 0 < c.maxMsgs x) (hord : Ordered c thread order s) (hp : Pending s) :
    Alive c thread s := by
  have hs := steady_run h
  rcases hp with ⟨b, hf⟩ | ⟨b, hw⟩ | ⟨x, hq⟩
  · apply hs.dispatch_alive hcap hord (b := b)
    intro ha
    exact hf (hs.woken b ha)
  · apply hs.dispatch_alive hcap hord (b := b)
    intro ha
    exact hw (by rw [ha]; rfl)
  · apply hs.queue_alive hq
    intro y b _ _ _ hm
    exact hs.owner_alive hcap hord b hm

instance [DecidableEq T] (s : Sys B S) (a : Act B S) : Decidable (OneAtATime thread s a) :=
  inferInstanceAs (Decidable (∀ x ∈ a.serviced, _))

end

instance {B S : Type} (c : Cfg S) (s : Sys B S) (b : B) : Decidable (WorkWaits c s b) := by
  unfold WorkWaits; split <;> infer_instance

def msgqFull : List (Act Unit (Fin 2)) :=
  [.newMsg 0 3 0, .newMsg 1 3 0, .publish () 0] ++ List.replicate 7 (.work ()) ++
    [.publish () 1, .svc 1, .svc 1] ++ List.replicate 3 (.work ())

theorem never_stuck_ownThreads : ∃ s, Runs.exec (step msgqAndFifo) msgqAndFifoInit msgqFull = .ok s ∧
    WorkWaits msgqAndFifo s () ∧ Alive msgqAndFifo id s := by
  have hord : ∀ s : Sys Unit (Fin 2), Ordered msgqAndFifo id (fun _ => 0) s := by
    rintro s x y b b' (rfl : x = y) hf hq
    rw [hf] at hq
    cases hq
  exact ⟨_, rfl, by decide, never_stuck ⟨msgqAndFifoInit, msgqAndFifo_init,
    Run.of_acts (K := KeepsLists) (step msgqAndFifo) msgqFull rfl (by decide)⟩ (by decide) (hord _)
    (Or.inr (Or.inr ⟨0, by decide⟩))⟩

/-- One thread services both: it waits for the mutex, whose owner waits for room in the msgq. -/
theorem stuck_sharedThread : ¬ ∀ s : Sys Unit (Fin 2),
    Reachable (step msgqAndFifo) (Init msgqAndFifo)
      (fun s a => KeepsLists a ∧ OneAtATime (fun _ => ()) s a) s →
    Pending s → Alive msgqAndFifo (fun _ => ()) s := by
  intro h
  have hstuck : ∃ s, Runs.exec (step msgqAndFifo) msgqAndFifoInit msgqFull = .ok s ∧ s.queue 0 ≠ [] ∧
      step msgqAndFifo s (.work ()) = .error .blocked ∧ (s.svc 0).isIdle = true ∧
      step msgqAndFifo s (.svc 1) = .error .blocked ∧ (s.svc 1).isIdle = false :=
    ⟨_, rfl, by decide, rfl, rfl, rfl, rfl⟩
  obtain ⟨s, hs, hq, hwork, hidle, hsvc, hcall⟩ := hstuck
  obtain ⟨a, ha, hone, hgo⟩ := h s ⟨msgqAndFifoInit, msgqAndFifo_init,
    Run.of_exec (step msgqAndFifo) msgqFull _ s hs (by decide)⟩ (Or.inr (Or.inr ⟨0, hq⟩))
  cases a with
  | work b => rcases hgo with ⟨s', hgo⟩ | hgo <;> rw [hwork] at hgo <;> cases hgo
  | svc x =>
    match x with
    | 0 => rw [hone _ rfl hidle 1 rfl] at hcall; cases hcall
    | 1 => rcases hgo with ⟨s', hgo⟩ | hgo <;> rw [hsvc] at hgo <;> cases hgo
  | _ => cases ha

end ZephyrPubSub
