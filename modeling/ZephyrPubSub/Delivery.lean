import ZephyrPubSub.Relay
import ZephyrPubSub.Runs
import Mathlib.Data.Fintype.Basic

/-!
# Who is handed a message, and how often

The routing results for one publication `p` of broker `b`. With fixed lists
each subscriber gets it exactly once or not at all. With removals and re-adds
that stays true under a condition on the step that changes the list, and fails
without it.
-/

namespace ZephyrPubSub

open Lists Function Runs

section
variable {B S : Type}

def Work.pkt : Work B S → Option (Pkt B)
  | .lock p _ | .scan p _ _ _ | .put p _ _ _ | .release p => some p
  | _ => none

def Svc.pkt : Svc B S → Option (Pkt B)
  | .got p _ | .lock p _ _ | .walk p _ _ _ | .ready p _ | .running p => some p
  | .idle => none

def InFlight (s : Sys B S) (p : Pkt B) : Prop :=
  (∃ b, p ∈ s.fifo b) ∨ (∃ b, (s.work b).pkt = some p) ∨ (∃ x, p ∈ s.queue x) ∨ ∃ x, (s.svc x).pkt = some p

variable [DecidableEq B] [DecidableEq S] {c : Cfg S} {s s' : Sys B S}

structure Sound (c : Cfg S) (s : Sys B S) : Prop where
  wf : Wf s
  carried : Carried c s
  placed : Placed c s

theorem Sound.trans {a : Act B S} (h : Sound c s) (ht : Trans c s a s') (hm : MoveOk c s a) : Sound c s' :=
  ⟨h.wf.trans ht, h.carried.trans ht, h.placed.trans h.wf h.carried ht hm⟩

omit [DecidableEq B] in
theorem sound_init (h : Init c s) : Sound c s := ⟨wf_init h, carried_init h, placed_init h⟩

/-! ## One publication -/

variable {b : B} {p : Pkt B} {x : S} {i : MsgId} {o : Option (Site S)}

/-- Publication `p` of broker `b` with message id `i`, and the site that offers it next. -/
structure Way (c : Cfg S) (s : Sys B S) (b : B) (p : Pkt B) (i : MsgId) (o : Option (Site S)) : Prop where
  sound : Sound c s
  src : p.src = some b
  known : Known s p
  id : s.mem.idOf p.msg = i
  inv : Track.Inv c.rxType (track s b p) o

theorem Way.inFlight (h : Way c s b p i o) (ho : o ≠ none) : InFlight s p := by
  have ha := h.inv.at_
  cases o with
  | none => exact absurd rfl ho
  | some u =>
    cases u with
    | pub =>
      rcases ha.pub with ⟨_, h1⟩ | ⟨hn, _⟩
      · exact Or.inl ⟨b, List.count_pos_iff.mp (by simp only [track] at h1; omega)⟩
      · exact absurd rfl hn
    | work =>
      rcases ha.work with ⟨_, h1⟩ | ⟨hn, _⟩
      · refine Or.inr (Or.inl ⟨b, ?_⟩)
        simp only [track] at h1
        cases hw : s.work b with
        | lock q id => by_cases hq : q = p <;> simp [hw, Work.pos, Work.pkt, hq] at h1 ⊢
        | scan q id y z => by_cases hq : q = p <;> simp [hw, Work.pos, Work.pkt, hq] at h1 ⊢
        | put q id y z => by_cases hq : q = p <;> simp [hw, Work.pos, Work.pkt, hq] at h1 ⊢
        | _ => simp [hw, Work.pos] at h1
      · exact absurd rfl hn
    | sub z =>
      have h1 := ha.holder_one (ha.fifo z rfl) rfl
      simp only [track] at h1
      by_cases hq : p ∈ s.queue z
      · exact Or.inr (Or.inr (Or.inl ⟨z, hq⟩))
      · rw [List.count_eq_zero.mpr hq] at h1
        refine Or.inr (Or.inr (Or.inr ⟨z, ?_⟩))
        cases hv : s.svc z with
        | got q id => by_cases hq : q = p <;> simp [hv, Svc.pos, Svc.pkt, SvcPos.relays, hq] at h1 ⊢
        | lock q id b' => by_cases hq : q = p <;> simp [hv, Svc.pos, Svc.pkt, SvcPos.relays, hq] at h1 ⊢
        | walk q id b' n => by_cases hq : q = p <;> simp [hv, Svc.pos, Svc.pkt, SvcPos.relays, hq] at h1 ⊢
        | ready q id => by_cases hq : q = p <;> simp [hv, Svc.pos, SvcPos.relays, hq] at h1
        | _ => simp [hv, Svc.pos, SvcPos.relays] at h1

theorem got_of_gone (h : ¬ InFlight s p) (x : S) : (track s b p).got x = timesHanded s.log x p := by
  simp only [InFlight, not_or, not_exists] at h
  obtain ⟨_, hw, hq, hv⟩ := h
  have h₁ : (s.queue x).count p = 0 := List.count_eq_zero.mpr (hq x)
  have h₂ : (s.svc x).pos p = none := by
    have := hv x
    cases hvx : s.svc x with
    | idle => rfl
    | running => rfl
    | _ => rw [hvx] at this; simp only [Svc.pkt, Option.some.injEq] at this; simp [Svc.pos, this]
  have h₃ : WorkPos.putting x ((s.work b).pos p) = 0 := by
    have := hw b
    cases hwb : s.work b with
    | put q id y z =>
      rw [hwb] at this
      simp only [Work.pkt, Option.some.injEq] at this
      simp [Work.pos, this, WorkPos.putting]
    | lock q id => by_cases hq : q = p <;> simp [Work.pos, hq, WorkPos.putting]
    | scan q id y z => by_cases hq : q = p <;> simp [Work.pos, hq, WorkPos.putting]
    | _ => rfl
  simp [Track.got, track, h₁, h₂, h₃]

theorem handed_le_got (s : Sys B S) (b : B) (p : Pkt B) (x : S) : timesHanded s.log x p ≤ (track s b p).got x := by
  simp only [Track.got, track]
  omega

theorem Way.step {a : Act B S} {stay : S → Prop} (h : Way c s b p i o) (ht : Trans c s a s') (hm : MoveOk c s a)
    (hl : s'.subscribers b ≠ s.subscribers b → (track s b p).RelistOk c.rxType stay (s'.subscribers b)) :
    ∃ o', Way c s' b p i o' ∧
      Sweep.Step (fun x => s.wants c x i) stay ((track s b p).view o) ((track s' b p).view o') := by
  have hstep := trans_track h.sound.wf h.sound.carried h.sound.placed ht h.src h.known.2 hl
  obtain ⟨o', hi, hsw⟩ := hstep.sweep h.inv
  have l := trans_later ht
  rw [h.id] at hsw
  exact ⟨o', ⟨h.sound.trans ht hm, h.src, l.known h.known, (l.id h.known).trans h.id, hi⟩, hsw⟩

theorem way_publish {m : Msg} {s₀ s₁ : Sys B S} (h : Sound c s₀)
    (hp : ZephyrPubSub.step c s₀ (.publish b m) = .ok s₁) :
    Way c s₁ b ⟨m, s₀.nextTag, some b⟩ (s₀.mem.idOf m) (some .pub) := by
  have ht := step_trans hp
  cases ht with
  | mem hμ => cases hμ
  | publish ho =>
    have hc := h.carried
    have hnew : ∀ q : Pkt B, Known s₀ q → q ≠ ⟨m, s₀.nextTag, some b⟩ := fun q hq e => by
      have := hq.2; rw [e] at this; exact Nat.lt_irrefl _ this
    have hfifo : (s₀.fifo b).count ⟨m, s₀.nextTag, some b⟩ = 0 :=
      List.count_eq_zero.mpr fun hm => hnew _ (hc.fifo b _ hm).1 rfl
    have hqueue : ∀ x, (s₀.queue x).count ⟨m, s₀.nextTag, some b⟩ = 0 := fun x =>
      List.count_eq_zero.mpr fun hm => hnew _ (hc.queue x _ hm).1 rfl
    have hsvc : ∀ x, (s₀.svc x).pos (⟨m, s₀.nextTag, some b⟩ : Pkt B) = none := by
      intro x
      have hx := hc.svc x
      cases hv : s₀.svc x with
      | idle => rfl
      | running q => rfl
      | got q id => rw [hv] at hx; exact if_neg (hnew q hx.1.1)
      | lock q id b' => rw [hv] at hx; exact if_neg (hnew q hx.1.1)
      | walk q id b' n => rw [hv] at hx; exact if_neg (hnew q hx.1.1)
      | ready q id => rw [hv] at hx; exact if_neg (hnew q hx.1.1)
    have hwork : (wake (s₀.work b)).pos (⟨m, s₀.nextTag, some b⟩ : Pkt B) = none := by
      have hx := hc.work b
      cases hv : s₀.work b with
      | lock q id => rw [hv] at hx; exact if_neg (hnew q hx.1.1)
      | scan q id y z => rw [hv] at hx; exact if_neg (hnew q hx.1.1)
      | put q id y z => rw [hv] at hx; exact if_neg (hnew q hx.1.1)
      | _ => rfl
    have hlog : ∀ x, timesHanded s₀.log x ⟨m, s₀.nextTag, some b⟩ = 0 := fun x =>
      List.count_eq_zero.mpr fun hm => hnew _ (hc.log _ hm) rfl
    have hgot : ∀ x, (track { s₀ with
        mem := s₀.mem.transfer m
        fifo := update s₀.fifo b (s₀.fifo b ++ [⟨m, s₀.nextTag, some b⟩])
        work := update s₀.work b (wake (s₀.work b))
        nextTag := s₀.nextTag + 1
        log := s₀.log ++ [.published ⟨m, s₀.nextTag, some b⟩] } b ⟨m, s₀.nextTag, some b⟩).got x = 0 := by
      intro x
      simp only [Track.got, track, count_published, hqueue, hsvc, hlog, update_self, hwork, WorkPos.putting]
      rfl
    refine ⟨h.trans (.publish ho) trivial, rfl, known_new (hc.owned m ho) rfl, rfl, ?_, h.wf.linked.nodup b,
      fun _ => hgot, h.wf.linked.nodup b, fun x _ => hgot x, fun x => by simp only [Track.view, hgot]; omega⟩
    refine ⟨Or.inl ⟨rfl, by simp [track, hfifo]⟩, Or.inr ⟨by simp, by simp [track, hwork]⟩, fun x _ => ?_, by simp⟩
    exact Or.inr ⟨by simp, by simp [track, hqueue, hsvc, SvcPos.relays]⟩

theorem Way.todo_inFlight (h : Way c s b p i o) (hx : x ∈ (track s b p).todo o) : InFlight s p := by
  refine h.inFlight fun ho => ?_
  subst ho
  cases hx

theorem Way.gone (h : Way c s b p i o) (hg : ¬ InFlight s p) : o = none := by
  by_contra ho
  exact hg (h.inFlight ho)

/-! ## Fixed lists -/

def Act.keepsLists : Act B S → Bool
  | .addStart .. | .addLink _ | .removeUnlink _ | .removeClear _ => false
  | _ => true

def KeepsLists (a : Act B S) : Prop := a.keepsLists = true

instance (a : Act B S) : Decidable (KeepsLists a) := inferInstanceAs (Decidable (_ = true))

theorem lists_kept {a : Act B S} (ht : Trans c s a s') (hk : KeepsLists a) :
    s'.subscribers = s.subscribers ∧ s'.admin = s.admin ∧ s'.broker = s.broker := by
  cases ht with
  | addStart | addLink | removeUnlink | removeClear => exact absurd hk Bool.false_ne_true
  | _ => exact ⟨rfl, rfl, rfl⟩

omit [DecidableEq B] [DecidableEq S] in
theorem KeepsLists.moveOk {a : Act B S} (hk : KeepsLists a) : MoveOk c s a := by
  cases a with
  | addLink => exact absurd hk Bool.false_ne_true
  | _ => trivial

/-- No subscriber is being added or removed, the mutex a FIFO subscriber waits
for is that of the list it is in, and a dispatch is at subscribers of its list. -/
structure Settled (s : Sys B S) : Prop where
  admin : ∀ x, s.admin x = .idle
  lock : ∀ x p id b, s.svc x = .lock p id b → x ∈ s.subscribers b
  scan : ∀ b p id x call, s.work b = .scan p id (some x) call → x ∈ s.subscribers b
  put : ∀ b p id x tmp, s.work b = .put p id x tmp → x ∈ s.subscribers b

omit [DecidableEq B] [DecidableEq S] in
theorem settled_init (h : Init c s) : Settled s := by
  refine ⟨h.admin, ?_, ?_, ?_⟩
  · intro x p id b hv; rw [h.svc] at hv; cases hv
  · intro b p id x call hw; rw [h.work] at hw; cases hw
  · intro b p id x tmp hw; rw [h.work] at hw; cases hw

theorem Settled.trans {a : Act B S} (h : Settled s) (hs : Sound c s) (ht : Trans c s a s') (hk : KeepsLists a) :
    Settled s' := by
  obtain ⟨hl, hadm, _⟩ := lists_kept ht hk
  refine ⟨fun x => by rw [hadm]; exact h.admin x, ?_, ?_, ?_⟩
  · intro x p id b hv
    rw [hl]
    by_cases ha : a = .svc x
    · subst ha
      cases ht with
      | gotPublic _ _ hb =>
        simp only [update_self, Svc.lock.injEq] at hv
        obtain ⟨_, _, rfl⟩ := hv
        exact (hs.wf.linked.mem_iff _ x).mpr ⟨h.admin x, hb⟩
      | mem => exact h.lock x p id b hv
      | _ => simp at hv
    · rw [svc_frame ht ha] at hv
      exact h.lock x p id b hv
  · intro b p id x call hwk
    rw [hl]
    exact (hs.placed.pointer hs.wf ht hwk).elim (h.scan b p id x call) And.right
  · intro b p id x tmp hwk
    rw [hl]
    rcases put_of_trans ht hwk with hold | ⟨_, _, call, hold⟩
    · exact h.put b p id x tmp hold
    · exact h.scan b p id x call hold

/-- A walk down the list from a FIFO subscriber only meets FIFO subscribers. -/
structure FifoTail (c : Cfg S) (s : Sys B S) : Prop where
  lists : ∀ b, FifoLast c.rxType (s.subscribers b)
  walk : ∀ x p id b n, s.svc x = .walk p id b (some n) → c.rxType n = .fifo

omit [DecidableEq B] in
theorem FifoTail.next (h : FifoTail c s) (hw : Wf s) {x y : S} (hx : c.rxType x = .fifo)
    (hy : s.nextSub x = some y) : c.rxType y = .fifo := by
  by_cases hl : ∃ b, x ∈ s.subscribers b
  · obtain ⟨b, hb⟩ := hl
    rw [hw.linked.nextSub hb] at hy
    exact (h.lists b).of_after c.rxType hx (List.mem_of_mem_head? hy)
  · rw [hw.linked.unlinked fun b hb => hl ⟨b, hb⟩] at hy
    cases hy

theorem FifoTail.walk_trans {a : Act B S} (h : FifoTail c s) (hw : Wf s) (hc : Carried c s) (ht : Trans c s a s')
    {x n : S} {p : Pkt B} {id : MsgId} {b : B} (hv : s'.svc x = .walk p id b (some n)) : c.rxType n = .fifo := by
  by_cases ha : a = .svc x
  · subst ha
    cases ht with
    | svcLock hx _ =>
      simp only [update_self, Svc.walk.injEq] at hv
      exact h.next hw (hc.svc_at hx).2.2.1 hv.2.2.2
    | walkSkip hx _ =>
      simp only [update_self, Svc.walk.injEq] at hv
      exact h.next hw (h.walk x _ _ _ _ hx) hv.2.2.2
    | mem => exact h.walk x p id b n hv
    | _ => simp at hv
  · rw [svc_frame ht ha] at hv
    exact h.walk x p id b n hv

theorem FifoTail.trans {a : Act B S} (h : FifoTail c s) (hs : Sound c s) (ht : Trans c s a s')
    (hl : ∀ b, FifoLast c.rxType (s'.subscribers b)) : FifoTail c s' :=
  ⟨hl, fun _ _ _ _ _ hv => h.walk_trans hs.wf hs.carried ht hv⟩

omit [DecidableEq B] [DecidableEq S] in
theorem fifoTail_init (h : Init c s) : FifoTail c s :=
  ⟨h.fifoLast, fun x p id b n hv => by rw [h.svc] at hv; cases hv⟩

/-- A public message waits only at a subscriber that is in a list. -/
def Attached (c : Cfg S) (s : Sys B S) : Prop :=
  ∀ x p, Has Svc.unrouted c s x p → p.src ≠ none → ∃ b, x ∈ s.subscribers b

omit [DecidableEq B] [DecidableEq S] in
theorem attached_init (h : Init c s) : Attached c s := by
  rintro x p ⟨_, hp | hp⟩
  · rw [h.queue] at hp; cases hp
  · rw [h.svc] at hp; cases hp

theorem Attached.safe (h : Attached c s) (hs : Sound c s) (hf : FifoTail c s) (x : S) :
    step c s (.svc x) ≠ .error .nullBroker ∧ step c s (.svc x) ≠ .error .notFifo := by
  have key : ∀ e, svcStep c s x = .error e → e ≠ .nullBroker ∧ e ≠ .notFifo := by
    intro e he
    rcases svcStep_error he with he | ⟨he, _⟩ | ⟨_, p, id, b, n, hv, hn⟩ | ⟨_, p, id, hv, hle, hb⟩
    · constructor <;> rintro rfl <;> cases he
    · rcases he with rfl | rfl <;> simp
    · exact absurd (hf.walk x p id b n hv) hn
    · obtain ⟨hq, hid, hrx⟩ := hs.carried.svc_at hv
      obtain ⟨b, hm⟩ := h x p ⟨hrx, Or.inr (by rw [hv]; rfl)⟩ (hq.2.1.mp (hid ▸ hle))
      rw [((hs.wf.linked.mem_iff b x).mp hm).2] at hb
      cases hb
  exact ⟨fun he => (key _ he).1 rfl, fun he => (key _ he).2 rfl⟩

/-- A FIFO subscriber that its handler has removed is not given the message of the dispatch it is next in. -/
def Cached (c : Cfg S) (s : Sys B S) : Prop :=
  ∀ b p id x call, s.work b = .scan p id (some x) call → c.rxType x = .fifo → s.wants c x id → x ∈ s.subscribers b

omit [DecidableEq B] [DecidableEq S] in
theorem cached_init (h : Init c s) : Cached c s := by
  intro b p id x call hwk
  rw [h.work] at hwk; cases hwk

theorem Attached.keep {a : Act B S} (h : Attached c s) (hs : Sound c s) (hcd : Cached c s) (ht : Trans c s a s')
    (hl : ∀ b, ∀ y ∈ s.subscribers b, (∃ p, Has Svc.unrouted c s' y p ∧ p.src ≠ none) → y ∈ s'.subscribers b) :
    Attached c s' := by
  intro x p hx hsrc
  have : ∃ b, x ∈ s.subscribers b := by
    rcases has_trans (Or.inr (Or.inl rfl)) hs.carried hs.placed.walk ht hx with hold | hn | ⟨b, _, hin, hwant⟩
    · exact h x p hold hsrc
    · exact absurd hn hsrc
    · rcases hin with hin | ⟨id, call, hwk⟩
      · exact ⟨b, hin⟩
      · exact ⟨b, hcd b p id x call hwk hx.1 ((hs.carried.work_at hwk).2 ▸ hwant)⟩
  obtain ⟨b, hb⟩ := this
  exact ⟨b, hl b x hb ⟨p, hx, hsrc⟩⟩

/-! ## Removals -/

def Act.noAdd : Act B S → Bool
  | .addStart .. | .addLink _ => false
  | _ => true

def NoAdd (a : Act B S) : Prop := a.noAdd = true

instance (a : Act B S) : Decidable (NoAdd a) := inferInstanceAs (Decidable (_ = true))

/-- A FIFO subscriber is unlinked while it has no public message queued or
dequeued, or once it has locked on to pass one on that nobody behind it wants. A
handler unlinks the next subscriber of its dispatch only when no FIFO subscriber
from there on wants the message, and who was unlinked so does not come to want it. -/
def RemoveOk (c : Cfg S) (s : Sys B S) : Act B S → Prop
  | .removeUnlink x => (c.rxType x = .fifo →
      (∀ p, p ∈ s.queue x ∨ (s.svc x).unrouted = some p → c.maxPubMsgId x < s.mem.idOf p.msg) ∧
      ∀ p id b, s.svc x = .lock p id b → ∀ y ∈ after x (s.subscribers b), ¬ s.wants c y id) ∧
    ∀ b p id call, s.work b = .scan p id (some x) call →
      ∀ y ∈ fromPtr (s.subscribers b) (some x), c.rxType y = .fifo → ¬ s.wants c y id
  | .subscribe x id => ∀ b p call, s.work b = .scan p id (some x) call → c.rxType x = .fifo → x ∈ s.subscribers b
  | _ => True

def Removal (c : Cfg S) (s : Sys B S) (a : Act B S) : Prop := NoAdd a ∧ RemoveOk c s a

omit [DecidableEq B] in
theorem Settled.removal {a : Act B S} (h : Settled s) (hk : KeepsLists a) : Removal c s a := by
  cases a with
  | addStart | addLink | removeUnlink | removeClear => exact absurd hk Bool.false_ne_true
  | subscribe x id => exact ⟨rfl, fun b p call hwk _ => h.scan b p id x call hwk⟩
  | _ => exact ⟨rfl, trivial⟩

omit [DecidableEq B] [DecidableEq S] in
theorem NoAdd.moveOk {a : Act B S} (hk : NoAdd a) : MoveOk c s a := by
  cases a with
  | addLink => exact absurd hk Bool.false_ne_true
  | _ => trivial

theorem removal_list {a : Act B S} (ht : Trans c s a s') (hn : NoAdd a) (b : B) :
    s'.subscribers b = s.subscribers b ∨
      ∃ y, a = .removeUnlink y ∧ y ∈ s.subscribers b ∧ s'.subscribers b = (s.subscribers b).erase y ∧
        s'.queue = s.queue ∧ s'.svc = s.svc ∧ s'.subs = s.subs := by
  cases ht with
  | addStart | addLink => exact absurd hn Bool.false_ne_true
  | @removeUnlink y b₁ ha hb hm =>
    by_cases hbb : b = b₁
    · subst hbb
      by_cases hy : y ∈ s.subscribers b
      · exact Or.inr ⟨y, rfl, hy, update_self .., rfl, rfl, rfl⟩
      · exact Or.inl (by simp [List.erase_of_not_mem hy])
    · exact Or.inl (update_of_ne hbb ..)
  | _ => exact Or.inl rfl

omit [DecidableEq B] [DecidableEq S] in
theorem unrouted_private (hc : Carried c s) {y : S} {p : Pkt B} (hp : Has Svc.unrouted c s y p)
    (hlt : c.maxPubMsgId y < s.mem.idOf p.msg) : p.src = none := by
  have hq : QueueOk c s y p := by
    rcases hp.2 with hp | hp
    · exact hc.queue y p hp
    · have hv := hc.svc y
      cases hvy : s.svc y with
      | got q id => rw [hvy] at hp hv; cases hp; exact hv.1
      | _ => rw [hvy] at hp; cases hp
  by_contra hn
  exact absurd hlt (BitVec.not_lt.mpr (hq.2.1.mpr hn))

theorem wants_trans {a : Act B S} (ht : Trans c s a s') {id : MsgId} (hx : s'.wants c x id) :
    s.wants c x id ∨ a = .subscribe x id := by
  cases ht with
  | @subscribe y j hle =>
    by_cases hxy : x = y ∧ id = j
    · exact Or.inr (by rw [hxy.1, hxy.2])
    · refine Or.inl ⟨hx.1, ?_⟩
      have h := hx.2
      by_cases hy : x = y
      · subst hy
        simpa [update_of_ne fun hj => hxy ⟨rfl, hj⟩] using h
      · simpa [hy] using h
  | @unsubscribe y j hle =>
    refine Or.inl ⟨hx.1, ?_⟩
    have h := hx.2
    by_cases hy : x = y
    · subst hy
      by_cases hj : id = j
      · subst hj; simp at h
      · simpa [hj] using h
    · simpa [hy] using h
  | _ => exact Or.inl hx

theorem Cached.trans {a : Act B S} (h : Cached c s) (hs : Sound c s) (ht : Trans c s a s') (hr : Removal c s a) :
    Cached c s' := by
  intro b p id x call hwk hrx hwant
  rcases hs.placed.pointer hs.wf ht hwk with hold | ⟨rfl, hx⟩
  · have hx : x ∈ s.subscribers b := by
      rcases wants_trans ht hwant with hwant | rfl
      · exact h b p id x call hold hrx hwant
      · exact hr.2 b p call hold hrx
    rcases removal_list ht hr.1 b with he | ⟨y, rfl, _, he, _, _, hsub⟩
    · rwa [he]
    · rw [he, (hs.wf.linked.nodup b).mem_erase_iff]
      refine ⟨fun hxy => ?_, hx⟩
      subst hxy
      refine hr.2.2 b p id call hold x (mem_fromPtr_some.mpr (Or.inl rfl)) hrx ⟨hwant.1, ?_⟩
      rw [← hsub]; exact hwant.2
  · rwa [(work_lists ht).1]

/-- The lists are walked safely: every holder of a public message is linked and
walks meet FIFO subscribers only. -/
structure Routed (c : Cfg S) (s : Sys B S) : Prop where
  sound : Sound c s
  tail : FifoTail c s
  attached : Attached c s
  cached : Cached c s

omit [DecidableEq B] in
theorem routed_init (h : Init c s) : Routed c s := ⟨sound_init h, fifoTail_init h, attached_init h, cached_init h⟩

theorem Routed.trans {a : Act B S} (h : Routed c s) (ht : Trans c s a s') (hr : Removal c s a) : Routed c s' := by
  refine ⟨h.sound.trans ht hr.1.moveOk, h.tail.trans h.sound ht fun b => ?_, h.attached.keep h.sound h.cached ht ?_,
    h.cached.trans h.sound ht hr⟩
  · rcases removal_list ht hr.1 b with he | ⟨y, _, _, he, _⟩
    · rw [he]; exact h.tail.lists b
    · rw [he]; exact List.Pairwise.sublist List.erase_sublist (h.tail.lists b)
  · rintro b y hy ⟨p, hp, hsrc⟩
    rcases removal_list ht hr.1 b with he | ⟨z, rfl, _, he, hq, hv, _⟩
    · rw [he]; exact hy
    · rw [he, (h.sound.wf.linked.nodup b).mem_erase_iff]
      refine ⟨fun hyz => hsrc ?_, hy⟩
      subst hyz
      have hp' : Has Svc.unrouted c s y p := by
        unfold Has at hp ⊢
        rwa [hq, hv] at hp
      exact unrouted_private h.sound.carried hp' ((hr.2.1 hp.1).1 p hp'.2)

theorem Routed.run {P : Sys B S → Act B S → Prop} (h : Reachable (step c) (Init c) P s)
    (hP : ∀ s a, P s a → Removal c s a) : Routed c s :=
  h.invariant (fun _ => routed_init) fun _ a _ hs hp hstep => hs.trans (step_trans hstep) (hP _ a hp)

theorem waiting_iff {z : S} (h : (track s b p).waiting z) :
    p ∈ s.queue z ∨ (s.svc z).unrouted = some p ∨ ∃ id b', s.svc z = .lock p id b' := by
  rcases h with h | h
  · exact Or.inl (List.count_pos_iff.mp h)
  · simp only [track] at h
    cases hv : s.svc z with
    | got q id => by_cases hq : q = p <;> simp [hv, Svc.pos, hq, Svc.unrouted] at h ⊢
    | lock q id b' => by_cases hq : q = p <;> simp [hv, Svc.pos, hq] at h ⊢
    | walk q id b' n => by_cases hq : q = p <;> simp [hv, Svc.pos, hq] at h
    | ready q id => by_cases hq : q = p <;> simp [hv, Svc.pos, hq] at h
    | _ => simp [hv, Svc.pos] at h

theorem scanning_iff {z : S} (h : (track s b p).work = some (.scan (some z))) :
    ∃ id call, s.work b = .scan p id (some z) call := by
  simp only [track] at h
  cases hw : s.work b with
  | scan q id y call =>
    rw [hw, Work.pos] at h
    split at h
    · rename_i hq
      subst hq
      cases h
      exact ⟨id, call, rfl⟩
    · cases h
  | lock q id => rw [hw, Work.pos] at h; split at h <;> cases h
  | put q id y tmp => rw [hw, Work.pos] at h; split at h <;> cases h
  | _ => rw [hw] at h; cases h

theorem Way.behind_got (h : Way c s b p i o) {z w : S} (hz : c.rxType z = .fifo) (hwait : (track s b p).waiting z)
    (hm : w ∈ after z (s.subscribers b)) : (track s b p).got w = 0 := by
  have := (h.inv.waiting hz hwait).2
  exact h.inv.fresh.zero w (by rw [Track.view, this]; exact hm)

theorem Way.ahead_got (h : Way c s b p i o) {z w : S} (hz : (track s b p).work = some (.scan (some z)))
    (hm : w ∈ after z (s.subscribers b)) : (track s b p).got w = 0 := by
  have := (h.inv.scanning hz).2
  exact h.inv.fresh.zero w (by rw [Track.view, this]; exact mem_fromPtr_some.mpr (Or.inr hm))

/-- Nobody behind a FIFO subscriber that is unlinked loses a message through it. -/
theorem Way.relayed (h : Way c s b p i o) {z w : S} (hr : RemoveOk c s (.removeUnlink z)) (hz : c.rxType z = .fifo)
    (hin : z ∈ s.subscribers b) (hwait : (track s b p).waiting z) (hm : w ∈ after z (s.subscribers b)) :
    ¬ s.wants c w i := by
  obtain ⟨hnone, hlock⟩ := hr.1 hz
  have hpub : ¬ p.src = none := by rw [h.src]; simp
  rcases waiting_iff hwait with hq | hv | ⟨id, b', hv⟩
  · exact absurd (unrouted_private h.sound.carried ⟨hz, Or.inl hq⟩ (hnone p (Or.inl hq))) hpub
  · exact absurd (unrouted_private h.sound.carried ⟨hz, Or.inr hv⟩ (hnone p (Or.inr hv))) hpub
  · obtain ⟨ha, _⟩ := (h.sound.wf.linked.mem_iff b z).mp hin
    have hb : b' = b := by
      rcases h.sound.placed.lock z p id b' hv with h₁ | ⟨h₁, _⟩
      · rw [h.src] at h₁; exact (Option.some.inj h₁).symm
      · rw [ha] at h₁; cases h₁
    subst hb
    have := hlock p id b' hv w hm
    rwa [(h.sound.carried.svc_at hv).2.1, h.id] at this

/-- A removal that is safe keeps everybody who still wants the message in line for it. -/
theorem Way.removal {a : Act B S} (h : Way c s b p i o) (stay : S → Prop) (ht : Trans c s a s') (hr : Removal c s a)
    (hstay : ∀ y, stay y → y ∈ s'.subscribers b ∧ s.wants c y i ∧ (c.rxType y = .fifo ∨ KeepsLists a)) :
    ∃ o', Way c s' b p i o' ∧
      Sweep.Step (fun x => s.wants c x i) stay ((track s b p).view o) ((track s' b p).view o') := by
  refine h.step ht hr.1.moveOk fun hne => ?_
  rcases removal_list ht hr.1 b with he | ⟨y, rfl, hy, he, _⟩
  · exact absurd he hne
  · have hn := h.sound.wf.linked.nodup b
    have left : ∀ w, stay w → w ≠ y := fun w hw => (hn.mem_erase_iff.mp (he ▸ (hstay w hw).1)).1
    constructor
    · exact fun w _ hw => (hstay w hw).1
    · intro z hz w hm
      rw [he] at hm
      exact h.ahead_got hz (mem_of_after_erase hn hm)
    · intro z hz w hm hw
      obtain ⟨_, hwant, hrx | hk⟩ := hstay w hw
      · rw [he]
        refine mem_after_erase hn (fun hzy => ?_) (left w hw) hm
        subst hzy
        obtain ⟨id, call, hwk⟩ := scanning_iff hz
        refine hr.2.2 b p id call hwk w (mem_fromPtr_some.mpr (Or.inr hm)) hrx ?_
        rw [(h.sound.carried.work_at hwk).2, h.id]
        exact hwant
      · exact absurd hk Bool.false_ne_true
    · intro z hz hwait w hm
      rw [he] at hm
      exact h.behind_got hz hwait (mem_of_after_erase hn hm)
    · intro z hz hwait w hm hw
      rw [he]
      refine mem_after_erase hn (fun hzy => ?_) (left w hw) hm
      subst hzy
      exact h.relayed hr.2 hz hy hwait hm (hstay w hw).2.1

section
variable {s₁ : Sys B S}

theorem way_run (h₁ : Way c s₁ b p i o) (hr : Run (step c) (Removal c) s₁ s) : ∃ o, Way c s b p i o :=
  hr.invariant (I := fun s => ∃ o, Way c s b p i o) (fun _ _ _ ⟨_, h⟩ hp hstep =>
    let ⟨o', h', _⟩ := h.removal (fun _ => False) (step_trans hstep) hp fun _ hy => hy.elim
    ⟨o', h'⟩) ⟨o, h₁⟩

/-- Who stays in the list and subscribed while the message is in flight is
still in line for it or has got it. -/
theorem served_run (h₁ : Way c s₁ b p i (some .pub)) (hr : Run (step c) (fun s a => Removal c s a ∧
      (c.rxType x = .fifo ∨ KeepsLists a) ∧ x ∈ s.subscribers b ∧ (InFlight s p → s.wants c x i)) s₁ s)
    (hx : x ∈ s.subscribers b) :
    ∃ o, Way c s b p i o ∧ Sweep.Served x ((track s b p).view o) := by
  have key : ∃ o, Way c s b p i o ∧ (x ∈ s.subscribers b → Sweep.Served x ((track s b p).view o)) := by
    refine hr.invariant (I := fun s => ∃ o, Way c s b p i o ∧
      (x ∈ s.subscribers b → Sweep.Served x ((track s b p).view o))) ?_ ⟨_, h₁, fun hx => Or.inl hx⟩
    rintro s a s' ⟨o, h, hs⟩ ⟨hrem, hkind, hin, hwant⟩ hstep
    by_cases hx' : x ∈ s'.subscribers b
    · obtain ⟨o', h', hsw⟩ := h.removal (fun y => y = x ∧ s.wants c x i) (step_trans hstep) hrem
        fun y hy => ⟨hy.1 ▸ hx', hy.1 ▸ hy.2, hy.1 ▸ hkind⟩
      refine ⟨o', h', fun _ => hsw.served h.inv.fresh ?_ ?_ (hs hin)⟩
      · exact fun hx => hwant (h.todo_inFlight hx)
      · exact fun hx => ⟨rfl, hwant (h.todo_inFlight hx)⟩
    · obtain ⟨o', h', _⟩ := h.removal (fun _ => False) (step_trans hstep) hrem fun _ hy => hy.elim
      exact ⟨o', h', fun hx => absurd hx hx'⟩
  obtain ⟨o, h, hs⟩ := key
  exact ⟨o, h, hs hx⟩

theorem Way.handed_once (h : Way c s b p i o) (hs : Sweep.Served x ((track s b p).view o))
    (hg : ¬ InFlight s p) : timesHanded s.log x p = 1 := by
  obtain rfl := h.gone hg
  rcases hs with hs | hs
  · cases hs
  · rw [← got_of_gone (b := b) hg x]; exact hs

theorem unserved_run (h₁ : Way c s₁ b p i (some .pub)) (hr : Run (step c) (fun s a => Removal c s a ∧
      (InFlight s p → ¬ s.wants c x i)) s₁ s) : timesHanded s.log x p = 0 := by
  have key : ∃ o, Way c s b p i o ∧ (track s b p).got x = 0 := by
    refine hr.invariant (I := fun s => ∃ o, Way c s b p i o ∧ (track s b p).got x = 0) ?_
      ⟨_, h₁, h₁.inv.unstarted (Or.inl rfl) x⟩
    rintro s a s' ⟨o, h, hs⟩ ⟨hrem, hwant⟩ hstep
    obtain ⟨o', h', hsw⟩ := h.removal (fun _ => False) (step_trans hstep) hrem fun _ hy => hy.elim
    refine ⟨o', h', ?_⟩
    have := hsw.unwanted (x := x) fun hx => hwant (h.todo_inFlight hx)
    exact this.trans hs
  obtain ⟨o, h, hs⟩ := key
  exact Nat.le_zero.mp (hs ▸ handed_le_got s b p x)

theorem Way.at_most_once (h : Way c s b p i o) (x : S) : timesHanded s.log x p ≤ 1 :=
  (handed_le_got s b p x).trans (h.inv.fresh.le_one x)

end

abbrev Sys.newPkt (s : Sys B S) (b : B) (m : Msg) : Pkt B := ⟨m, s.nextTag, some b⟩

theorem settled_reachable (h : Reachable (step c) (Init c) (fun _ a => KeepsLists a) s) :
    Routed c s ∧ Settled s := by
  refine h.invariant (I := fun s => Routed c s ∧ Settled s) (fun s hi => ⟨routed_init hi, settled_init hi⟩) ?_
  rintro s a s' ⟨hr, hs⟩ hk hstep
  exact ⟨hr.trans (step_trans hstep) (hs.removal hk), hs.trans hr.sound (step_trans hstep) hk⟩

/-- With fixed lists every step is one that `Removal` allows. -/
theorem settled_run {P : Sys B S → Act B S → Prop} {s₁ : Sys B S} (h₁ : Sound c s₁ ∧ Settled s₁)
    (hr : Run (step c) (fun s a => KeepsLists a ∧ P s a) s₁ s) :
    Run (step c) (fun s a => Removal c s a ∧ KeepsLists a ∧ P s a) s₁ s := by
  refine (hr.strengthen (I := fun s => Sound c s ∧ Settled s) ?_ h₁).mono fun t a h => ⟨h.2.2.removal h.1.1, h.1⟩
  rintro t a t' ⟨ht, hs⟩ ⟨hk, _⟩ hstep
  exact ⟨ht.trans (step_trans hstep) hk.moveOk, hs.trans ht (step_trans hstep) hk⟩

/-- With fixed lists nobody is handed a message twice, whoever is subscribed
all the way is handed it once it is nowhere, whoever is not subscribed is not,
and no handler call runs into a NULL broker or another type's union. -/
theorem exactly_once {s₀ s₁ : Sys B S} {m : Msg} (h₀ : Reachable (step c) (Init c) (fun _ a => KeepsLists a) s₀)
    (hp : step c s₀ (.publish b m) = .ok s₁) (hr : Run (step c) (fun _ a => KeepsLists a) s₁ s) :
    (∀ x, timesHanded s.log x (s₀.newPkt b m) ≤ 1) ∧
    (∀ x ∈ s₀.subscribers b,
      Run (step c) (fun s a => KeepsLists a ∧ (InFlight s (s₀.newPkt b m) → s.wants c x (s₀.mem.idOf m))) s₁ s →
      ¬ InFlight s (s₀.newPkt b m) → timesHanded s.log x (s₀.newPkt b m) = 1) ∧
    (∀ x, Run (step c) (fun s a => KeepsLists a ∧ (InFlight s (s₀.newPkt b m) → ¬ s.wants c x (s₀.mem.idOf m))) s₁ s →
      timesHanded s.log x (s₀.newPkt b m) = 0) ∧
    ∀ x, step c s (.svc x) ≠ .error .nullBroker ∧ step c s (.svc x) ≠ .error .notFifo := by
  have hk : KeepsLists (.publish b m : Act B S) := rfl
  obtain ⟨hrt, hset⟩ := settled_reachable h₀
  have hway := way_publish hrt.sound hp
  have hstart : Sound c s₁ ∧ Settled s₁ :=
    ⟨hrt.sound.trans (step_trans hp) trivial, hset.trans hrt.sound (step_trans hp) hk⟩
  have hlist : ∀ t, Run (step c) (fun _ a => KeepsLists a) s₁ t → t.subscribers = s₀.subscribers := by
    intro t ht
    refine ht.invariant (I := fun t => t.subscribers = s₀.subscribers) ?_ (lists_kept (step_trans hp) hk).1
    exact fun _ _ _ he hk hstep => ((lists_kept (step_trans hstep) hk).1).trans he
  refine ⟨fun x => ?_, fun x hx hr' hg => ?_, fun x hr' => ?_, ?_⟩
  · obtain ⟨o, hw⟩ := way_run hway ((settled_run (P := fun _ _ => True) hstart
      (hr.mono fun _ _ h => ⟨h, trivial⟩)).mono fun _ _ h => h.1)
    exact hw.at_most_once x
  · have hin := hlist s hr
    have hr'' := (settled_run hstart hr').strengthen (I := fun t => t.subscribers = s₀.subscribers)
      (fun _ _ _ he hk hstep => ((lists_kept (step_trans hstep) hk.2.1).1).trans he) (hlist s₁ (.refl _))
    obtain ⟨o, hw, hs⟩ := served_run (x := x) hway
      (hr''.mono fun t a ht => ⟨ht.1.1, Or.inr ht.1.2.1, by rw [ht.2]; exact hx, ht.1.2.2⟩) (by rw [hin]; exact hx)
    exact hw.handed_once hs hg
  · exact unserved_run hway ((settled_run hstart hr').mono fun t a ht => ⟨ht.1, ht.2.2⟩)
  · have := (settled_reachable ((h₀.tail hk hp).run hr)).1
    exact this.attached.safe this.sound this.tail

end

section
variable {c : Cfg (Fin 2)}

/-- Two FIFO subscribers, subscriber 0 in front. -/
def twoFifos : Cfg (Fin 2) where
  rxType _ := .fifo
  maxPubMsgId _ := 7
  maxMsgs _ := 0
  numAllocators := 0

def twoFifosInit : Sys Unit (Fin 2) :=
  Sys.init (fun _ => [0, 1]) (fun _ => some ()) (fun _ _ => true) fun x => x.val

theorem twoFifos_init : Init twoFifos twoFifosInit :=
  init_of_lists _ _ (by decide) (by decide) (by unfold FifoLast; decide)

def dispatched : List (Act Unit (Fin 2)) := List.replicate 4 (.work ())

end

def handledByBoth : List (Act Unit (Fin 2)) :=
  dispatched ++ List.replicate 6 (.svc 0) ++ List.replicate 6 (.svc 1) ++ [.work ()]

theorem exactly_once_twoFifos : ∃ s₀ s₁ s, step twoFifos twoFifosInit (.newMsg 0 3 0) = .ok s₀ ∧
    step twoFifos s₀ (.publish () 0) = .ok s₁ ∧ Runs.exec (step twoFifos) s₁ handledByBoth = .ok s ∧
    timesHanded s.log 0 (s₀.newPkt () 0) ≤ 1 ∧ timesHanded s.log 1 (s₀.newPkt () 0) = 1 ∧
    step twoFifos s (.svc 0) ≠ .error .nullBroker := by
  have hrun : ∃ s₀ s₁ s, step twoFifos twoFifosInit (.newMsg 0 3 0) = .ok s₀ ∧
      step twoFifos s₀ (.publish () 0) = .ok s₁ ∧ Runs.exec (step twoFifos) s₁ handledByBoth = .ok s ∧
      1 ∈ s₀.subscribers () ∧ ¬ InFlight s (s₀.newPkt () 0) ∧
      ∀ q ∈ Runs.path (step twoFifos) s₁ handledByBoth, q.1.wants twoFifos 1 (s₀.mem.idOf 0) :=
    ⟨_, _, _, rfl, rfl, rfl, by decide, by unfold InFlight; decide, by decide⟩
  obtain ⟨s₀, s₁, s, h₀, h₁, hs, hin, hgone, hwants⟩ := hrun
  obtain ⟨hle, hone, -, hsafe⟩ := exactly_once ⟨twoFifosInit, twoFifos_init, .single (.newMsg 0 3 0) rfl h₀⟩ h₁
    (Run.of_acts (K := KeepsLists) (step twoFifos) handledByBoth hs (by decide))
  refine ⟨s₀, s₁, s, h₀, h₁, hs, hle 0, hone 1 hin ?_ hgone, (hsafe 0).1⟩
  exact (Run.of_path (K := KeepsLists) (step twoFifos) handledByBoth hs (by decide) hwants).mono
    fun _ _ h => ⟨h.1, fun _ => h.2⟩

section
variable {B S : Type} [DecidableEq B] [DecidableEq S] {c : Cfg S} {s s' : Sys B S}
variable {b : B} {p : Pkt B} {x : S} {i : MsgId} {o : Option (Site S)}

/-- In every run whose removals are safe no handler call meets a NULL broker, and the FIFO
subscriber that stays attached and subscribed is handed each message published meanwhile. -/
theorem removal_safe {s₀ : Sys B S} (h₀ : Reachable (step c) (Init c) (Removal c) s₀) :
    (∀ x, step c s₀ (.svc x) ≠ .error .nullBroker) ∧
    ∀ b m s₁ s x, c.rxType x = .fifo → step c s₀ (.publish b m) = .ok s₁ →
      Run (step c) (fun s a => Removal c s a ∧ x ∈ s.subscribers b ∧
        (InFlight s (s₀.newPkt b m) → s.wants c x (s₀.mem.idOf m))) s₁ s →
      x ∈ s.subscribers b → ¬ InFlight s (s₀.newPkt b m) → timesHanded s.log x (s₀.newPkt b m) = 1 := by
  have hrt := Routed.run h₀ fun _ _ => id
  refine ⟨fun x => (hrt.attached.safe hrt.sound hrt.tail x).1, ?_⟩
  intro b m s₁ s x hrx hp hr hx hg
  obtain ⟨o, hw, hs⟩ := served_run (way_publish hrt.sound hp) (hr.mono fun t a ht => ⟨ht.1, Or.inl hrx, ht.2⟩) hx
  exact hw.handed_once hs hg

end

/-- A step of a broker's work item or of a service thread. -/
def Act.ofThread {B S : Type} : Act B S → Bool
  | .work _ | .svc _ => true
  | _ => false

theorem Act.removal {B S : Type} [DecidableEq S] {c : Cfg S} {s : Sys B S} {a : Act B S} (h : a.ofThread = true) :
    Removal c s a := by
  cases a with
  | work | svc => exact ⟨rfl, trivial⟩
  | _ => cases h

theorem removeOk_idle {B S : Type} [DecidableEq S] {c : Cfg S} {s : Sys B S} {x : S} (hq : s.queue x = [])
    (hv : (s.svc x).toHandle = none) (hw : ∀ b, (s.work b).scanning = false) : RemoveOk c s (.removeUnlink x) := by
  refine ⟨fun _ => ⟨?_, ?_⟩, ?_⟩
  · rintro p (hp | hp)
    · rw [hq] at hp; cases hp
    · cases hx : s.svc x with
      | got => rw [hx] at hv; cases hv
      | _ => rw [hx] at hp; cases hp
  · intro p id b hp
    rw [hp] at hv; cases hv
  · intro b p id call hs
    have := hw b
    rw [hs] at this; cases this

def passedOn : List (Act Unit (Fin 2)) := dispatched ++ List.replicate 5 (.svc 0)

def handledBehind : List (Act Unit (Fin 2)) := .svc 0 :: List.replicate 6 (.svc 1) ++ [.work ()]

/-- The handler of subscriber 0 removes it. -/
theorem removal_safe_twoFifos : ∃ s₀ s₁ s, step twoFifos twoFifosInit (.newMsg 0 3 0) = .ok s₀ ∧
    step twoFifos s₀ (.publish () 0) = .ok s₁ ∧
    Runs.exec (step twoFifos) s₁ (passedOn ++ .removeUnlink 0 :: .removeClear 0 :: handledBehind) = .ok s ∧
    timesHanded s.log 1 (s₀.newPkt () 0) = 1 ∧ ∀ x, step twoFifos s (.svc x) ≠ .error .nullBroker := by
  have hrun : ∃ s₀ s₁ s₂ s₃ s₄ s, step twoFifos twoFifosInit (.newMsg 0 3 0) = .ok s₀ ∧
      step twoFifos s₀ (.publish () 0) = .ok s₁ ∧ Runs.exec (step twoFifos) s₁ passedOn = .ok s₂ ∧
      step twoFifos s₂ (.removeUnlink 0) = .ok s₃ ∧ step twoFifos s₃ (.removeClear 0) = .ok s₄ ∧
      Runs.exec (step twoFifos) s₄ handledBehind = .ok s ∧
      Runs.exec (step twoFifos) s₁ (passedOn ++ .removeUnlink 0 :: .removeClear 0 :: handledBehind) = .ok s ∧
      ¬ InFlight s (s₀.newPkt () 0) ∧
      (s₂.queue 0 = [] ∧ (s₂.svc 0).toHandle = none ∧ ∀ b, (s₂.work b).scanning = false) ∧
      ∀ t ∈ (Runs.path (step twoFifos) s₁ passedOn).map Prod.fst ++ [s₂, s₃] ++
          (Runs.path (step twoFifos) s₄ handledBehind).map Prod.fst ++ [s],
        1 ∈ t.subscribers () ∧ t.wants twoFifos 1 (s₀.mem.idOf 0) :=
    ⟨_, _, _, _, _, _, rfl, rfl, rfl, rfl, rfl, rfl, rfl, by unfold InFlight; decide, by decide, by decide⟩
  obtain ⟨s₀, s₁, s₂, s₃, s₄, s, h₀, h₁, h₂, h₃, h₄, hs, hall, hgone, ⟨hq, hv, hw⟩, hin⟩ := hrun
  have served : ∀ as {t u}, Runs.exec (step twoFifos) t as = .ok u → (∀ a ∈ as, a.ofThread = true) →
      (∀ v ∈ (Runs.path (step twoFifos) t as).map Prod.fst, 1 ∈ v.subscribers () ∧ v.wants twoFifos 1 (s₀.mem.idOf 0)) →
      Run (step twoFifos) (fun v a => Removal twoFifos v a ∧ 1 ∈ v.subscribers () ∧
        (InFlight v (s₀.newPkt () 0) → v.wants twoFifos 1 (s₀.mem.idOf 0))) t u := by
    intro as t u he ha hp
    refine (Run.of_path (K := fun a => a.ofThread = true)
      (P := fun v => 1 ∈ v.subscribers () ∧ v.wants twoFifos 1 (s₀.mem.idOf 0)) (step twoFifos) as he ha ?_).mono ?_
    · exact fun q hq => hp q.1 (List.mem_map_of_mem hq)
    · exact fun _ _ h => ⟨Act.removal h.1, h.2.1, fun _ => h.2.2⟩
  have hrem : Removal twoFifos s₂ (.removeUnlink 0) := ⟨rfl, removeOk_idle hq hv hw⟩
  have hclear : Removal twoFifos s₃ (.removeClear 0) := ⟨rfl, trivial⟩
  have hpub : Removal twoFifos s₀ (.publish () 0) := ⟨rfl, trivial⟩
  have hr₂ := served passedOn h₂ (by decide) fun v hv => hin v (by simp [hv])
  have hr₄ := Run.tail (.removeClear 0) (Run.tail (.removeUnlink 0) hr₂
    ⟨hrem, (hin s₂ (by simp)).1, fun _ => (hin s₂ (by simp)).2⟩ h₃)
    ⟨hclear, (hin s₃ (by simp)).1, fun _ => (hin s₃ (by simp)).2⟩ h₄
  have hr := hr₄.trans (served handledBehind hs (by decide) fun v hv => hin v (by simp [hv]))
  have hreach : Reachable (step twoFifos) (Init twoFifos) (Removal twoFifos) s₀ :=
    ⟨twoFifosInit, twoFifos_init, .single (.newMsg 0 3 0) ⟨rfl, trivial⟩ h₀⟩
  have hend := (hreach.tail hpub h₁).run (hr.mono fun _ _ h => h.1)
  exact ⟨s₀, s₁, s, h₀, h₁, hall, (removal_safe hreach).2 () 0 s₁ s 1 rfl h₁ hr (hin s (by simp)).1 hgone,
    (removal_safe hend).1⟩

/-- A callback in front of two FIFO subscribers. -/
def callbackAndFifos : Cfg (Fin 3) where
  rxType x := if x = 0 then .callback else .fifo
  maxPubMsgId _ := 7
  maxMsgs _ := 0
  numAllocators := 0

def callbackAndFifosInit : Sys Unit (Fin 3) :=
  Sys.init (fun _ => [0, 1, 2]) (fun _ => some ()) (fun _ _ => true) fun x => x.val

theorem callbackAndFifos_init : Init callbackAndFifos callbackAndFifosInit :=
  init_of_lists _ _ (by decide) (by decide) (by unfold FifoLast; decide)

def IdleRemoval {B S : Type} (s : Sys B S) : Act B S → Prop
  | .removeUnlink x => s.queue x = [] ∧ (s.svc x).pkt = none
  | _ => True

theorem KeepsLists.idleRemoval {B S : Type} [DecidableEq B] [DecidableEq S] {s : Sys B S} {a : Act B S}
    (h : KeepsLists a) :
    NoAdd a ∧ IdleRemoval s a := by
  cases a with
  | addStart | addLink | removeUnlink | removeClear => exact absurd h Bool.false_ne_true
  | _ => exact ⟨rfl, trivial⟩

/-- Subscriber 0 is removed while the message is in its FIFO and then handles it. With
idle subscribers only, a callback's handler removes the next one of its dispatch. -/
theorem removal_null_broker :
    (¬ ∀ s : Sys Unit (Fin 2), Reachable (step twoFifos) (Init twoFifos) (fun _ a => NoAdd a) s →
      ∀ x, step twoFifos s (.svc x) ≠ .error .nullBroker) ∧
    ¬ ∀ s : Sys Unit (Fin 3), Reachable (step callbackAndFifos) (Init callbackAndFifos)
        (fun s a => NoAdd a ∧ IdleRemoval s a) s →
      ∀ x, step callbackAndFifos s (.svc x) ≠ .error .nullBroker := by
  constructor
  · intro h
    refine h _ ⟨twoFifosInit, twoFifos_init, Run.of_acts (K := NoAdd) (step twoFifos)
      ([.newMsg 0 3 0, .publish () 0] ++ dispatched ++ [.removeUnlink 0, .removeClear 0, .svc 0])
      rfl (by decide)⟩ 0 rfl
  · intro h
    have hrun : ∃ s₁ s₂ s₃ s, Runs.exec (step callbackAndFifos) callbackAndFifosInit
          (.newMsg 0 3 0 :: .publish () 0 :: List.replicate 4 (.work ())) = .ok s₁ ∧
        step callbackAndFifos s₁ (.removeUnlink 1) = .ok s₂ ∧ step callbackAndFifos s₂ (.removeClear 1) = .ok s₃ ∧
        Runs.exec (step callbackAndFifos) s₃ [.work (), .svc 1] = .ok s ∧
        IdleRemoval s₁ (.removeUnlink 1) ∧ step callbackAndFifos s (.svc 1) = .error .nullBroker :=
      ⟨_, _, _, _, rfl, rfl, rfl, rfl, ⟨rfl, rfl⟩, rfl⟩
    obtain ⟨s₁, s₂, s₃, s, h₁, h₂, h₃, hs, hidle, he⟩ := hrun
    have keep : ∀ (as : List (Act Unit (Fin 3))) {t u}, Runs.exec (step callbackAndFifos) t as = .ok u →
        (∀ a ∈ as, KeepsLists a) →
        Run (step callbackAndFifos) (fun s a => NoAdd a ∧ IdleRemoval s a) t u :=
      fun as _ _ he ha => (Run.of_acts (K := KeepsLists) _ as he ha).mono fun _ _ => KeepsLists.idleRemoval
    have hunlink : NoAdd (.removeUnlink 1 : Act Unit (Fin 3)) := rfl
    have hclear : NoAdd (.removeClear 1 : Act Unit (Fin 3)) ∧ IdleRemoval s₂ (.removeClear 1) := ⟨rfl, trivial⟩
    have hr := Run.tail (.removeClear 1) (Run.tail (.removeUnlink 1) (keep _ h₁ (by decide)) ⟨hunlink, hidle⟩ h₂)
      hclear h₃
    exact h s ⟨_, callbackAndFifos_init, hr.trans (keep _ hs (by decide))⟩ 1 he

section
variable {B S : Type} [DecidableEq B] [DecidableEq S] {c : Cfg S} {s s' : Sys B S}
variable {b : B} {p : Pkt B} {x : S} {i : MsgId} {o : Option (Site S)}

/-! ## Changing priorities -/

/-- A subscriber is only ever added to one broker. -/
def HomeOk (home : S → B) : Act B S → Prop
  | .addStart b x => home x = b
  | _ => True

def Reached (s : Sys B S) (x : S) (p : Pkt B) : Prop :=
  .handed x p ∈ s.log ∨ p ∈ s.queue x ∨ (s.svc x).pkt = some p

/-- The new node leaves no subscriber behind one who has still to pass on a message it has already got,
and a callback's handler none behind the next subscriber of its dispatch. -/
def LinkOk (c : Cfg S) (s : Sys B S) : Act B S → Prop
  | .addLink x => ∀ b, s.broker x = some b →
    (∀ p z, p.src = some b → Holds c s z p →
      ∀ w ∈ after z (insertSubscriber c.rxType s.priority (s.subscribers b) x), ¬ Reached s w p) ∧
    ∀ p id z y, s.work b = .scan p id (some z) (some y) →
      ∀ w ∈ after z (insertSubscriber c.rxType s.priority (s.subscribers b) x), ¬ Reached s w p
  | _ => True

structure AtHome (home : S → B) (c : Cfg S) (s : Sys B S) : Prop where
  broker : ∀ x b, s.broker x = some b → home x = b
  held : ∀ x p b, Holds c s x p → p.src = some b → home x = b
  next : ∀ b p id x call, s.work b = .scan p id (some x) call → home x = b

theorem AtHome.moveOk {home : S → B} {a : Act B S} (h : AtHome home c s) (ht : Trans c s a s') : MoveOk c s a := by
  cases ht with
  | @addLink x b₁ _ hb _ =>
    constructor
    · intro p b hp hsrc
      rw [hb, ← h.broker x b₁ hb, h.held x p b hp hsrc]
    · intro p b id call hwk
      rw [hb, ← h.broker x b₁ hb, h.next b p id x call hwk]
  | mem hμ => cases hμ <;> trivial
  | _ => trivial

theorem AtHome.trans {home : S → B} {a : Act B S} (h : AtHome home c s) (hs : Sound c s) (ht : Trans c s a s')
    (ha : HomeOk home a) : AtHome home c s' := by
  constructor
  · intro x b hb
    cases ht with
    | @addStart b₁ y _ _ =>
      by_cases hxy : x = y
      · subst hxy; simp only [update_self] at hb; cases hb; exact ha
      · exact h.broker x b (by simpa [hxy] using hb)
    | @removeClear y _ =>
      by_cases hxy : x = y
      · subst hxy; simp at hb
      · exact h.broker x b (by simpa [hxy] using hb)
    | _ => exact h.broker x b hb
  · intro x p b hx hsrc
    rcases has_trans (Or.inl rfl) hs.carried hs.placed.walk ht hx with hx | hx | ⟨b₀, ⟨_, h₀⟩, hx, _⟩
    · exact h.held x p b hx hsrc
    · rw [hx] at hsrc; cases hsrc
    · rw [h₀] at hsrc; cases hsrc
      rcases hx with hx | ⟨id, call, hwk⟩
      · exact h.broker x b ((hs.wf.linked.mem_iff b x).mp hx).2
      · exact h.next b p id x call hwk
  · intro b p id x call hwk
    rcases hs.placed.pointer hs.wf ht hwk with hold | ⟨_, hx⟩
    · exact h.next b p id x call hold
    · exact h.broker x b ((hs.wf.linked.mem_iff b x).mp hx).2

theorem got_of_not_reached (hw : Wf s) (hm : s.Lockable b) (h : ¬ Reached s x p) : (track s b p).got x = 0 := by
  simp only [Reached, not_or] at h
  obtain ⟨hl, hq, hv⟩ := h
  have h₁ : timesHanded s.log x p = 0 := List.count_eq_zero.mpr hl
  have h₂ : (s.queue x).count p = 0 := List.count_eq_zero.mpr hq
  have h₃ : (s.svc x).pos p = none := by
    cases hvx : s.svc x with
    | idle => rfl
    | running => rfl
    | _ => rw [hvx] at hv; simp only [Svc.pkt, Option.some.injEq] at hv; simp [Svc.pos, hv]
  have h₄ : WorkPos.putting x ((s.work b).pos p) = 0 := by
    have hf := (hw.locked.lockable hm).1
    cases hwb : s.work b with
    | put => rw [hwb] at hf; rcases hf with hf | hf <;> cases hf
    | lock q id => by_cases hq : q = p <;> simp [Work.pos, hq, WorkPos.putting]
    | scan q id y z => by_cases hq : q = p <;> simp [Work.pos, hq, WorkPos.putting]
    | _ => rfl
  simp [Track.got, track, h₁, h₂, h₃, h₄]

theorem waiting_holds {z : S} (h : (track s b p).waiting z) : p ∈ s.queue z ∨ (s.svc z).unsent = some p := by
  rcases waiting_iff h with hq | hv | ⟨id, b', hv⟩
  · exact Or.inl hq
  · refine Or.inr ?_
    cases hvz : s.svc z with
    | got q id => rw [hvz] at hv; exact hv
    | _ => rw [hvz] at hv; cases hv
  · exact Or.inr (by rw [hv]; rfl)

omit [DecidableEq B] [DecidableEq S] in
/-- In the midst of a dispatch only a callback's handler changes the list. -/
theorem Locked.handler_runs (h : Locked s) (hm : s.Lockable b) {id : MsgId} {z call : Option S}
    (hwk : s.work b = .scan p id z call) : ∃ y, call = some y := by
  have hf := (h.lockable hm).1
  rw [hwk] at hf
  cases call with
  | some y => exact ⟨y, rfl⟩
  | none => rcases hf with hf | hf <;> cases hf

theorem Way.relink {a : Act B S} (h : Way c s b p i o) (ht : Trans c s a s') (hm : MoveOk c s a) (hl : LinkOk c s a) :
    ∃ o', Way c s' b p i o' := by
  have : ∃ o', Way c s' b p i o' ∧
      Sweep.Step (fun x => s.wants c x i) (fun _ => False) ((track s b p).view o) ((track s' b p).view o') := by
    refine h.step ht hm fun hne => ?_
    have hn := h.sound.wf.linked.nodup b
    cases ht with
    | @addLink x b₁ _ hb hmx =>
      by_cases hbb : b = b₁
      · subst hbb
        simp only [update_self]
        refine ⟨fun _ _ hf => hf.elim, ?_, fun _ _ _ _ hf => hf.elim, ?_, fun _ _ _ _ _ hf => hf.elim⟩
        · intro z hz w hw
          obtain ⟨id, call, hwk⟩ := scanning_iff hz
          obtain ⟨y, rfl⟩ := h.sound.wf.locked.handler_runs hmx hwk
          exact got_of_not_reached h.sound.wf hmx ((hl b hb).2 p id z y hwk w hw)
        · intro z hz hwait w hw
          exact got_of_not_reached h.sound.wf hmx ((hl b hb).1 p z h.src ⟨hz, waiting_holds hwait⟩ w hw)
      · exact absurd (update_of_ne hbb ..) hne
    | @removeUnlink x b₁ _ _ _ =>
      by_cases hbb : b = b₁
      · subst hbb
        simp only [update_self]
        exact ⟨fun _ _ hf => hf.elim, fun z hz w hm => h.ahead_got hz (mem_of_after_erase hn hm),
          fun _ _ _ _ hf => hf.elim, fun z hz hwait w hm => h.behind_got hz hwait (mem_of_after_erase hn hm),
          fun _ _ _ _ _ hf => hf.elim⟩
      · exact absurd (update_of_ne hbb ..) hne
    | _ => exact absurd rfl hne
  obtain ⟨o', h', _⟩ := this
  exact ⟨o', h'⟩

/-- Subscribers of one broker that are removed and added again get each message
at most once as long as no node is put back where a message would pass it twice. -/
theorem no_duplicates {home : S → B} {s₀ s₁ : Sys B S} {m : Msg}
    (h₀ : Reachable (step c) (fun s => Init c s ∧ ∀ x b, s.broker x = some b → home x = b)
      (fun s a => HomeOk home a ∧ LinkOk c s a) s₀)
    (hp : step c s₀ (.publish b m) = .ok s₁)
    (hr : Run (step c) (fun s a => HomeOk home a ∧ LinkOk c s a) s₁ s) (x : S) :
    timesHanded s.log x (s₀.newPkt b m) ≤ 1 := by
  have hstart : Sound c s₀ ∧ AtHome home c s₀ := by
    refine h₀.invariant (I := fun s => Sound c s ∧ AtHome home c s) ?_ ?_
    · rintro s ⟨hi, hb⟩
      refine ⟨sound_init hi, hb, ?_, ?_⟩
      · rintro x p b ⟨_, hp | hp⟩
        · rw [hi.queue] at hp; cases hp
        · rw [hi.svc] at hp; cases hp
      · intro b p id x call hwk
        rw [hi.work] at hwk; cases hwk
    · rintro s a t ⟨hs, hh⟩ ⟨ha, _⟩ hstep
      have ht := step_trans hstep
      exact ⟨hs.trans ht (hh.moveOk ht), hh.trans hs ht ha⟩
  have hway := way_publish hstart.1 hp
  have hend : (∃ o, Way c s b (s₀.newPkt b m) (s₀.mem.idOf m) o) ∧ AtHome home c s := by
    refine hr.invariant (I := fun s => (∃ o, Way c s b (s₀.newPkt b m) (s₀.mem.idOf m) o) ∧ AtHome home c s) ?_
      ⟨⟨_, hway⟩, hstart.2.trans hstart.1 (step_trans hp) trivial⟩
    rintro s a t ⟨⟨o, hw⟩, hh⟩ ⟨ha, hl⟩ hstep
    have ht := step_trans hstep
    exact ⟨hw.relink ht (hh.moveOk ht) hl, hh.trans hw.sound ht ha⟩
  obtain ⟨⟨o, hw⟩, _⟩ := hend
  exact hw.at_most_once x

end

def reprioritise (x : Fin 2) (n : Nat) : List (Act Unit (Fin 2)) :=
  [.removeUnlink x, .removeClear x, .setPriority x n, .addStart () x, .addLink x]

def Act.noLink : Act Unit (Fin 2) → Bool
  | .addLink _ => false
  | _ => true

def NoLink (a : Act Unit (Fin 2)) : Prop := a.noLink = true

instance (a : Act Unit (Fin 2)) : Decidable (NoLink a) := inferInstanceAs (Decidable (_ = true))

theorem NoLink.ok {s : Sys Unit (Fin 2)} {a : Act Unit (Fin 2)} (h : NoLink a) :
    HomeOk (fun _ => ()) a ∧ LinkOk twoFifos s a := by
  cases a with
  | addLink => exact absurd h Bool.false_ne_true
  | addStart => exact ⟨rfl, trivial⟩
  | _ => exact ⟨trivial, trivial⟩

theorem linkOk_behind {s : Sys Unit (Fin 2)}
    (hl : insertSubscriber twoFifos.rxType s.priority (s.subscribers ()) 1 = [0, 1])
    (hlog : ∀ p, .handed 1 p ∉ s.log) (hq : s.queue 1 = []) (hv : s.svc 1 = .idle)
    (hw : (s.work ()).scanning = false) : LinkOk twoFifos s (.addLink 1) := by
  have hone : ∀ p, ¬ Reached s 1 p := by
    rintro p (h | h | h)
    · exact hlog p h
    · rw [hq] at h; cases h
    · rw [hv] at h; cases h
  have hback : ∀ z w : Fin 2, w ∈ after z [0, 1] → w = 1 := by decide
  intro b _
  rw [hl]
  constructor
  · intro p z _ _ w hw
    rw [hback z w hw]
    exact hone p
  · intro p id z y hs
    rw [hs] at hw; cases hw

/-- Subscriber 1 gets another priority while the message is in the FIFO of subscriber 0. -/
theorem no_duplicates_twoFifos : ∃ s₀ s₁ s, step twoFifos twoFifosInit (.newMsg 0 3 0) = .ok s₀ ∧
    step twoFifos s₀ (.publish () 0) = .ok s₁ ∧
    Runs.exec (step twoFifos) s₁ (dispatched ++ reprioritise 1 2 ++ List.replicate 6 (.svc 0) ++
      List.replicate 6 (.svc 1)) = .ok s ∧
    timesHanded s.log 0 (s₀.newPkt () 0) = 1 ∧ timesHanded s.log 1 (s₀.newPkt () 0) ≤ 1 := by
  have hrun : ∃ s₀ s₁ s₂ s₃ s, step twoFifos twoFifosInit (.newMsg 0 3 0) = .ok s₀ ∧
      step twoFifos s₀ (.publish () 0) = .ok s₁ ∧
      Runs.exec (step twoFifos) s₁ (dispatched ++ (reprioritise 1 2).dropLast) = .ok s₂ ∧
      step twoFifos s₂ (.addLink 1) = .ok s₃ ∧
      Runs.exec (step twoFifos) s₃ (List.replicate 6 (.svc 0) ++ List.replicate 6 (.svc 1)) = .ok s ∧
      Runs.exec (step twoFifos) s₁ (dispatched ++ reprioritise 1 2 ++ List.replicate 6 (.svc 0) ++
        List.replicate 6 (.svc 1)) = .ok s ∧
      timesHanded s.log 0 (s₀.newPkt () 0) = 1 ∧
      insertSubscriber twoFifos.rxType s₂.priority (s₂.subscribers ()) 1 = [0, 1] ∧
      s₂.log = [.published (s₀.newPkt () 0)] ∧ s₂.queue 1 = [] ∧ s₂.svc 1 = .idle ∧ (s₂.work ()).scanning = false :=
    ⟨_, _, _, _, _, rfl, rfl, rfl, rfl, rfl, rfl, by decide, by decide, rfl, rfl, rfl, rfl⟩
  obtain ⟨s₀, s₁, s₂, s₃, s, h₀, h₁, h₂, h₃, hs, hall, hone, hl, hlog, hq, hv, hw⟩ := hrun
  have keep : ∀ (as : List (Act Unit (Fin 2))) {t u}, Runs.exec (step twoFifos) t as = .ok u → (∀ a ∈ as, NoLink a) →
      Run (step twoFifos) (fun s a => HomeOk (fun _ => ()) a ∧ LinkOk twoFifos s a) t u :=
    fun as _ _ he ha => (Run.of_acts (K := NoLink) _ as he ha).mono fun _ _ => NoLink.ok
  have hlink : HomeOk (fun _ : Fin 2 => ()) (.addLink 1) ∧ LinkOk twoFifos s₂ (.addLink 1) :=
    ⟨trivial, linkOk_behind hl (by simp [hlog]) hq hv hw⟩
  have hr := (Run.tail (.addLink 1) (keep _ h₂ (by decide)) hlink h₃).trans (keep _ hs (by decide))
  have hr₀ : Reachable (step twoFifos) (fun s => Init twoFifos s ∧ ∀ x b, s.broker x = some b → (fun _ => ()) x = b)
      (fun s a => HomeOk (fun _ => ()) a ∧ LinkOk twoFifos s a) s₀ :=
    ⟨twoFifosInit, ⟨twoFifos_init, fun _ _ _ => rfl⟩, keep [.newMsg 0 3 0] (by rw [Runs.exec, h₀]; rfl) (by decide)⟩
  exact ⟨s₀, s₁, s, h₀, h₁, hall, hone, no_duplicates hr₀ h₁ hr 1⟩

/-- Subscriber 0 passes the message on, is put behind subscriber 1, and gets it again. -/
theorem duplicate_after_reprioritise : ¬ ∀ s : Sys Unit (Fin 2),
    Reachable (step twoFifos) (Init twoFifos) (fun _ a => HomeOk (fun _ => ()) a) s →
      ∀ x p, timesHanded s.log x p ≤ 1 := by
  intro h
  have := h _ ⟨twoFifosInit, twoFifos_init, Run.of_acts (K := HomeOk fun _ => ()) (step twoFifos)
    ([.newMsg 0 3 0, .publish () 0] ++ dispatched ++ List.replicate 6 (.svc 0) ++ reprioritise 0 2 ++
      List.replicate 6 (.svc 1) ++ List.replicate 5 (.svc 0)) rfl (fun a _ => by cases a <;> trivial)⟩
    0 ⟨0, 0, some ()⟩
  revert this
  decide

end ZephyrPubSub
