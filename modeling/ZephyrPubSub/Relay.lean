import ZephyrPubSub.Invariant
import ZephyrPubSub.Track

/-!
# The relay along the subscriber list

`track` reads the way of one publication off the system's state, and every step
of the system is a step of that `Track`. The condition is on moves between
brokers only: a FIFO subscriber does not take a message it has still to pass on
into another broker's list.
-/

namespace ZephyrPubSub

open Lists Function

section
variable {B S : Type}

/-- The message a FIFO subscriber has dequeued and not passed on. -/
def Svc.unsent : Svc B S → Option (Pkt B)
  | .got p _ | .lock p _ _ | .walk p _ _ _ => some p
  | _ => none

/-- The same up to the read of the `broker` field. -/
def Svc.unrouted : Svc B S → Option (Pkt B)
  | .got p _ => some p
  | _ => none

def Svc.toHandle : Svc B S → Option (Pkt B)
  | .got p _ | .lock p _ _ | .walk p _ _ _ | .ready p _ => some p
  | _ => none

theorem Svc.unsent_toHandle {v : Svc B S} {p : Pkt B} (h : v.unsent = some p) : v.toHandle = some p := by
  cases v <;> cases h <;> rfl

def Has (f : Svc B S → Option (Pkt B)) (c : Cfg S) (s : Sys B S) (x : S) (p : Pkt B) : Prop :=
  c.rxType x = .fifo ∧ (p ∈ s.queue x ∨ f (s.svc x) = some p)

/-- `x` is the one to pass `p` on. -/
abbrev Holds (c : Cfg S) (s : Sys B S) (x : S) (p : Pkt B) : Prop := Has Svc.unsent c s x p

variable [DecidableEq B] [DecidableEq S] {c : Cfg S} {s s' : Sys B S}

/-- A FIFO subscriber is linked into a list only when all messages it has to pass on are that
broker's, and any subscriber only when no other broker's dispatch has it as its next one. -/
def MoveOk (c : Cfg S) (s : Sys B S) : Act B S → Prop
  | .addLink x => (∀ p b, Holds c s x p → p.src = some b → s.broker x = some b) ∧
    ∀ p b id h, s.work b = .scan p id (some x) h → s.broker x = some b
  | _ => True

/-- The subscriber is in the broker's list, or the next one of the message's dispatch. -/
def Sys.Within (s : Sys B S) (b : B) (p : Pkt B) (x : S) : Prop :=
  x ∈ s.subscribers b ∨ ∃ id h, s.work b = .scan p id (some x) h

/-! ## Messages stay with their broker -/

structure Placed (c : Cfg S) (s : Sys B S) : Prop where
  hold : ∀ x p b b', Holds c s x p → p.src = some b → s.admin x ≠ .adding → s.broker x = some b' → b' = b
  lock : ∀ x p id b, s.svc x = .lock p id b → p.src = some b ∨ (s.admin x = .adding ∧ s.broker x = some b)
  walk : ∀ x p id b y, s.svc x = .walk p id b (some y) → p.src = some b ∧ y ∈ s.subscribers b
  /-- A subscriber that its handler has removed may still be next. -/
  scan : ∀ b p id x h b', s.work b = .scan p id (some x) h → s.admin x ≠ .adding → s.broker x = some b' → b' = b
  put : ∀ b p id x tmp, s.work b = .put p id x tmp → tmp = (after x (s.subscribers b)).head?

omit [DecidableEq B] [DecidableEq S] in
theorem QueueOk.src {x : S} {p : Pkt B} {id : MsgId} (h : QueueOk c s x p) (hid : id = s.mem.idOf p.msg)
    (hle : id ≤ c.maxPubMsgId x) : ∃ b, p.src = some b :=
  Option.ne_none_iff_exists'.mp (h.2.1.mp (hid ▸ hle))

section
variable {f : Svc B S → Option (Pkt B)}

omit [DecidableEq B] in
theorem has_push {x y : S} {p q : Pkt B}
    (h : Has f c { s with queue := update s.queue y (s.queue y ++ [q]) } x p) : Has f c s x p ∨ (x = y ∧ p = q) := by
  obtain ⟨hrx, hq | hv⟩ := h
  · by_cases hxy : x = y
    · subst hxy
      simp only [update_self, List.mem_append, List.mem_singleton] at hq
      exact hq.imp (fun hq => ⟨hrx, Or.inl hq⟩) fun hq => ⟨rfl, hq⟩
    · simp only [update_of_ne hxy] at hq
      exact Or.inl ⟨hrx, Or.inl hq⟩
  · exact Or.inl ⟨hrx, Or.inr hv⟩

omit [DecidableEq B] in
theorem Has.of_svc {x y : S} {p : Pkt B} {v : Svc B S}
    (h : c.rxType x = .fifo ∧ (p ∈ s.queue x ∨ f (update s.svc y v x) = some p))
    (hv : x = y → f v = none ∨ f v = f (s.svc y)) : Has f c s x p := by
  refine ⟨h.1, h.2.imp_right fun hp => ?_⟩
  by_cases hxy : x = y
  · subst hxy
    rw [update_self] at hp
    rcases hv rfl with hv | hv
    · rw [hv] at hp; cases hp
    · rwa [← hv]
  · rwa [update_of_ne hxy] at hp

theorem has_trans {a : Act B S} (hf : f = Svc.unsent ∨ f = Svc.unrouted ∨ f = Svc.toHandle)
    (hc : Carried c s) (hp : ∀ x p id b y, s.svc x = .walk p id b (some y) → p.src = some b ∧ y ∈ s.subscribers b)
    (ht : Trans c s a s') {x : S} {p : Pkt B} (h : Has f c s' x p) :
    Has f c s x p ∨ p.src = none ∨
      ∃ b, FifoOk s b p ∧ s.Within b p x ∧ s.wants c x (s.mem.idOf p.msg) := by
  -- what a call does to the message in hand
  have sent : ∀ v q id, v.unsent = some q → f (.ready q id) = none ∨ f (.ready q id) = f v := by
    intro v q id hv
    rcases hf with rfl | rfl | rfl
    · exact Or.inl rfl
    · exact Or.inl rfl
    · exact Or.inr (Svc.unsent_toHandle hv).symm
  cases ht with
  | @scanFifo b q id y call μ hwk hwant _ _ =>
    rcases has_push (s := s) (y := y) (q := q) h with h | ⟨rfl, rfl⟩
    · exact Or.inl h
    · obtain ⟨hq, hid⟩ := hc.work_at hwk
      exact Or.inr (Or.inr ⟨b, hq, Or.inr ⟨_, _, hwk⟩, hid ▸ hwant⟩)
  | @put b q id y tmp hwk _ =>
    rcases has_push (s := s) (y := y) (q := q) h with h' | ⟨rfl, rfl⟩
    · exact Or.inl h'
    · have hrx := (hc.work_at hwk).2.2.2
      rw [h.1] at hrx; cases hrx
  | @publishToQueue y m id _ _ _ _ _ =>
    rcases has_push (s := s) (y := y) h with h | ⟨rfl, rfl⟩
    · exact Or.inl h
    · exact Or.inr (Or.inl rfl)
  | @walkGive y q id b n μ hv hwant _ _ =>
    obtain ⟨hsrc, hn⟩ := hp y q id b n hv
    have h' : Has f c { s with queue := update s.queue n (s.queue n ++ [q]) } x p :=
      Has.of_svc h fun _ => sent _ q id (by rw [hv]; rfl)
    rcases has_push h' with h | ⟨rfl, rfl⟩
    · exact Or.inl h
    · obtain ⟨hq, hid, _⟩ := hc.svc_at hv
      exact Or.inr (Or.inr ⟨b, ⟨hq.1, hsrc⟩, Or.inl hn, hid ▸ hwant⟩)
  | @takeMsgq y q ps id _ hrx hq _ =>
    have hxy : x ≠ y := fun e => by
      have := h.1
      rw [e, hrx] at this
      cases this
    have h' : Has f c { s with queue := update s.queue y ps } x p := Has.of_svc h fun e => absurd e hxy
    exact Or.inl ⟨h'.1, h'.2.imp_left (queue_pop hq x p)⟩
  | @takeFifo y q ps id hv hrx hq _ =>
    have got : f (.got q id) = some q := by rcases hf with rfl | rfl | rfl <;> rfl
    refine Or.inl ⟨h.1, ?_⟩
    by_cases hxy : x = y
    · subst hxy
      rcases h.2 with hp | hp
      · simp only [update_self] at hp
        exact Or.inl (by rw [hq]; exact List.mem_cons_of_mem q hp)
      · simp only [update_self, got, Option.some.injEq] at hp
        exact Or.inl (by rw [hq, hp]; exact List.mem_cons_self ..)
    · simpa [hxy] using h.2
  | gotPublic hv =>
    refine Or.inl (Has.of_svc h fun _ => ?_)
    rw [hv]
    rcases hf with rfl | rfl | rfl
    · exact Or.inr rfl
    · exact Or.inl rfl
    · exact Or.inr rfl
  | svcLock hv =>
    refine Or.inl (Has.of_svc h fun _ => ?_)
    rw [hv]
    rcases hf with rfl | rfl | rfl <;> exact Or.inr rfl
  | walkSkip hv =>
    refine Or.inl (Has.of_svc h fun _ => ?_)
    rw [hv]
    rcases hf with rfl | rfl | rfl <;> exact Or.inr rfl
  | gotPrivate hv => exact Or.inl (Has.of_svc h fun _ => sent _ _ _ (by rw [hv]; rfl))
  | walkEnd hv => exact Or.inl (Has.of_svc h fun _ => sent _ _ _ (by rw [hv]; rfl))
  | handle => exact Or.inl (Has.of_svc h fun _ => Or.inl (by rcases hf with rfl | rfl | rfl <;> rfl))
  | svcRelease => exact Or.inl (Has.of_svc h fun _ => Or.inl (by rcases hf with rfl | rfl | rfl <;> rfl))
  | _ => exact Or.inl h

end

omit [DecidableEq B] [DecidableEq S] in
theorem not_lockable {b : B} {o : Owner S} (hm : s.mutex b = some o) (hh : (s.work b).calling = false) :
    ¬ s.Lockable b := by
  rintro (h | h)
  · rw [hm] at h; cases h
  · rw [hh] at h; cases h

/-- The list is held while its mutex is and no handler runs. -/
theorem list_held {a : Act B S} (ht : Trans c s a s') {b : B} {o : Owner S} (hm : s.mutex b = some o)
    (hh : (s.work b).calling = false) : s'.subscribers b = s.subscribers b := by
  cases ht with
  | @addLink x b' _ _ h0 =>
    have hb : b ≠ b' := fun e => not_lockable hm hh (e ▸ h0)
    exact update_of_ne hb ..
  | @removeUnlink x b' _ _ h0 =>
    have hb : b ≠ b' := fun e => not_lockable hm hh (e ▸ h0)
    exact update_of_ne hb ..
  | _ => rfl

theorem svc_frame {a : Act B S} (ht : Trans c s a s') {x : S} (ha : a ≠ .svc x) : s'.svc x = s.svc x := by
  cases ht with
  | takeMsgq | takeFifo | gotPublic | gotPrivate | svcLock | walkEnd | walkSkip | walkGive | handle | svcRelease =>
    exact update_of_ne (fun e => ha (by rw [e])) ..
  | _ => rfl

theorem Placed.hold_trans {a : Act B S} (hw : Wf s) (hc : Carried c s) (h : Placed c s) (ht : Trans c s a s')
    (hm : MoveOk c s a) {x : S} {p : Pkt B} {b b' : B} (hx : Holds c s' x p) (hsrc : p.src = some b)
    (ha : s'.admin x ≠ .adding) (hb : s'.broker x = some b') : b' = b := by
  have hold : s.admin x ≠ .adding → s.broker x = some b' → b' = b := by
    intro ha hb
    rcases has_trans (Or.inl rfl) hc h.walk ht hx with hx | hx | ⟨b₀, ⟨_, h₀⟩, hx, _⟩
    · exact h.hold x p b b' hx hsrc ha hb
    · rw [hx] at hsrc; cases hsrc
    · rw [h₀] at hsrc; cases hsrc
      rcases hx with hx | ⟨id, call, hx⟩
      · have := ((hw.linked.mem_iff b x).mp hx).2
        rw [hb] at this; exact Option.some.inj this
      · exact h.scan b p id x call b' hx ha hb
  cases ht with
  | @addStart b₁ y =>
    by_cases hxy : x = y
    · subst hxy; simp at ha
    · exact hold (by simpa [hxy] using ha) (by simpa [hxy] using hb)
  | @addLink y b₁ _ hb₁ _ =>
    by_cases hxy : x = y
    · subst hxy
      have := hm.1 p b hx hsrc
      rw [this] at hb; exact (Option.some.inj hb).symm
    · exact hold (by simpa [hxy] using ha) hb
  | @removeUnlink y b₁ ha₁ hb₁ _ =>
    by_cases hxy : x = y
    · subst hxy; exact hold (by rw [ha₁]; decide) hb
    · exact hold (by simpa [hxy] using ha) hb
  | @removeClear y =>
    by_cases hxy : x = y
    · subst hxy; simp at hb
    · exact hold (by simpa [hxy] using ha) (by simpa [hxy] using hb)
  | _ => exact hold ha hb

theorem Placed.lock_trans {a : Act B S} (hc : Carried c s) (h : Placed c s) (ht : Trans c s a s')
    (hm : MoveOk c s a) {x : S} {p : Pkt B} {id : MsgId} {b : B} (hv : s'.svc x = .lock p id b) :
    p.src = some b ∨ (s'.admin x = .adding ∧ s'.broker x = some b) := by
  have hsvc : ∀ y v, v.unsent = none ∨ (∃ q i d n, v = Svc.walk q i d n) → update s.svc y v x = .lock p id b →
      s.svc x = .lock p id b := by
    intro y v hvu hvx
    by_cases hxy : x = y
    · subst hxy
      rw [update_self] at hvx
      subst hvx
      rcases hvu with hvu | ⟨q, i, d, n, hvu⟩
      · cases hvu
      · cases hvu
    · rwa [update_of_ne hxy] at hvx
  cases ht with
  | @gotPublic y q i b₁ hy hle hb =>
    by_cases hxy : x = y
    · subst hxy
      simp only [update_self] at hv
      cases hv
      by_cases ha : s.admin x = .adding
      · exact Or.inr ⟨ha, hb⟩
      · obtain ⟨hq, hid, hrx⟩ := hc.svc_at hy
        obtain ⟨b₀, h₀⟩ := hq.src hid hle
        rw [h.hold x p b₀ b ⟨hrx, Or.inr (by rw [hy]; rfl)⟩ h₀ ha hb]
        exact Or.inl h₀
    · simp only [update_of_ne hxy] at hv
      exact h.lock x p id b hv
  | @addStart b₁ y ha _ | @removeUnlink y b₁ ha _ _ | @removeClear y ha =>
    by_cases hxy : x = y
    · subst hxy
      exact (h.lock x p id b hv).elim Or.inl fun h' => by rw [ha] at h'; exact absurd h'.1 (by decide)
    · simpa [hxy] using h.lock x p id b hv
  | @addLink y b₁ ha hb₁ _ =>
    by_cases hxy : x = y
    · subst hxy
      rcases h.lock x p id b hv with h' | ⟨_, hb⟩
      · exact Or.inl h'
      · obtain ⟨hq, hid, hrx, hle⟩ := hc.svc_at hv
        obtain ⟨b₀, h₀⟩ := hq.src hid hle
        have := hm.1 p b₀ ⟨hrx, Or.inr (by rw [hv]; rfl)⟩ h₀
        rw [hb] at this; cases this
        exact Or.inl h₀
    · simpa [hxy] using h.lock x p id b hv
  | @takeFifo y q ps i _ _ _ _ =>
    by_cases hxy : x = y
    · subst hxy; simp at hv
    · simp only [update_of_ne hxy] at hv; exact h.lock x p id b hv
  | takeMsgq | gotPrivate | walkEnd | walkGive | handle | svcRelease =>
    exact h.lock x p id b (hsvc _ _ (Or.inl rfl) hv)
  | svcLock => exact h.lock x p id b (hsvc _ _ (Or.inr ⟨_, _, _, _, rfl⟩) hv)
  | walkSkip => exact h.lock x p id b (hsvc _ _ (Or.inr ⟨_, _, _, _, rfl⟩) hv)
  | _ => exact h.lock x p id b hv

omit [DecidableEq B] in
theorem Placed.next_mem (hw : Wf s) (h : Placed c s) {x y : S} {p : Pkt B} {b : B} (hx : Holds c s x p)
    (hb : p.src = some b) (hy : s.nextSub x = some y) : x ∈ s.subscribers b ∧ y ∈ s.subscribers b := by
  have hl : ∃ b', x ∈ s.subscribers b' := by
    by_contra hn
    rw [hw.linked.unlinked fun b' hm => hn ⟨b', hm⟩] at hy
    cases hy
  obtain ⟨b', hm⟩ := hl
  obtain ⟨ha, hbr⟩ := (hw.linked.mem_iff b' x).mp hm
  obtain rfl := h.hold x p b b' hx hb (by rw [ha]; decide) hbr
  exact ⟨hm, hw.linked.nextSub_mem hm hy⟩

omit [DecidableEq B] in
/-- Whichever list the pointer is read from, it is the one behind `x` in the message's list. -/
theorem Placed.nextSub (hw : Wf s) (h : Placed c s) {x : S} {p : Pkt B} {b : B} (hx : Holds c s x p)
    (hb : p.src = some b) : s.nextSub x = (after x (s.subscribers b)).head? := by
  by_cases hm : x ∈ s.subscribers b
  · exact hw.linked.nextSub hm
  · rw [after_of_not_mem hm]
    cases hy : s.nextSub x with
    | none => rfl
    | some y => exact absurd (h.next_mem hw hx hb hy).1 hm

theorem Placed.walk_trans {a : Act B S} (hw : Wf s) (hc : Carried c s) (h : Placed c s) (ht : Trans c s a s')
    {x : S} {p : Pkt B} {id : MsgId} {b : B} {y : S} (hv : s'.svc x = .walk p id b (some y)) :
    p.src = some b ∧ y ∈ s'.subscribers b := by
  have old : s.svc x = .walk p id b (some y) → p.src = some b ∧ y ∈ s'.subscribers b := by
    intro hv
    have hm := hw.locked.svc hv rfl
    rw [list_held ht hm (hw.locked.not_calling hm)]
    exact h.walk x p id b y hv
  by_cases ha : a = .svc x
  · subst ha
    cases ht with
    | @svcLock _ q i b₁ hx _ =>
      simp only [update_self, Svc.walk.injEq] at hv
      obtain ⟨rfl, rfl, rfl, hy⟩ := hv
      obtain ⟨hq, hid, hrx, hle⟩ := hc.svc_at hx
      obtain ⟨b₀, h₀⟩ := hq.src hid hle
      have hold : Holds c s x q := ⟨hrx, Or.inr (by rw [hx]; rfl)⟩
      obtain ⟨hm, hym⟩ := h.next_mem hw hold h₀ hy
      rcases h.lock x q i b₁ hx with h₁ | ⟨h₁, _⟩
      · rw [h₀] at h₁; cases h₁; exact ⟨h₀, hym⟩
      · rw [((hw.linked.mem_iff b₀ x).mp hm).1] at h₁; cases h₁
    | @walkSkip _ q i b₁ n hx _ =>
      simp only [update_self, Svc.walk.injEq] at hv
      obtain ⟨rfl, rfl, rfl, hy⟩ := hv
      obtain ⟨hsrc, hn⟩ := h.walk x q i b₁ n hx
      exact ⟨hsrc, hw.linked.nextSub_mem hn hy⟩
    | mem hμ => exact old hv
    | takeMsgq => simp at hv
    | takeFifo => simp at hv
    | gotPublic => simp at hv
    | gotPrivate => simp at hv
    | walkEnd => simp at hv
    | walkGive => simp at hv
    | handle => simp at hv
    | svcRelease => simp at hv
  · rw [svc_frame ht ha] at hv
    exact old hv

omit [DecidableEq B] in
/-- The next one of a dispatch is in the dispatch's list or in none. -/
theorem Placed.scan_next (hw : Wf s) (h : Placed c s) {b : B} {p : Pkt B} {id : MsgId} {x : S} {call : Option S}
    (hwk : s.work b = .scan p id (some x) call) : s.nextSub x = (after x (s.subscribers b)).head? := by
  by_cases hm : x ∈ s.subscribers b
  · exact hw.linked.nextSub hm
  · rw [after_of_not_mem hm, hw.linked.unlinked]
    · rfl
    · intro b' hm'
      obtain ⟨ha, hb⟩ := (hw.linked.mem_iff b' x).mp hm'
      obtain rfl := h.scan b p id x call b' hwk (by rw [ha]; decide) hb
      exact hm hm'

theorem work_resting {a : Act B S} (ht : Trans c s a s') {b : B} (ha : a ≠ .work b) :
    s'.work b = s.work b ∨ s'.work b = wake (s.work b) := by
  cases ht with
  | workQueued | workGetNone | workGet | workLock | scanEnd | scanSkip | scanCallback | scanMsgq | scanFifo | put
  | workRelease | workReset | workSubmit =>
    exact Or.inl (update_of_ne (fun e => ha (by rw [e])) ..)
  | @publish b₁ m =>
    by_cases hb : b = b₁
    · subst hb
      exact Or.inr (update_self ..)
    · exact Or.inl (update_of_ne hb ..)
  | _ => exact Or.inl rfl

/-- Where a dispatch has its next subscriber from. -/
theorem scan_of_trans {a : Act B S} (ht : Trans c s a s') {b : B} {p : Pkt B} {id : MsgId} {x : S} {call : Option S}
    (hwk : s'.work b = .scan p id (some x) call) : s.work b = .scan p id (some x) call ∨
      (a = .work b ∧ ((s.work b = .lock p id ∧ (s.subscribers b).head? = some x) ∨
        (∃ y h, s.work b = .scan p id (some y) h ∧ s.nextSub y = some x) ∨ ∃ y, s.work b = .put p id y (some x))) := by
  by_cases ha : a = .work b
  · subst ha
    cases ht with
    | mem => exact Or.inl hwk
    | workLock hw =>
      simp only [update_self, Work.scan.injEq] at hwk
      obtain ⟨rfl, rfl, hx, -⟩ := hwk
      exact Or.inr ⟨rfl, Or.inl ⟨hw, hx⟩⟩
    | scanSkip hw | scanCallback hw =>
      simp only [update_self, Work.scan.injEq] at hwk
      obtain ⟨rfl, rfl, hx, -⟩ := hwk
      exact Or.inr ⟨rfl, Or.inr (Or.inl ⟨_, _, hw, hx⟩)⟩
    | put hw =>
      simp only [update_self, Work.scan.injEq] at hwk
      obtain ⟨rfl, rfl, rfl, -⟩ := hwk
      exact Or.inr ⟨rfl, Or.inr (Or.inr ⟨_, hw⟩)⟩
    | workSubmit =>
      simp only [update_self] at hwk
      split at hwk <;> cases hwk
    | _ => simp at hwk
  · rcases work_resting ht ha with he | he
    · exact Or.inl (he ▸ hwk)
    · rw [he] at hwk
      cases hw : s.work b with
      | armed => rw [hw] at hwk; cases hwk
      | _ => rw [hw] at hwk; exact Or.inl hwk

theorem work_lists {b : B} (ht : Trans c s (.work b) s') :
    s'.subscribers = s.subscribers ∧ s'.admin = s.admin ∧ s'.broker = s.broker := by
  cases ht <;> exact ⟨rfl, rfl, rfl⟩

theorem Placed.pointer {a : Act B S} (hw : Wf s) (h : Placed c s) (ht : Trans c s a s') {b : B} {p : Pkt B}
    {id : MsgId} {x : S} {call : Option S} (hwk : s'.work b = .scan p id (some x) call) :
    s.work b = .scan p id (some x) call ∨ (a = .work b ∧ x ∈ s.subscribers b) := by
  rcases scan_of_trans ht hwk with hwk | ⟨rfl, ⟨-, hx⟩ | ⟨y, d, hy, hx⟩ | ⟨y, hy⟩⟩
  · exact Or.inl hwk
  · exact Or.inr ⟨rfl, List.mem_of_mem_head? hx⟩
  · rw [h.scan_next hw hy] at hx
    exact Or.inr ⟨rfl, mem_of_mem_after (List.mem_of_mem_head? hx)⟩
  · exact Or.inr ⟨rfl, mem_of_mem_after (List.mem_of_mem_head? (h.put b p id y _ hy).symm)⟩

theorem Placed.scan_trans {a : Act B S} (hw : Wf s) (h : Placed c s) (ht : Trans c s a s') (hm : MoveOk c s a)
    {b b' : B} {p : Pkt B} {id : MsgId} {x : S} {call : Option S} (hwk : s'.work b = .scan p id (some x) call)
    (ha : s'.admin x ≠ .adding) (hb : s'.broker x = some b') : b' = b := by
  rcases h.pointer hw ht hwk with hold | ⟨rfl, hx⟩
  · have keep : s.admin x ≠ .adding → s.broker x = some b' → b' = b := h.scan b p id x call b' hold
    cases ht with
    | @addStart b₁ y =>
      by_cases hxy : x = y
      · subst hxy; simp at ha
      · exact keep (by simpa [hxy] using ha) (by simpa [hxy] using hb)
    | @addLink y b₁ _ _ _ =>
      by_cases hxy : x = y
      · subst hxy
        have := hm.2 p b id call hold
        rw [this] at hb; exact (Option.some.inj hb).symm
      · exact keep (by simpa [hxy] using ha) hb
    | @removeUnlink y b₁ ha₁ _ _ =>
      by_cases hxy : x = y
      · subst hxy; exact keep (by rw [ha₁]; decide) hb
      · exact keep (by simpa [hxy] using ha) hb
    | @removeClear y =>
      by_cases hxy : x = y
      · subst hxy; simp at hb
      · exact keep (by simpa [hxy] using ha) (by simpa [hxy] using hb)
    | _ => exact keep ha hb
  · obtain ⟨_, _, he⟩ := work_lists ht
    rw [he] at hb
    have := ((hw.linked.mem_iff b x).mp hx).2
    rw [hb] at this; exact Option.some.inj this

/-- A message is put into the msgq of the dispatch's next subscriber. -/
theorem put_of_trans {a : Act B S} (ht : Trans c s a s') {b : B} {p : Pkt B} {id : MsgId} {x : S} {tmp : Option S}
    (hwk : s'.work b = .put p id x tmp) : s.work b = .put p id x tmp ∨
      (a = .work b ∧ tmp = s.nextSub x ∧ ∃ call, s.work b = .scan p id (some x) call) := by
  by_cases ha : a = .work b
  · subst ha
    cases ht with
    | mem => exact Or.inl hwk
    | scanMsgq hs =>
      simp only [update_self, Work.put.injEq] at hwk
      obtain ⟨rfl, rfl, rfl, rfl⟩ := hwk
      exact Or.inr ⟨rfl, rfl, _, hs⟩
    | workSubmit =>
      simp only [update_self] at hwk
      split at hwk <;> cases hwk
    | _ => simp at hwk
  · rcases work_resting ht ha with he | he
    · exact Or.inl (he ▸ hwk)
    · rw [he] at hwk
      cases hw : s.work b with
      | armed => rw [hw] at hwk; cases hwk
      | _ => rw [hw] at hwk; exact Or.inl hwk

theorem Placed.put_trans {a : Act B S} (hw : Wf s) (h : Placed c s) (ht : Trans c s a s') {b : B} {p : Pkt B}
    {id : MsgId} {x : S} {tmp : Option S} (hwk : s'.work b = .put p id x tmp) :
    tmp = (after x (s'.subscribers b)).head? := by
  rcases put_of_trans ht hwk with hold | ⟨rfl, rfl, call, hs⟩
  · rw [list_held ht (hw.locked.work hold rfl) (by rw [hold]; rfl)]
    exact h.put b p id x tmp hold
  · rw [(work_lists ht).1]
    exact h.scan_next hw hs

theorem Placed.trans {a : Act B S} (hw : Wf s) (hc : Carried c s) (h : Placed c s) (ht : Trans c s a s')
    (hm : MoveOk c s a) : Placed c s' where
  hold _ _ _ _ hx hsrc ha hb := h.hold_trans hw hc ht hm hx hsrc ha hb
  lock _ _ _ _ hv := h.lock_trans hc ht hm hv
  walk _ _ _ _ _ hv := h.walk_trans hw hc ht hv
  scan _ _ _ _ _ _ hwk ha hb := h.scan_trans hw ht hm hwk ha hb
  put _ _ _ _ _ hwk := h.put_trans hw ht hwk

omit [DecidableEq B] in
theorem placed_init (h : Init c s) : Placed c s := by
  constructor
  · rintro x p b b' ⟨_, hp | hp⟩
    · rw [h.queue] at hp; cases hp
    · rw [h.svc] at hp; cases hp
  · intro x p id b hv; rw [h.svc] at hv; cases hv
  · intro x p id b y hv; rw [h.svc] at hv; cases hv
  · intro b p id x d b' hwk; rw [h.work] at hwk; cases hwk
  · intro b p id x tmp hwk; rw [h.work] at hwk; cases hwk

/-! ## The track of a message -/

def Work.pos (p : Pkt B) : Work B S → Option (WorkPos S)
  | .lock q _ => if q = p then some .lock else none
  | .scan q _ sub _ => if q = p then some (.scan sub) else none
  | .put q _ x _ => if q = p then some (.put x) else none
  | _ => none

def Svc.pos (p : Pkt B) : Svc B S → Option (SvcPos S)
  | .got q _ | .lock q _ _ => if q = p then some .hold else none
  | .walk q _ _ n => if q = p then some (.walk n) else none
  | .ready q _ => if q = p then some .ready else none
  | _ => none

section
omit [DecidableEq S]

@[simp] theorem Work.pos_scan (p : Pkt B) (id : MsgId) (x y : Option S) :
    (Work.scan p id x y).pos p = some (.scan x) := if_pos rfl
@[simp] theorem Work.pos_release (p q : Pkt B) : (Work.release q : Work B S).pos p = none := rfl

@[simp] theorem Svc.pos_got (p : Pkt B) (id : MsgId) : (Svc.got p id : Svc B S).pos p = some .hold := if_pos rfl
@[simp] theorem Svc.pos_walk (p : Pkt B) (id : MsgId) (b : B) (n : Option S) :
    (Svc.walk p id b n).pos p = some (.walk n) := if_pos rfl
@[simp] theorem Svc.pos_ready (p : Pkt B) (id : MsgId) :
    (Svc.ready p id : Svc B S).pos p = some .ready := if_pos rfl
@[simp] theorem Svc.pos_running (p q : Pkt B) : (Svc.running q : Svc B S).pos p = none := rfl

end

/-- How often the handler of `x` has been called with `p`. -/
def timesHanded (l : List (Event B S)) (x : S) (p : Pkt B) : Nat := l.count (.handed x p)

def track (s : Sys B S) (b : B) (p : Pkt B) : Track S where
  list := s.subscribers b
  pub := (s.fifo b).count p
  work := (s.work b).pos p
  queue x := (s.queue x).count p
  svc x := (s.svc x).pos p
  handed x := timesHanded s.log x p

theorem update_map {ι α β : Type*} [DecidableEq ι] (f : α → β) (g : ι → α) (i : ι) (v : α) :
    (fun j => f (update g i v j)) = update (fun j => f (g j)) i (f v) :=
  funext fun j => apply_update (fun _ => f) g i v j

theorem count_push (g : S → List (Pkt B)) (x : S) (p : Pkt B) :
    (fun y => (update g x (g x ++ [p]) y).count p) = update (fun y => (g y).count p) x ((g x).count p + 1) := by
  rw [update_map (List.count p), List.count_append, List.count_singleton_self]

theorem count_push_ne {ι : Type*} [DecidableEq ι] {g : ι → List (Pkt B)} {i : ι} {p q : Pkt B} (h : q ≠ p) :
    ∀ j, (update g i (g i ++ [q]) j).count p = (g j).count p :=
  update_view (f := List.count p)
    (by rw [List.count_append, List.count_singleton, if_neg (by simpa using h), Nat.add_zero])

theorem count_pop_ne {ι : Type*} [DecidableEq ι] {g : ι → List (Pkt B)} {i : ι} {p q : Pkt B} {l : List (Pkt B)}
    (hg : g i = q :: l) (h : q ≠ p) : ∀ j, (update g i l j).count p = (g j).count p :=
  update_view (f := List.count p) (by rw [hg, List.count_cons_of_ne h])

theorem count_handed (l : List (Event B S)) (x : S) (p : Pkt B) :
    (fun y => timesHanded (l ++ [.handed x p]) y p) =
      update (fun y => timesHanded l y p) x (timesHanded l x p + 1) := by
  funext y
  by_cases hy : y = x
  · subst hy; simp [timesHanded]
  · simp [timesHanded, hy, Ne.symm hy]

theorem count_handed_ne (l : List (Event B S)) {x : S} {p q : Pkt B} (h : q ≠ p) (y : S) :
    timesHanded (l ++ [.handed x q]) y p = timesHanded l y p := by
  simp [timesHanded, h]

theorem count_published (l : List (Event B S)) (p q : Pkt B) (y : S) :
    timesHanded (l ++ [.published q]) y p = timesHanded l y p := by
  simp [timesHanded]

variable {b : B} {p : Pkt B} {want stay : S → Prop}

theorem track_same (hl : s'.subscribers b = s.subscribers b) (hf : (s'.fifo b).count p = (s.fifo b).count p)
    (hw : (s'.work b).pos p = (s.work b).pos p) (hq : ∀ x, (s'.queue x).count p = (s.queue x).count p)
    (hv : ∀ x, (s'.svc x).pos p = (s.svc x).pos p)
    (hlog : ∀ x, timesHanded s'.log x p = timesHanded s.log x p) :
    Track.Step c.rxType want stay (track s b p) (track s' b p) := by
  have : track s' b p = track s b p := by simp only [track, hl, hf, hw, hq, hv, hlog]
  rw [this]
  exact .stutter

theorem same_work {b₁ : B} {w : Work B S} (hw : w.pos p = (s.work b₁).pos p) :
    Track.Step c.rxType want stay (track s b p) (track { s with work := update s.work b₁ w } b p) :=
  track_same rfl rfl (update_view (f := Work.pos p) hw b) (fun _ => rfl) (fun _ => rfl) fun _ => rfl

theorem same_svc {x : S} {v : Svc B S} (hv : v.pos p = (s.svc x).pos p) :
    Track.Step c.rxType want stay (track s b p) (track { s with svc := update s.svc x v } b p) :=
  track_same rfl rfl rfl (fun _ => rfl) (update_view (f := Svc.pos p) hv) fun _ => rfl

omit [DecidableEq B] [DecidableEq S] in
/-- Whoever can change the list is in no dispatch or in a handler called by it. -/
theorem Locked.lockable (h : Locked s) (hm : s.Lockable b) :
    ((s.work b).scanning = false ∨ (s.work b).calling = true) ∧ ∀ x, (s.svc x).walking ≠ some b := by
  rcases hm with hm | hm
  · exact ⟨Or.inl (h.free_work hm), h.free_svc hm⟩
  · refine ⟨Or.inr hm, fun x hx => ?_⟩
    have := h.not_calling ((h.svc_iff b x).mpr hx)
    rw [hm] at this; cases this

theorem track_resting (hw : Wf s) (hp : Placed c s) (hsrc : p.src = some b) (hm : s.Lockable b) :
    (track s b p).Resting := by
  obtain ⟨hf, hsvc⟩ := hw.locked.lockable hm
  constructor
  · intro x
    simp only [track]
    cases hwb : s.work b with
    | put => rw [hwb] at hf; rcases hf with hf | hf <;> cases hf
    | lock q id => by_cases hq : q = p <;> simp [Work.pos, hq]
    | scan q id y d => by_cases hq : q = p <;> simp [Work.pos, hq]
    | _ => simp [Work.pos]
  · intro x n hv
    cases n with
    | none => rfl
    | some y =>
      simp only [track] at hv
      cases hvx : s.svc x with
      | walk q id b₁ n =>
        rw [hvx] at hv
        simp only [Svc.pos] at hv
        split at hv
        · rename_i hq
          subst hq
          cases hv
          have h₁ := (hp.walk x q id b₁ y hvx).1
          rw [hsrc] at h₁; cases h₁
          exact absurd (by rw [hvx]; rfl) (hsvc x)
        · cases hv
      | got q => rw [hvx] at hv; simp only [Svc.pos] at hv; split at hv <;> cases hv
      | lock q => rw [hvx] at hv; simp only [Svc.pos] at hv; split at hv <;> cases hv
      | ready q => rw [hvx] at hv; simp only [Svc.pos] at hv; split at hv <;> cases hv
      | idle => rw [hvx] at hv; cases hv
      | running => rw [hvx] at hv; cases hv

/-! ### The steps of a dispatch -/

section
variable {q : Pkt B} {b₁ : B} {id : MsgId} {x n : S} {call : Option S} {μ : Mem}

abbrev Tracked (c : Cfg S) (s s' : Sys B S) (b : B) (p : Pkt B) (stay : S → Prop) : Prop :=
  Track.Step c.rxType (fun x => s.wants c x (s.mem.idOf p.msg)) stay (track s b p) (track s' b p)

theorem tracked_workGet (hc : Carried c s) (hsrc : p.src = some b) {ps : List (Pkt B)} (hb : s.work b₁ = .get)
    (hf : s.fifo b₁ = q :: ps) :
    Tracked c s { s with fifo := update s.fifo b₁ ps, work := update s.work b₁ (.lock q id) } b p stay := by
  by_cases hq : q = p
  · subst hq
    obtain rfl := (hc.fifo b₁ q (by rw [hf]; exact List.mem_cons_self ..)).broker hsrc
    have he : track { s with fifo := update s.fifo b₁ ps, work := update s.work b₁ (.lock q id) } b₁ q =
        { track s b₁ q with pub := ps.count q, work := some .lock } := by
      simp [track, Work.pos]
    rw [Tracked, he]
    exact .take (by simp [track, hf]) (by simp [track, hb, Work.pos])
  · exact track_same rfl (count_pop_ne hf hq b) (update_view (f := Work.pos p) (by simp [hb, Work.pos, hq]) b)
      (fun _ => rfl) (fun _ => rfl) fun _ => rfl

theorem tracked_workLock (hc : Carried c s) (hsrc : p.src = some b) (hb : s.work b₁ = .lock q id) :
    Tracked c s { s with
      mutex := update s.mutex b₁ (some .work)
      work := update s.work b₁ (.scan q id (s.subscribers b₁).head? none) } b p stay := by
  by_cases hq : q = p
  · subst hq
    obtain rfl := (hc.work_at hb).1.broker hsrc
    have he : track { s with
        mutex := update s.mutex b₁ (some .work)
        work := update s.work b₁ (.scan q id (s.subscribers b₁).head? none) } b₁ q =
        { track s b₁ q with work := some (.scan (track s b₁ q).list.head?) } := by
      simp [track, Work.pos]
    rw [Tracked, he]
    exact .lock (by simp [track, hb, Work.pos])
  · exact same_work (by simp [hb, Work.pos, hq])

theorem tracked_scanEnd (hc : Carried c s) (hsrc : p.src = some b) (hb : s.work b₁ = .scan q id none call) :
    Tracked c s { s with mutex := update s.mutex b₁ none, work := update s.work b₁ (.release q) } b p stay := by
  by_cases hq : q = p
  · subst hq
    obtain rfl := (hc.work_at hb).1.broker hsrc
    have he : track { s with mutex := update s.mutex b₁ none, work := update s.work b₁ (.release q) } b₁ q =
        { track s b₁ q with work := none } := by
      simp [track, Work.pos]
    rw [Tracked, he]
    exact .scanEnd (by simp [track, hb, Work.pos])
  · exact same_work (by simp [hb, Work.pos, hq])

theorem tracked_scanSkip (hw : Wf s) (hc : Carried c s) (hp : Placed c s) (hsrc : p.src = some b)
    (hb : s.work b₁ = .scan q id (some x) call) (hx : ¬ s.wants c x id) :
    Tracked c s { s with work := update s.work b₁ (.scan q id (s.nextSub x) none) } b p stay := by
  by_cases hq : q = p
  · subst hq
    obtain ⟨hq, hid⟩ := hc.work_at hb
    obtain rfl := (hq.broker hsrc).symm
    have he : track { s with work := update s.work b (.scan q id (s.nextSub x) none) } b q =
        { track s b q with work := some (.scan (after x (track s b q).list).head?) } := by
      simp [track, Work.pos, hp.scan_next hw hb]
    rw [Tracked, he]
    exact .scanSkip (by simp [track, hb, Work.pos]) (by rw [← hid]; exact hx)
  · exact same_work (by simp [hb, Work.pos, hq])

theorem tracked_scanCallback (hw : Wf s) (hc : Carried c s) (hp : Placed c s) (hsrc : p.src = some b)
    (hb : s.work b₁ = .scan q id (some x) call) (hx : s.wants c x id) :
    Tracked c s { s with
      log := s.log ++ [.handed x q]
      work := update s.work b₁ (.scan q id (s.nextSub x) (some x)) } b p stay := by
  by_cases hq : q = p
  · subst hq
    obtain ⟨hq, hid⟩ := hc.work_at hb
    obtain rfl := (hq.broker hsrc).symm
    have he : track { s with
        log := s.log ++ [.handed x q]
        work := update s.work b (.scan q id (s.nextSub x) (some x)) } b q =
        { track s b q with
          work := some (.scan (after x (track s b q).list).head?)
          handed := update (track s b q).handed x ((track s b q).handed x + 1) } := by
      simp only [track, count_handed, update_self, Work.pos_scan, hp.scan_next hw hb]
    rw [Tracked, he]
    exact .scanCallback (by simp [track, hb, Work.pos]) (by rw [← hid]; exact hx)
  · exact track_same rfl rfl (update_view (f := Work.pos p) (by simp [hb, Work.pos, hq]) b) (fun _ => rfl)
      (fun _ => rfl) (count_handed_ne s.log hq)

theorem tracked_scanMsgq (hc : Carried c s) (hsrc : p.src = some b) {tmp : Option S}
    (hb : s.work b₁ = .scan q id (some x) call) (hx : s.wants c x id) :
    Tracked c s { s with mem := μ, work := update s.work b₁ (.put q id x tmp) } b p stay := by
  by_cases hq : q = p
  · subst hq
    obtain ⟨hq, hid⟩ := hc.work_at hb
    obtain rfl := (hq.broker hsrc).symm
    have he : track { s with mem := μ, work := update s.work b (.put q id x tmp) } b q =
        { track s b q with work := some (.put x) } := by
      simp [track, Work.pos]
    rw [Tracked, he]
    exact .scanMsgq (by simp [track, hb, Work.pos]) (by rw [← hid]; exact hx)
  · exact same_work (by simp [hb, Work.pos, hq])

theorem tracked_scanFifo (hc : Carried c s) (hsrc : p.src = some b) (hb : s.work b₁ = .scan q id (some x) call)
    (hx : s.wants c x id) (hrx : c.rxType x = .fifo) :
    Tracked c s { s with
      mem := μ
      queue := update s.queue x (s.queue x ++ [q])
      mutex := update s.mutex b₁ none
      work := update s.work b₁ (.release q) } b p stay := by
  by_cases hq : q = p
  · subst hq
    obtain ⟨hq, hid⟩ := hc.work_at hb
    obtain rfl := (hq.broker hsrc).symm
    have he : track { s with
        mem := μ
        queue := update s.queue x (s.queue x ++ [q])
        mutex := update s.mutex b none
        work := update s.work b (.release q) } b q =
        { track s b q with
          work := none
          queue := update (track s b q).queue x ((track s b q).queue x + 1) } := by
      simp only [track, count_push, update_self, Work.pos_release]
    rw [Tracked, he]
    exact .scanFifo (by simp [track, hb, Work.pos]) (by rw [← hid]; exact hx) hrx
  · exact track_same rfl rfl (update_view (f := Work.pos p) (by simp [hb, Work.pos, hq]) b) (count_push_ne hq)
      (fun _ => rfl) fun _ => rfl

theorem tracked_put (hc : Carried c s) (hp : Placed c s) (hsrc : p.src = some b) {tmp : Option S}
    (hb : s.work b₁ = .put q id x tmp) :
    Tracked c s { s with
      queue := update s.queue x (s.queue x ++ [q])
      work := update s.work b₁ (.scan q id tmp none) } b p stay := by
  by_cases hq : q = p
  · subst hq
    obtain ⟨hq, _, _, hrx⟩ := hc.work_at hb
    obtain rfl := (hq.broker hsrc).symm
    have he : track { s with
        queue := update s.queue x (s.queue x ++ [q])
        work := update s.work b (.scan q id tmp none) } b q =
        { track s b q with
          work := some (.scan (after x (track s b q).list).head?)
          queue := update (track s b q).queue x ((track s b q).queue x + 1) } := by
      simp only [track, count_push, update_self, Work.pos_scan, hp.put b q id x tmp hb]
    rw [Tracked, he]
    exact .put (by simp [track, hb, Work.pos]) hrx
  · exact track_same rfl rfl (update_view (f := Work.pos p) (by simp [hb, Work.pos, hq]) b) (count_push_ne hq)
      (fun _ => rfl) fun _ => rfl

/-! ### The steps of a subscriber's thread -/

theorem tracked_takeMsgq {ps : List (Pkt B)} (hv : s.svc x = .idle) (hrx : c.rxType x = .msgq)
    (hx : s.queue x = q :: ps) :
    Tracked c s { s with queue := update s.queue x ps, svc := update s.svc x (.ready q id) } b p stay := by
  by_cases hq : q = p
  · subst hq
    have he : track { s with queue := update s.queue x ps, svc := update s.svc x (.ready q id) } b q =
        { track s b q with
          queue := update (track s b q).queue x (ps.count q)
          svc := update (track s b q).svc x (some .ready) } := by
      simp only [track, update_map (List.count q), update_map (Svc.pos q), Svc.pos_ready]
    rw [Tracked, he]
    exact .takeMsgq hrx (by simp [track, hx]) (by simp [track, hv, Svc.pos])
  · exact track_same rfl rfl rfl (count_pop_ne hx hq) (update_view (f := Svc.pos p) (by simp [hv, Svc.pos, hq]))
      fun _ => rfl

theorem tracked_takeFifo {ps : List (Pkt B)} (hv : s.svc x = .idle) (hrx : c.rxType x = .fifo)
    (hx : s.queue x = q :: ps) :
    Tracked c s { s with queue := update s.queue x ps, svc := update s.svc x (.got q id) } b p stay := by
  by_cases hq : q = p
  · subst hq
    have he : track { s with queue := update s.queue x ps, svc := update s.svc x (.got q id) } b q =
        { track s b q with
          queue := update (track s b q).queue x (ps.count q)
          svc := update (track s b q).svc x (some .hold) } := by
      simp only [track, update_map (List.count q), update_map (Svc.pos q), Svc.pos_got]
    rw [Tracked, he]
    exact .takeFifo hrx (by simp [track, hx]) (by simp [track, hv, Svc.pos])
  · exact track_same rfl rfl rfl (count_pop_ne hx hq) (update_view (f := Svc.pos p) (by simp [hv, Svc.pos, hq]))
      fun _ => rfl

/-- A public message is not private to who has dequeued it. -/
theorem tracked_gotPrivate (hc : Carried c s) (hsrc : p.src = some b) (hv : s.svc x = .got q id)
    (hle : ¬ id ≤ c.maxPubMsgId x) : Tracked c s { s with svc := update s.svc x (.ready q id) } b p stay := by
  have hq : q ≠ p := by
    rintro rfl
    obtain ⟨hq, hid, _⟩ := hc.svc_at hv
    exact hle (hid ▸ hq.2.1.mpr (by rw [hsrc]; simp))
  exact same_svc (by simp [hv, Svc.pos, hq])

theorem tracked_svcLock (hw : Wf s) (hc : Carried c s) (hp : Placed c s) (hsrc : p.src = some b)
    (hv : s.svc x = .lock q id b₁) :
    Tracked c s { s with
      mutex := update s.mutex b₁ (some (.svc x))
      svc := update s.svc x (.walk q id b₁ (s.nextSub x)) } b p stay := by
  by_cases hq : q = p
  · subst hq
    have hrx := (hc.svc_at hv).2.2.1
    have he : track { s with
        mutex := update s.mutex b₁ (some (.svc x))
        svc := update s.svc x (.walk q id b₁ (s.nextSub x)) } b q =
        { track s b q with
          svc := update (track s b q).svc x (some (.walk (after x (track s b q).list).head?)) } := by
      simp only [track, update_map (Svc.pos q), Svc.pos_walk,
        hp.nextSub hw ⟨hrx, Or.inr (by rw [hv]; rfl)⟩ hsrc]
    rw [Tracked, he]
    exact .startWalk hrx (by simp [track, hv, Svc.pos])
  · exact same_svc (by simp [hv, Svc.pos, hq])

theorem tracked_walkEnd (hc : Carried c s) (hv : s.svc x = .walk q id b₁ none) :
    Tracked c s { s with mutex := update s.mutex b₁ none, svc := update s.svc x (.ready q id) } b p stay := by
  by_cases hq : q = p
  · subst hq
    have he : track { s with mutex := update s.mutex b₁ none, svc := update s.svc x (.ready q id) } b q =
        { track s b q with svc := update (track s b q).svc x (some .ready) } := by
      simp only [track, update_map (Svc.pos q), Svc.pos_ready]
    rw [Tracked, he]
    exact .walkEnd (hc.svc_at hv).2.2.1 (by simp [track, hv, Svc.pos])
  · exact same_svc (by simp [hv, Svc.pos, hq])

theorem tracked_walkSkip (hw : Wf s) (hc : Carried c s) (hp : Placed c s) (hsrc : p.src = some b)
    (hv : s.svc x = .walk q id b₁ (some n)) (hn : ¬ s.wants c n id) :
    Tracked c s { s with svc := update s.svc x (.walk q id b₁ (s.nextSub n)) } b p stay := by
  by_cases hq : q = p
  · subst hq
    obtain ⟨hs, hm⟩ := hp.walk x q id b₁ n hv
    rw [hsrc] at hs; cases hs
    obtain ⟨_, hid, hrx, _⟩ := hc.svc_at hv
    have he : track { s with svc := update s.svc x (.walk q id b (s.nextSub n)) } b q =
        { track s b q with
          svc := update (track s b q).svc x (some (.walk (after n (track s b q).list).head?)) } := by
      simp only [track, update_map (Svc.pos q), Svc.pos_walk, hw.linked.nextSub hm]
    rw [Tracked, he]
    exact .walkSkip hrx (by simp [track, hv, Svc.pos]) (by rw [← hid]; exact hn)
  · exact same_svc (by simp [hv, Svc.pos, hq])

theorem tracked_walkGive (hc : Carried c s) (hv : s.svc x = .walk q id b₁ (some n)) (hn : s.wants c n id)
    (hrn : c.rxType n = .fifo) :
    Tracked c s { s with
      mem := μ
      queue := update s.queue n (s.queue n ++ [q])
      mutex := update s.mutex b₁ none
      svc := update s.svc x (.ready q id) } b p stay := by
  by_cases hq : q = p
  · subst hq
    obtain ⟨_, hid, hrx, _⟩ := hc.svc_at hv
    have he : track { s with
        mem := μ
        queue := update s.queue n (s.queue n ++ [q])
        mutex := update s.mutex b₁ none
        svc := update s.svc x (.ready q id) } b q =
        { track s b q with
          queue := update (track s b q).queue n ((track s b q).queue n + 1)
          svc := update (track s b q).svc x (some .ready) } := by
      simp only [track, count_push, update_map (Svc.pos q), Svc.pos_ready]
    rw [Tracked, he]
    exact .walkGive hrx (by simp [track, hv, Svc.pos]) (by rw [← hid]; exact hn) hrn
  · exact track_same rfl rfl rfl (count_push_ne hq) (update_view (f := Svc.pos p) (by simp [hv, Svc.pos, hq]))
      fun _ => rfl

theorem tracked_handle (hv : s.svc x = .ready q id) :
    Tracked c s { s with log := s.log ++ [.handed x q], svc := update s.svc x (.running q) } b p stay := by
  by_cases hq : q = p
  · subst hq
    have he : track { s with log := s.log ++ [.handed x q], svc := update s.svc x (.running q) } b q =
        { track s b q with
          svc := update (track s b q).svc x none
          handed := update (track s b q).handed x ((track s b q).handed x + 1) } := by
      simp only [track, count_handed, update_map (Svc.pos q), Svc.pos_running]
    rw [Tracked, he]
    exact .handle (by simp [track, hv, Svc.pos])
  · exact track_same rfl rfl rfl (fun _ => rfl) (update_view (f := Svc.pos p) (by simp [hv, Svc.pos, hq]))
      (count_handed_ne s.log hq)

/-! ### Publishing and the lists -/

omit [DecidableEq B] [DecidableEq S] in
theorem tag_ne {r : Pkt B} (htag : p.tag < s.nextTag) (hr : r.tag = s.nextTag) : r ≠ p := by
  rintro rfl
  exact Nat.lt_irrefl _ (hr ▸ htag)

theorem tracked_relist {l : List S} {admin : S → Admin} (hw : Wf s) (hp : Placed c s) (hsrc : p.src = some b)
    (hm : s.Lockable b₁) (hl : (update s.subscribers b₁ l b).Nodup)
    (hok : update s.subscribers b₁ l b ≠ s.subscribers b →
      (track s b p).RelistOk c.rxType stay (update s.subscribers b₁ l b)) :
    Tracked c s { s with subscribers := update s.subscribers b₁ l, admin := admin } b p stay := by
  by_cases hne : update s.subscribers b₁ l b = s.subscribers b
  · exact track_same hne rfl rfl (fun _ => rfl) (fun _ => rfl) fun _ => rfl
  · have hb : b = b₁ := by
      by_contra hb
      exact hne (update_of_ne hb ..)
    subst hb
    exact .relist hl (track_resting hw hp hsrc hm) (hok hne)

end

/-- A step of the system is a step of the track of each publication. -/
theorem trans_track {a : Act B S} (hw : Wf s) (hc : Carried c s) (hp : Placed c s) (ht : Trans c s a s')
    (hsrc : p.src = some b) (htag : p.tag < s.nextTag)
    (hl : s'.subscribers b ≠ s.subscribers b → (track s b p).RelistOk c.rxType stay (s'.subscribers b)) :
    Tracked c s s' b p stay := by
  have hl' := (hw.trans ht).linked.nodup b
  cases ht with
  | workQueued hb | workGetNone hb _ | workReset hb | workRelease hb _ => exact same_work (by rw [hb]; rfl)
  | workSubmit hb => exact same_work (by rw [hb]; split <;> rfl)
  | workGet hb hf _ => exact tracked_workGet hc hsrc hb hf
  | workLock hb _ => exact tracked_workLock hc hsrc hb
  | scanEnd hb => exact tracked_scanEnd hc hsrc hb
  | scanSkip hb hx => exact tracked_scanSkip hw hc hp hsrc hb hx
  | scanCallback hb hx _ => exact tracked_scanCallback hw hc hp hsrc hb hx
  | scanMsgq hb hx _ _ => exact tracked_scanMsgq hc hsrc hb hx
  | scanFifo hb hx hrx _ => exact tracked_scanFifo hc hsrc hb hx hrx
  | put hb _ => exact tracked_put hc hp hsrc hb
  | takeMsgq hv hrx hq _ => exact tracked_takeMsgq hv hrx hq
  | takeFifo hv hrx hq _ => exact tracked_takeFifo hv hrx hq
  | gotPublic hv _ _ => exact same_svc (by simp [hv, Svc.pos])
  | gotPrivate hv hle => exact tracked_gotPrivate hc hsrc hv hle
  | svcLock hv _ => exact tracked_svcLock hw hc hp hsrc hv
  | walkEnd hv => exact tracked_walkEnd hc hv
  | walkSkip hv hn => exact tracked_walkSkip hw hc hp hsrc hv hn
  | walkGive hv hn hrn _ => exact tracked_walkGive hc hv hn hrn
  | handle hv => exact tracked_handle hv
  | svcRelease hv _ => exact same_svc (by rw [hv]; rfl)
  | @publish b₁ m _ =>
    refine track_same rfl (count_push_ne (tag_ne htag rfl) b) (update_view (f := Work.pos p) ?_ b) (fun _ => rfl)
      (fun _ => rfl) (count_published s.log p _)
    cases s.work b₁ <;> rfl
  | @publishToCallback x m id _ _ _ _ =>
    have hq : (⟨m, s.nextTag, none⟩ : Pkt B) ≠ p := tag_ne htag rfl
    exact track_same rfl rfl rfl (fun _ => rfl) (fun _ => rfl) fun y => by simp [timesHanded, hq]
  | publishToQueue =>
    exact track_same rfl rfl rfl (count_push_ne (tag_ne htag rfl)) (fun _ => rfl) (count_published s.log p _)
  | addLink _ _ hm => exact tracked_relist hw hp hsrc hm hl' hl
  | removeUnlink _ _ hm => exact tracked_relist hw hp hsrc hm hl' hl
  | _ => exact track_same rfl rfl rfl (fun _ => rfl) (fun _ => rfl) fun _ => rfl

end

end ZephyrPubSub
