import ZephyrPubSub.Carriers

/-!
# Messages published directly to a subscriber

Such a publication has no broker as its source, so its message is private to
the subscriber and is not passed on: it is handed to this subscriber once.
-/

namespace ZephyrPubSub

open Function Runs

section
variable {B S : Type} [DecidableEq B] [DecidableEq S]

def Svc.taken (p : Pkt B) : Svc B S → Nat
  | .got q _ | .lock q _ _ | .walk q _ _ _ | .ready q _ => if q = p then 1 else 0
  | _ => 0

def pending (s : Sys B S) (x : S) (p : Pkt B) : Nat := (s.queue x).count p + (s.svc x).taken p

variable {c : Cfg S} {s s' : Sys B S} {a : Act B S} {p : Pkt B} {x : S}

section
omit [DecidableEq B] [DecidableEq S]

theorem QueueOk.private (h : QueueOk c s x p) (hp : p.src = none) : ¬ s.mem.idOf p.msg ≤ c.maxPubMsgId x := by
  intro hle
  exact h.2.1.mp hle hp

theorem Carried.work_src (h : Carried c s) {b : B} (hp : (s.work b).pkt = some p) : p.src = some b := by
  have hw := h.work b
  cases hs : s.work b with
  | lock q id => rw [hs] at hw hp; cases hp; exact hw.1.2
  | scan q id y z => rw [hs] at hw hp; cases hp; exact hw.1.2
  | put q id y z => rw [hs] at hw hp; cases hp; exact hw.1.2
  | release q => rw [hs] at hw hp; cases hp; exact hw.2
  | _ => rw [hs] at hp; cases hp

theorem Carried.not_lock (h : Carried c s) (hp : p.src = none) {id : MsgId} {b : B} : s.svc x ≠ .lock p id b := by
  intro hv
  obtain ⟨hq, hid, _, hle⟩ := h.svc_at hv
  exact hq.private hp (hid ▸ hle)

theorem Carried.not_walk (h : Carried c s) (hp : p.src = none) {id : MsgId} {b : B} {n : Option S} :
    s.svc x ≠ .walk p id b n := by
  intro hv
  obtain ⟨hq, hid, _, hle⟩ := h.svc_at hv
  exact hq.private hp (hid ▸ hle)

end

theorem pending_take {q : Pkt B} {ps : List (Pkt B)} {v : Svc B S} (hi : s.svc x = .idle) (hq : s.queue x = q :: ps)
    (hv : v.taken p = if q = p then 1 else 0) (y : S) :
    (update s.queue x ps y).count p + (update s.svc x v y).taken p = pending s y p := by
  unfold pending
  by_cases hy : y = x
  · subst hy
    rw [update_self, update_self, hq, hi, hv, List.count_cons]
    simp only [beq_iff_eq, Svc.taken, Nat.add_zero]
  · rw [update_of_ne hy, update_of_ne hy]

theorem taken_update {v w : Svc B S} (hw : s.svc x = w) (hv : v.taken p = w.taken p) :
    ∀ y, (update s.svc x v y).taken p = (s.svc y).taken p :=
  update_view (f := Svc.taken p) (by rw [hw, hv])

theorem direct_same {y : S} (hl : timesHanded s'.log y p = timesHanded s.log y p)
    (hq : ∀ y, (s'.queue y).count p = (s.queue y).count p) (hv : ∀ y, (s'.svc y).taken p = (s.svc y).taken p) :
    timesHanded s'.log y p + pending s' y p = timesHanded s.log y p + pending s y p := by
  rw [pending, pending, hl, hq, hv]

theorem direct_total (hc : Carried c s) (ht : Trans c s a s') (hp : p.src = none) (htag : p.tag < s.nextTag) (y : S) :
    timesHanded s'.log y p + pending s' y p = timesHanded s.log y p + pending s y p := by
  have ofBroker : ∀ {b : B} {q : Pkt B}, FifoOk s b q → q ≠ p := by
    rintro b q hq rfl
    rw [hq.2] at hp
    cases hp
  have new : ∀ {m : Msg} {src : Option B}, (⟨m, s.nextTag, src⟩ : Pkt B) ≠ p := by
    rintro m src rfl
    exact Nat.lt_irrefl _ htag
  cases ht with
  | scanCallback hw _ _ =>
    exact direct_same (count_handed_ne _ (ofBroker (hc.work_at hw).1) y) (fun _ => rfl) fun _ => rfl
  | scanFifo hw _ _ _ => exact direct_same rfl (count_push_ne (ofBroker (hc.work_at hw).1)) fun _ => rfl
  | put hw _ => exact direct_same rfl (count_push_ne (ofBroker (hc.work_at hw).1)) fun _ => rfl
  | takeMsgq hi _ hq _ => exact congrArg _ (pending_take hi hq rfl y)
  | takeFifo hi _ hq _ => exact congrArg _ (pending_take hi hq rfl y)
  | gotPublic hv _ _ | gotPrivate hv _ | svcLock hv _ | walkEnd hv | walkSkip hv _ | svcRelease hv _ =>
    exact direct_same rfl (fun _ => rfl) (taken_update hv rfl)
  | @walkGive z q id b n μ hv _ _ _ =>
    have hq : q ≠ p := by
      rintro rfl
      exact hc.not_walk hp hv
    exact direct_same rfl (count_push_ne hq) (taken_update hv rfl)
  | @handle z q id hv =>
    simp only [pending, timesHanded, List.count_append, List.count_singleton]
    by_cases hy : y = z
    · subst hy
      rw [update_self, hv]
      by_cases hq : q = p
      · subst hq
        simp [Svc.taken]
        omega
      · simp [Svc.taken, hq]
    · simp [update_of_ne hy, Ne.symm hy]
  | publish _ => exact direct_same (count_published ..) (fun _ => rfl) fun _ => rfl
  | publishToCallback _ _ _ _ => simp [pending, timesHanded, List.count_append, new]
  | publishToQueue _ _ _ _ _ => exact direct_same (count_published ..) (count_push_ne new) fun _ => rfl
  | _ => rfl

structure Sent (s : Sys B S) (x : S) (p : Pkt B) : Prop where
  once : timesHanded s.log x p + pending s x p = 1
  others : ∀ y, y ≠ x → timesHanded s.log y p + pending s y p = 0

theorem Sent.run {P : Sys B S → Act B S → Prop} (h : Sent s x p) (hc : Carried c s) (hp : p.src = none)
    (htag : p.tag < s.nextTag) (hr : Run (step c) P s s') : Sent s' x p := by
  refine (hr.invariant (I := fun s => Sent s x p ∧ Carried c s ∧ p.tag < s.nextTag) ?_ ⟨h, hc, htag⟩).1
  intro s₁ a s₂ ⟨h, hc, htag⟩ _ hstep
  have ht := step_trans hstep
  have htot := direct_total hc ht hp htag
  exact ⟨⟨by rw [htot]; exact h.once, fun y hy => by rw [htot]; exact h.others y hy⟩, hc.trans ht,
    Nat.lt_of_lt_of_le htag (trans_later ht).2⟩

theorem new_total (hc : Carried c s) (hp : p.tag = s.nextTag) (y : S) :
    timesHanded s.log y p = 0 ∧ (s.queue y).count p = 0 ∧ (s.svc y).taken p = 0 := by
  have unknown : ∀ {q : Pkt B}, Known s q → q ≠ p := by
    rintro q hq rfl
    exact absurd hq.2 (by omega)
  refine ⟨?_, ?_, ?_⟩
  · exact List.count_eq_zero.mpr fun h => unknown (hc.log _ h) rfl
  · exact List.count_eq_zero.mpr fun h => unknown (hc.queue y p h).1 rfl
  · have hv := hc.svc y
    cases hs : s.svc y with
    | idle => rfl
    | got q id => rw [hs] at hv; exact if_neg (unknown hv.1.1)
    | lock q id b => rw [hs] at hv; exact if_neg (unknown hv.1.1)
    | walk q id b n => rw [hs] at hv; exact if_neg (unknown hv.1.1)
    | ready q id => rw [hs] at hv; exact if_neg (unknown hv.1.1)
    | running q => rfl

theorem sent_publish {m : Msg} (hc : Carried c s) (hs : publishToSubscriber c s x m = .ok s') :
    Sent s' x ⟨m, s.nextTag, none⟩ ∧ s.nextTag < s'.nextTag := by
  have hnew := new_total (c := c) (p := ⟨m, s.nextTag, none⟩) hc rfl
  cases publishTo_trans hs with
  | publishToCallback _ _ _ _ =>
    refine ⟨⟨?_, ?_⟩, Nat.lt_succ_self _⟩
    · obtain ⟨h₁, h₂, h₃⟩ := hnew x
      simp only [timesHanded, pending] at h₁ ⊢
      simp [List.count_append, h₁, h₂, h₃]
    · intro y hy
      obtain ⟨h₁, h₂, h₃⟩ := hnew y
      simp only [timesHanded, pending] at h₁ ⊢
      simp [List.count_append, h₁, h₂, h₃, Ne.symm hy]
  | publishToQueue _ _ _ _ _ =>
    refine ⟨⟨?_, ?_⟩, Nat.lt_succ_self _⟩
    · obtain ⟨h₁, h₂, h₃⟩ := hnew x
      simp only [count_published, pending, update_self, List.count_append, List.count_singleton_self, h₁, h₂, h₃]
    · intro y hy
      obtain ⟨h₁, h₂, h₃⟩ := hnew y
      simp only [count_published, pending, update_of_ne hy, h₁, h₂, h₃]
  | mem h => cases h

/-! ## A message of one subscriber -/

/-- The message has no owner, and only `x` has it, by direct publication. -/
structure Alone (s : Sys B S) (m : Msg) (x : S) : Prop where
  owned : s.mem.owned m = false
  extra : s.mem.extra m = 0
  direct : ∀ p, Carries s p → p.msg = m → p.src = none
  queue : ∀ p y, p ∈ s.queue y → p.msg = m → y = x
  svc : ∀ p y, (s.svc y).pkt = some p → p.msg = m → y = x
  calls : ∀ p y, (y, p) ∈ s.calls → p.msg ≠ m

/-- Nobody takes a reference to `m` but by passing on a publication. -/
def Act.leavesAlone (m : Msg) : Act B S → Bool
  | .acquireStatic k | .acquireExtra k => k ≠ m
  | _ => true

def LeavesAlone (m : Msg) (a : Act B S) : Prop := a.leavesAlone m = true

instance (a : Act B S) : Decidable (LeavesAlone m a) := inferInstanceAs (Decidable (_ = true))

variable {m : Msg}

omit [DecidableEq B] [DecidableEq S] in
theorem memStep_alone {n : Nat} {μ μ' : Mem} (h : MemStep n μ a μ') (ha : LeavesAlone m a) (hu : μ.used m)
    (ho : μ.owned m = false) (he : μ.extra m = 0) :
    μ'.owned m = false ∧ μ'.extra m = 0 ∧ μ'.life m = μ.life m := by
  cases h with
  | @newMsg k i al _ hn =>
    obtain ⟨hk, _, hl, hown, hext, _⟩ := Mem.newMsg_ok hn
    have hne : m ≠ k := fun e => hu (e ▸ hk)
    rw [hl, hown, hext, update_of_ne hne, update_of_ne hne]
    exact ⟨ho, he, rfl⟩
  | @staticMsgInit k i al _ hn =>
    obtain ⟨hk, _, rfl⟩ := Mem.staticMsgInit_ok hn
    exact ⟨ho, he, Mem.setLife_ne _ _ fun e => hu (e ▸ hk)⟩
  | @acquireStatic k hd μ₁ _ _ _ hμ | @acquireExtra k hd μ₁ _ _ hμ =>
    have hne : m ≠ k := Ne.symm (of_decide_eq_true ha)
    obtain ⟨hown, hext⟩ := Mem.acquireMsg_owners hμ
    simp only [update_of_ne hne, hown, hext]
    exact ⟨ho, he, Mem.acquireMsg_other hμ hne⟩
  | @releaseUnpublished k μ₁ hk hμ =>
    have hne : m ≠ k := by
      rintro rfl
      rw [ho] at hk
      cases hk
    obtain ⟨hown, hext⟩ := Mem.releaseMsg_owners hμ
    simp only [Mem.transfer, update_of_ne hne, hown, hext]
    exact ⟨ho, he, Mem.releaseMsg_other hμ hne⟩
  | @releaseExtra k μ₁ hk hμ =>
    have hne : m ≠ k := by
      rintro rfl
      omega
    obtain ⟨hown, hext⟩ := Mem.releaseMsg_owners hμ
    simp only [update_of_ne hne, hown, hext]
    exact ⟨ho, he, Mem.releaseMsg_other hμ hne⟩

/-- The message has no owner, and only `x` has it, maybe in a call of its handler. -/
structure Solo (s : Sys B S) (m : Msg) (x : S) : Prop where
  owned : s.mem.owned m = false
  extra : s.mem.extra m = 0
  direct : ∀ p, Carries s p → p.msg = m → p.src = none
  queue : ∀ p y, p ∈ s.queue y → p.msg = m → y = x
  svc : ∀ p y, (s.svc y).pkt = some p → p.msg = m → y = x
  calls : ∀ p y, (y, p) ∈ s.calls → p.msg = m → y = x

section
omit [DecidableEq B] [DecidableEq S]

theorem Alone.solo (h : Alone s m x) : Solo s m x :=
  ⟨h.owned, h.extra, h.direct, h.queue, h.svc, fun p y hp hm => absurd hm (h.calls p y hp)⟩

theorem not_issued (ho : s.mem.owned m = false) (p : Pkt B) (hp : Issues s a p) : p.msg ≠ m := by
  intro hm
  have := hp.owned
  rw [hm, ho] at this
  cases this

theorem Solo.not_work (h : Solo s m x) (hc : Carried c s) {b : B} (hp : (s.work b).pkt = some p) : p.msg ≠ m := by
  intro hm
  have hsrc := h.direct p (.work hp) hm
  rw [hc.work_src hp] at hsrc
  cases hsrc

theorem Solo.not_walk (h : Solo s m x) (hc : Carried c s) {y : S} {id : MsgId} {b : B} {n : Option S}
    (hv : s.svc y = .walk p id b n) : p.msg ≠ m := by
  intro hm
  exact hc.not_walk (h.direct p (.svc (x := y) (by rw [hv]; rfl)) hm) hv

end

theorem Solo.trans (h : Solo s m x) (hc : Carried c s) (ht : Trans c s a s') (ha : LeavesAlone m a)
    (hu : s.mem.used m) : Solo s' m x := by
  have old : ∀ p, Carries s' p → p.msg = m → Carries s p := by
    intro p hp hm
    exact (carries_from ht hp).resolve_right fun hi => not_issued h.owned p hi hm
  have hqueue : ∀ p y, p ∈ s'.queue y → p.msg = m → y = x := by
    intro p y hp hm
    rcases queue_from ht hp with hq | ⟨b, hw⟩ | ⟨z, id, b, n, hv⟩ | hi
    · exact h.queue p y hq hm
    · exact absurd hm (h.not_work hc hw)
    · exact absurd hm (h.not_walk hc hv)
    · exact absurd hm (not_issued h.owned p hi)
  refine ⟨?_, ?_, fun p hp hm => h.direct p (old p hp hm) hm, hqueue, ?_, ?_⟩
  · cases ho : s'.mem.owned m with
    | false => rfl
    | true =>
      rcases trans_owner ht ho with h' | h'
      · rw [h.owned] at h'
        cases h'
      · rw [(memStep_alone h' ha hu h.owned h.extra).1] at ho
        cases ho
  · rcases trans_extra ht with h' | h'
    · rw [h', h.extra]
    · exact (memStep_alone h' ha hu h.owned h.extra).2.1
  · intro p y hp hm
    rcases svc_from ht hp with hv | hq
    · exact h.svc p y hv hm
    · exact h.queue p y hq hm
  · intro p y hp hm
    rcases calls_from ht hp with hcl | hi
    · exact h.calls p y hcl hm
    · exact absurd hm (not_issued h.owned p hi)

theorem Alone.trans (h : Alone s m x) (hc : Carried c s) (ht : Trans c s a s') (ha : LeavesAlone m a)
    (hu : s.mem.used m) : Alone s' m x := by
  have hs := h.solo.trans hc ht ha hu
  refine ⟨hs.owned, hs.extra, hs.direct, hs.queue, hs.svc, ?_⟩
  intro p y hp
  rcases calls_from ht hp with hcl | hi
  · exact h.calls p y hcl
  · exact not_issued h.owned p hi

variable [Fintype B] [Fintype S]

theorem alone_of_free (h0 : refs s m = 0) (x : S) : Alone s m x := by
  have nobody : ∀ p, Carries s p → p.msg ≠ m := by
    intro p hp hm
    have := hp.refs
    rw [hm, h0] at this
    cases this
  refine ⟨owned_of_refs h0, ?_, fun p hp hm => absurd hm (nobody p hp),
    fun p y hp hm => absurd hm (nobody p (.queue hp)),
    fun p y hp hm => absurd hm (nobody p (.svc hp)), fun p y hp => nobody p (.call hp)⟩
  by_contra hn
  exact absurd (refs_extra (Nat.pos_of_ne_zero hn)) (by omega)

def Busy (s : Sys B S) (x : S) (m : Msg) : Prop := ∃ p, p.msg = m ∧ (p ∈ s.queue x ∨ (s.svc x).pkt = some p)

theorem Alone.busy (h : Alone s m x) (hc : Carried c s) : 0 < refs s m ↔ Busy s x m := by
  constructor
  · intro hpos
    by_contra hb
    refine absurd (refs_zero h.owned h.extra ?_) (Nat.ne_of_gt hpos)
    intro p hm hp
    have hsrc := h.direct p hp hm
    cases hp with
    | @fifo b hp =>
      rw [(hc.fifo b p hp).2] at hsrc
      cases hsrc
    | work hp =>
      rw [hc.work_src hp] at hsrc
      cases hsrc
    | @queue y hp => exact hb ⟨p, hm, Or.inl (h.queue p y hp hm ▸ hp)⟩
    | @svc y hp => exact hb ⟨p, hm, Or.inr (h.svc p y hp hm ▸ hp)⟩
    | @call y hp => exact h.calls p y hp hm
  · intro ⟨p, hm, hp⟩
    rw [← hm]
    exact hp.elim (fun hp => (Carries.queue hp).refs) fun hp => (Carries.svc hp).refs

theorem Alone.refs_step (h : Alone s m x) (hc : Carried c s) (hb : Accounted c s) (ht : Trans c s a s')
    (ha : LeavesAlone m a) (hu : s.mem.used m) :
    s'.mem.life m = s.mem.life m ∧ refs s' m = refs s m ∨
      (∃ p, a = .svc x ∧ s.svc x = .running p ∧ p.msg = m) ∧ refs s' m + 1 = refs s m := by
  have same : s'.mem.life m = s.mem.life m →
      s'.mem.life m = s.mem.life m ∧ refs s' m = refs s m ∨
        (∃ p, a = .svc x ∧ s.svc x = .running p ∧ p.msg = m) ∧ refs s' m + 1 = refs s m := by
    intro hl
    have h₁ := hb.balanced m
    have h₂ := (hb.trans ht).balanced m
    rw [hl] at h₂
    refine Or.inl ⟨hl, ?_⟩
    cases hs : s.mem.life m with
    | unused => exact absurd hs hu
    | live hd =>
      rw [hs] at h₁ h₂
      exact h₂.symm.trans h₁
    | freed hd =>
      rw [hs] at h₁ h₂
      exact (show refs s' m = 0 from h₂).trans (show refs s m = 0 from h₁).symm
  have ofWork : ∀ {p : Pkt B} {b}, (s.work b).pkt = some p → m ≠ p.msg :=
    fun hp => Ne.symm (h.solo.not_work hc hp)
  cases ht with
  | mem hm => exact same (memStep_alone hm ha hu h.owned h.extra).2.2
  | scanMsgq hw _ _ hμ => exact same (Mem.acquireMsg_other hμ (ofWork (by rw [hw]; rfl)))
  | scanFifo hw _ _ hμ => exact same (Mem.acquireMsg_other hμ (ofWork (by rw [hw]; rfl)))
  | @walkGive y p id b n μ hv _ _ hμ =>
    exact same (Mem.acquireMsg_other hμ (Ne.symm (h.solo.not_walk hc hv)))
  | workRelease hw hμ => exact same (Mem.releaseMsg_other hμ (ofWork (by rw [hw]; rfl)))
  | @svcRelease y p μ hv hμ =>
    by_cases hp : m = p.msg
    · subst hp
      obtain rfl := h.svc p y (by rw [hv]; rfl) rfl
      exact Or.inr ⟨⟨p, rfl, hv, rfl⟩, hb.released (hb.trans (.svcRelease hv hμ)) hμ rfl⟩
    · exact same (Mem.releaseMsg_other hμ hp)
  | @callReturn y p μ hcall hμ => exact same (Mem.releaseMsg_other hμ (Ne.symm (h.calls p y hcall)))
  | _ => exact same rfl

end

end ZephyrPubSub
