import ZephyrPubSub.Delivery
import ZephyrPubSub.Shares

/-!
# Who works with a message

A publication is carried by the publish FIFO, the dispatch, the queues and
threads of subscribers, and the direct publishers' calls of callback handlers.
Steps pass publications on from one carrier to another and only publishing
brings up a new one, so a message is carried for one publication at a time.
-/

namespace ZephyrPubSub

open Function Runs

section
variable {B S : Type}

inductive Carries (s : Sys B S) (p : Pkt B) : Prop
  | fifo {b} : p ∈ s.fifo b → Carries s p
  | work {b} : (s.work b).pkt = some p → Carries s p
  | queue {x} : p ∈ s.queue x → Carries s p
  | svc {x} : (s.svc x).pkt = some p → Carries s p
  | call {x} : (x, p) ∈ s.calls → Carries s p

def Issues (s : Sys B S) : Act B S → Pkt B → Prop
  | .publish b m, p => s.mem.owned m = true ∧ p = ⟨m, s.nextTag, some b⟩
  | .publishTo _ m, p => s.mem.owned m = true ∧ p = ⟨m, s.nextTag, none⟩
  | _, _ => False

theorem Issues.owned {s : Sys B S} {a : Act B S} {p : Pkt B} (h : Issues s a p) : s.mem.owned p.msg = true := by
  cases a with
  | publish b m => obtain ⟨ho, rfl⟩ := h; exact ho
  | publishTo x m => obtain ⟨ho, rfl⟩ := h; exact ho
  | _ => exact h.elim

theorem Issues.tag {s : Sys B S} {a : Act B S} {p : Pkt B} (h : Issues s a p) : p.tag = s.nextTag := by
  cases a with
  | publish b m => obtain ⟨_, rfl⟩ := h; rfl
  | publishTo x m => obtain ⟨_, rfl⟩ := h; rfl
  | _ => exact h.elim

theorem Issues.unique {s : Sys B S} {a : Act B S} {p q : Pkt B} (hp : Issues s a p) (hq : Issues s a q) : p = q := by
  cases a with
  | publish b m => rw [hp.2, hq.2]
  | publishTo x m => rw [hp.2, hq.2]
  | _ => exact hp.elim

variable [DecidableEq B] [DecidableEq S] {c : Cfg S} {s s' : Sys B S} {a : Act B S} {p : Pkt B}

/-! ## Passing on -/

theorem fifo_from (ht : Trans c s a s') {b : B} (h : p ∈ s'.fifo b) : p ∈ s.fifo b ∨ Issues s a p := by
  cases ht with
  | workGet _ hf _ => exact Or.inl (queue_pop hf b p h)
  | @publish b₁ m ho => exact queue_push (P := fun _ p => Issues s (.publish b₁ m) p) ⟨ho, rfl⟩ b p h
  | _ => exact Or.inl h

theorem work_from (ht : Trans c s a s') {b : B} (h : (s'.work b).pkt = some p) :
    (s.work b).pkt = some p ∨ p ∈ s.fifo b := by
  have old : ∀ {b₁ w}, (update s.work b₁ w b).pkt = some p → (w.pkt = none ∨ w.pkt = (s.work b₁).pkt) →
      (s.work b).pkt = some p := by
    intro b₁ w h hw
    by_cases hb : b = b₁
    · subst hb
      rw [update_self] at h
      rcases hw with hw | hw
      · rw [hw] at h; cases h
      · rwa [← hw]
    · rwa [update_of_ne hb] at h
  cases ht with
  | workQueued hw | workGetNone hw _ | workRelease hw _ | workReset hw => exact Or.inl (old h (Or.inl rfl))
  | @workGet b₁ q ps id hw hf _ =>
    by_cases hb : b = b₁
    · subst hb
      simp only [update_self, Work.pkt, Option.some.injEq] at h
      exact Or.inr (by rw [hf, h]; exact List.mem_cons_self ..)
    · simp only [update_of_ne hb] at h
      exact Or.inl h
  | workLock hw _ | scanEnd hw | scanSkip hw _ | scanCallback hw _ _ | scanMsgq hw _ _ _ | scanFifo hw _ _ _
  | put hw _ =>
    exact Or.inl (old h (Or.inr (by rw [hw]; rfl)))
  | workSubmit hw => exact Or.inl (old h (Or.inl (by split <;> rfl)))
  | @publish b₁ m _ => exact Or.inl (old h (Or.inr (by cases s.work b₁ <;> rfl)))
  | _ => exact Or.inl h

theorem queue_from (ht : Trans c s a s') {x : S} (h : p ∈ s'.queue x) :
    p ∈ s.queue x ∨ (∃ b, (s.work b).pkt = some p) ∨ (∃ y id b n, s.svc y = .walk p id b n) ∨ Issues s a p := by
  cases ht with
  | @scanFifo b q id y tmp μ hw _ _ _ =>
    exact (queue_push (P := fun _ p => (s.work b).pkt = some p) (by rw [hw]; rfl) x p h).imp_right
      fun h => Or.inl ⟨b, h⟩
  | @put b q id y tmp hw _ =>
    exact (queue_push (P := fun _ p => (s.work b).pkt = some p) (by rw [hw]; rfl) x p h).imp_right
      fun h => Or.inl ⟨b, h⟩
  | @walkGive y q id b n μ hv _ _ _ =>
    exact (queue_push (P := fun _ p => s.svc y = .walk p id b (some n)) hv x p h).imp_right
      fun h => Or.inr (Or.inl ⟨y, id, b, some n, h⟩)
  | @publishToQueue y m id ho _ _ _ _ =>
    exact (queue_push (P := fun _ p => Issues s (.publishTo y m) p) ⟨ho, rfl⟩ x p h).imp_right
      fun h => Or.inr (Or.inr h)
  | takeMsgq _ _ hq _ => exact Or.inl (queue_pop hq x p h)
  | takeFifo _ _ hq _ => exact Or.inl (queue_pop hq x p h)
  | _ => exact Or.inl h

theorem svc_from (ht : Trans c s a s') {x : S} (h : (s'.svc x).pkt = some p) :
    (s.svc x).pkt = some p ∨ p ∈ s.queue x := by
  by_cases ha : a = .svc x
  · subst ha
    cases ht with
    | takeMsgq _ _ hq _ =>
      simp only [update_self, Svc.pkt, Option.some.injEq] at h
      exact Or.inr (by rw [hq, h]; exact List.mem_cons_self ..)
    | takeFifo _ _ hq _ =>
      simp only [update_self, Svc.pkt, Option.some.injEq] at h
      exact Or.inr (by rw [hq, h]; exact List.mem_cons_self ..)
    | gotPublic hv _ _ | gotPrivate hv _ | svcLock hv _ | walkEnd hv | walkSkip hv _ | walkGive hv _ _ _
    | handle hv =>
      simp only [update_self] at h; exact Or.inl (by rw [hv]; exact h)
    | svcRelease _ _ => simp only [update_self, Svc.pkt] at h; cases h
    | mem _ => exact Or.inl h
  · rw [svc_frame ht ha] at h
    exact Or.inl h

theorem calls_from (ht : Trans c s a s') {x : S} (h : (x, p) ∈ s'.calls) : (x, p) ∈ s.calls ∨ Issues s a p := by
  cases ht with
  | publishToCallback ho _ _ _ =>
    rcases List.mem_append.mp h with h | h
    · exact Or.inl h
    · obtain ⟨_, rfl⟩ := Prod.mk.injEq .. ▸ List.mem_singleton.mp h
      exact Or.inr ⟨ho, rfl⟩
  | callReturn _ _ => exact Or.inl (List.mem_of_mem_erase h)
  | _ => exact Or.inl h

theorem carries_from (ht : Trans c s a s') (h : Carries s' p) : Carries s p ∨ Issues s a p := by
  cases h with
  | fifo h => exact (fifo_from ht h).imp_left .fifo
  | work h => exact Or.inl ((work_from ht h).elim .work .fifo)
  | queue h =>
    rcases queue_from ht h with h | ⟨b, h⟩ | ⟨y, id, b, n, h⟩ | h
    · exact Or.inl (.queue h)
    · exact Or.inl (.work h)
    · exact Or.inl (.svc (x := y) (by rw [h]; rfl))
    · exact Or.inr h
  | svc h => exact Or.inl ((svc_from ht h).elim .svc .queue)
  | call h => exact (calls_from ht h).imp_left .call

theorem handed_from (ht : Trans c s a s') (x : S) (p : Pkt B) :
    timesHanded s'.log x p = timesHanded s.log x p ∨ Carries s p ∨ Issues s a p := by
  have other : ∀ {y : S} {q : Pkt B}, (p = q → Carries s q ∨ Issues s a q) →
      timesHanded (s.log ++ [.handed y q]) x p = timesHanded s.log x p ∨ Carries s p ∨ Issues s a p := by
    intro y q h
    by_cases hp : p = q
    · exact Or.inr (hp ▸ h hp)
    · exact Or.inl (count_handed_ne _ (Ne.symm hp) x)
  cases ht with
  | scanCallback hw _ _ => exact other fun _ => Or.inl (.work (by rw [hw]; rfl))
  | handle hv => exact other fun _ => Or.inl (.svc (by rw [hv]; rfl))
  | publish _ => exact Or.inl (count_published ..)
  | @publishToCallback y m id ho _ _ _ =>
    by_cases hp : p = ⟨m, s.nextTag, none⟩
    · exact Or.inr (Or.inr ⟨ho, hp⟩)
    · exact Or.inl (by simp [timesHanded, Ne.symm hp])
  | publishToQueue _ _ _ _ _ => exact Or.inl (count_published ..)
  | _ => exact Or.inl rfl

theorem trans_extra (ht : Trans c s a s') : s'.mem.extra = s.mem.extra ∨ MemStep c.numAllocators s.mem a s'.mem := by
  cases ht with
  | mem h => exact Or.inr h
  | scanMsgq _ _ _ hμ => exact Or.inl (Mem.acquireMsg_owners hμ).2
  | scanFifo _ _ _ hμ => exact Or.inl (Mem.acquireMsg_owners hμ).2
  | walkGive _ _ _ hμ => exact Or.inl (Mem.acquireMsg_owners hμ).2
  | workRelease _ hμ => exact Or.inl (Mem.releaseMsg_owners hμ).2
  | svcRelease _ hμ => exact Or.inl (Mem.releaseMsg_owners hμ).2
  | callReturn _ hμ => exact Or.inl (Mem.releaseMsg_owners hμ).2
  | _ => exact Or.inl rfl

/-! ## Carriers hold references -/

variable [Fintype B] [Fintype S]

omit [DecidableEq B] [Fintype B] in
theorem inList_pos {l : List (Pkt B)} (h : p ∈ l) : 0 < inList p.msg l := by
  induction l with
  | nil => cases h
  | cons q l ih =>
    rw [inList_cons]
    rcases List.mem_cons.mp h with rfl | h
    · rw [one_self]; omega
    · have := ih h
      omega

omit [DecidableEq B] [Fintype B] in
theorem mem_of_inList {m : Msg} {l : List (Pkt B)} (h : 0 < inList m l) : ∃ q ∈ l, q.msg = m := by
  induction l with
  | nil => exact absurd h (Nat.lt_irrefl 0)
  | cons q l ih =>
    by_cases hq : q.msg = m
    · exact ⟨q, List.mem_cons_self .., hq⟩
    · rw [inList_cons, one_ne hq, Nat.zero_add] at h
      obtain ⟨r, hr, he⟩ := ih h
      exact ⟨r, List.mem_cons_of_mem q hr, he⟩

omit [DecidableEq B] [DecidableEq S] [Fintype B] [Fintype S] in
theorem Work.refs_pkt {w : Work B S} (h : w.pkt = some p) : 0 < w.refs p.msg := by
  cases w <;> cases h <;> simp [one_self]

omit [DecidableEq B] [DecidableEq S] [Fintype B] [Fintype S] in
theorem Svc.refs_pkt {v : Svc B S} (h : v.pkt = some p) : 0 < v.refs p.msg := by
  cases v <;> cases h <;> simp [one_self]

theorem Carries.refs (h : Carries s p) : 0 < refs s p.msg := by
  cases h with
  | @fifo b h =>
    have h₁ := Ledger.le_sum (fun b => inList p.msg (s.fifo b)) b
    have h₂ := inList_pos h
    simp only [ZephyrPubSub.refs]
    omega
  | work h => exact refs_work (Work.refs_pkt h)
  | @queue x h =>
    have h₁ := Ledger.le_sum (fun x => inList p.msg (s.queue x)) x
    have h₂ := inList_pos h
    simp only [ZephyrPubSub.refs]
    omega
  | svc h => exact refs_svc (Svc.refs_pkt h)
  | call h => exact refs_calls h

omit [DecidableEq B] [DecidableEq S] in
theorem refs_zero {m : Msg} (ho : s.mem.owned m = false) (he : s.mem.extra m = 0)
    (hc : ∀ p, p.msg = m → ¬ Carries s p) : refs s m = 0 := by
  have nobody : ∀ l : List (Pkt B), (∀ p ∈ l, Carries s p) → inList m l = 0 := by
    intro l hl
    induction l with
    | nil => rfl
    | cons p l ih =>
      rw [inList_cons, one_ne fun h => hc p h (hl p (List.mem_cons_self ..)),
        ih fun q hq => hl q (List.mem_cons_of_mem p hq)]
  have hf : ∀ b, inList m (s.fifo b) = 0 := fun b => nobody _ fun _ => .fifo
  have hq : ∀ x, inList m (s.queue x) = 0 := fun x => nobody _ fun _ => .queue
  have hcl : inList m (s.calls.map Prod.snd) = 0 := by
    apply nobody
    intro p hp
    obtain ⟨⟨x, q⟩, hx, rfl⟩ := List.mem_map.mp hp
    exact .call hx
  have hw : ∀ b, (s.work b).refs m = 0 := by
    intro b
    cases hwb : s.work b with
    | lock p id => exact one_ne fun h => hc p h (.work (by rw [hwb]; rfl))
    | scan p id y z => exact one_ne fun h => hc p h (.work (by rw [hwb]; rfl))
    | put p id y z =>
      have h0 : one m p = 0 := one_ne fun h => hc p h (.work (by rw [hwb]; rfl))
      rw [Work.refs_put, h0]
    | release p => exact one_ne fun h => hc p h (.work (by rw [hwb]; rfl))
    | _ => rfl
  have hv : ∀ x, (s.svc x).refs m = 0 := by
    intro x
    cases hvx : s.svc x with
    | idle => rfl
    | got p id => exact one_ne fun h => hc p h (.svc (by rw [hvx]; rfl))
    | lock p id b => exact one_ne fun h => hc p h (.svc (by rw [hvx]; rfl))
    | walk p id b y => exact one_ne fun h => hc p h (.svc (by rw [hvx]; rfl))
    | ready p id => exact one_ne fun h => hc p h (.svc (by rw [hvx]; rfl))
    | running p => exact one_ne fun h => hc p h (.svc (by rw [hvx]; rfl))
  simp only [refs, ho, he, hf, hq, hcl, hw, hv, Finset.sum_const_zero, Bool.toNat_false, Nat.add_zero]

/-- The first reference to a message is its owner's. -/
theorem trans_first (ha : Accounted c s) (ht : Trans c s a s') {m : Msg} (h0 : refs s m = 0)
    (h1 : 0 < refs s' m) : s'.mem.owned m = true := by
  have hb := ha.balanced m
  by_contra ho
  rw [Bool.not_eq_true] at ho
  have hex : s'.mem.extra m = 0 := by
    have hold : s.mem.extra m = 0 := by
      by_contra hn
      exact absurd (refs_extra (Nat.pos_of_ne_zero hn)) (by omega)
    rcases trans_extra ht with he | hm
    · rw [he, hold]
    · -- an extra reference is acquired on top of another one
      generalize s'.mem = μ' at hm
      cases hm with
      | newMsg hn => rw [(Mem.newMsg_ok hn).2.2.2.2.1, hold]
      | staticMsgInit hn => obtain ⟨_, _, rfl⟩ := Mem.staticMsgInit_ok hn; exact hold
      | acquireStatic _ _ _ hμ => exact (congrFun (Mem.acquireMsg_owners hμ).2 m).trans hold
      | releaseUnpublished _ hμ => exact (congrFun (Mem.releaseMsg_owners hμ).2 m).trans hold
      | @acquireExtra k hd μ hl hpos hμ =>
        have hk : m ≠ k := by
          rintro rfl
          rw [hl] at hb
          exact absurd (show hd.refCnt = refs s m from hb) (by omega)
        simp only [update_of_ne hk, (Mem.acquireMsg_owners hμ).2, hold]
      | @releaseExtra k μ hpos hμ =>
        have hk : m ≠ k := by
          rintro rfl
          omega
        simp only [update_of_ne hk, (Mem.releaseMsg_owners hμ).2, hold]
  refine absurd (refs_zero ho hex ?_) (by omega)
  intro p hp hcar
  rcases carries_from ht hcar with h | h
  · exact absurd h.refs (by rw [hp]; omega)
  · exact absurd (refs_owned h.owned) (by rw [hp]; omega)

/-! ## One publication at a time -/

structure Sole (s : Sys B S) : Prop where
  same : ∀ p q, Carries s p → Carries s q → p.msg = q.msg → p = q
  unowned : ∀ p, Carries s p → s.mem.owned p.msg = false

omit [Fintype B] [Fintype S] in
theorem issues_unowned (ht : Trans c s a s') (h : Issues s a p) : s'.mem.owned p.msg = false := by
  cases ht with
  | publish ho | publishToCallback ho _ _ _ | publishToQueue ho _ _ _ _ =>
    obtain ⟨_, rfl⟩ := h; exact update_self ..
  | mem hm => cases hm <;> exact h.elim
  | _ => exact h.elim

theorem Sole.trans (h : Sole s) (ha : Accounted c s) (ht : Trans c s a s') : Sole s' := by
  -- what the step publishes has had no carrier
  have fresh : ∀ {p q}, Carries s p → Issues s a q → p.msg ≠ q.msg := by
    intro p q hp hq he
    have := h.unowned p hp
    rw [he, hq.owned] at this
    cases this
  constructor
  · intro p q hp hq he
    rcases carries_from ht hp with hp | hp
    · rcases carries_from ht hq with hq | hq
      · exact h.same p q hp hq he
      · exact absurd he (fresh hp hq)
    · rcases carries_from ht hq with hq | hq
      · exact absurd he.symm (fresh hq hp)
      · exact hp.unique hq
  · intro p hp
    rcases carries_from ht hp with hp | hp
    · by_contra ho
      rw [Bool.not_eq_false] at ho
      rcases trans_acquired ha ht ho with ho | h0
      · rw [h.unowned p hp] at ho
        cases ho
      · exact absurd hp.refs (by omega)
    · exact issues_unowned ht hp

omit [DecidableEq B] [DecidableEq S] [Fintype B] [Fintype S] in
theorem not_carries_init (h : Init c s) (p : Pkt B) : ¬ Carries s p := by
  intro hp
  cases hp with
  | fifo hp => rw [h.fifo] at hp; cases hp
  | work hp => rw [h.work] at hp; cases hp
  | queue hp => rw [h.queue] at hp; cases hp
  | svc hp => rw [h.svc] at hp; cases hp
  | call hp => rw [h.calls] at hp; cases hp

omit [DecidableEq B] [DecidableEq S] [Fintype B] [Fintype S] in
theorem sole_init (h : Init c s) : Sole s :=
  ⟨fun p _ hp => absurd hp (not_carries_init h p), fun p hp => absurd hp (not_carries_init h p)⟩

end

/-! ## Events of a step -/

/-- What the step adds to the log. -/
inductive LogStep {B S : Type} (s : Sys B S) (a : Act B S) : List (Event B S) → Prop
  | silent : (∀ p, ¬ Issues s a p) → LogStep s a []
  | handed {x p} : (∀ p, ¬ Issues s a p) → Carries s p → LogStep s a [.handed x p]
  | published {p} : Issues s a p → LogStep s a [.published p]
  | called {x p} : Issues s a p → LogStep s a [.published p, .handed x p]

section
variable {B S : Type} [DecidableEq B] [DecidableEq S] {c : Cfg S} {s s' : Sys B S} {a : Act B S}

theorem trans_log (ht : Trans c s a s') : ∃ es, s'.log = s.log ++ es ∧ LogStep s a es := by
  have none : ∀ {b : Act B S}, (∀ p, ¬ Issues s b p) → ∃ es, s.log = s.log ++ es ∧ LogStep s b es :=
    fun h => ⟨[], (List.append_nil _).symm, .silent h⟩
  cases ht with
  | scanCallback hw _ _ => exact ⟨_, rfl, .handed (fun p hp => hp) (.work (by rw [hw]; rfl))⟩
  | handle hv => exact ⟨_, rfl, .handed (fun p hp => hp) (.svc (by rw [hv]; rfl))⟩
  | publish ho => exact ⟨_, rfl, .published ⟨ho, rfl⟩⟩
  | publishToCallback ho _ _ _ => exact ⟨_, rfl, .called ⟨ho, rfl⟩⟩
  | publishToQueue ho _ _ _ _ => exact ⟨_, rfl, .published ⟨ho, rfl⟩⟩
  | mem h => cases h <;> exact none fun p hp => hp
  | _ => exact none fun p hp => hp

end

end ZephyrPubSub
