import ZephyrPubSub.Carriers
import ZephyrPubSub.Schedule

/-!
# Who holds a reference

A message under way from a broker is referenced once by the broker, from the
publication to the end of the dispatch, and at most once for each subscriber:
by its queue, by its running handler, or by the dispatch that is about to queue
it. The subscriber is given the message once, so it holds it in one place at a
time. Hence the count has a bound that only depends on the list.
-/

namespace ZephyrPubSub

open Lists Function Runs Ledger

section
variable {B S : Type} [DecidableEq S]

/-- The reference acquired for `x` that is not in its queue yet. -/
def Work.putRefs (m : Msg) (x : S) : Work B S → Nat
  | .put p _ y _ => if y = x then one m p else 0
  | _ => 0

variable [Fintype B] [Fintype S]

def holdings (s : Sys B S) (m : Msg) (x : S) : Nat :=
  inList m (s.queue x) + (s.svc x).refs m + ∑ b, (s.work b).putRefs m x

omit [Fintype B] in
theorem Work.refs_split (m : Msg) (w : Work B S) : w.refs m = w.pubRefs m + ∑ x, w.putRefs m x := by
  cases w <;> simp [Work.pubRefs, Work.putRefs]

/-- The references are the owner's, extra ones, the broker's, and those for the subscribers. -/
theorem refs_split (s : Sys B S) (m : Msg) : refs s m =
    (s.mem.owned m).toNat + s.mem.extra m + pubRefs s m + ∑ x, holdings s m x + inList m (s.calls.map Prod.snd) := by
  have hw : ∑ b, (s.work b).refs m = (∑ b, (s.work b).pubRefs m) + ∑ x, ∑ b, (s.work b).putRefs m x := by
    rw [Finset.sum_comm, ← Finset.sum_add_distrib]
    exact Finset.sum_congr rfl fun b _ => (s.work b).refs_split m
  simp only [refs, holdings, pubRefs, Finset.sum_add_distrib, hw]
  omega

end

section
variable {B S : Type} [DecidableEq B] [DecidableEq S] [Fintype B] [Fintype S] {c : Cfg S} {s s' : Sys B S}
variable {b : B} {x : S} {p : Pkt B} {o : Option (Site S)}

/-! ## A deliveries' worth of references -/

omit [Fintype B] in
theorem inList_count {q : List (Pkt B)} (h : ∀ r ∈ q, r.msg = p.msg → r = p) : inList p.msg q = q.count p := by
  induction q with
  | nil => rfl
  | cons r q ih =>
    rw [inList_cons, List.count_cons, ih fun t ht => h t (List.mem_cons_of_mem r ht)]
    by_cases hr : r = p
    · subst hr
      rw [one_self, beq_self_eq_true, if_pos rfl, Nat.add_comm]
    · have hne : r.msg ≠ p.msg := fun he => hr (h r (List.mem_cons_self ..) he)
      simp [one_ne hne, hr]

def Handled (s : Sys B S) : Prop := ∀ x p, s.svc x = .running p → .handed x p ∈ s.log

omit [Fintype B] [Fintype S] in
theorem Handled.trans {a : Act B S} (h : Handled s) (ht : Trans c s a s') : Handled s' := by
  intro x p hv
  have old : s.svc x = .running p → .handed x p ∈ s'.log := fun hv => log_kept ht (h x p hv)
  by_cases ha : a = .svc x
  · subst ha
    cases ht with
    | handle hr =>
      simp only [update_self, Svc.running.injEq] at hv
      subst hv
      exact List.mem_append_right _ (List.mem_singleton_self _)
    | mem => exact old hv
    | _ => simp at hv
  · rw [svc_frame ht ha] at hv
    exact old hv

omit [Fintype B] [Fintype S] in
theorem handed_pos (h : .handed x p ∈ s.log) : 0 < timesHanded s.log x p := List.count_pos_iff.mpr h

omit [DecidableEq B] [Fintype B] in
theorem one_pos {m : Msg} (h : 0 < one m p) : p.msg = m := by
  by_contra hn
  rw [one_ne hn] at h
  exact Nat.lt_irrefl 0 h

omit [DecidableEq B] [DecidableEq S] [Fintype B] [Fintype S] in
theorem Svc.refs_one {m : Msg} {v : Svc B S} (h : 0 < v.refs m) : v.refs m = 1 ∧ ∃ q, v.pkt = some q ∧ q.msg = m := by
  have key : ∀ q : Pkt B, 0 < one m q → one m q = 1 ∧ ∃ r, some q = some r ∧ r.msg = m :=
    fun q hq => ⟨Nat.le_antisymm (one_le m q) hq, q, rfl, one_pos hq⟩
  cases v with
  | idle => exact absurd h (Nat.lt_irrefl 0)
  | _ => exact key _ h

omit [DecidableEq S] [Fintype B] [Fintype S] in
theorem Svc.pos_of_pkt {v : Svc B S} (h : v.pkt = some p) : v = .running p ∨ (v.pos p).isSome = true := by
  cases v <;> cases h <;> simp [Svc.pos]

omit [Fintype B] [Fintype S] in
theorem svc_refs_le (hs : Sole s) (hh : Handled s) (hp : Carries s p) (x : S) :
    (s.svc x).refs p.msg ≤ timesHanded s.log x p + if ((s.svc x).pos p).isSome then 1 else 0 := by
  by_cases h0 : (s.svc x).refs p.msg = 0
  · rw [h0]
    exact Nat.zero_le _
  · obtain ⟨h1, q, hq, he⟩ := Svc.refs_one (Nat.pos_of_ne_zero h0)
    obtain rfl := hs.same q p (.svc hq) hp he
    rw [h1]
    rcases Svc.pos_of_pkt hq with hr | hpos
    · have := handed_pos (hh x q hr)
      omega
    · rw [if_pos hpos]
      omega

omit [DecidableEq B] [Fintype B] [Fintype S] in
theorem Work.putRefs_pos {m : Msg} {w : Work B S} (h : 0 < w.putRefs m x) :
    w.putRefs m x = 1 ∧ ∃ q id y, w = .put q id x y ∧ q.msg = m := by
  cases w with
  | put q id y z =>
    simp only [Work.putRefs] at h ⊢
    split at h
    · rename_i hy
      subst hy
      rw [if_pos rfl]
      exact ⟨Nat.le_antisymm (one_le m q) h, q, id, z, rfl, one_pos h⟩
    · exact absurd h (Nat.lt_irrefl 0)
  | _ => exact absurd h (Nat.lt_irrefl 0)

omit [Fintype S] in
theorem putRefs_le (hs : Sole s) (hc : Carried c s) (hp : Carries s p) (hsrc : p.src = some b) (x : S) :
    ∑ b', (s.work b').putRefs p.msg x ≤ WorkPos.putting x ((s.work b).pos p) := by
  have at_put : ∀ b', 0 < (s.work b').putRefs p.msg x → b' = b ∧ ∃ id y, s.work b' = .put p id x y := by
    intro b' h
    obtain ⟨_, q, id, y, hw, he⟩ := Work.putRefs_pos h
    obtain rfl := hs.same q p (.work (by rw [hw]; rfl)) hp he
    have hq := (hc.work_at hw).1.2
    rw [hsrc] at hq
    exact ⟨(Option.some.inj hq).symm, id, y, hw⟩
  rw [Finset.sum_eq_single b]
  · by_cases h0 : (s.work b).putRefs p.msg x = 0
    · rw [h0]
      exact Nat.zero_le _
    · obtain ⟨_, id, y, hw⟩ := at_put b (Nat.pos_of_ne_zero h0)
      rw [hw]
      simp [Work.putRefs, Work.pos, WorkPos.putting, one_self]
  · intro b' _ hne
    by_contra h0
    exact hne (at_put b' (Nat.pos_of_ne_zero h0)).1
  · intro hb
    exact absurd (Finset.mem_univ b) hb

omit [Fintype S] in
theorem holdings_le_got (hs : Sole s) (hh : Handled s) (hc : Carried c s) (hp : Carries s p) (hsrc : p.src = some b)
    (x : S) : holdings s p.msg x ≤ (track s b p).got x := by
  have hq := inList_count (q := s.queue x) fun q hq he => hs.same q p (.queue hq) hp he
  have hv := svc_refs_le hs hh hp x
  have hw := putRefs_le hs hc hp hsrc x
  show _ ≤ timesHanded s.log x p + (s.queue x).count p + (if ((s.svc x).pos p).isSome then 1 else 0) +
    WorkPos.putting x ((s.work b).pos p)
  rw [holdings, hq]
  omega

/-! ## Every run -/

def Takes (c : Cfg S) (s : Sys B S) (i : MsgId) (x : S) : Prop := c.rxType x ≠ .callback ∧ s.wants c x i

instance (s : Sys B S) (i : MsgId) (x : S) : Decidable (Takes c s i x) := inferInstanceAs (Decidable (_ ∧ _))

omit [DecidableEq S] [Fintype B] [Fintype S] in
theorem Work.of_pos_scan {w : Work B S} {sub : Option S} (h : w.pos p = some (.scan sub)) :
    ∃ id call, w = .scan p id sub call := by
  cases w with
  | scan q id y z =>
    simp only [Work.pos] at h
    split at h
    · rename_i hq
      cases h
      exact ⟨id, z, hq ▸ rfl⟩
    · cases h
  | lock | put => simp only [Work.pos] at h; split at h <;> cases h
  | _ => cases h

omit [DecidableEq S] [Fintype B] [Fintype S] in
theorem Svc.of_pos_walk {v : Svc B S} {n : Option S} (h : v.pos p = some (.walk n)) :
    ∃ id b', v = .walk p id b' n := by
  cases v with
  | walk q id b' y =>
    simp only [Svc.pos] at h
    split at h
    · rename_i hq
      cases h
      exact ⟨id, b', hq ▸ rfl⟩
    · cases h
  | got | lock | ready => simp only [Svc.pos] at h; split at h <;> cases h
  | _ => cases h

omit [Fintype S] in
theorem Track.mem_of_todo {t : Track S} (hw : ∀ y, t.work = some (.scan (some y)) → y ∈ t.list)
    (hv : ∀ z y, t.svc z = some (.walk (some y)) → y ∈ t.list) (h : x ∈ t.todo o) : x ∈ t.list := by
  cases o with
  | none => cases h
  | some u =>
    cases u with
    | pub => exact h
    | work =>
      simp only [todo] at h
      cases hwk : t.work with
      | none => rw [hwk] at h; cases h
      | some w =>
        rw [hwk] at h
        cases w with
        | lock => exact h
        | scan sub => exact mem_of_mem_fromPtr (fun y hy => hw y (hy ▸ hwk)) h
        | put y => exact mem_of_mem_after h
    | sub z =>
      simp only [todo] at h
      cases hvz : t.svc z with
      | none => rw [hvz] at h; exact mem_of_mem_after h
      | some v =>
        rw [hvz] at h
        cases v with
        | walk n => exact mem_of_mem_fromPtr (fun y hy => hv z y (hy ▸ hvz)) h
        | hold | ready => exact mem_of_mem_after h

omit [Fintype B] [Fintype S] in
theorem Sound.mem_of_todo (hs : Sound c s) (hset : Settled s) (hsrc : p.src = some b) (h : x ∈ (track s b p).todo o) :
    x ∈ s.subscribers b := by
  refine Track.mem_of_todo (t := track s b p) ?_ ?_ h
  · intro y hy
    obtain ⟨id, call, hw⟩ := Work.of_pos_scan hy
    exact hset.scan b p id y call hw
  · intro z y hy
    obtain ⟨id, b', hv⟩ := Svc.of_pos_walk hy
    obtain ⟨hb, hm⟩ := hs.placed.walk z p id b' y hv
    rw [hsrc] at hb
    rwa [← Option.some.inj hb] at hm

/-- What holds of the messages of brokers in every run with fixed lists and subscriptions. -/
structure Held (c : Cfg S) (s : Sys B S) : Prop where
  routed : Routed c s
  settled : Settled s
  accounted : Accounted c s
  sole : Sole s
  share : ∀ m, OneShare c s m
  handled : Handled s
  calls : ∀ x p, (x, p) ∈ s.calls → p.src = none
  way : ∀ p b, Carries s p → p.src = some b → ∃ o, Way c s b p (s.mem.idOf p.msg) o ∧
    ∀ x, ¬ (x ∈ s.subscribers b ∧ s.wants c x (s.mem.idOf p.msg)) → (track s b p).got x = 0

theorem held_init (h : Init c s) : Held c s := by
  refine ⟨routed_init h, settled_init h, accounted_init h, sole_init h, oneShare_init h, ?_, ?_, ?_⟩
  · intro x p hv
    rw [h.svc] at hv
    cases hv
  · intro x p hp
    rw [h.calls] at hp
    cases hp
  · intro p b hp
    exact absurd hp (not_carries_init h p)

theorem Held.calls_trans {a : Act B S} (h : Held c s) (ht : Trans c s a s') (hx : (x, p) ∈ s'.calls) :
    p.src = none := by
  cases ht with
  | publishToCallback =>
    rcases List.mem_append.mp hx with hx | hx
    · exact h.calls x p hx
    · obtain ⟨_, rfl⟩ := Prod.mk.injEq .. ▸ List.mem_singleton.mp hx
      rfl
  | callReturn => exact h.calls x p (List.mem_of_mem_erase hx)
  | _ => exact h.calls x p hx

theorem Held.way_trans {a : Act B S} (h : Held c s) (ht : Trans c s a s') (hl : KeepsLists a) (hk : KeepsSubs a)
    (hp : Carries s' p) (hsrc : p.src = some b) : ∃ o, Way c s' b p (s'.mem.idOf p.msg) o ∧
      ∀ x, ¬ (x ∈ s'.subscribers b ∧ s'.wants c x (s'.mem.idOf p.msg)) → (track s' b p).got x = 0 := by
  rcases carries_from ht hp with hp | hp
  · obtain ⟨o, hw, h0⟩ := h.way p b hp hsrc
    obtain ⟨o', hw', hsw⟩ := hw.removal (fun _ => False) ht (h.settled.removal hl) fun _ hy => hy.elim
    have hid : s'.mem.idOf p.msg = s.mem.idOf p.msg := hw'.id
    rw [hid]
    refine ⟨o', hw', fun x hx => ?_⟩
    rw [(lists_kept ht hl).1, wants_same ht hk] at hx
    refine (hsw.unwanted fun hm hwant => hx ⟨?_, hwant⟩).trans (h0 x hx)
    exact hw.sound.mem_of_todo h.settled hsrc hm
  · cases a with
    | publish b' m =>
      obtain ⟨ho, rfl⟩ := hp
      obtain rfl := Option.some.inj hsrc
      have hw := way_publish h.routed.sound ht.step
      refine ⟨some .pub, ?_, fun x _ => hw.inv.unstarted (Or.inl rfl) x⟩
      rwa [hw.id]
    | publishTo y m => obtain ⟨_, rfl⟩ := hp; cases hsrc
    | _ => exact hp.elim

theorem Held.trans {a : Act B S} (h : Held c s) (ht : Trans c s a s') (hl : KeepsLists a) (hk : KeepsSubs a) :
    Held c s' where
  routed := h.routed.trans ht (h.settled.removal hl)
  settled := h.settled.trans h.routed.sound ht hl
  accounted := h.accounted.trans ht
  sole := h.sole.trans h.accounted ht
  share m := (h.share m).trans h.accounted h.routed.sound.carried ht
  handled := h.handled.trans ht
  calls _ _ := h.calls_trans ht
  way _ _ := h.way_trans ht hl hk

theorem held_run {s₀ : Sys B S} (h₀ : Init c s₀) (hr : Run (step c) (fun _ a => KeepsLists a ∧ KeepsSubs a) s₀ s) :
    Held c s :=
  hr.invariant (fun _ _ _ h hk hstep => h.trans (step_trans hstep) hk.1 hk.2) (held_init h₀)

omit [Fintype B] [Fintype S] in
theorem extra_run {s₀ : Sys B S} (h₀ : Init c s₀) (hr : Leads c s₀ s) (m : Msg) : s.mem.extra m = 0 := by
  refine hr.invariant (I := fun s => ∀ m, s.mem.extra m = 0) ?_ h₀.extra m
  intro s a s' h hp hstep m
  rcases trans_extra (step_trans hstep) with he | hm
  · rw [he, h]
  · generalize s'.mem = μ at hm
    cases hm with
    | newMsg hn => rw [(Mem.newMsg_ok hn).2.2.2.2.1, h]
    | staticMsgInit hn => obtain ⟨_, _, rfl⟩ := Mem.staticMsgInit_ok hn; exact h m
    | acquireStatic _ _ _ hμ => exact (congrFun (Mem.acquireMsg_owners hμ).2 m).trans (h m)
    | releaseUnpublished _ hμ => exact (congrFun (Mem.releaseMsg_owners hμ).2 m).trans (h m)
    | acquireExtra => exact hp.2.2.elim
    | releaseExtra hpos _ => exact absurd (h _) (Nat.ne_of_gt hpos)

/-! ## The bound -/

omit [DecidableEq B] [Fintype S] in
theorem holdings_pos (hc : Carried c s) {m : Msg} (h : 0 < holdings s m x) :
    c.rxType x ≠ .callback ∧ ∃ p, Carries s p ∧ p.msg = m := by
  by_cases hq : 0 < inList m (s.queue x)
  · obtain ⟨p, hp, he⟩ := mem_of_inList hq
    exact ⟨(hc.queue x p hp).2.2, p, .queue hp, he⟩
  · by_cases hv : 0 < (s.svc x).refs m
    · obtain ⟨_, p, hp, he⟩ := Svc.refs_one hv
      refine ⟨?_, p, .svc hp, he⟩
      have hok := hc.svc x
      cases hvx : s.svc x with
      | idle => rw [hvx] at hp; cases hp
      | running => rw [hvx] at hok; exact hok.2.2
      | _ => rw [hvx] at hok; exact hok.1.2.2
    · have hw : ∑ b, (s.work b).putRefs m x ≠ 0 := by
        intro h0
        simp only [holdings] at h
        omega
      obtain ⟨b, _, hb⟩ := Finset.exists_ne_zero_of_sum_ne_zero hw
      obtain ⟨_, p, id, y, hwb, he⟩ := Work.putRefs_pos (Nat.pos_of_ne_zero hb)
      refine ⟨?_, p, .work (by rw [hwb]; rfl), he⟩
      rw [(hc.work_at hwb).2.2.2]
      exact RxType.noConfusion

def OnlyFrom (s : Sys B S) (b : B) (m : Msg) : Prop := ∀ p, Carries s p → p.msg = m → p.src = some b

theorem Held.holding {m : Msg} (h : Held c s) (hm : OnlyFrom s b m) (x : S) :
    holdings s m x ≤ 1 ∧ (¬ (x ∈ s.subscribers b ∧ Takes c s (s.mem.idOf m) x) → holdings s m x = 0) := by
  have hc := h.routed.sound.carried
  by_cases h0 : holdings s m x = 0
  · exact ⟨by omega, fun _ => h0⟩
  · obtain ⟨hrx, p, hp, rfl⟩ := holdings_pos hc (Nat.pos_of_ne_zero h0)
    have hsrc := hm p hp rfl
    obtain ⟨o, hw, hgot⟩ := h.way p b hp hsrc
    have hle := holdings_le_got h.sole h.handled hc hp hsrc x
    refine ⟨Nat.le_trans hle (hw.inv.fresh.le_one x), fun hx => ?_⟩
    have := hgot x fun hin => hx ⟨hin.1, hrx, hin.2⟩
    omega

theorem Held.refs_eq {m : Msg} (h : Held c s) (hm : OnlyFrom s b m) :
    refs s m ≤ 1 + ∑ x, holdings s m x + s.mem.extra m := by
  have hcalls : inList m (s.calls.map Prod.snd) = 0 := by
    by_contra h0
    obtain ⟨p, hp, he⟩ := mem_of_inList (Nat.pos_of_ne_zero h0)
    obtain ⟨⟨x, q⟩, hx, rfl⟩ := List.mem_map.mp hp
    have hsrc := hm q (.call hx) he
    rw [h.calls x q hx] at hsrc
    cases hsrc
  have hpub := (h.share m).pubRefs
  rw [refs_split, hcalls]
  omega

theorem Held.refs_le {m : Msg} (h : Held c s) (hm : OnlyFrom s b m) :
    refs s m ≤ 1 + (s.subscribers b).countP (fun x => decide (Takes c s (s.mem.idOf m) x)) + s.mem.extra m := by
  have hsum := sum_le_countP (h.routed.sound.wf.linked.nodup b) (fun x => (h.holding hm x).1)
    (fun x => (h.holding hm x).2)
  have hle := h.refs_eq hm
  omega

theorem Held.refs_lt {m : Msg} (h : Held c s) (hm : OnlyFrom s b m) (hx : x ∈ s.subscribers b)
    (ht : Takes c s (s.mem.idOf m) x) (h0 : holdings s m x = 0) :
    refs s m < 1 + (s.subscribers b).countP (fun x => decide (Takes c s (s.mem.idOf m) x)) + s.mem.extra m := by
  have hsum := sum_lt_countP (h.routed.sound.wf.linked.nodup b) (fun x => (h.holding hm x).1)
    (fun x => (h.holding hm x).2) hx ht h0
  have hle := h.refs_eq hm
  omega

/-! ## Where the counter can overflow -/

theorem getMsgId_no_overflow {μ : Mem} {m : Msg} : μ.getMsgId m ≠ .error .refOverflow := by
  unfold Mem.getMsgId
  intro h
  split at h <;> cases h

theorem releaseMsg_no_overflow {μ : Mem} {n : Nat} {m : Msg} : μ.releaseMsg n m ≠ .error .refOverflow := by
  unfold Mem.releaseMsg
  intro h
  split at h
  · split at h
    · split at h <;> cases h
    · cases h
  · cases h

theorem acquireMsg_overflow {μ : Mem} {m : Msg} (h : μ.acquireMsg m = .error .refOverflow) :
    ∃ hd, μ.life m = .live hd ∧ 255 ≤ hd.refCnt := by
  unfold Mem.acquireMsg at h
  split at h
  · rename_i hd hl
    split at h
    · cases h
    · exact ⟨hd, hl, by omega⟩
  · cases h

theorem bind_overflow {α β : Type} {y : Except Stop α} {f : α → β} (hy : y ≠ .error .refOverflow) :
    (y >>= fun r => .ok (f r)) ≠ .error .refOverflow := by
  intro h
  rcases bind_error h with h | ⟨r, _, h⟩
  · exact hy h
  · cases h

omit [Fintype B] [Fintype S] in
theorem workStep_overflow (h : workStep c s b = .error .refOverflow) : ∃ p id x call,
    s.work b = .scan p id (some x) call ∧ s.wants c x id ∧ c.rxType x ≠ .callback ∧
      s.mem.acquireMsg p.msg = .error .refOverflow := by
  unfold workStep at h
  cases hw : s.work b with
  | get =>
    rw [hw] at h
    cases hf : s.fifo b with
    | nil => simp only [hf] at h; cases h
    | cons p ps => simp only [hf] at h; exact absurd h (bind_overflow getMsgId_no_overflow)
  | lock p id => simp only [hw] at h; split at h <;> cases h
  | scan p id sub call =>
    cases sub with
    | none => rw [hw] at h; cases h
    | some x =>
      rw [hw] at h
      simp only [deliver] at h
      split at h
      · rename_i hwant
        cases hrx : c.rxType x with
        | callback => rw [hrx] at h; cases h
        | _ =>
          rw [hrx] at h
          refine ⟨p, id, x, call, rfl, hwant, by rw [hrx]; exact RxType.noConfusion, ?_⟩
          by_contra hn
          exact bind_overflow hn h
      · cases h
  | put p id x tmp => simp only [hw] at h; split at h <;> cases h
  | release p => rw [hw] at h; exact absurd h (bind_overflow releaseMsg_no_overflow)
  | _ => rw [hw] at h; cases h

omit [Fintype B] [Fintype S] in
theorem svcStep_overflow (h : svcStep c s x = .error .refOverflow) : ∃ p id b n,
    s.svc x = .walk p id b (some n) ∧ s.wants c n id ∧ c.rxType n = .fifo ∧
      s.mem.acquireMsg p.msg = .error .refOverflow := by
  unfold svcStep at h
  cases hv : s.svc x with
  | idle =>
    rw [hv] at h
    cases hrx : c.rxType x with
    | callback => simp only [hrx] at h; cases h
    | _ =>
      cases hq : s.queue x with
      | nil => simp only [hrx, hq] at h; cases h
      | cons p ps => simp only [hrx, hq] at h; exact absurd h (bind_overflow getMsgId_no_overflow)
  | got p id =>
    simp only [hv] at h
    split at h
    · split at h <;> cases h
    · cases h
  | lock p id b => simp only [hv] at h; split at h <;> cases h
  | walk p id b n =>
    cases n with
    | none => rw [hv] at h; cases h
    | some n =>
      rw [hv] at h
      simp only [forward] at h
      split at h
      · split at h
        · refine ⟨p, id, b, n, rfl, ‹_›, ‹_›, ?_⟩
          by_contra hn
          exact bind_overflow hn h
        · cases h
      · cases h
  | ready p id => rw [hv] at h; cases h
  | running p => rw [hv] at h; exact absurd h (bind_overflow releaseMsg_no_overflow)

theorem first_no_overflow {μ : Mem} {m : Msg} {hd : Hdr} (hl : μ.life m = .live hd) (h0 : hd.refCnt = 0) :
    μ.acquireMsg m ≠ .error .refOverflow := by
  intro h
  obtain ⟨hd', hl', hle⟩ := acquireMsg_overflow h
  rw [hl] at hl'
  cases hl'
  omega

omit [Fintype B] [Fintype S] in
theorem step_overflow {a : Act B S} (h : step c s a = .error .refOverflow) (hn : NoExtra a) :
    (∃ b, a = .work b) ∨ ∃ x, a = .svc x := by
  cases a with
  | work b => exact Or.inl ⟨b, rfl⟩
  | svc x => exact Or.inr ⟨x, rfl⟩
  | publish b m => simp only [step, publishToBroker] at h; split at h <;> cases h
  | publishTo x m =>
    simp only [step, publishToSubscriber] at h
    split at h
    · rcases bind_error h with h | ⟨id, _, h⟩
      · exact absurd h getMsgId_no_overflow
      · split at h
        · cases hrx : c.rxType x with
          | msgq => simp only [hrx] at h; split at h <;> cases h
          | _ => simp only [hrx] at h; cases h
        · cases h
    · cases h
  | callReturn x p =>
    simp only [step, ZephyrPubSub.callReturn] at h
    split at h
    · exact absurd h (bind_overflow releaseMsg_no_overflow)
    · cases h
  | addStart b x => simp only [step, ZephyrPubSub.addStart] at h; split at h <;> [split at h <;> cases h; cases h]
  | addLink x =>
    simp only [step, ZephyrPubSub.addLink] at h
    split at h
    · split at h <;> cases h
    · cases h
  | removeUnlink x =>
    simp only [step, ZephyrPubSub.removeUnlink] at h
    split at h
    · split at h
      · split at h <;> cases h
      · cases h
    · cases h
  | removeClear x => simp only [step, ZephyrPubSub.removeClear] at h; split at h <;> cases h
  | setPriority x n => cases h
  | newMsg m i k =>
    simp only [step, Mem.newMsg] at h
    split at h
    · exact absurd h (bind_overflow (first_no_overflow (update_self ..) rfl))
    · cases h
  | staticMsgInit m i k =>
    simp only [step, Mem.staticMsgInit] at h
    split at h <;> cases h
  | acquireStatic m =>
    simp only [step, ZephyrPubSub.acquireStatic] at h
    split at h
    · rename_i hd hl
      split at h
      · rename_i hz
        exact absurd h (bind_overflow (first_no_overflow hl hz.2))
      · cases h
    · cases h
  | releaseUnpublished m =>
    simp only [step, ZephyrPubSub.releaseUnpublished] at h
    split at h
    · exact absurd h (bind_overflow releaseMsg_no_overflow)
    · cases h
  | acquireExtra m => exact hn.elim
  | releaseExtra m =>
    simp only [step, ZephyrPubSub.releaseExtra] at h
    split at h
    · exact absurd h (bind_overflow releaseMsg_no_overflow)
    · cases h
  | subscribe x id => simp only [step, ZephyrPubSub.subscribe] at h; split at h <;> cases h
  | unsubscribe x id => simp only [step, ZephyrPubSub.unsubscribe] at h; split at h <;> cases h

/-- With at most 254 subscribers for each id there is room for the reference of
one that has not got the message. -/
theorem Held.room (h : Held c s) (hx : ∀ m, s.mem.extra m = 0)
    (hle : ∀ b i, (s.subscribers b).countP (fun x => decide (Takes c s i x)) ≤ 254) (hp : Carries s p)
    (hsrc : p.src = some b) (hm : x ∈ s.subscribers b) (ht : Takes c s (s.mem.idOf p.msg) x)
    (hgot : ∀ o, Track.Inv c.rxType (track s b p) o → (track s b p).got x = 0) :
    s.mem.acquireMsg p.msg ≠ .error .refOverflow := by
  intro he
  obtain ⟨hd, hl, hge⟩ := acquireMsg_overflow he
  obtain ⟨o, hw, _⟩ := h.way p b hp hsrc
  have hold := holdings_le_got h.sole h.handled h.routed.sound.carried hp hsrc x
  rw [hgot o hw.inv] at hold
  have honly : OnlyFrom s b p.msg := fun q hq he => by rw [h.sole.same q p hq hp he, hsrc]
  have hlt := h.refs_lt honly hm ht (Nat.le_zero.mp hold)
  have hcnt := h.accounted.refCnt hl
  have h254 := hle b (s.mem.idOf p.msg)
  rw [hx p.msg] at hlt
  omega

theorem Held.no_overflow {a : Act B S} (h : Held c s) (hx : ∀ m, s.mem.extra m = 0)
    (hle : ∀ b i, (s.subscribers b).countP (fun x => decide (Takes c s i x)) ≤ 254) (hn : NoExtra a) :
    step c s a ≠ .error .refOverflow := by
  intro he
  have hs := h.routed.sound
  rcases step_overflow he hn with ⟨b, rfl⟩ | ⟨y, rfl⟩
  · obtain ⟨p, id, x, call, hw, hwant, hrx, he⟩ := workStep_overflow he
    obtain ⟨hok, rfl⟩ := hs.carried.work_at hw
    refine h.room hx hle (.work (by rw [hw]; rfl)) hok.2 (h.settled.scan b p _ x call hw) ⟨hrx, hwant⟩ ?_ he
    intro o hi
    have hwk : (track s b p).work = some (.scan (some x)) := by
      show (s.work b).pos p = _
      rw [hw, Work.pos_scan]
    obtain rfl := hi.at_.of_work hwk
    refine hi.fresh.zero x ?_
    simp only [Track.view, Track.todo, hwk, Track.workRest, fromPtr, List.mem_cons_self]
  · obtain ⟨p, id, b, x, hv, hwant, hrx, he⟩ := svcStep_overflow he
    obtain ⟨_, rfl, hry, _⟩ := hs.carried.svc_at hv
    obtain ⟨hsrc, hm⟩ := hs.placed.walk y p _ b x hv
    refine h.room hx hle (.svc (x := y) (by rw [hv]; rfl)) hsrc hm
      ⟨by rw [hrx]; exact RxType.noConfusion, hwant⟩ ?_ he
    intro o hi
    have hsv : (track s b p).svc y = some (.walk (some x)) := by
      show (s.svc y).pos p = _
      rw [hv, Svc.pos_walk]
    obtain rfl := hi.at_.of_holder hry (by simp [Track.holders, hsv, SvcPos.relays])
    refine hi.fresh.zero x ?_
    simp only [Track.view, Track.todo, hsv, Track.subRest, fromPtr, List.mem_cons_self]

end

end ZephyrPubSub
