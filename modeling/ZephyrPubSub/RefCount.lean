import ZephyrPubSub.Ledger
import ZephyrPubSub.Trans

/-!
# Reference accounting

`refs s m` counts the holders of message `m`: its unpublished owner, the
publish FIFOs, the dispatches in progress, the subscribers' queues, the running
handlers and the extra references. Every step moves the header's count with it.
-/

namespace ZephyrPubSub

open Function Ledger

/-! ## Holders -/

section
variable {B S : Type}

def one (m : Msg) (p : Pkt B) : Nat := if p.msg = m then 1 else 0

def inList (m : Msg) (l : List (Pkt B)) : Nat := (l.map (one m)).sum

/-- A dispatch holds the published reference, and in `k_msgq_put` also the one
of the msgq entry it is about to make. -/
def Work.refs (m : Msg) : Work B S → Nat
  | .lock p _ | .scan p _ _ _ | .release p => one m p
  | .put p _ _ _ => one m p + one m p
  | _ => 0

def Svc.refs (m : Msg) : Svc B S → Nat
  | .got p _ | .lock p _ _ | .walk p _ _ _ | .ready p _ | .running p => one m p
  | .idle => 0

@[simp] theorem Work.refs_armed (m : Msg) : (Work.armed : Work B S).refs m = 0 := rfl
@[simp] theorem Work.refs_queued (m : Msg) : (Work.queued : Work B S).refs m = 0 := rfl
@[simp] theorem Work.refs_get (m : Msg) : (Work.get : Work B S).refs m = 0 := rfl
@[simp] theorem Work.refs_reset (m : Msg) : (Work.reset : Work B S).refs m = 0 := rfl
@[simp] theorem Work.refs_submit (m : Msg) : (Work.submit : Work B S).refs m = 0 := rfl
@[simp] theorem Work.refs_lock (m : Msg) (p : Pkt B) (id : MsgId) :
    (Work.lock p id : Work B S).refs m = one m p := rfl
@[simp] theorem Work.refs_scan (m : Msg) (p : Pkt B) (id : MsgId) (x y : Option S) :
    (Work.scan p id x y).refs m = one m p := rfl
@[simp] theorem Work.refs_put (m : Msg) (p : Pkt B) (id : MsgId) (x : S) (y : Option S) :
    (Work.put p id x y).refs m = one m p + one m p := rfl
@[simp] theorem Work.refs_release (m : Msg) (p : Pkt B) : (Work.release p : Work B S).refs m = one m p := rfl

@[simp] theorem Svc.refs_idle (m : Msg) : (Svc.idle : Svc B S).refs m = 0 := rfl
@[simp] theorem Svc.refs_got (m : Msg) (p : Pkt B) (id : MsgId) : (Svc.got p id : Svc B S).refs m = one m p := rfl
@[simp] theorem Svc.refs_lock (m : Msg) (p : Pkt B) (id : MsgId) (b : B) :
    (Svc.lock p id b : Svc B S).refs m = one m p := rfl
@[simp] theorem Svc.refs_walk (m : Msg) (p : Pkt B) (id : MsgId) (b : B) (n : Option S) :
    (Svc.walk p id b n).refs m = one m p := rfl
@[simp] theorem Svc.refs_ready (m : Msg) (p : Pkt B) (id : MsgId) :
    (Svc.ready p id : Svc B S).refs m = one m p := rfl
@[simp] theorem Svc.refs_running (m : Msg) (p : Pkt B) : (Svc.running p : Svc B S).refs m = one m p := rfl

@[simp] theorem inList_nil (m : Msg) : inList m ([] : List (Pkt B)) = 0 := rfl

@[simp] theorem inList_cons (m : Msg) (p : Pkt B) (l : List (Pkt B)) :
    inList m (p :: l) = one m p + inList m l := rfl

@[simp] theorem inList_append (m : Msg) (l k : List (Pkt B)) :
    inList m (l ++ k) = inList m l + inList m k := by
  simp [inList]

theorem refs_wake (m : Msg) (w : Work B S) : (wake w).refs m = w.refs m := by
  cases w <;> rfl

variable [Fintype B] [Fintype S]

def refs (s : Sys B S) (m : Msg) : Nat :=
  (s.mem.owned m).toNat + s.mem.extra m +
    (∑ b, inList m (s.fifo b)) + (∑ b, (s.work b).refs m) +
    (∑ x, inList m (s.queue x)) + (∑ x, (s.svc x).refs m) + inList m (s.calls.map Prod.snd)

end

/-! ## The header's count -/

def Life.cell : Life → Cell
  | .unused => .unused
  | .live h => .live h.refCnt
  | .freed _ => .freed

namespace Mem

theorem acquireMsg_cell {μ μ' : Mem} {k : Msg} (h : μ.acquireMsg k = .ok μ') (m : Msg) {r r' : Nat}
    (hr : r' = r + if k = m then 1 else 0) : CellStep (μ.life m).cell r (μ'.life m).cell r' := by
  obtain ⟨hd, hl, _, rfl⟩ := acquireMsg_ok h
  subst hr
  by_cases hk : k = m
  · subst hk
    rw [hl, setLife_self, if_pos rfl]
    exact .acquire
  · rw [setLife_ne _ _ (Ne.symm hk), if_neg hk]
    exact .keep

theorem freeMsg_life (n : Nat) (μ : Mem) (k : Msg) (h : Hdr) :
    (freeMsg n μ k h).life = μ.life ∨ (freeMsg n μ k h).life = update μ.life k (.freed h) := by
  unfold freeMsg
  split
  · exact Or.inr rfl
  · split
    · exact Or.inr rfl
    · split <;> exact Or.inl rfl

theorem acquireMsg_other {μ μ' : Mem} {k m : Msg} (h : μ.acquireMsg k = .ok μ') (hk : m ≠ k) :
    μ'.life m = μ.life m := by
  obtain ⟨_, _, _, rfl⟩ := acquireMsg_ok h
  exact setLife_ne _ _ hk

theorem releaseMsg_other {n : Nat} {μ μ' : Mem} {k m : Msg} (h : μ.releaseMsg n k = .ok μ') (hk : m ≠ k) :
    μ'.life m = μ.life m := by
  obtain ⟨hd, _, _, ⟨_, rfl⟩ | ⟨_, rfl⟩⟩ := releaseMsg_ok h
  · exact setLife_ne _ _ hk
  · rcases freeMsg_life n (μ.setLife k (.live { hd with refCnt := 0 })) k { hd with refCnt := 0 } with hf | hf
    · rw [hf, setLife_ne _ _ hk]
    · rw [hf, update_of_ne hk, setLife_ne _ _ hk]

theorem releaseMsg_cell {n : Nat} {μ μ' : Mem} {k : Msg} (h : μ.releaseMsg n k = .ok μ') (m : Msg)
    {r r' : Nat} (hr : r' + (if k = m then 1 else 0) = r) :
    CellStep (μ.life m).cell r (μ'.life m).cell r' := by
  obtain ⟨hd, hl, hpos, hcase⟩ := releaseMsg_ok h
  subst hr
  by_cases hk : k = m
  · subst hk
    rw [if_pos rfl, hl]
    obtain ⟨j, hj⟩ := Nat.exists_eq_succ_of_ne_zero (Nat.ne_of_gt hpos)
    rcases hcase with ⟨_, rfl⟩ | ⟨h1, rfl⟩
    · rw [setLife_self]
      simp only [Life.cell, hj, Nat.succ_eq_add_one, Nat.add_sub_cancel]
      exact .release
    · rcases freeMsg_life n (μ.setLife k (.live { hd with refCnt := 0 })) k { hd with refCnt := 0 } with hf | hf
      · rw [hf, setLife_self]
        simp only [Life.cell, h1]
        exact .release
      · rw [hf, update_self]
        simp only [Life.cell, h1]
        exact .free
  · rw [if_neg hk, releaseMsg_other h (Ne.symm hk)]
    exact .keep

end Mem

section
variable {B S : Type} {s s' : Sys B S}

theorem owned_clear {f : Msg → Bool} {k : Msg} (h : f k = true) (m : Msg) :
    (update f k false m).toNat + (if k = m then 1 else 0) = (f m).toNat := by
  by_cases hk : k = m
  · subst hk; simp [h]
  · rw [update_of_ne (Ne.symm hk), if_neg hk]; rfl

theorem owned_set {f : Msg → Bool} {k : Msg} (h : f k = false) (m : Msg) :
    (update f k true m).toNat = (f m).toNat + if k = m then 1 else 0 := by
  by_cases hk : k = m
  · subst hk; simp [h]
  · rw [update_of_ne (Ne.symm hk), if_neg hk]; rfl

theorem extra_succ (f : Msg → Nat) (k m : Msg) :
    update f k (f k + 1) m = f m + if k = m then 1 else 0 := by
  by_cases hk : k = m
  · subst hk; simp
  · rw [update_of_ne (Ne.symm hk), if_neg hk]; rfl

theorem extra_pred {f : Msg → Nat} {k : Msg} (h : 0 < f k) (m : Msg) :
    update f k (f k - 1) m + (if k = m then 1 else 0) = f m := by
  by_cases hk : k = m
  · subst hk; simp; omega
  · rw [update_of_ne (Ne.symm hk), if_neg hk]; rfl

theorem erase_inList [DecidableEq B] [DecidableEq S] {x : S} {p : Pkt B} {l : List (S × Pkt B)}
    (h : (x, p) ∈ l) (m : Msg) :
    inList m ((l.erase (x, p)).map Prod.snd) + one m p = inList m (l.map Prod.snd) := by
  have := ((List.perm_cons_erase h).map Prod.snd).map (one m)
  rw [inList, inList, this.sum_eq, List.map_cons, List.map_cons, List.sum_cons, Nat.add_comm]

theorem work_sum [Fintype B] [DecidableEq B] {b : B} {w : Work B S} (hw : s.work b = w) (v : Work B S)
    (m : Msg) : (∑ j, (update s.work b v j).refs m) + w.refs m = (∑ j, (s.work j).refs m) + v.refs m := by
  rw [← hw]; exact sum_update (Work.refs m) s.work b v

theorem svc_sum [Fintype S] [DecidableEq S] {x : S} {w : Svc B S} (hw : s.svc x = w) (v : Svc B S)
    (m : Msg) : (∑ j, (update s.svc x v j).refs m) + w.refs m = (∑ j, (s.svc j).refs m) + v.refs m := by
  rw [← hw]; exact sum_update (Svc.refs m) s.svc x v

theorem queue_sum [Fintype S] [DecidableEq S] (s : Sys B S) (x : S) (q : List (Pkt B)) (m : Msg) :
    (∑ j, inList m (update s.queue x q j)) + inList m (s.queue x) = (∑ j, inList m (s.queue j)) + inList m q :=
  sum_update (inList m) s.queue x q

theorem fifo_sum [Fintype B] [DecidableEq B] (s : Sys B S) (b : B) (q : List (Pkt B)) (m : Msg) :
    (∑ j, inList m (update s.fifo b q j)) + inList m (s.fifo b) = (∑ j, inList m (s.fifo j)) + inList m q :=
  sum_update (inList m) s.fifo b q

variable [Fintype B] [Fintype S]

theorem refs_mem (s : Sys B S) (μ : Mem) (m : Msg) :
    refs { s with mem := μ } m + ((s.mem.owned m).toNat + s.mem.extra m) =
      refs s m + ((μ.owned m).toNat + μ.extra m) := by
  simp only [refs]
  omega

theorem cell_keep {m : Msg} (hl : s'.mem.life m = s.mem.life m) (hr : refs s' m = refs s m) :
    CellStep (s.mem.life m).cell (refs s m) (s'.mem.life m).cell (refs s' m) := by
  rw [hl, hr]; exact .keep

theorem owned_of_refs {k : Msg} (h : refs s k = 0) : s.mem.owned k = false := by
  cases ho : s.mem.owned k with
  | false => rfl
  | true => simp only [refs, ho, Bool.toNat_true] at h; omega

variable {c : Cfg S}

theorem memStep_cell {a : Act B S} {μ : Mem} (h : MemStep c.numAllocators s.mem a μ) (m : Msg)
    (hb : ∀ k, Agrees (s.mem.life k).cell (refs s k)) :
    CellStep (s.mem.life m).cell (refs s m) (μ.life m).cell (refs { s with mem := μ } m) := by
  have hr := refs_mem s μ m
  cases h with
  | @newMsg k i al _ hn =>
    obtain ⟨hu, _, hl, ho, he, _⟩ := Mem.newMsg_ok hn
    have hbk := hb k
    rw [hu] at hbk
    have h₁ := owned_set (owned_of_refs hbk) m
    rw [ho, he] at hr
    rw [hl]
    by_cases hk : k = m
    · subst hk
      rw [if_pos rfl] at h₁
      rw [update_self, hu, show refs { s with mem := μ } k = refs s k + 1 by omega]
      exact .create 1
    · rw [if_neg hk] at h₁
      rw [update_of_ne (Ne.symm hk), show refs { s with mem := μ } m = refs s m by omega]
      exact .keep
  | @staticMsgInit k i al _ hn =>
    obtain ⟨hu, _, rfl⟩ := Mem.staticMsgInit_ok hn
    simp only [Mem.setLife_owned, Mem.setLife_extra, Nat.add_right_cancel_iff] at hr
    rw [hr]
    by_cases hk : k = m
    · subst hk
      rw [Mem.setLife_self, hu]
      exact .create 0
    · rw [Mem.setLife_ne _ _ (Ne.symm hk)]
      exact .keep
  | @acquireStatic k hd μ' hl _ h0 hμ =>
    have hbk := hb k
    rw [hl] at hbk
    have h₁ := owned_set (owned_of_refs (hbk.symm.trans h0)) m
    have h₂ := Mem.acquireMsg_owners hμ
    refine Mem.acquireMsg_cell hμ m ?_
    simp only [h₂] at hr h₁ ⊢
    omega
  | @releaseUnpublished k μ' ho hμ =>
    have h₁ := owned_clear ho m
    have h₂ := Mem.releaseMsg_owners hμ
    refine Mem.releaseMsg_cell hμ m ?_
    simp only [Mem.transfer, h₂] at hr h₁ ⊢
    omega
  | @acquireExtra k hd μ' hl hp hμ =>
    have h₁ := extra_succ s.mem.extra k m
    have h₂ := Mem.acquireMsg_owners hμ
    refine Mem.acquireMsg_cell hμ m ?_
    simp only [h₂] at hr h₁ ⊢
    omega
  | @releaseExtra k μ' hp hμ =>
    have h₁ := extra_pred hp m
    have h₂ := Mem.releaseMsg_owners hμ
    refine Mem.releaseMsg_cell hμ m ?_
    simp only [h₂] at hr h₁ ⊢
    omega

variable [DecidableEq B] [DecidableEq S]

omit [Fintype B] [Fintype S] [DecidableEq B] [DecidableEq S] in
theorem Work.refs_again (m : Msg) (s : Sys B S) (b : B) :
    (if s.fifo b = [] then .armed else .queued : Work B S).refs m = 0 := by
  split <;> rfl

omit [DecidableEq S] in
theorem cell_work {b : B} {w v : Work B S} {m : Msg} (hw : s.work b = w) (he : s'.work = update s.work b v)
    (hmem : s'.mem = s.mem) (hf : s'.fifo = s.fifo) (hq : s'.queue = s.queue) (hv : s'.svc = s.svc)
    (hc : s'.calls = s.calls) (h : v.refs m = w.refs m) :
    CellStep (s.mem.life m).cell (refs s m) (s'.mem.life m).cell (refs s' m) := by
  have h₁ := work_sum hw v m
  refine cell_keep (by rw [hmem]) ?_
  simp only [refs, he, hmem, hf, hq, hv, hc]
  omega

omit [DecidableEq B] in
theorem cell_svc {x : S} {w v : Svc B S} {m : Msg} (hv : s.svc x = w) (he : s'.svc = update s.svc x v)
    (hmem : s'.mem = s.mem) (hf : s'.fifo = s.fifo) (hq : s'.queue = s.queue) (hw : s'.work = s.work)
    (hc : s'.calls = s.calls) (h : v.refs m = w.refs m) :
    CellStep (s.mem.life m).cell (refs s m) (s'.mem.life m).cell (refs s' m) := by
  have h₁ := svc_sum hv v m
  refine cell_keep (by rw [hmem]) ?_
  simp only [refs, he, hmem, hf, hq, hw, hc]
  omega

theorem trans_cell {a : Act B S} (h : Trans c s a s') (m : Msg)
    (hb : ∀ k, Agrees (s.mem.life k).cell (refs s k)) :
    CellStep (s.mem.life m).cell (refs s m) (s'.mem.life m).cell (refs s' m) := by
  cases h with
  | workQueued hw | workGetNone hw _ | workLock hw _ | scanEnd hw | scanSkip hw _ | scanCallback hw _ _
  | workReset hw => exact cell_work hw rfl rfl rfl rfl rfl rfl rfl
  | @workGet b p ps id hw hf hid =>
    have h₁ := work_sum hw (.lock p id) m
    have h₂ := fifo_sum s b ps m
    exact cell_keep rfl (by simp only [refs, hf, Work.refs_get, Work.refs_lock, inList_cons] at h₁ h₂ ⊢; omega)
  | @scanMsgq b p id x call μ hw _ _ hμ =>
    have h₁ := work_sum hw (.put p id x (s.nextSub x)) m
    have h₂ := Mem.acquireMsg_owners hμ
    refine Mem.acquireMsg_cell hμ m ?_
    simp only [refs, Work.refs_scan, Work.refs_put, h₂, one] at h₁ ⊢
    omega
  | @scanFifo b p id x tmp μ hw _ _ hμ =>
    have h₁ := work_sum hw (.release p) m
    have h₂ := Mem.acquireMsg_owners hμ
    have h₃ := queue_sum s x (s.queue x ++ [p]) m
    refine Mem.acquireMsg_cell hμ m ?_
    simp only [refs, Work.refs_scan, Work.refs_release, h₂, inList_append, inList_cons, inList_nil, one] at h₁ h₃ ⊢
    omega
  | @put b p id x tmp hw _ =>
    have h₁ := work_sum hw (.scan p id tmp none) m
    have h₃ := queue_sum s x (s.queue x ++ [p]) m
    refine cell_keep rfl ?_
    simp only [refs, Work.refs_scan, Work.refs_put, inList_append, inList_cons, inList_nil] at h₁ h₃ ⊢
    omega
  | workRelease hw hμ =>
    have h₁ := work_sum hw .get m
    have h₂ := Mem.releaseMsg_owners hμ
    refine Mem.releaseMsg_cell hμ m ?_
    simp only [refs, Work.refs_get, Work.refs_release, h₂, one] at h₁ ⊢
    omega
  | workSubmit hw => exact cell_work hw rfl rfl rfl rfl rfl rfl (Work.refs_again ..)
  | @takeMsgq x p ps id hv _ hq _ =>
    have h₁ := svc_sum hv (.ready p id) m
    have h₂ := queue_sum s x ps m
    refine cell_keep rfl ?_
    simp only [refs, hq, Svc.refs_idle, Svc.refs_ready, inList_cons] at h₁ h₂ ⊢
    omega
  | @takeFifo x p ps id hv _ hq _ =>
    have h₁ := svc_sum hv (.got p id) m
    have h₂ := queue_sum s x ps m
    refine cell_keep rfl ?_
    simp only [refs, hq, Svc.refs_idle, Svc.refs_got, inList_cons] at h₁ h₂ ⊢
    omega
  | gotPublic hv _ _ | gotPrivate hv _ | svcLock hv _ | walkEnd hv | walkSkip hv _ | handle hv =>
    exact cell_svc hv rfl rfl rfl rfl rfl rfl rfl
  | @walkGive x p id b n μ hv _ _ hμ =>
    have h₁ := svc_sum hv (.ready p id) m
    have h₂ := Mem.acquireMsg_owners hμ
    have h₃ := queue_sum s n (s.queue n ++ [p]) m
    refine Mem.acquireMsg_cell hμ m ?_
    simp only [refs, Svc.refs_walk, Svc.refs_ready, h₂, inList_append, inList_cons, inList_nil, one] at h₁ h₃ ⊢
    omega
  | svcRelease hv hμ =>
    have h₁ := svc_sum hv .idle m
    have h₂ := Mem.releaseMsg_owners hμ
    refine Mem.releaseMsg_cell hμ m ?_
    simp only [refs, Svc.refs_running, Svc.refs_idle, h₂, one] at h₁ ⊢
    omega
  | @publish b k ho =>
    have h₁ := work_sum (s := s) (b := b) rfl (wake (s.work b)) m
    have h₂ := fifo_sum s b (s.fifo b ++ [⟨k, s.nextTag, some b⟩]) m
    have h₃ := owned_clear ho m
    refine cell_keep rfl ?_
    simp only [refs, Mem.transfer, refs_wake, inList_append, inList_cons, inList_nil, one] at h₁ h₂ h₃ ⊢
    omega
  | @publishToCallback x k id ho _ _ _ =>
    have h₃ := owned_clear ho m
    refine cell_keep rfl ?_
    simp only [refs, Mem.transfer, List.map_append, List.map_cons, List.map_nil, inList_append, inList_cons,
      inList_nil, one] at h₃ ⊢
    omega
  | @publishToQueue x k id ho _ _ _ _ =>
    have h₂ := queue_sum s x (s.queue x ++ [⟨k, s.nextTag, none⟩]) m
    have h₃ := owned_clear ho m
    refine cell_keep rfl ?_
    simp only [refs, Mem.transfer, inList_append, inList_cons, inList_nil, one] at h₂ h₃ ⊢
    omega
  | callReturn hc hμ =>
    have h₁ := erase_inList hc m
    have h₂ := Mem.releaseMsg_owners hμ
    refine Mem.releaseMsg_cell hμ m ?_
    simp only [refs, h₂, one] at h₁ ⊢
    omega
  | mem hm => exact memStep_cell hm m hb
  | addStart _ _ => exact .keep
  | addLink _ _ _ => exact .keep
  | removeUnlink _ _ _ => exact .keep
  | removeClear _ => exact .keep
  | setPriority => exact .keep
  | subscribe _ => exact .keep
  | unsubscribe _ => exact .keep

end

/-! ## Freeing -/

def FreeCall.msg : FreeCall → Msg
  | .linkSection _ m | .runtime _ m | .callback m => m

namespace Mem

def callsFor (μ : Mem) (m : Msg) : List FreeCall := μ.freeCalls.filter fun f => f.msg = m

def freeCallOf (a : AllocId) (m : Msg) : FreeCall :=
  if a ≤ allocIdLinkSectionMaxId then .linkSection a.toNat m
  else .runtime (a.toNat - allocIdRuntimeOffset.toNat) m

/-- A pool message has a holder until it is freed, and is freed once, by its allocator. -/
def PoolOk (n : Nat) (μ : Mem) (m : Msg) : Prop :=
  match μ.life m with
  | .unused => μ.callsFor m = []
  | .live h => Registered n h.allocId → 0 < h.refCnt ∧ μ.callsFor m = []
  | .freed h => Registered n h.allocId → μ.callsFor m = [freeCallOf h.allocId m]

theorem PoolOk.congr {n : Nat} {μ μ' : Mem} {m : Msg} (hl : μ'.life m = μ.life m)
    (hf : μ'.callsFor m = μ.callsFor m) (h : PoolOk n μ m) : PoolOk n μ' m := by
  unfold PoolOk at *
  rw [hl, hf]
  exact h

theorem freeMsg_pool {n : Nat} {μ : Mem} {k : Msg} {h : Hdr} (hr : Registered n h.allocId) :
    freeMsg n μ k h =
      { μ.setLife k (.freed h) with freeCalls := μ.freeCalls ++ [freeCallOf h.allocId k] } := by
  unfold freeMsg freeCallOf
  rcases hr with hr | ⟨ho, _, hn⟩
  · rw [if_pos hr, if_pos hr]
  · have hgt : ¬ h.allocId ≤ allocIdLinkSectionMaxId := fun hle => by
      have h₁ : 128 ≤ h.allocId.toNat := ho
      have h₂ : h.allocId.toNat ≤ 127 := hle
      omega
    rw [if_neg hgt, if_neg hgt, if_pos hn]

theorem static_not_registered (n : Nat) {a : AllocId} (ha : a = allocIdStaticMsg ∨ a = allocIdCallbackMsg) :
    ¬ Registered n a := by
  rintro (hr | ⟨_, hr, _⟩)
  · rcases ha with rfl | rfl <;> revert hr <;> decide
  · rcases ha with rfl | rfl <;> revert hr <;> decide

theorem freeMsg_callsFor {n : Nat} {μ : Mem} {k m : Msg} {h : Hdr} (hk : k ≠ m) :
    (freeMsg n μ k h).callsFor m = μ.callsFor m := by
  unfold freeMsg callsFor
  split
  · simp [FreeCall.msg, hk]
  · split
    · simp [FreeCall.msg, hk]
    · split
      · simp [FreeCall.msg, hk]
      · rfl

theorem acquireMsg_pool {n : Nat} {μ μ' : Mem} {k : Msg} (h : μ.acquireMsg k = .ok μ') {m : Msg}
    (hp : PoolOk n μ m) : PoolOk n μ' m := by
  obtain ⟨hd, hl, _, rfl⟩ := acquireMsg_ok h
  by_cases hk : m = k
  · subst hk
    unfold PoolOk at hp ⊢
    rw [hl] at hp
    rw [setLife_self]
    exact fun hr => ⟨Nat.succ_pos _, (hp hr).2⟩
  · exact hp.congr (setLife_ne _ _ hk) rfl

theorem releaseMsg_pool {n : Nat} {μ μ' : Mem} {k : Msg} (h : μ.releaseMsg n k = .ok μ') {m : Msg}
    (hp : PoolOk n μ m) : PoolOk n μ' m := by
  obtain ⟨hd, hl, hpos, hcase⟩ := releaseMsg_ok h
  by_cases hk : m = k
  · subst hk
    unfold PoolOk at hp
    rw [hl] at hp
    rcases hcase with ⟨h1, rfl⟩ | ⟨h1, rfl⟩
    · unfold PoolOk
      rw [setLife_self]
      exact fun hr => ⟨by simp only; omega, (hp hr).2⟩
    · by_cases hr : Registered n hd.allocId
      · rw [freeMsg_pool (h := { hd with refCnt := 0 }) hr]
        have hc := (hp hr).2
        unfold PoolOk callsFor
        unfold callsFor at hc
        simp only [setLife_self]
        intro _
        have hmsg : (freeCallOf hd.allocId m).msg = m := by unfold freeCallOf; split <;> rfl
        simp only [setLife_freeCalls, List.filter_append, hc, List.nil_append]
        rw [List.filter_cons_of_pos (by simp [hmsg]), List.filter_nil]
      · unfold PoolOk
        rcases freeMsg_life n (μ.setLife m (.live { hd with refCnt := 0 })) m { hd with refCnt := 0 } with hf | hf
        · rw [hf, setLife_self]
          exact fun hr' => absurd hr' hr
        · rw [hf, update_self]
          exact fun hr' => absurd hr' hr
  · refine hp.congr (releaseMsg_other h hk) ?_
    rcases hcase with ⟨_, rfl⟩ | ⟨_, rfl⟩
    · rfl
    · exact freeMsg_callsFor (Ne.symm hk)

end Mem

theorem MemEffect.pool {n : Nat} {μ μ' : Mem} (h : MemEffect n μ μ') {m : Msg} (hp : μ.PoolOk n m) :
    μ'.PoolOk n m := by
  cases h with
  | keep hl hf => exact hp.congr (by rw [hl]) (by rw [Mem.callsFor, hf]; rfl)
  | acquire h hl hf => exact (Mem.acquireMsg_pool h hp).congr (by rw [hl]) (by rw [Mem.callsFor, hf]; rfl)
  | release h hl hf => exact (Mem.releaseMsg_pool h hp).congr (by rw [hl]) (by rw [Mem.callsFor, hf]; rfl)
  | @newMsg k i a h =>
    obtain ⟨hu, _, hl, _, _, hf⟩ := Mem.newMsg_ok h
    have hc : μ'.callsFor m = μ.callsFor m := by rw [Mem.callsFor, hf]; rfl
    by_cases hk : m = k
    · subst hk
      unfold Mem.PoolOk at hp ⊢
      rw [hu] at hp
      rw [hl, update_self, hc]
      exact fun _ => ⟨Nat.one_pos, hp⟩
    · exact hp.congr (by rw [hl, update_of_ne hk]) hc
  | @staticMsgInit k i a h =>
    obtain ⟨hu, ha, rfl⟩ := Mem.staticMsgInit_ok h
    by_cases hk : m = k
    · subst hk
      unfold Mem.PoolOk
      rw [Mem.setLife_self]
      exact fun hr => absurd hr (Mem.static_not_registered n ha)
    · exact hp.congr (Mem.setLife_ne _ _ hk) rfl

/-- What a step does to one message. -/
inductive LifeStep : Life → Life → Prop
  | keep {l} : LifeStep l l
  | create {h} : h.refCnt ≤ 1 → LifeStep .unused (.live h)
  | acquire {h} : h.refCnt < 255 → LifeStep (.live h) (.live { h with refCnt := h.refCnt + 1 })
  | release {h} : 0 < h.refCnt → LifeStep (.live h) (.live { h with refCnt := h.refCnt - 1 })
  | free {h} : h.refCnt = 1 → LifeStep (.live h) (.freed { h with refCnt := 0 })

theorem MemEffect.lifeStep {n : Nat} {μ μ' : Mem} (h : MemEffect n μ μ') (m : Msg) :
    LifeStep (μ.life m) (μ'.life m) := by
  cases h with
  | keep hl _ => rw [hl]; exact .keep
  | @acquire k μ₁ h hl _ =>
    obtain ⟨hd, hlk, hlt, rfl⟩ := Mem.acquireMsg_ok h
    rw [hl]
    by_cases hk : m = k
    · subst hk; rw [hlk, Mem.setLife_self]; exact .acquire hlt
    · rw [Mem.setLife_ne _ _ hk]; exact .keep
  | @release k μ₁ h hl _ =>
    obtain ⟨hd, hlk, hpos, hcase⟩ := Mem.releaseMsg_ok h
    rw [hl]
    by_cases hk : m = k
    · subst hk
      rw [hlk]
      rcases hcase with ⟨_, rfl⟩ | ⟨h1, rfl⟩
      · rw [Mem.setLife_self]; exact .release hpos
      · rcases Mem.freeMsg_life n (μ.setLife m (.live { hd with refCnt := 0 })) m { hd with refCnt := 0 } with hf | hf
        · rw [hf, Mem.setLife_self]
          have hr := LifeStep.release hpos
          rwa [h1] at hr
        · rw [hf, update_self]; exact .free h1
    · rw [Mem.releaseMsg_other h hk]; exact .keep
  | @newMsg k i a h =>
    obtain ⟨hu, _, hl, _⟩ := Mem.newMsg_ok h
    rw [hl]
    by_cases hk : m = k
    · subst hk; rw [hu, update_self]; exact .create (Nat.le_refl 1)
    · rw [update_of_ne hk]; exact .keep
  | @staticMsgInit k i a h =>
    obtain ⟨hu, _, rfl⟩ := Mem.staticMsgInit_ok h
    by_cases hk : m = k
    · subst hk; rw [hu, Mem.setLife_self]; exact .create (Nat.zero_le 1)
    · rw [Mem.setLife_ne _ _ hk]; exact .keep

theorem LifeStep.byte {l l' : Life} (h : LifeStep l l') (hb : ∀ h, l = .live h → h.refCnt ≤ 255) :
    ∀ h, l' = .live h → h.refCnt ≤ 255 := by
  intro hd' hl'
  cases h with
  | keep => exact hb hd' hl'
  | create h1 => cases hl'; omega
  | acquire hlt => cases hl'; exact hlt
  | @release hd _ => cases hl'; exact Nat.le_trans (Nat.sub_le ..) (hb hd rfl)
  | free _ => cases hl'

theorem LifeStep.live {l l' : Life} (h : LifeStep l l') {hd : Hdr} (hl : l = .live hd) :
    ∃ hd', hd'.allocId = hd.allocId ∧ (l' = .live hd' ∨ l' = .freed hd') := by
  cases h with
  | keep => exact ⟨hd, rfl, Or.inl hl⟩
  | create _ => cases hl
  | acquire _ => cases hl; exact ⟨{ hd with refCnt := hd.refCnt + 1 }, rfl, Or.inl rfl⟩
  | release _ => cases hl; exact ⟨{ hd with refCnt := hd.refCnt - 1 }, rfl, Or.inl rfl⟩
  | free _ => cases hl; exact ⟨{ hd with refCnt := 0 }, rfl, Or.inr rfl⟩

theorem LifeStep.freed {l l' : Life} (h : LifeStep l l') {hd : Hdr} (hl : l = .freed hd) : l' = .freed hd := by
  cases h with
  | keep => exact hl
  | _ => cases hl

section
variable {B S : Type} [DecidableEq B] [DecidableEq S] {c : Cfg S}

def HasAlloc (s : Sys B S) (m : Msg) (a : AllocId) : Prop :=
  ∃ h, h.allocId = a ∧ (s.mem.life m = .live h ∨ s.mem.life m = .freed h)

theorem HasAlloc.trans {s s' : Sys B S} {m : Msg} {i : AllocId} {a : Act B S} (h : HasAlloc s m i)
    (ht : Trans c s a s') : HasAlloc s' m i := by
  have hl := (trans_mem ht).lifeStep m
  obtain ⟨hd, rfl, hm | hm⟩ := h
  · obtain ⟨hd', ha, hm'⟩ := hl.live hm
    exact ⟨hd', ha, hm'⟩
  · exact ⟨hd, rfl, Or.inr (hl.freed hm)⟩

end

/-! ## Every reachable state -/

section
variable {B S : Type} [DecidableEq B] [DecidableEq S] [Fintype B] [Fintype S]
variable {c : Cfg S} {s s' : Sys B S}

/-- The header counts agree with the holders and pool messages are freed in time. -/
structure Accounted (c : Cfg S) (s : Sys B S) : Prop where
  balanced : ∀ m, Agrees (s.mem.life m).cell (refs s m)
  pool : ∀ m, s.mem.PoolOk c.numAllocators m
  byte : ∀ m h, s.mem.life m = .live h → h.refCnt ≤ 255

omit [DecidableEq B] [DecidableEq S] in
theorem accounted_init (h : Init c s) : Accounted c s := by
  constructor
  · intro m
    rw [h.life m]
    simp [Life.cell, Agrees, refs, h.owned, h.extra, h.fifo, h.work, h.queue, h.svc, h.calls]
  · intro m
    unfold Mem.PoolOk Mem.callsFor
    rw [h.life m]
    simp [h.freeCalls]
  · intro m hd hl
    rw [h.life m] at hl
    cases hl

theorem Accounted.trans {a : Act B S} (h : Accounted c s) (ht : Trans c s a s') : Accounted c s' :=
  ⟨fun m => (trans_cell ht m h.balanced).agrees (h.balanced m), fun m => (trans_mem ht).pool (h.pool m),
    fun m => ((trans_mem ht).lifeStep m).byte (h.byte m)⟩

theorem accounted_reachable {P : Sys B S → Act B S → Prop} (h : Runs.Reachable (step c) (Init c) P s) :
    Accounted c s :=
  h.invariant (fun _ => accounted_init) fun _ _ _ hs _ hstep => hs.trans (step_trans hstep)

/-! ## Holders keep the message alive -/

section
omit [DecidableEq B] [DecidableEq S]

theorem Accounted.refCnt {m : Msg} {hd : Hdr} (h : Accounted c s) (hl : s.mem.life m = .live hd) :
    hd.refCnt = refs s m := by
  have hb := h.balanced m
  rw [hl] at hb
  exact hb

theorem Accounted.live {m : Msg} (h : Accounted c s) (hr : 0 < refs s m) :
    ∃ hd, s.mem.life m = .live hd ∧ hd.refCnt = refs s m := by
  have hc := (h.balanced m).live_of_pos hr
  cases hl : s.mem.life m with
  | live hd => rw [hl] at hc; exact ⟨hd, rfl, Cell.live.inj hc⟩
  | unused => rw [hl] at hc; cases hc
  | freed hd => rw [hl] at hc; cases hc

theorem Accounted.released {m : Msg} {μ : Mem} (h : Accounted c s) (h' : Accounted c s')
    (hμ : s.mem.releaseMsg c.numAllocators m = .ok μ) (hl : s'.mem.life m = μ.life m) : refs s' m + 1 = refs s m := by
  have hb := h.balanced m
  have hb' := h'.balanced m
  obtain ⟨hd, hlm, hpos, hcase⟩ := Mem.releaseMsg_ok hμ
  rw [hlm] at hb
  have hcnt : hd.refCnt = refs s m := hb
  rw [hl] at hb'
  rcases hcase with ⟨_, rfl⟩ | ⟨h1, rfl⟩
  · rw [Mem.setLife_self] at hb'
    have hcnt' : hd.refCnt - 1 = refs s' m := hb'
    omega
  · have hzero : refs s' m = 0 := by
      rcases Mem.freeMsg_life c.numAllocators (s.mem.setLife m (.live { hd with refCnt := 0 })) m
        { hd with refCnt := 0 } with hf | hf
      · rw [hf, Mem.setLife_self] at hb'
        exact hb'.symm
      · rw [hf, update_self] at hb'
        exact hb'
    omega

end

omit [DecidableEq B] [DecidableEq S] in
theorem Accounted.releases {m : Msg} (h : Accounted c s) (hr : 0 < refs s m) :
    ∃ μ, s.mem.releaseMsg c.numAllocators m = .ok μ := by
  obtain ⟨hd, hl, hn⟩ := h.live hr
  simp only [Mem.releaseMsg, hl, if_pos (show 0 < hd.refCnt by omega)]
  split
  · exact ⟨_, rfl⟩
  · exact ⟨_, rfl⟩

omit [DecidableEq B] [Fintype B] in
theorem one_self (p : Pkt B) : one p.msg p = 1 := if_pos rfl

omit [DecidableEq B] [DecidableEq S] in
theorem refs_owned {m : Msg} (h : s.mem.owned m = true) : 0 < refs s m := by
  simp only [refs, h, Bool.toNat_true]; omega

omit [DecidableEq B] [DecidableEq S] in
theorem refs_extra {m : Msg} (h : 0 < s.mem.extra m) : 0 < refs s m := by
  simp only [refs]; omega

omit [DecidableEq S] in
theorem refs_fifo {b : B} {p : Pkt B} {ps : List (Pkt B)} (h : s.fifo b = p :: ps) : 0 < refs s p.msg := by
  have := le_sum (fun b => inList p.msg (s.fifo b)) b
  simp only [h, inList_cons, one_self] at this
  simp only [refs]; omega

omit [DecidableEq B] in
theorem refs_queue {x : S} {p : Pkt B} {ps : List (Pkt B)} (h : s.queue x = p :: ps) : 0 < refs s p.msg := by
  have := le_sum (fun x => inList p.msg (s.queue x)) x
  simp only [h, inList_cons, one_self] at this
  simp only [refs]; omega

omit [DecidableEq S] in
theorem refs_work {b : B} {m : Msg} (h : 0 < (s.work b).refs m) : 0 < refs s m := by
  have := le_sum (fun b => (s.work b).refs m) b
  simp only [refs]; omega

omit [DecidableEq B] in
theorem refs_svc {x : S} {m : Msg} (h : 0 < (s.svc x).refs m) : 0 < refs s m := by
  have := le_sum (fun x => (s.svc x).refs m) x
  simp only [refs]; omega

theorem refs_calls {x : S} {p : Pkt B} (h : (x, p) ∈ s.calls) : 0 < refs s p.msg := by
  have := erase_inList h p.msg
  rw [one_self] at this
  simp only [refs]; omega

theorem bind_error {α β ε : Type} {x : Except ε α} {f : α → Except ε β} {e : ε}
    (h : x >>= f = .error e) : x = .error e ∨ ∃ a, x = .ok a ∧ f a = .error e := by
  cases x with
  | ok a => exact Or.inr ⟨a, rfl, h⟩
  | error e' => cases h; exact Or.inl rfl

/-- A failing step touches no freed message and releases no reference that is
not there; the counter only overflows under the 256th reference. -/
def FailOk (s : Sys B S) (e : Stop) : Prop :=
  e ≠ .useAfterFree ∧ e ≠ .refUnderflow ∧ (e = .refOverflow → ∃ m, refs s m = 255)

omit [DecidableEq B] [DecidableEq S] in
theorem failOk_of {e : Stop} (h : e = .blocked ∨ e = .assertion ∨ e = .misuse ∨ e = .nullBroker ∨ e = .notFifo) :
    FailOk s e := by
  rcases h with rfl | rfl | rfl | rfl | rfl <;> exact ⟨by simp, by simp, by simp⟩

section
omit [DecidableEq B] [DecidableEq S]

theorem Accounted.getMsgId {m : Msg} (h : Accounted c s) (hr : 0 < refs s m) {e : Stop}
    (he : s.mem.getMsgId m = .error e) : FailOk s e := by
  obtain ⟨hd, hl, _⟩ := h.live hr
  simp [Mem.getMsgId, hl] at he

theorem Accounted.acquire {m : Msg} (h : Accounted c s)
    (hr : 0 < refs s m) {e : Stop} (he : s.mem.acquireMsg m = .error e) : FailOk s e := by
  obtain ⟨hd, hl, hn⟩ := h.live hr
  have hle := h.byte m hd hl
  simp only [Mem.acquireMsg, hl] at he
  split at he
  · cases he
  · cases he; exact ⟨by simp, by simp, fun _ => ⟨m, by omega⟩⟩

theorem Accounted.release {m : Msg} (h : Accounted c s) (hr : 0 < refs s m) {e : Stop}
    (he : s.mem.releaseMsg c.numAllocators m = .error e) : FailOk s e := by
  obtain ⟨hd, hl, hn⟩ := h.live hr
  simp only [Mem.releaseMsg, hl, if_pos (show 0 < hd.refCnt by omega)] at he
  split at he <;> cases he

end

omit [DecidableEq B] [DecidableEq S] in
theorem bind_pure_failOk {x : Except Stop Mem} {f : Mem → Sys B S} {e : Stop}
    (hx : ∀ e', x = .error e' → FailOk s e') (h : (x >>= fun μ => .ok (f μ)) = .error e) : FailOk s e := by
  rcases bind_error h with h | ⟨μ, _, h⟩
  · exact hx e h
  · cases h

theorem workStep_failOk {b : B} (h : Accounted c s) {e : Stop} (he : workStep c s b = .error e) : FailOk s e := by
  unfold workStep at he
  cases hw : s.work b with
  | armed => rw [hw] at he; cases he; exact failOk_of (by simp)
  | queued => rw [hw] at he; cases he
  | get =>
    rw [hw] at he
    cases hf : s.fifo b with
    | nil => simp only [hf] at he; cases he
    | cons p ps =>
      simp only [hf] at he
      rcases bind_error he with he | ⟨id, _, he⟩
      · exact h.getMsgId (refs_fifo hf) he
      · cases he
  | lock p id =>
    simp only [hw] at he
    split at he
    · cases he
    · cases he; exact failOk_of (by simp)
  | scan p id sub tmp =>
    cases sub with
    | none => rw [hw] at he; cases he
    | some x =>
      have hr : 0 < refs s p.msg := refs_work (b := b) (by simp [hw, one_self])
      rw [hw] at he
      simp only [deliver] at he
      split at he
      · cases hrx : c.rxType x with
        | callback => rw [hrx] at he; cases he
        | msgq => rw [hrx] at he; exact bind_pure_failOk (fun _ => h.acquire hr) he
        | fifo => rw [hrx] at he; exact bind_pure_failOk (fun _ => h.acquire hr) he
      · cases he
  | put p id x tmp =>
    simp only [hw] at he
    split at he
    · cases he
    · cases he; exact failOk_of (by simp)
  | release p =>
    have hr : 0 < refs s p.msg := refs_work (b := b) (by simp [hw, one_self])
    rw [hw] at he
    exact bind_pure_failOk (fun _ => h.release hr) he
  | reset => rw [hw] at he; cases he
  | submit => rw [hw] at he; cases he

theorem svcStep_failOk {x : S} (h : Accounted c s) {e : Stop} (he : svcStep c s x = .error e) : FailOk s e := by
  unfold svcStep at he
  cases hv : s.svc x with
  | idle =>
    rw [hv] at he
    cases hq : s.queue x with
    | nil =>
      cases hrx : c.rxType x <;> simp only [hrx, hq] at he <;> cases he <;> exact failOk_of (by simp)
    | cons p ps =>
      cases hrx : c.rxType x with
      | callback => simp only [hrx] at he; cases he; exact failOk_of (by simp)
      | msgq =>
        simp only [hrx, hq] at he
        rcases bind_error he with he | ⟨id, _, he⟩
        · exact h.getMsgId (refs_queue hq) he
        · cases he
      | fifo =>
        simp only [hrx, hq] at he
        rcases bind_error he with he | ⟨id, _, he⟩
        · exact h.getMsgId (refs_queue hq) he
        · cases he
  | got p id =>
    simp only [hv] at he
    split at he
    · split at he
      · cases he
      · cases he; exact failOk_of (by simp)
    · cases he
  | lock p id b =>
    simp only [hv] at he
    split at he
    · cases he
    · cases he; exact failOk_of (by simp)
  | walk p id b n =>
    cases n with
    | none => rw [hv] at he; cases he
    | some n =>
      have hr : 0 < refs s p.msg := refs_svc (x := x) (by simp [hv, one_self])
      rw [hv] at he
      simp only [forward] at he
      split at he
      · split at he
        · exact bind_pure_failOk (fun _ => h.acquire hr) he
        · cases he; exact failOk_of (by simp)
      · cases he
  | ready p id => rw [hv] at he; cases he
  | running p =>
    have hr : 0 < refs s p.msg := refs_svc (x := x) (by simp [hv, one_self])
    rw [hv] at he
    exact bind_pure_failOk (fun _ => h.release hr) he

omit [DecidableEq B] in
theorem publishTo_failOk {x : S} {m : Msg} (h : Accounted c s) {e : Stop}
    (he : publishToSubscriber c s x m = .error e) : FailOk s e := by
  unfold publishToSubscriber at he
  split at he
  · rename_i ho
    rcases bind_error he with he | ⟨id, _, he⟩
    · exact h.getMsgId (refs_owned ho) he
    · simp only at he
      split at he
      · cases hrx : c.rxType x with
        | callback => simp only [hrx] at he; cases he
        | msgq =>
          simp only [hrx] at he
          split at he
          · cases he
          · cases he; exact failOk_of (by simp)
        | fifo => simp only [hrx] at he; cases he
      · cases he; exact failOk_of (by simp)
  · cases he; exact failOk_of (by simp)

theorem memStep_failOk {a : Act B S} (h : Accounted c s) {e : Stop} (he : step c s a = .error e)
    (ha : (∃ m i k, a = .newMsg m i k) ∨ (∃ m i k, a = .staticMsgInit m i k) ∨ (∃ m, a = .acquireStatic m) ∨
      (∃ m, a = .releaseUnpublished m) ∨ (∃ m, a = .acquireExtra m) ∨ ∃ m, a = .releaseExtra m) :
    FailOk s e := by
  rcases ha with ⟨m, i, k, rfl⟩ | ⟨m, i, k, rfl⟩ | ⟨m, rfl⟩ | ⟨m, rfl⟩ | ⟨m, rfl⟩ | ⟨m, rfl⟩
  · refine bind_pure_failOk (fun e' he' => ?_) he
    simp only [Mem.newMsg] at he'
    split at he'
    · simp [Mem.acquireMsg, Mem.setLife] at he'
    · cases he'; exact failOk_of (by simp)
  · refine bind_pure_failOk (fun e' he' => ?_) he
    simp only [Mem.staticMsgInit] at he'
    split at he' <;> cases he'
    exact failOk_of (by simp)
  · simp only [step, ZephyrPubSub.acquireStatic] at he
    cases hl : s.mem.life m with
    | live hd =>
      simp only [hl] at he
      split at he
      · rename_i hc
        rcases bind_error he with he | ⟨μ, _, he⟩
        · simp [Mem.acquireMsg, hl, hc.2] at he
        · cases he
      · cases he; exact failOk_of (by simp)
    | unused => rw [hl] at he; cases he; exact failOk_of (by simp)
    | freed hd => rw [hl] at he; cases he; exact failOk_of (by simp)
  · simp only [step, ZephyrPubSub.releaseUnpublished] at he
    split at he
    · exact bind_pure_failOk (fun _ => h.release (refs_owned ‹_›)) he
    · cases he; exact failOk_of (by simp)
  · simp only [step, ZephyrPubSub.acquireExtra] at he
    cases hl : s.mem.life m with
    | live hd =>
      simp only [hl] at he
      split at he
      · rename_i hpos
        have hb := h.balanced m
        rw [hl] at hb
        exact bind_pure_failOk (fun _ => h.acquire (hb ▸ hpos)) he
      · cases he; exact failOk_of (by simp)
    | unused => rw [hl] at he; cases he; exact failOk_of (by simp)
    | freed hd => rw [hl] at he; cases he; exact failOk_of (by simp)
  · simp only [step, ZephyrPubSub.releaseExtra] at he
    split at he
    · exact bind_pure_failOk (fun _ => h.release (refs_extra ‹_›)) he
    · cases he; exact failOk_of (by simp)

theorem Accounted.failOk {a : Act B S} (h : Accounted c s) {e : Stop} (he : step c s a = .error e) :
    FailOk s e := by
  cases a with
  | work b => exact workStep_failOk h he
  | svc x => exact svcStep_failOk h he
  | publish b m =>
    simp only [step, publishToBroker] at he
    split at he
    · cases he
    · cases he; exact failOk_of (by simp)
  | publishTo x m => exact publishTo_failOk h he
  | callReturn x p =>
    simp only [step, ZephyrPubSub.callReturn] at he
    split at he
    · exact bind_pure_failOk (fun _ => h.release (refs_calls ‹_›)) he
    · cases he; exact failOk_of (by simp)
  | addStart b x =>
    simp only [step, ZephyrPubSub.addStart] at he
    split at he
    · split at he <;> cases he
      exact failOk_of (by simp)
    · cases he; exact failOk_of (by simp)
  | addLink x =>
    simp only [step, ZephyrPubSub.addLink] at he
    split at he
    · split at he <;> cases he
      exact failOk_of (by simp)
    · cases he; exact failOk_of (by simp)
  | removeUnlink x =>
    simp only [step, ZephyrPubSub.removeUnlink] at he
    split at he
    · split at he
      · split at he <;> cases he
        exact failOk_of (by simp)
      · cases he; exact failOk_of (by simp)
    · cases he; exact failOk_of (by simp)
  | removeClear x =>
    simp only [step, ZephyrPubSub.removeClear] at he
    split at he <;> cases he
    exact failOk_of (by simp)
  | setPriority x n => cases he
  | newMsg m i k | staticMsgInit m i k | acquireStatic m | releaseUnpublished m | acquireExtra m
  | releaseExtra m =>
    exact memStep_failOk h he (by simp)
  | subscribe x id =>
    simp only [step, ZephyrPubSub.subscribe] at he
    split at he <;> cases he
    exact failOk_of (by simp)
  | unsubscribe x id =>
    simp only [step, ZephyrPubSub.unsubscribe] at he
    split at he <;> cases he
    exact failOk_of (by simp)

/-! ## Accounting -/

/-- The count is the number of holders; a pool message has one until it is freed, once. -/
def MsgAccounted (c : Cfg S) (s : Sys B S) (m : Msg) : Prop :=
  match s.mem.life m with
  | .unused => refs s m = 0 ∧ s.mem.callsFor m = []
  | .live h => h.refCnt = refs s m ∧
      (Mem.Registered c.numAllocators h.allocId → 0 < refs s m ∧ s.mem.callsFor m = [])
  | .freed h => refs s m = 0 ∧
      (Mem.Registered c.numAllocators h.allocId → s.mem.callsFor m = [Mem.freeCallOf h.allocId m])

omit [DecidableEq B] [DecidableEq S] in
theorem Accounted.msg (h : Accounted c s) (m : Msg) : MsgAccounted c s m := by
  have hb := h.balanced m
  have hp := h.pool m
  unfold MsgAccounted
  unfold Mem.PoolOk at hp
  cases hl : s.mem.life m with
  | unused => rw [hl] at hb hp; exact ⟨hb, hp⟩
  | live hd =>
    rw [hl] at hb hp
    simp only at hp ⊢
    exact ⟨hb, fun hr => ⟨(show hd.refCnt = refs s m from hb) ▸ (hp hr).1, (hp hr).2⟩⟩
  | freed hd => rw [hl] at hb hp; exact ⟨hb, hp⟩

/-- The allocator's `free` is called in the step that takes the last reference, and in no other. -/
theorem Accounted.freed_at_zero {a : Act B S} (h : Accounted c s) (ht : Trans c s a s') {m : Msg} {hd : Hdr}
    (hl : s.mem.life m = .live hd) (hr : Mem.Registered c.numAllocators hd.allocId) :
    s'.mem.callsFor m = if refs s' m = 0 then [Mem.freeCallOf hd.allocId m] else [] := by
  have hm := (h.trans ht).msg m
  unfold MsgAccounted at hm
  obtain ⟨hd', ha, hl' | hl'⟩ := ((trans_mem ht).lifeStep m).live hl
  · simp only [hl', ha] at hm
    obtain ⟨hpos, hc⟩ := hm.2 hr
    rw [hc, if_neg (Nat.ne_of_gt hpos)]
  · simp only [hl', ha] at hm
    rw [hm.2 hr, if_pos hm.1]

/-- In every reachable state each message is accounted for, every step frees
exactly the pool messages whose last reference it takes, and no step uses a
freed message or releases a missing reference. -/
theorem refs_balanced (h : Runs.Reachable (step c) (Init c) (fun _ _ => True) s) :
    (∀ m, MsgAccounted c s m) ∧
    (∀ a s', step c s a = .ok s' → ∀ m hd, s.mem.life m = .live hd →
      Mem.Registered c.numAllocators hd.allocId →
      s'.mem.callsFor m = if refs s' m = 0 then [Mem.freeCallOf hd.allocId m] else []) ∧
    ∀ a e, step c s a = .error e → FailOk s e := by
  have ha := accounted_reachable h
  refine ⟨ha.msg, ?_, ?_⟩
  · intro a s' hs m hd hl hr
    exact ha.freed_at_zero (step_trans hs) hl hr
  · intro a e he
    exact ha.failOk he

end

def msgqAndFifo : Cfg (Fin 2) where
  rxType x := if x = 0 then .msgq else .fifo
  maxPubMsgId _ := 7
  maxMsgs _ := 1
  numAllocators := 0

def msgqAndFifoInit : Sys Unit (Fin 2) :=
  Sys.init (fun _ => [0, 1]) (fun _ => some ()) (fun _ _ => true) fun _ => 0

theorem msgqAndFifo_init : Init msgqAndFifo msgqAndFifoInit :=
  init_of_lists _ _ (by decide) (by decide) (by unfold FifoLast; decide)

/-- One message to both subscribers, until the FIFO subscriber's handler runs. -/
def oneMessage : List (Act Unit (Fin 2)) :=
  [.newMsg 0 3 0, .publish () 0] ++ List.replicate 7 (.work ()) ++ [.svc 0, .svc 0, .svc 0] ++
    List.replicate 5 (.svc 1)

theorem refs_balanced_oneMessage : ∃ s, Runs.exec (step msgqAndFifo) msgqAndFifoInit oneMessage = .ok s ∧
    refs s 0 = 1 ∧ MsgAccounted msgqAndFifo s 0 :=
  ⟨_, rfl, by decide, (refs_balanced ⟨msgqAndFifoInit, msgqAndFifo_init,
    Runs.Run.of_exec (step msgqAndFifo) oneMessage _ _ rfl fun _ _ => trivial⟩).1 0⟩

end ZephyrPubSub
