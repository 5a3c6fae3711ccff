import ZephyrPubSub.Invariant
import ZephyrPubSub.RefCount

/-!
# The two shares of a published message

A publication hands over two things: the right to queue the message for the
next FIFO subscriber, and the owner's reference. The publish FIFO and the
dispatch have both; the dispatch gives the right to the first FIFO subscriber,
each of those gives it to the next, and the reference is released at the end of
the dispatch. `routes` and `pubRefs` count them, and no step but a
publication of an owned message makes more of them.
-/

namespace ZephyrPubSub

open Function Ledger

section
variable {B S : Type}

def Work.routes (m : Msg) : Work B S → Nat
  | .lock p _ | .scan p _ _ _ | .put p _ _ _ => one m p
  | _ => 0

def Svc.routes (m : Msg) : Svc B S → Nat
  | .got p _ | .lock p _ _ | .walk p _ _ _ => one m p
  | _ => 0

def Work.pubRefs (m : Msg) : Work B S → Nat
  | .lock p _ | .scan p _ _ _ | .put p _ _ _ | .release p => one m p
  | _ => 0

/-- The entries of a FIFO subscriber's queue; a msgq holds copies of the pointer. -/
def inFifo (c : Cfg S) (m : Msg) (x : S) (q : List (Pkt B)) : Nat := if c.rxType x = .fifo then inList m q else 0

theorem inFifo_push {c : Cfg S} {x : S} (hrx : c.rxType x = .fifo) (m : Msg) (q : List (Pkt B)) (p : Pkt B) :
    inFifo c m x (q ++ [p]) = inFifo c m x q + one m p := by
  simp [inFifo, hrx]

theorem inFifo_other {c : Cfg S} {x : S} (hrx : c.rxType x ≠ .fifo) (m : Msg) (q : List (Pkt B)) :
    inFifo c m x q = 0 := if_neg hrx

variable [Fintype B] [Fintype S]

def fifoLinks (c : Cfg S) (s : Sys B S) (m : Msg) : Nat :=
  (∑ b, inList m (s.fifo b)) + ∑ x, inFifo c m x (s.queue x)

def routes (c : Cfg S) (s : Sys B S) (m : Msg) : Nat :=
  fifoLinks c s m + (∑ b, (s.work b).routes m) + ∑ x, (s.svc x).routes m

def pubRefs (s : Sys B S) (m : Msg) : Nat := (∑ b, inList m (s.fifo b)) + ∑ b, (s.work b).pubRefs m

/-! ## Shares and references -/

section
omit [Fintype B] [Fintype S]

theorem Work.routes_le (m : Msg) (w : Work B S) : w.routes m ≤ w.refs m := by
  cases w <;> simp [Work.routes, Work.refs]

theorem Work.pubRefs_le (m : Msg) (w : Work B S) : w.pubRefs m ≤ w.refs m := by
  cases w <;> simp [Work.pubRefs, Work.refs]

theorem Svc.routes_le (m : Msg) (v : Svc B S) : v.routes m ≤ v.refs m := by
  cases v <;> simp [Svc.routes, Svc.refs]

theorem inFifo_le (c : Cfg S) (m : Msg) (x : S) (q : List (Pkt B)) : inFifo c m x q ≤ inList m q := by
  unfold inFifo
  split
  · exact Nat.le_refl _
  · exact Nat.zero_le _

end

theorem routes_le_refs (c : Cfg S) (s : Sys B S) (m : Msg) : routes c s m ≤ refs s m := by
  have h₁ := Finset.sum_le_sum fun b (_ : b ∈ Finset.univ) => (s.work b).routes_le m
  have h₂ := Finset.sum_le_sum fun x (_ : x ∈ Finset.univ) => (s.svc x).routes_le m
  have h₃ := Finset.sum_le_sum fun x (_ : x ∈ Finset.univ) => inFifo_le c m x (s.queue x)
  simp only [routes, fifoLinks, refs]
  omega

theorem pubRefs_le_refs (s : Sys B S) (m : Msg) : pubRefs s m ≤ refs s m := by
  have h₁ := Finset.sum_le_sum fun b (_ : b ∈ Finset.univ) => (s.work b).pubRefs_le m
  simp only [pubRefs, refs]
  omega

end

/-! ## One step -/

section
variable {B S : Type} [DecidableEq B] [DecidableEq S] [Fintype B] [Fintype S]
variable {c : Cfg S} {s s' : Sys B S}

omit [DecidableEq S] [Fintype S] in
theorem work_shares {b : B} {w : Work B S} (hw : s.work b = w) (v : Work B S) (m : Msg) :
    (∑ j, (update s.work b v j).routes m) + w.routes m = (∑ j, (s.work j).routes m) + v.routes m ∧
    (∑ j, (update s.work b v j).pubRefs m) + w.pubRefs m = (∑ j, (s.work j).pubRefs m) + v.pubRefs m := by
  subst hw
  exact ⟨sum_update (Work.routes m) s.work b v, sum_update (Work.pubRefs m) s.work b v⟩

omit [DecidableEq B] [Fintype B] in
theorem svc_shares {x : S} {w : Svc B S} (hw : s.svc x = w) (v : Svc B S) (m : Msg) :
    (∑ j, (update s.svc x v j).routes m) + w.routes m = (∑ j, (s.svc j).routes m) + v.routes m := by
  rw [← hw]; exact sum_update (Svc.routes m) s.svc x v

omit [DecidableEq B] [Fintype B] in
theorem queue_shares (s : Sys B S) (x : S) (q : List (Pkt B)) (m : Msg) :
    (∑ j, inFifo c m j (update s.queue x q j)) + inFifo c m x (s.queue x) =
      (∑ j, inFifo c m j (s.queue j)) + inFifo c m x q := by
  have h := sum_update (fun e : S × List (Pkt B) => inFifo c m e.1 e.2) (fun j => (j, s.queue j)) x (x, q)
  have he : ∀ j, update (fun j => (j, s.queue j)) x (x, q) j = (j, update s.queue x q j) := by
    intro j
    by_cases hj : j = x
    · subst hj; simp only [update_self]
    · simp only [update_of_ne hj]
  simpa only [he] using h

/-- Neither share grows. -/
structure Falls (c : Cfg S) (s s' : Sys B S) (m : Msg) : Prop where
  routes : routes c s' m ≤ routes c s m
  pubRefs : pubRefs s' m ≤ pubRefs s m

omit [DecidableEq S] in
theorem falls_work {b : B} {w v : Work B S} {m : Msg} (hw : s.work b = w) (he : s'.work = update s.work b v)
    (hf : s'.fifo = s.fifo) (hq : s'.queue = s.queue) (hv : s'.svc = s.svc) (h₁ : v.routes m ≤ w.routes m)
    (h₂ : v.pubRefs m ≤ w.pubRefs m) : Falls c s s' m := by
  obtain ⟨hr, hp⟩ := work_shares hw v m
  constructor
  · simp only [routes, fifoLinks, he, hf, hq, hv]
    omega
  · simp only [pubRefs, he, hf]
    omega

omit [DecidableEq B] in
theorem falls_svc {x : S} {w v : Svc B S} {m : Msg} (hv : s.svc x = w) (he : s'.svc = update s.svc x v)
    (hf : s'.fifo = s.fifo) (hq : s'.queue = s.queue) (hw : s'.work = s.work) (h : v.routes m ≤ w.routes m) :
    Falls c s s' m := by
  have hr := svc_shares hv v m
  constructor
  · simp only [routes, fifoLinks, he, hf, hq, hw]
    omega
  · simp only [pubRefs, hw, hf, Nat.le_refl]

omit [DecidableEq B] [DecidableEq S] in
theorem falls_same {m : Msg} (hf : s'.fifo = s.fifo) (hw : s'.work = s.work) (hq : s'.queue = s.queue)
    (hv : s'.svc = s.svc) : Falls c s s' m := by
  constructor
  · simp only [routes, fifoLinks, hf, hw, hq, hv, Nat.le_refl]
  · simp only [pubRefs, hf, hw, Nat.le_refl]

omit [DecidableEq B] [DecidableEq S] [Fintype B] [Fintype S] in
theorem wake_routes (m : Msg) (w : Work B S) : (wake w).routes m = w.routes m := by
  cases w <;> rfl

omit [DecidableEq B] [DecidableEq S] [Fintype B] [Fintype S] in
theorem wake_pubRefs (m : Msg) (w : Work B S) : (wake w).pubRefs m = w.pubRefs m := by
  cases w <;> rfl

omit [DecidableEq B] [Fintype B] in
theorem one_le (m : Msg) (p : Pkt B) : one m p ≤ 1 := by
  unfold one
  split <;> omega

omit [DecidableEq B] [Fintype B] in
theorem one_ne {m : Msg} {p : Pkt B} (h : p.msg ≠ m) : one m p = 0 := if_neg h

omit [DecidableEq B] [DecidableEq S] in
theorem shares_published {k m : Msg} (src : Option B) (ho : s.mem.owned k = true) (hmem : s'.mem = s.mem.transfer k)
    (hr : routes c s' m ≤ routes c s m + one m (⟨k, s.nextTag, src⟩ : Pkt B))
    (hp : pubRefs s' m ≤ pubRefs s m + one m (⟨k, s.nextTag, src⟩ : Pkt B)) :
    Falls c s s' m ∨ (s.mem.owned m = true ∧ s'.mem.owned m = false ∧
      routes c s' m ≤ routes c s m + 1 ∧ pubRefs s' m ≤ pubRefs s m + 1) := by
  by_cases hk : k = m
  · subst hk
    have h1 := one_le k (⟨k, s.nextTag, src⟩ : Pkt B)
    refine Or.inr ⟨ho, ?_, by omega, by omega⟩
    rw [hmem]
    exact update_self ..
  · rw [one_ne hk] at hr hp
    exact Or.inl ⟨hr, hp⟩

theorem trans_shares {a : Act B S} (hc : Carried c s) (h : Trans c s a s') (m : Msg) :
    Falls c s s' m ∨ (s.mem.owned m = true ∧ s'.mem.owned m = false ∧
      routes c s' m ≤ routes c s m + 1 ∧ pubRefs s' m ≤ pubRefs s m + 1) := by
  cases h with
  | workQueued hw | workGetNone hw _ | workLock hw _ | scanSkip hw _ | scanCallback hw _ _
  | scanMsgq hw _ _ _ | workReset hw =>
    exact Or.inl (falls_work hw rfl rfl rfl rfl (Nat.le_refl _) (Nat.le_refl _))
  | @workGet b p ps id hw hf _ =>
    obtain ⟨hr, hp⟩ := work_shares hw (.lock p id) m
    have hl := fifo_sum s b ps m
    rw [hf, inList_cons] at hl
    left
    constructor
    · simp only [routes, fifoLinks, Work.routes] at hr ⊢
      omega
    · simp only [pubRefs, Work.pubRefs] at hp ⊢
      omega
  | scanEnd hw => exact Or.inl (falls_work hw rfl rfl rfl rfl (Nat.zero_le _) (Nat.le_refl _))
  | @scanFifo b p id x tmp μ hw _ hrx _ =>
    obtain ⟨hr, hp⟩ := work_shares hw (.release p) m
    have hq := queue_shares (c := c) s x (s.queue x ++ [p]) m
    rw [inFifo_push hrx] at hq
    left
    constructor
    · simp only [routes, fifoLinks, Work.routes] at hr ⊢
      omega
    · simp only [pubRefs, Work.pubRefs] at hp ⊢
      omega
  | @put b p id x tmp hw _ =>
    have hrx := (hc.work_at hw).2.2.2
    obtain ⟨hr, hp⟩ := work_shares hw (.scan p id tmp none) m
    have hq := queue_shares (c := c) s x (s.queue x ++ [p]) m
    rw [inFifo_other (by simp [hrx]), inFifo_other (by simp [hrx])] at hq
    left
    constructor
    · simp only [routes, fifoLinks, Work.routes] at hr ⊢
      omega
    · simp only [pubRefs, Work.pubRefs] at hp ⊢
      omega
  | workRelease hw _ => exact Or.inl (falls_work hw rfl rfl rfl rfl (Nat.le_refl _) (Nat.zero_le _))
  | @workSubmit b hw =>
    refine Or.inl (falls_work hw rfl rfl rfl rfl ?_ ?_)
    · split <;> exact Nat.le_refl _
    · split <;> exact Nat.le_refl _
  | @takeMsgq x p ps id hv hrx hq _ =>
    have hr := svc_shares hv (.ready p id) m
    have hs := queue_shares (c := c) s x ps m
    rw [inFifo_other (by simp [hrx]), inFifo_other (by simp [hrx])] at hs
    left
    constructor
    · simp only [routes, fifoLinks, Svc.routes] at hr ⊢
      omega
    · simp only [pubRefs, Nat.le_refl]
  | @takeFifo x p ps id hv hrx hq _ =>
    have hr := svc_shares hv (.got p id) m
    have hs := queue_shares (c := c) s x ps m
    simp only [inFifo, hrx, if_true, hq, inList_cons] at hs
    left
    constructor
    · simp only [routes, fifoLinks, Svc.routes, inFifo] at hr ⊢
      omega
    · simp only [pubRefs, Nat.le_refl]
  | gotPublic hv _ _ | svcLock hv _ | walkSkip hv _ | handle hv | svcRelease hv _ =>
    exact Or.inl (falls_svc hv rfl rfl rfl rfl (Nat.le_refl _))
  | gotPrivate hv _ => exact Or.inl (falls_svc hv rfl rfl rfl rfl (Nat.zero_le _))
  | walkEnd hv => exact Or.inl (falls_svc hv rfl rfl rfl rfl (Nat.zero_le _))
  | @walkGive x p id b n μ hv _ hrn _ =>
    have hr := svc_shares hv (.ready p id) m
    have hq := queue_shares (c := c) s n (s.queue n ++ [p]) m
    rw [inFifo_push hrn] at hq
    left
    constructor
    · simp only [routes, fifoLinks, Svc.routes] at hr ⊢
      omega
    · simp only [pubRefs, Nat.le_refl]
  | @publish b k ho =>
    obtain ⟨hr, hp⟩ := work_shares (s := s) (b := b) rfl (wake (s.work b)) m
    rw [wake_routes] at hr
    rw [wake_pubRefs] at hp
    have hf := fifo_sum s b (s.fifo b ++ [⟨k, s.nextTag, some b⟩]) m
    rw [inList_append, inList_cons, inList_nil] at hf
    refine shares_published (some b) ho rfl ?_ ?_
    · simp only [routes, fifoLinks]
      omega
    · simp only [pubRefs]
      omega
  | publishToCallback => exact Or.inl (falls_same rfl rfl rfl rfl)
  | @publishToQueue x k id ho _ _ _ _ =>
    have hq := queue_shares (c := c) s x (s.queue x ++ [⟨k, s.nextTag, none⟩]) m
    refine shares_published none ho rfl ?_ (by simp only [pubRefs, Nat.le_add_right])
    by_cases hrx : c.rxType x = .fifo
    · rw [inFifo_push hrx] at hq
      simp only [routes, fifoLinks]
      omega
    · rw [inFifo_other hrx, inFifo_other hrx] at hq
      simp only [routes, fifoLinks]
      omega
  | _ => exact Or.inl (falls_same rfl rfl rfl rfl)

/-! ## Every run -/

omit [DecidableEq B] [DecidableEq S] [Fintype B] [Fintype S] in
theorem memStep_acquired {n : Nat} {μ μ' : Mem} {a : Act B S} (h : MemStep n μ a μ') {m : Msg} {r : Nat}
    (hb : Agrees (μ.life m).cell r) (ho : μ'.owned m = true) : μ.owned m = true ∨ r = 0 := by
  cases h with
  | @newMsg k i al _ hn =>
    obtain ⟨hu, _, _, hown, _⟩ := Mem.newMsg_ok hn
    by_cases hk : m = k
    · subst hk
      rw [hu] at hb
      exact Or.inr hb
    · rw [hown, update_of_ne hk] at ho
      exact Or.inl ho
  | staticMsgInit h => obtain ⟨_, _, rfl⟩ := Mem.staticMsgInit_ok h; exact Or.inl ho
  | @acquireStatic k hd μ hl _ h0 hμ =>
    by_cases hk : m = k
    · subst hk
      rw [hl] at hb
      exact Or.inr (hb.symm.trans h0)
    · exact Or.inl (by simpa [hk, (Mem.acquireMsg_owners hμ).1] using ho)
  | @releaseUnpublished k μ _ hμ =>
    by_cases hk : m = k
    · subst hk; simp [Mem.transfer] at ho
    · exact Or.inl (by simpa [Mem.transfer, hk, (Mem.releaseMsg_owners hμ).1] using ho)
  | acquireExtra _ _ hμ => exact Or.inl (by simpa [(Mem.acquireMsg_owners hμ).1] using ho)
  | releaseExtra _ hμ => exact Or.inl (by simpa [(Mem.releaseMsg_owners hμ).1] using ho)

theorem trans_acquired {a : Act B S} (ha : Accounted c s) (ht : Trans c s a s') {m : Msg}
    (ho : s'.mem.owned m = true) : s.mem.owned m = true ∨ refs s m = 0 :=
  (trans_owner ht ho).elim Or.inl fun h => memStep_acquired h (ha.balanced m) ho

/-- There is one share of each kind, with the owner or under way. -/
structure OneShare (c : Cfg S) (s : Sys B S) (m : Msg) : Prop where
  routes : routes c s m + (s.mem.owned m).toNat ≤ 1
  pubRefs : pubRefs s m + (s.mem.owned m).toNat ≤ 1

theorem OneShare.trans {a : Act B S} {m : Msg} (h : OneShare c s m) (ha : Accounted c s) (hc : Carried c s)
    (ht : Trans c s a s') : OneShare c s' m := by
  have hr := h.routes
  have hp := h.pubRefs
  rcases trans_shares hc ht m with hf | ⟨ho, ho', hr', hp'⟩
  · have hfr := hf.routes
    have hfp := hf.pubRefs
    cases ho' : s'.mem.owned m with
    | false => exact ⟨by rw [ho', Bool.toNat_false]; omega, by rw [ho', Bool.toNat_false]; omega⟩
    | true =>
      rcases trans_acquired ha ht ho' with ho | h0
      · exact ⟨by rw [ho', ← ho]; omega, by rw [ho', ← ho]; omega⟩
      · have h₁ := routes_le_refs c s m
        have h₂ := pubRefs_le_refs s m
        exact ⟨by rw [ho', Bool.toNat_true]; omega, by rw [ho', Bool.toNat_true]; omega⟩
  · rw [ho, Bool.toNat_true] at hr hp
    exact ⟨by rw [ho', Bool.toNat_false]; omega, by rw [ho', Bool.toNat_false]; omega⟩

omit [DecidableEq B] [DecidableEq S] in
theorem oneShare_init (h : Init c s) (m : Msg) : OneShare c s m := by
  have h₁ : routes c s m = 0 := by
    simp [routes, fifoLinks, inFifo, h.fifo, h.work, h.queue, h.svc, Work.routes, Svc.routes]
  have h₂ : pubRefs s m = 0 := by simp [pubRefs, h.fifo, h.work, Work.pubRefs]
  exact ⟨by rw [h₁, h.owned]; exact Nat.zero_le _, by rw [h₂, h.owned]; exact Nat.zero_le _⟩

end

end ZephyrPubSub
