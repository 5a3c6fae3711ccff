import ZephyrPubSub.Carriers
import ZephyrPubSub.Reuse

/-!
# Static and callback messages

Their owners publish them again and again. While the ids of the runtime
allocators do not reach theirs no release takes such a message for a pool
message, and then it goes through the cycles of a reusable object, with the
callback as the signal.
-/

namespace ZephyrPubSub

open Function Runs Ledger

/-- With `n` runtime allocators the id is that of no allocator's messages. -/
def Reused (n : Nat) (a : AllocId) : Prop :=
  a = allocIdStaticMsg ∧ n ≤ 126 ∨ a = allocIdCallbackMsg ∧ n ≤ 125

section
variable {n : Nat} {μ μ' : Mem} {m : Msg} {hd : Hdr}

def lastCalls (a : AllocId) (m : Msg) : List FreeCall := if a = allocIdCallbackMsg then [.callback m] else []

theorem Mem.freeMsg_reused (ha : Reused n hd.allocId) :
    freeMsg n μ m hd = { μ with freeCalls := μ.freeCalls ++ lastCalls hd.allocId m } := by
  rcases ha with ⟨ha, hn⟩ | ⟨ha, hn⟩
  · rw [freeMsg_static hn μ m ha, lastCalls, ha, if_neg (by decide), List.append_nil]
  · rw [freeMsg_callback hn μ m ha, lastCalls, ha, if_pos rfl]

theorem Mem.callsFor_freeCalls (h : μ'.freeCalls = μ.freeCalls) : μ'.callsFor m = μ.callsFor m := by
  unfold callsFor
  rw [h]

theorem MemEffect.calls (h : MemEffect n μ μ') (m : Msg) :
    (∃ μ₁, μ.releaseMsg n m = .ok μ₁ ∧ μ'.life = μ₁.life ∧ μ'.freeCalls = μ₁.freeCalls) ∨
    μ'.callsFor m = μ.callsFor m ∧ (μ'.life m = μ.life m ∨ μ.life m = .unused ∨
      ∃ μ₁, μ.acquireMsg m = .ok μ₁ ∧ μ'.life = μ₁.life) := by
  cases h with
  | keep hk hf => exact Or.inr ⟨Mem.callsFor_freeCalls hf, Or.inl (by rw [hk])⟩
  | @acquire k μ₁ h hk hf =>
    have hcalls : μ₁.callsFor m = μ.callsFor m := by
      obtain ⟨_, _, _, rfl⟩ := Mem.acquireMsg_ok h
      rfl
    refine Or.inr ⟨(Mem.callsFor_freeCalls hf).trans hcalls, ?_⟩
    by_cases hkm : m = k
    · subst hkm
      exact Or.inr (Or.inr ⟨_, h, hk⟩)
    · exact Or.inl (by rw [hk, Mem.acquireMsg_other h hkm])
  | @release k μ₁ h hk hf =>
    by_cases hkm : m = k
    · subst hkm
      exact Or.inl ⟨μ₁, h, hk, hf⟩
    · refine Or.inr ⟨(Mem.callsFor_freeCalls hf).trans ?_, Or.inl (by rw [hk, Mem.releaseMsg_other h hkm])⟩
      obtain ⟨hdk, _, _, ⟨_, rfl⟩ | ⟨_, rfl⟩⟩ := Mem.releaseMsg_ok h
      · rfl
      · exact Mem.freeMsg_callsFor (Ne.symm hkm)
  | @newMsg k i a h =>
    obtain ⟨hu, _, hk, _, _, hf⟩ := Mem.newMsg_ok h
    refine Or.inr ⟨Mem.callsFor_freeCalls hf, ?_⟩
    by_cases hkm : m = k
    · subst hkm
      exact Or.inr (Or.inl hu)
    · exact Or.inl (by rw [hk, update_of_ne hkm])
  | @staticMsgInit k i a h =>
    obtain ⟨hu, _, rfl⟩ := Mem.staticMsgInit_ok h
    refine Or.inr ⟨rfl, ?_⟩
    by_cases hkm : m = k
    · subst hkm
      exact Or.inr (Or.inl hu)
    · exact Or.inl (Mem.setLife_ne _ _ hkm)

/-- One step: the message stays with its owner, and the last reference makes the calls. -/
theorem MemEffect.reused (h : MemEffect n μ μ') (hl : μ.life m = .live hd) (ha : Reused n hd.allocId) :
    ∃ hd', μ'.life m = .live hd' ∧ hd'.allocId = hd.allocId ∧
      μ'.callsFor m = μ.callsFor m ++ if 0 < hd.refCnt ∧ hd'.refCnt = 0 then lastCalls hd.allocId m else [] := by
  rcases h.calls m with ⟨μ₁, hμ, hlife, hf⟩ | ⟨hcalls, hlife | hu | ⟨μ₁, hμ, hlife⟩⟩
  · obtain ⟨hd₁, hl₁, hpos, ⟨h1, rfl⟩ | ⟨h1, rfl⟩⟩ := Mem.releaseMsg_ok hμ
    · rw [hl] at hl₁
      cases hl₁
      refine ⟨{ hd with refCnt := hd.refCnt - 1 }, by rw [hlife, Mem.setLife_self], rfl, ?_⟩
      rw [if_neg (by simp only; omega), List.append_nil]
      exact Mem.callsFor_freeCalls hf
    · rw [hl] at hl₁
      cases hl₁
      rw [Mem.freeMsg_reused (show Reused n { hd with refCnt := 0 }.allocId from ha)] at hlife hf
      refine ⟨{ hd with refCnt := 0 }, by rw [hlife]; exact Mem.setLife_self .., rfl, ?_⟩
      rw [if_pos ⟨hpos, rfl⟩]
      unfold Mem.callsFor
      rw [hf, List.filter_append]
      congr 1
      unfold lastCalls
      split
      · exact List.filter_cons_of_pos (by simp [FreeCall.msg])
      · rfl
  · exact ⟨hd, hlife.trans hl, rfl, by rw [hcalls, if_neg (by omega), List.append_nil]⟩
  · rw [hl] at hu
    cases hu
  · obtain rfl := Mem.acquireMsg_of_live hl hμ
    refine ⟨{ hd with refCnt := hd.refCnt + 1 }, by rw [hlife, Mem.setLife_self], rfl, ?_⟩
    rw [hcalls, if_neg (by simp only; omega), List.append_nil]

end

/-! ## The cycles of a message -/

def Event.publishes {B S : Type} (m : Msg) : Event B S → Bool
  | .published p => p.msg = m
  | .handed _ _ => false

section
variable {B S : Type} [DecidableEq B] [DecidableEq S] [Fintype B] [Fintype S]
variable {c : Cfg S} {s s' : Sys B S} {a : Act B S} {m : Msg} {hd : Hdr}

def publications (s : Sys B S) (m : Msg) : Nat := s.log.countP (Event.publishes m)

omit [DecidableEq B] [DecidableEq S] [Fintype B] [Fintype S] in
theorem publications_push {p : Pkt B} {μ : Mem} (ho : μ.owned p.msg = true) (l : List (Event B S)) (m : Msg) :
    ((μ.transfer p.msg).owned m = μ.owned m ∧ (l ++ [Event.published p]).countP (Event.publishes m) =
        l.countP (Event.publishes m)) ∨
      (μ.owned m = true ∧ (μ.transfer p.msg).owned m = false ∧
        (l ++ [Event.published p]).countP (Event.publishes m) = l.countP (Event.publishes m) + 1) := by
  rw [List.countP_append, List.countP_singleton]
  by_cases hp : p.msg = m
  · subst hp
    exact Or.inr ⟨ho, update_self .., by simp [Event.publishes]⟩
  · exact Or.inl ⟨update_of_ne (Ne.symm hp) .., by simp [Event.publishes, hp]⟩

omit [Fintype B] [Fintype S] in
theorem trans_publications (ht : Trans c s a s') (hr : a ≠ .releaseUnpublished m) :
    (s'.mem.owned m = s.mem.owned m ∧ publications s' m = publications s m) ∨
    (s.mem.owned m = true ∧ s'.mem.owned m = false ∧ publications s' m = publications s m + 1 ∧
      s'.mem.life = s.mem.life) ∨
    (s'.mem.owned m = true ∧ publications s' m = publications s m) := by
  cases ht with
  | @publish b k ho =>
    rcases publications_push (p := ⟨k, s.nextTag, some b⟩) ho s.log m with h | h
    · exact Or.inl h
    · exact Or.inr (Or.inl ⟨h.1, h.2.1, h.2.2, rfl⟩)
  | @publishToCallback x k id ho _ _ _ =>
    have hlog : (s.log ++ [Event.published ⟨k, s.nextTag, none⟩, .handed x ⟨k, s.nextTag, none⟩]).countP
        (Event.publishes m) = (s.log ++ [Event.published ⟨k, s.nextTag, none⟩]).countP (Event.publishes m) := by
      simp [List.countP_append, List.countP_cons, Event.publishes]
    rcases publications_push (p := ⟨k, s.nextTag, none⟩) ho s.log m with h | h
    · exact Or.inl ⟨h.1, hlog.trans h.2⟩
    · exact Or.inr (Or.inl ⟨h.1, h.2.1, hlog.trans h.2.2, rfl⟩)
  | @publishToQueue x k id ho _ _ _ _ =>
    rcases publications_push (p := ⟨k, s.nextTag, none⟩) ho s.log m with h | h
    · exact Or.inl h
    · exact Or.inr (Or.inl ⟨h.1, h.2.1, h.2.2, rfl⟩)
  | scanCallback _ _ _ => exact Or.inl ⟨rfl, by simp [publications, List.countP_append, Event.publishes]⟩
  | handle _ => exact Or.inl ⟨rfl, by simp [publications, List.countP_append, Event.publishes]⟩
  | scanMsgq _ _ _ hμ => exact Or.inl ⟨congrFun (Mem.acquireMsg_owners hμ).1 m, rfl⟩
  | scanFifo _ _ _ hμ => exact Or.inl ⟨congrFun (Mem.acquireMsg_owners hμ).1 m, rfl⟩
  | walkGive _ _ _ hμ => exact Or.inl ⟨congrFun (Mem.acquireMsg_owners hμ).1 m, rfl⟩
  | workRelease _ hμ => exact Or.inl ⟨congrFun (Mem.releaseMsg_owners hμ).1 m, rfl⟩
  | svcRelease _ hμ => exact Or.inl ⟨congrFun (Mem.releaseMsg_owners hμ).1 m, rfl⟩
  | callReturn _ hμ => exact Or.inl ⟨congrFun (Mem.releaseMsg_owners hμ).1 m, rfl⟩
  | mem h =>
    cases h with
    | @newMsg k i al _ hn =>
      obtain ⟨_, _, _, hown, _⟩ := Mem.newMsg_ok hn
      by_cases hk : m = k
      · subst hk; exact Or.inr (Or.inr ⟨by simp [hown], rfl⟩)
      · exact Or.inl ⟨by simp [hown, hk], rfl⟩
    | staticMsgInit hn => obtain ⟨_, _, rfl⟩ := Mem.staticMsgInit_ok hn; exact Or.inl ⟨rfl, rfl⟩
    | @acquireStatic k hd μ _ _ _ hμ =>
      by_cases hk : m = k
      · subst hk; exact Or.inr (Or.inr ⟨by simp, rfl⟩)
      · exact Or.inl ⟨by simp [hk, (Mem.acquireMsg_owners hμ).1], rfl⟩
    | @releaseUnpublished k μ _ hμ =>
      have hk : m ≠ k := fun e => hr (by rw [e])
      exact Or.inl ⟨by simp [Mem.transfer, hk, (Mem.releaseMsg_owners hμ).1], rfl⟩
    | acquireExtra _ _ hμ => exact Or.inl ⟨congrFun (Mem.acquireMsg_owners hμ).1 m, rfl⟩
    | releaseExtra _ hμ => exact Or.inl ⟨congrFun (Mem.releaseMsg_owners hμ).1 m, rfl⟩
  | _ => exact Or.inl ⟨rfl, rfl⟩

/-! ## One step of a cycle -/

def cycle (s : Sys B S) (m : Msg) : Reuse.State :=
  ⟨refs s m, s.mem.owned m, publications s m, (s.mem.callsFor m).length⟩

omit [DecidableEq B] [DecidableEq S] in
theorem trans_signals (hm : MemEffect c.numAllocators s.mem s'.mem) (hl : s.mem.life m = .live hd)
    (hr : Reused c.numAllocators hd.allocId) (ha : Accounted c s) (ha' : Accounted c s') :
    ∃ hd', s'.mem.life m = .live hd' ∧ hd'.allocId = hd.allocId ∧ s'.mem.callsFor m =
      s.mem.callsFor m ++ if 0 < refs s m ∧ refs s' m = 0 then lastCalls hd.allocId m else [] := by
  obtain ⟨hd', hl', hal, hcalls⟩ := hm.reused hl hr
  exact ⟨hd', hl', hal, by rw [← ha.refCnt hl, ← ha'.refCnt hl']; exact hcalls⟩

theorem trans_cycle (ha : Accounted c s) (ht : Trans c s a s') (hrel : a ≠ .releaseUnpublished m)
    (hl : s.mem.life m = .live hd) (hr : Reused c.numAllocators hd.allocId)
    (hcb : hd.allocId = allocIdCallbackMsg) : Reuse.Step (cycle s m) (cycle s' m) := by
  obtain ⟨hd', hl', _, hcalls⟩ := trans_signals (trans_mem ht) hl hr ha (ha.trans ht)
  have hcnt := ha.refCnt hl
  have hcnt' := (ha.trans ht).refCnt hl'
  have hstep := (trans_mem ht).lifeStep m
  rw [hl, hl'] at hstep
  -- no step but the last release signals
  have quiet : ¬ (0 < refs s m ∧ refs s' m = 0) → (s'.mem.callsFor m).length = (s.mem.callsFor m).length := by
    intro h
    rw [hcalls, if_neg h, List.append_nil]
  have stays : s'.mem.owned m = s.mem.owned m → publications s' m = publications s m →
      Reuse.Step (cycle s m) (cycle s' m) := by
    intro ho hp
    unfold cycle
    rw [ho, hp]
    cases hstep with
    | keep =>
      rw [quiet (by omega), ← hcnt', hcnt]
      exact .stay
    | acquire hlt =>
      have hcnt' : hd.refCnt + 1 = refs s' m := hcnt'
      have hpos : 0 < refs s m := by
        by_contra h0
        have hown := trans_first ha ht (Nat.eq_zero_of_not_pos h0) (by omega)
        exact absurd (refs_owned (ho ▸ hown)) h0
      obtain ⟨r, hn⟩ := Nat.exists_eq_add_of_lt hpos
      rw [quiet (by omega), ← hcnt', show hd.refCnt + 1 = r + 2 by omega, show refs s m = r + 1 by omega]
      exact .share
    | release hpos =>
      have hcnt' : hd.refCnt - 1 = refs s' m := hcnt'
      by_cases h1 : refs s m = 1
      · have h0 : refs s' m = 0 := by omega
        rw [hcalls, if_pos ⟨by omega, h0⟩, h0, h1, ← ho, owned_of_refs h0, List.length_append, lastCalls, if_pos hcb]
        exact .last
      · obtain ⟨r, hn⟩ := Nat.exists_eq_add_of_le (show 2 ≤ refs s m by omega)
        rw [quiet (by omega), show refs s' m = r + 1 by omega, show refs s m = r + 2 by omega]
        exact .drop
  rcases trans_publications ht hrel with ⟨ho, hp⟩ | ⟨ho, ho', hp, hlife⟩ | ⟨ho', hp⟩
  · exact stays ho hp
  · have hsame : refs s' m = refs s m := by
      rw [hlife, hl] at hl'
      cases hl'
      exact hcnt'.symm.trans hcnt
    obtain ⟨r, hn⟩ := Nat.exists_eq_add_of_lt (refs_owned ho)
    unfold cycle
    rw [quiet (by omega), hsame, ho, ho', hp, show refs s m = r + 1 by omega]
    exact .handOut
  · rcases trans_acquired ha ht ho' with ho | h0
    · exact stays (ho'.trans ho.symm) hp
    · have h1 : refs s' m = 1 := by
        have hpos := refs_owned ho'
        rw [← hcnt'] at hpos ⊢
        cases hstep with
        | keep => omega
        | acquire _ => show hd.refCnt + 1 = 1; omega
        | release _ => omega
      unfold cycle
      rw [quiet (by omega), h0, h1, owned_of_refs h0, ho', hp]
      exact .acquire

/-! ## Every run -/

/-- Static messages make no calls, callback messages those of the callback only. -/
structure CallsOk (s : Sys B S) (m : Msg) (a : AllocId) : Prop where
  static : a = allocIdStaticMsg → s.mem.callsFor m = []
  callback : a = allocIdCallbackMsg →
    s.mem.callsFor m = List.replicate (s.mem.callsFor m).length (.callback m) ∧ (cycle s m).Good

structure CycleInv (c : Cfg S) (s : Sys B S) (m : Msg) : Prop where
  unused : s.mem.life m = .unused → publications s m = 0
  live : ∀ hd, s.mem.life m = .live hd → Reused c.numAllocators hd.allocId → CallsOk s m hd.allocId
  freed : ∀ hd, s.mem.life m = .freed hd → ¬ Reused c.numAllocators hd.allocId

omit [DecidableEq B] [DecidableEq S] in
theorem cycleInv_live (hl : s.mem.life m = .live hd)
    (h : Reused c.numAllocators hd.allocId → CallsOk s m hd.allocId) : CycleInv c s m := by
  constructor
  · intro hu
    rw [hl] at hu
    cases hu
  · intro hd' hl'
    rw [hl] at hl'
    cases hl'
    exact h
  · intro hd' hf
    rw [hl] at hf
    cases hf

omit [DecidableEq B] [DecidableEq S] in
theorem cycleInv_freed (hf : s.mem.life m = .freed hd) (h : ¬ Reused c.numAllocators hd.allocId) :
    CycleInv c s m := by
  constructor
  · intro hu
    rw [hf] at hu
    cases hu
  · intro hd' hl
    rw [hf] at hl
    cases hl
  · intro hd' hf'
    rw [hf] at hf'
    cases hf'
    exact h

theorem CallsOk.trans (h : CallsOk s m hd.allocId) (ha : Accounted c s) (ht : Trans c s a s')
    (hrel : a ≠ .releaseUnpublished m) (hl : s.mem.life m = .live hd) (hr : Reused c.numAllocators hd.allocId) :
    CallsOk s' m hd.allocId := by
  obtain ⟨hd', _, _, hcalls⟩ := trans_signals (trans_mem ht) hl hr ha (ha.trans ht)
  constructor
  · intro hs
    rw [hcalls, h.static hs, lastCalls, hs, if_neg (show ¬ allocIdStaticMsg = allocIdCallbackMsg by decide), ite_self]
    rfl
  · intro hcb
    obtain ⟨hk, hg⟩ := h.callback hcb
    refine ⟨?_, (trans_cycle ha ht hrel hl hr hcb).good hg⟩
    rw [hcalls, lastCalls, if_pos hcb]
    split
    · rw [List.length_append, List.length_singleton, List.replicate_succ', ← hk]
    · rw [List.append_nil, ← hk]

omit [Fintype B] [Fintype S] in
theorem publications_unused (hc : Carried c s) (ht : Trans c s a s') (hrel : a ≠ .releaseUnpublished m)
    (hu : s.mem.life m = .unused) : publications s' m = publications s m := by
  rcases trans_publications ht hrel with ⟨_, hp⟩ | ⟨ho, _⟩ | ⟨_, hp⟩
  · exact hp
  · exact absurd hu (hc.owned m ho)
  · exact hp

theorem callsOk_new (ha : Accounted c s) (ht : Trans c s a s') (hu : s.mem.life m = .unused)
    (hp : publications s' m = 0) (i : AllocId) : CallsOk s' m i := by
  have hcalls : s'.mem.callsFor m = [] := by
    have hpool := ha.pool m
    unfold Mem.PoolOk at hpool
    rw [hu] at hpool
    rcases (trans_mem ht).calls m with ⟨μ₁, hμ, _⟩ | ⟨h, _⟩
    · obtain ⟨_, hl₁, _⟩ := Mem.releaseMsg_ok hμ
      rw [hu] at hl₁
      cases hl₁
    · exact h.trans hpool
  have hzero : refs s m = 0 := by
    have hb := ha.balanced m
    rw [hu] at hb
    exact hb
  refine ⟨fun _ => hcalls, fun _ => ⟨by rw [hcalls]; rfl, ?_, refs_owned⟩⟩
  show publications s' m = (s'.mem.callsFor m).length + if 0 < refs s' m ∧ s'.mem.owned m = false then 1 else 0
  rw [hp, hcalls, if_neg]
  · rfl
  · intro ⟨hpos, ho⟩
    rw [trans_first ha ht hzero hpos] at ho
    cases ho

theorem CycleInv.trans (h : CycleInv c s m) (ha : Accounted c s) (hc : Carried c s) (ht : Trans c s a s')
    (hrel : a ≠ .releaseUnpublished m) : CycleInv c s' m := by
  have hstep := (trans_mem ht).lifeStep m
  cases hl : s.mem.life m with
  | unused =>
    have hp : publications s' m = 0 := (publications_unused hc ht hrel hl).trans (h.unused hl)
    refine ⟨fun _ => hp, fun hd _ _ => callsOk_new ha ht hl hp hd.allocId, ?_⟩
    intro hd hl'
    rw [hl, hl'] at hstep
    cases hstep
  | live hd =>
    obtain ⟨hd₁, hal₁, hl₁ | hl₁⟩ := hstep.live hl
    · apply cycleInv_live hl₁
      rw [hal₁]
      intro hr
      exact (h.live hd hl hr).trans ha ht hrel hl hr
    · apply cycleInv_freed hl₁
      rw [hal₁]
      intro hr
      obtain ⟨hd', hl', _⟩ := (trans_mem ht).reused hl hr
      rw [hl₁] at hl'
      cases hl'
  | freed hd => exact cycleInv_freed (hstep.freed hl) (h.freed hd hl)

omit [DecidableEq B] [DecidableEq S] in
theorem cycleInv_init (h : Init c s) (m : Msg) : CycleInv c s m := by
  refine ⟨fun _ => ?_, fun hd hl => ?_, fun hd hl => ?_⟩
  · rw [publications, h.log]
    rfl
  · rw [h.life] at hl
    cases hl
  · rw [h.life] at hl
    cases hl

/-- Nothing works with the publications before `tag` any more. -/
def Over (s : Sys B S) (m : Msg) (tag : Nat) : Prop := ∀ p, Carries s p → p.msg = m → tag ≤ p.tag

omit [Fintype B] [Fintype S] in
theorem Over.run {P : Sys B S → Act B S → Prop} {tag : Nat} (hr : Run (step c) P s s') (h : Over s m tag)
    (ht : tag ≤ s.nextTag) : Over s' m tag ∧
      ∀ p x, p.msg = m → p.tag < tag → timesHanded s'.log x p = timesHanded s.log x p := by
  have := hr.invariant (I := fun s₁ => Over s₁ m tag ∧ tag ≤ s₁.nextTag ∧
    ∀ p x, p.msg = m → p.tag < tag → timesHanded s₁.log x p = timesHanded s.log x p) ?_ ⟨h, ht, fun _ _ _ _ => rfl⟩
  · exact ⟨this.1, this.2.2⟩
  · intro s₁ a s₂ ⟨ho, htag, hlog⟩ _ hstep
    have ht := step_trans hstep
    refine ⟨?_, Nat.le_trans htag (trans_later ht).2, ?_⟩
    · intro p hp hm
      rcases carries_from ht hp with hp | hp
      · exact ho p hp hm
      · rw [hp.tag]
        exact htag
    · intro p x hm hlt
      rcases handed_from ht x p with h | h | h
      · exact h.trans (hlog p x hm hlt)
      · exact absurd (ho p h hm) (by omega)
      · exact absurd h.tag (by omega)

/-- What the cycles of a reused message are. -/
structure CycleOk (c : Cfg S) (s : Sys B S) (m : Msg) (hd : Hdr) : Prop where
  /-- Between the cycles no queue, dispatch or handler has the message. -/
  free : hd.refCnt = 0 → ∀ p, p.msg = m → ¬ Carries s p
  static : hd.allocId = allocIdStaticMsg → s.mem.callsFor m = []
  /-- One callback for each publication but the one that has not ended. -/
  callback : hd.allocId = allocIdCallbackMsg → ∃ k, s.mem.callsFor m = List.replicate k (.callback m) ∧
    publications s m = k + if 0 < hd.refCnt ∧ s.mem.owned m = false then 1 else 0
  /-- The callback is called by the step that takes the last reference, after all handlers have returned. -/
  last : ∀ a s', step c s a = .ok s' → ∃ hd', s'.mem.life m = .live hd' ∧ hd'.allocId = hd.allocId ∧
    (0 < hd.refCnt ∧ hd'.refCnt = 0 →
      s'.mem.callsFor m = s.mem.callsFor m ++ lastCalls hd.allocId m ∧ ∀ p, p.msg = m → ¬ Carries s' p) ∧
    (¬ (0 < hd.refCnt ∧ hd'.refCnt = 0) → s'.mem.callsFor m = s.mem.callsFor m)
  /-- Whatever happens next, nothing works with the publications so far. -/
  after : hd.refCnt = 0 → ∀ s', Run (step c) (fun _ _ => True) s s' → ∀ p, p.msg = m → p.tag < s.nextTag →
    ¬ Carries s' p ∧ ∀ x, timesHanded s'.log x p = timesHanded s.log x p

theorem not_carries (h0 : refs s m = 0) (p : Pkt B) (hp : p.msg = m) : ¬ Carries s p := by
  intro hcar
  have := hcar.refs
  rw [hp, h0] at this
  omega

theorem CycleInv.ok (h : CycleInv c s m) (ha : Accounted c s) (hl : s.mem.life m = .live hd)
    (hr : Reused c.numAllocators hd.allocId) : CycleOk c s m hd := by
  have hcnt := ha.refCnt hl
  have hcalls := h.live hd hl hr
  constructor
  · intro h0
    exact not_carries (hcnt.symm.trans h0)
  · exact hcalls.static
  · intro hcb
    obtain ⟨hk, hg⟩ := hcalls.callback hcb
    refine ⟨_, hk, ?_⟩
    rw [hcnt]
    exact hg.signals
  · intro a s' hstep
    have ht := step_trans hstep
    obtain ⟨hd', hl', hal, hcalls'⟩ := trans_signals (trans_mem ht) hl hr ha (ha.trans ht)
    rw [← hcnt, ← (ha.trans ht).refCnt hl'] at hcalls'
    refine ⟨hd', hl', hal, ?_, ?_⟩
    · intro hlast
      exact ⟨by rw [hcalls', if_pos hlast], not_carries (((ha.trans ht).refCnt hl').symm.trans hlast.2)⟩
    · intro hlast
      rw [hcalls', if_neg hlast, List.append_nil]
  · intro h0 s' hrun p hp htag
    have hover : Over s m s.nextTag := fun q hq hm => absurd hq (not_carries (hcnt.symm.trans h0) q hm)
    obtain ⟨hover', hlog⟩ := hover.run hrun (Nat.le_refl _)
    exact ⟨fun hcar => absurd (hover' p hcar hp) (by omega), fun x => hlog p x hp htag⟩

/-- While the allocators' ids do not reach theirs, static and callback messages
are with their owners between the cycles, and each cycle ends with one callback. -/
theorem reused_in_cycles {i : AllocId} (hr : Reused c.numAllocators i)
    (h : Reachable (step c) (Init c) (fun _ a => a ≠ .releaseUnpublished m) s) (hi : HasAlloc s m i) :
    ∃ hd, s.mem.life m = .live hd ∧ hd.allocId = i ∧ CycleOk c s m hd := by
  obtain ⟨ha, _, hinv⟩ := h.invariant (I := fun s => Accounted c s ∧ Carried c s ∧ CycleInv c s m)
    (fun _ hi => ⟨accounted_init hi, carried_init hi, cycleInv_init hi m⟩)
    fun _ _ _ ⟨ha, hc, hinv⟩ hrel hstep =>
      have ht := step_trans hstep
      ⟨ha.trans ht, hc.trans ht, hinv.trans ha hc ht hrel⟩
  obtain ⟨hd, rfl, hl | hf⟩ := hi
  · exact ⟨hd, hl, rfl, hinv.ok ha hl hr⟩
  · exact absurd hr (hinv.freed hd hf)

end

def twoCycles : List (Act Unit (Fin 2)) :=
  [.staticMsgInit 0 9 allocIdCallbackMsg, .acquireStatic 0, .publishTo 1 0, .svc 1, .svc 1, .svc 1, .svc 1,
    .acquireStatic 0, .publishTo 1 0]

def Act.keepsPublished (m : Msg) : Act Unit (Fin 2) → Bool
  | .releaseUnpublished k => k ≠ m
  | _ => true

theorem Act.keepsPublished_ne {m : Msg} {a : Act Unit (Fin 2)} (h : a.keepsPublished m = true) :
    a ≠ .releaseUnpublished m := by
  rintro rfl
  simp [keepsPublished] at h

theorem reused_in_cycles_two : ∃ s, Runs.exec (step twoFifos) twoFifosInit twoCycles = .ok s ∧
    publications s 0 = 2 ∧
    ∃ hd, s.mem.life 0 = .live hd ∧ hd.allocId = allocIdCallbackMsg ∧ CycleOk twoFifos s 0 hd := by
  refine ⟨_, rfl, by decide, reused_in_cycles (Or.inr ⟨rfl, by decide⟩) ⟨twoFifosInit, twoFifos_init,
    (Run.of_acts (K := fun a => a.keepsPublished 0 = true) (step twoFifos) twoCycles rfl (by decide)).mono
      fun _ _ => Act.keepsPublished_ne⟩
    ⟨_, rfl, Or.inl rfl⟩⟩

/-- The last runtime allocator has the id of the callback messages. -/
def manyAllocators : Cfg (Fin 2) := { twoFifos with numAllocators := 126 }

theorem callback_taken_for_pool : ¬ ∀ s : Sys Unit (Fin 2),
    Reachable (step manyAllocators) (Init manyAllocators) (fun _ a => a ≠ .releaseUnpublished 0) s →
      HasAlloc s 0 allocIdCallbackMsg → refs s 0 = 0 →
      s.mem.callsFor 0 = List.replicate (publications s 0) (.callback 0) := by
  intro h
  have hinit : Init manyAllocators twoFifosInit :=
    init_of_lists _ _ (by decide) (by decide) (by unfold FifoLast; decide)
  have := h _ ⟨twoFifosInit, hinit, (Run.of_acts (K := fun a => a.keepsPublished 0 = true) (step manyAllocators)
    (twoCycles.take 7) rfl (by decide)).mono fun _ _ => Act.keepsPublished_ne⟩ ⟨_, rfl, Or.inr rfl⟩ (by decide)
  revert this
  decide

end ZephyrPubSub
