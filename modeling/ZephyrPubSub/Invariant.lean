import ZephyrPubSub.Trans

/-!
# Invariants of every run

No condition on the run: the lists and the `broker` fields agree, the mutex is
held by whoever is inside a loop, and every stored message has been published,
is in use and fits the place it is in.
-/

namespace ZephyrPubSub

open Lists Function

/-! ## Updates that keep a view of the field -/

theorem update_view {ι α β : Type*} [DecidableEq ι] {f : α → β} {g : ι → α} {i : ι} {v : α}
    (h : f v = f (g i)) (j : ι) : f (update g i v j) = f (g j) := by
  by_cases hj : j = i
  · subst hj; rw [update_self, h]
  · rw [update_of_ne hj]

section
variable {B S : Type}

def Work.scanning : Work B S → Bool
  | .scan .. | .put .. => true
  | _ => false

def Svc.walking : Svc B S → Option B
  | .walk _ _ b _ => some b
  | _ => none

variable [DecidableEq S]

/-! ## Lists, mutex and pointers -/

structure Linked (s : Sys B S) : Prop where
  nodup : ∀ b, (s.subscribers b).Nodup
  mem_iff : ∀ b x, x ∈ s.subscribers b ↔ s.admin x = .idle ∧ s.broker x = some b

/-- The mutex is held exactly in the loops. -/
structure Locked (s : Sys B S) : Prop where
  work_iff : ∀ b, s.mutex b = some .work ↔ (s.work b).scanning = true
  svc_iff : ∀ b x, s.mutex b = some (.svc x) ↔ (s.svc x).walking = some b

omit [DecidableEq S] in
theorem Linked.listOf {s : Sys B S} (h : Linked s) {b : B} {x : S} (hx : x ∈ s.subscribers b) :
    s.listOf x = s.subscribers b := by
  obtain ⟨ha, hb⟩ := (h.mem_iff b x).mp hx
  unfold Sys.listOf
  rw [ha, hb]

theorem Linked.nextSub {s : Sys B S} (h : Linked s) {b : B} {x : S} (hx : x ∈ s.subscribers b) :
    s.nextSub x = (after x (s.subscribers b)).head? := by
  rw [Sys.nextSub, h.listOf hx]

theorem Linked.nextSub_mem {s : Sys B S} (h : Linked s) {b : B} {x y : S} (hx : x ∈ s.subscribers b)
    (hy : s.nextSub x = some y) : y ∈ s.subscribers b := by
  rw [h.nextSub hx] at hy
  exact mem_of_mem_after (List.mem_of_mem_head? hy)

omit [DecidableEq S] in
theorem Linked.one_list {s : Sys B S} (h : Linked s) {b b' : B} {x : S} (hx : x ∈ s.subscribers b)
    (hx' : x ∈ s.subscribers b') : b = b' := by
  have hb := ((h.mem_iff b x).mp hx).2
  rw [((h.mem_iff b' x).mp hx').2] at hb
  exact (Option.some.inj hb).symm

theorem Linked.unlinked {s : Sys B S} (h : Linked s) {x : S} (hx : ∀ b, x ∉ s.subscribers b) :
    s.nextSub x = none := by
  unfold Sys.nextSub Sys.listOf
  split
  · rename_i b ha hb
    exact absurd ((h.mem_iff b x).mpr ⟨ha, hb⟩) (hx b)
  · rfl

structure Wf (s : Sys B S) : Prop where
  linked : Linked s
  locked : Locked s

end

section
variable {B S : Type} [DecidableEq B] [DecidableEq S] {c : Cfg S} {s s' : Sys B S}

theorem Linked.trans {a : Act B S} (h : Linked s) (ht : Trans c s a s') : Linked s' := by
  cases ht with
  | @addStart b x ha hb =>
    refine ⟨h.nodup, fun b' y => ?_⟩
    by_cases hy : y = x
    · subst hy; simp [h.mem_iff, hb]
    · simp [hy, h.mem_iff]
  | @addLink x b ha hb hm =>
    have hx : ∀ b', x ∉ s.subscribers b' := fun b' hx => by
      rw [h.mem_iff, ha] at hx; exact absurd hx.1 (by decide)
    constructor
    · intro b'
      by_cases hb' : b' = b
      · subst hb'; simpa using insertSubscriber_nodup c.rxType s.priority (h.nodup b') (hx b')
      · simpa [hb'] using h.nodup b'
    · intro b' y
      by_cases hb' : b' = b
      · subst hb'
        by_cases hy : y = x
        · simp [hy, mem_insertSubscriber c.rxType s.priority (h.nodup b'), hb]
        · simp [hy, mem_insertSubscriber c.rxType s.priority (h.nodup b'), h.mem_iff]
      · by_cases hy : y = x
        · subst hy; simp [hb', hx, hb, Ne.symm hb']
        · simp [hb', hy, h.mem_iff]
  | @removeUnlink x b ha hb hm =>
    constructor
    · intro b'
      by_cases hb' : b' = b
      · subst hb'; simpa using (h.nodup b').erase x
      · simpa [hb'] using h.nodup b'
    · intro b' y
      by_cases hb' : b' = b
      · subst hb'
        by_cases hy : y = x
        · simp [hy, (h.nodup b').mem_erase_iff]
        · simp [hy, (h.nodup b').mem_erase_iff, h.mem_iff]
      · by_cases hy : y = x
        · subst hy; simp [hb', h.mem_iff, hb, Ne.symm hb']
        · simp [hb', hy, h.mem_iff]
  | @removeClear x ha =>
    refine ⟨h.nodup, fun b' y => ?_⟩
    by_cases hy : y = x
    · subst hy; simp [h.mem_iff, ha]
    · simp [hy, h.mem_iff]
  | _ => exact ⟨h.nodup, h.mem_iff⟩

section
omit [DecidableEq B] [DecidableEq S]

theorem Locked.keep (h : Locked s) (hm : s'.mutex = s.mutex)
    (hw : ∀ b, (s'.work b).scanning = (s.work b).scanning) (hv : ∀ x, (s'.svc x).walking = (s.svc x).walking) :
    Locked s' :=
  ⟨fun b => by rw [hm, hw]; exact h.work_iff b, fun b x => by rw [hm, hv]; exact h.svc_iff b x⟩

theorem Locked.work (h : Locked s) {b : B} {w : Work B S} (hw : s.work b = w) (hs : w.scanning = true) :
    s.mutex b = some .work := (h.work_iff b).mpr (by rw [hw, hs])

theorem Locked.svc (h : Locked s) {b : B} {x : S} {v : Svc B S} (hv : s.svc x = v) (hs : v.walking = some b) :
    s.mutex b = some (.svc x) := (h.svc_iff b x).mpr (by rw [hv, hs])

theorem Locked.free_work (h : Locked s) {b : B} (hm : s.mutex b = none) : (s.work b).scanning = false := by
  have := h.work_iff b
  rw [hm] at this
  simpa using this

theorem Work.calling_scanning {w : Work B S} (h : w.calling = true) : w.scanning = true := by
  cases w with
  | scan => rfl
  | _ => cases h

end

omit [DecidableEq B] [DecidableEq S] in
theorem Locked.not_calling (h : Locked s) {b : B} {x : S} (hm : s.mutex b = some (.svc x)) :
    (s.work b).calling = false := by
  by_contra hc
  have hw := (h.work_iff b).mpr (Work.calling_scanning (by simpa using hc))
  rw [hm] at hw
  cases hw

omit [DecidableEq B] [DecidableEq S] in
theorem Locked.free_svc (h : Locked s) {b : B} (hm : s.mutex b = none) (x : S) : (s.svc x).walking ≠ some b := by
  have := h.svc_iff b x
  rw [hm] at this
  simpa using this

omit [DecidableEq S] in
theorem Locked.work_lock (h : Locked s) {b : B} {w : Work B S} (hm : s.mutex b = none) (hw : w.scanning = true)
    (he : s'.mutex = update s.mutex b (some .work)) (hew : s'.work = update s.work b w) (hv : s'.svc = s.svc) :
    Locked s' := by
  constructor
  · intro b'
    rw [he, hew]
    by_cases hb : b' = b
    · subst hb; simp [hw]
    · simpa [hb] using h.work_iff b'
  · intro b' x
    rw [he, hv]
    by_cases hb : b' = b
    · subst hb; simpa using h.free_svc hm x
    · simpa [hb] using h.svc_iff b' x

omit [DecidableEq S] in
theorem Locked.work_unlock (h : Locked s) {b : B} {w : Work B S} (hm : s.mutex b = some .work)
    (hw : w.scanning = false) (he : s'.mutex = update s.mutex b none) (hew : s'.work = update s.work b w)
    (hv : s'.svc = s.svc) : Locked s' := by
  constructor
  · intro b'
    rw [he, hew]
    by_cases hb : b' = b
    · subst hb; simp [hw]
    · simpa [hb] using h.work_iff b'
  · intro b' x
    rw [he, hv]
    by_cases hb : b' = b
    · subst hb
      have := h.svc_iff b' x
      rw [hm] at this
      simpa using this
    · simpa [hb] using h.svc_iff b' x

theorem Locked.svc_lock (h : Locked s) {b : B} {x : S} {v : Svc B S} (hm : s.mutex b = none)
    (hx : (s.svc x).walking = none) (hv : v.walking = some b)
    (he : s'.mutex = update s.mutex b (some (.svc x))) (hev : s'.svc = update s.svc x v)
    (hw : s'.work = s.work) : Locked s' := by
  constructor
  · intro b'
    rw [he, hw]
    by_cases hb : b' = b
    · subst hb; simp [h.free_work hm]
    · simpa [hb] using h.work_iff b'
  · intro b' y
    rw [he, hev]
    by_cases hy : y = x
    · subst hy
      by_cases hb : b' = b
      · subst hb; simp [hv]
      · have := h.svc_iff b' y
        simp [hb, hv, Ne.symm hb, this, hx]
    · by_cases hb : b' = b
      · subst hb
        simpa [hy, Ne.symm hy] using h.free_svc hm y
      · simpa [hb, hy] using h.svc_iff b' y

theorem Locked.svc_unlock (h : Locked s) {b : B} {x : S} {v : Svc B S} (hm : s.mutex b = some (.svc x))
    (hv : v.walking = none) (he : s'.mutex = update s.mutex b none) (hev : s'.svc = update s.svc x v)
    (hw : s'.work = s.work) : Locked s' := by
  have hx := (h.svc_iff b x).mp hm
  constructor
  · intro b'
    rw [he, hw]
    by_cases hb : b' = b
    · subst hb
      have := h.work_iff b'
      rw [hm] at this
      simpa using this
    · simpa [hb] using h.work_iff b'
  · intro b' y
    rw [he, hev]
    by_cases hy : y = x
    · subst hy
      by_cases hb : b' = b
      · subst hb; simp [hv]
      · have := h.svc_iff b' y
        simp [hb, hv, this, hx, Ne.symm hb]
    · by_cases hb : b' = b
      · subst hb
        have := h.svc_iff b' y
        rw [hm] at this
        simpa [hy, Ne.symm hy] using this
      · simpa [hb, hy] using h.svc_iff b' y

omit [DecidableEq B] [DecidableEq S] in
theorem wake_scanning (w : Work B S) : (wake w).scanning = w.scanning := by
  cases w <;> rfl

theorem Locked.trans {a : Act B S} (h : Locked s) (ht : Trans c s a s') : Locked s' := by
  cases ht with
  | workLock hw hm => exact h.work_lock hm rfl rfl rfl rfl
  | scanEnd hw => exact h.work_unlock (h.work hw rfl) rfl rfl rfl rfl
  | scanFifo hw => exact h.work_unlock (h.work hw rfl) rfl rfl rfl rfl
  | svcLock hv hm => exact h.svc_lock hm (by rw [hv]; rfl) rfl rfl rfl rfl
  | walkEnd hv => exact h.svc_unlock (h.svc hv rfl) rfl rfl rfl rfl
  | walkGive hv => exact h.svc_unlock (h.svc hv rfl) rfl rfl rfl rfl
  | workSubmit hw => exact h.keep rfl (update_view (by rw [hw]; split <;> rfl)) fun _ => rfl
  | publish _ => exact h.keep rfl (update_view (wake_scanning _)) fun _ => rfl
  | workQueued hw | workGetNone hw | workGet hw | scanSkip hw | scanCallback hw | scanMsgq hw | put hw
  | workRelease hw | workReset hw =>
    exact h.keep rfl (update_view (by rw [hw]; rfl)) fun _ => rfl
  | takeMsgq hv | takeFifo hv | gotPublic hv | gotPrivate hv | walkSkip hv | handle hv | svcRelease hv =>
    exact h.keep rfl (fun _ => rfl) (update_view (by rw [hv]; rfl))
  | _ => exact ⟨h.work_iff, h.svc_iff⟩

theorem Wf.trans {a : Act B S} (h : Wf s) (ht : Trans c s a s') : Wf s' := ⟨h.linked.trans ht, h.locked.trans ht⟩

omit [DecidableEq B] [DecidableEq S] in
theorem wf_init (h : Init c s) : Wf s := by
  refine ⟨⟨h.nodup, fun b x => ?_⟩, ⟨fun b => ?_, fun b x => ?_⟩⟩
  · simp [h.mem_iff, h.admin]
  · simp [h.mutex, h.work, Work.scanning]
  · simp [h.mutex, h.svc, Svc.walking]

/-! ## Stored messages -/

def Event.pkt : Event B S → Pkt B
  | .published p | .handed _ p => p

/-- The publication has happened and its message has been initialized. -/
def Known (s : Sys B S) (p : Pkt B) : Prop := s.mem.used p.msg ∧ p.tag < s.nextTag

def FifoOk (s : Sys B S) (b : B) (p : Pkt B) : Prop := Known s p ∧ p.src = some b

omit [DecidableEq B] [DecidableEq S] in
theorem FifoOk.broker {s : Sys B S} {b b' : B} {p : Pkt B} (h : FifoOk s b' p) (hsrc : p.src = some b) : b' = b :=
  Option.some.inj (h.2.symm.trans hsrc)

def WorkOk (c : Cfg S) (s : Sys B S) (b : B) : Work B S → Prop
  | .lock p id | .scan p id _ _ => FifoOk s b p ∧ id = s.mem.idOf p.msg
  | .put p id x _ => FifoOk s b p ∧ id = s.mem.idOf p.msg ∧ id ≤ c.maxPubMsgId x ∧ c.rxType x = .msgq
  | .release p => FifoOk s b p
  | _ => True

/-- Messages of a broker are public to the subscriber, direct ones are private. -/
def QueueOk (c : Cfg S) (s : Sys B S) (x : S) (p : Pkt B) : Prop :=
  Known s p ∧ (s.mem.idOf p.msg ≤ c.maxPubMsgId x ↔ p.src ≠ none) ∧ c.rxType x ≠ .callback

def SvcOk (c : Cfg S) (s : Sys B S) (x : S) : Svc B S → Prop
  | .idle => True
  | .got p id => QueueOk c s x p ∧ id = s.mem.idOf p.msg ∧ c.rxType x = .fifo
  | .lock p id _ | .walk p id _ _ =>
    QueueOk c s x p ∧ id = s.mem.idOf p.msg ∧ c.rxType x = .fifo ∧ id ≤ c.maxPubMsgId x
  | .ready p id => QueueOk c s x p ∧ id = s.mem.idOf p.msg
  | .running p => QueueOk c s x p

structure Carried (c : Cfg S) (s : Sys B S) : Prop where
  owned : ∀ m, s.mem.owned m = true → s.mem.used m
  fifo : ∀ b, ∀ p ∈ s.fifo b, FifoOk s b p
  work : ∀ b, WorkOk c s b (s.work b)
  queue : ∀ x, ∀ p ∈ s.queue x, QueueOk c s x p
  svc : ∀ x, SvcOk c s x (s.svc x)
  log : ∀ e ∈ s.log, Known s e.pkt

/-- What is known stays known, with the same message ids. -/
def Later (s s' : Sys B S) : Prop := Mem.IdsKept s.mem s'.mem ∧ s.nextTag ≤ s'.nextTag

theorem trans_later {a : Act B S} (ht : Trans c s a s') : Later s s' := by
  refine ⟨trans_ids ht, ?_⟩
  cases ht with
  | publish => exact Nat.le_succ _
  | publishToCallback => exact Nat.le_succ _
  | publishToQueue => exact Nat.le_succ _
  | _ => exact Nat.le_refl _

section
omit [DecidableEq B] [DecidableEq S]

theorem Later.known (l : Later s s') {p : Pkt B} (h : Known s p) : Known s' p :=
  ⟨(l.1 _ h.1).1, Nat.lt_of_lt_of_le h.2 l.2⟩

theorem Later.id (l : Later s s') {p : Pkt B} (h : Known s p) : s'.mem.idOf p.msg = s.mem.idOf p.msg :=
  (l.1 _ h.1).2

theorem Later.fifoOk (l : Later s s') {b : B} {p : Pkt B} (h : FifoOk s b p) : FifoOk s' b p :=
  ⟨l.known h.1, h.2⟩

theorem Later.queueOk (l : Later s s') {x : S} {p : Pkt B} (h : QueueOk c s x p) : QueueOk c s' x p :=
  ⟨l.known h.1, by rw [l.id h.1]; exact h.2.1, h.2.2⟩

theorem Later.workOk (l : Later s s') {b : B} {w : Work B S} (h : WorkOk c s b w) : WorkOk c s' b w := by
  cases w with
  | lock p id => exact ⟨l.fifoOk h.1, by rw [l.id h.1.1]; exact h.2⟩
  | scan p id x y => exact ⟨l.fifoOk h.1, by rw [l.id h.1.1]; exact h.2⟩
  | put p id x y => exact ⟨l.fifoOk h.1, by rw [l.id h.1.1]; exact h.2⟩
  | release p => exact l.fifoOk h
  | _ => trivial

theorem Later.svcOk (l : Later s s') {x : S} {v : Svc B S} (h : SvcOk c s x v) : SvcOk c s' x v := by
  cases v with
  | idle => trivial
  | got p id => exact ⟨l.queueOk h.1, by rw [l.id h.1.1]; exact h.2⟩
  | lock p id b => exact ⟨l.queueOk h.1, by rw [l.id h.1.1]; exact h.2⟩
  | walk p id b n => exact ⟨l.queueOk h.1, by rw [l.id h.1.1]; exact h.2⟩
  | ready p id => exact ⟨l.queueOk h.1, by rw [l.id h.1.1]; exact h.2⟩
  | running p => exact l.queueOk h

theorem memStep_owned {n : Nat} {μ μ' : Mem} {a : Act B S} (h : MemStep n μ a μ') {m : Msg}
    (ho : μ'.owned m = true) : μ.owned m = true ∨ μ'.used m := by
  cases h with
  | @newMsg k i al _ hn =>
    obtain ⟨_, _, hl, hown, _⟩ := Mem.newMsg_ok hn
    by_cases hm : m = k
    · subst hm; exact Or.inr (by rw [Mem.used, hl, update_self]; simp)
    · rw [hown, update_of_ne hm] at ho; exact Or.inl ho
  | staticMsgInit h => obtain ⟨_, _, rfl⟩ := Mem.staticMsgInit_ok h; exact Or.inl ho
  | @acquireStatic k hd μ₁ hl _ _ hμ =>
    obtain ⟨_, _, _, rfl⟩ := Mem.acquireMsg_ok hμ
    by_cases hm : m = k
    · subst hm; exact Or.inr (by simp [Mem.used])
    · exact Or.inl (by simpa [hm] using ho)
  | @releaseUnpublished k μ₁ _ hμ =>
    by_cases hm : m = k
    · subst hm; simp [Mem.transfer] at ho
    · exact Or.inl (by simpa [Mem.transfer, hm, (Mem.releaseMsg_owners hμ).1] using ho)
  | acquireExtra _ _ hμ => exact Or.inl (by simpa [(Mem.acquireMsg_owners hμ).1] using ho)
  | releaseExtra _ hμ => exact Or.inl (by simpa [(Mem.releaseMsg_owners hμ).1] using ho)

end

theorem trans_owner {a : Act B S} (ht : Trans c s a s') {m : Msg} (ho : s'.mem.owned m = true) :
    s.mem.owned m = true ∨ MemStep c.numAllocators s.mem a s'.mem := by
  cases ht with
  | mem h => exact Or.inr h
  | scanMsgq _ _ _ hμ | scanFifo _ _ _ hμ | walkGive _ _ _ hμ =>
    rw [(Mem.acquireMsg_owners hμ).1] at ho; exact Or.inl ho
  | workRelease _ hμ | svcRelease _ hμ | callReturn _ hμ =>
    rw [(Mem.releaseMsg_owners hμ).1] at ho; exact Or.inl ho
  | @publish b k _ | @publishToCallback x k _ _ | @publishToQueue x k _ _ =>
    by_cases hm : m = k
    · subst hm; simp [Mem.transfer] at ho
    · exact Or.inl (by simpa [Mem.transfer, hm] using ho)
  | _ => exact Or.inl ho

theorem trans_owned {a : Act B S} (ht : Trans c s a s') {m : Msg} (ho : s'.mem.owned m = true) :
    s.mem.owned m = true ∨ s'.mem.used m :=
  (trans_owner ht ho).elim Or.inl fun h => memStep_owned h ho

theorem Carried.change {a : Act B S} (h : Carried c s) (ht : Trans c s a s')
    (hf : ∀ b, ∀ p ∈ s'.fifo b, p ∈ s.fifo b ∨ FifoOk s' b p)
    (hw : ∀ b, s'.work b = s.work b ∨ WorkOk c s' b (s'.work b))
    (hq : ∀ x, ∀ p ∈ s'.queue x, p ∈ s.queue x ∨ QueueOk c s' x p)
    (hv : ∀ x, s'.svc x = s.svc x ∨ SvcOk c s' x (s'.svc x))
    (hl : ∀ e ∈ s'.log, e ∈ s.log ∨ Known s' e.pkt) : Carried c s' := by
  have l := trans_later ht
  constructor
  · exact fun m ho => (trans_owned ht ho).elim (fun ho => (l.1 m (h.owned m ho)).1) id
  · exact fun b p hp => (hf b p hp).elim (fun hp => l.fifoOk (h.fifo b p hp)) id
  · intro b
    rcases hw b with hb | hb
    · rw [hb]; exact l.workOk (h.work b)
    · exact hb
  · exact fun x p hp => (hq x p hp).elim (fun hp => l.queueOk (h.queue x p hp)) id
  · intro x
    rcases hv x with hx | hx
    · rw [hx]; exact l.svcOk (h.svc x)
    · exact hx
  · exact fun e he => (hl e he).elim (fun he => l.known (h.log e he)) id

theorem update_or {ι α : Type*} [DecidableEq ι] {g : ι → α} {i : ι} {v : α} {P : ι → α → Prop}
    (hv : P i v) (j : ι) : update g i v j = g j ∨ P j (update g i v j) := by
  by_cases hj : j = i
  · subst hj; rw [update_self]; exact Or.inr hv
  · exact Or.inl (update_of_ne hj ..)

theorem queue_push {ι α : Type*} [DecidableEq ι] {g : ι → List α} {i : ι} {v : α} {P : ι → α → Prop}
    (hv : P i v) (j : ι) (p : α) (hp : p ∈ update g i (g i ++ [v]) j) : p ∈ g j ∨ P j p := by
  by_cases hj : j = i
  · subst hj
    rw [update_self] at hp
    rcases List.mem_append.mp hp with hp | hp
    · exact Or.inl hp
    · exact Or.inr (List.mem_singleton.mp hp ▸ hv)
  · rw [update_of_ne hj] at hp; exact Or.inl hp

theorem queue_pop {ι α : Type*} [DecidableEq ι] {g : ι → List α} {i : ι} {v : α} {l : List α}
    (hg : g i = v :: l) (j : ι) (p : α) (hp : p ∈ update g i l j) : p ∈ g j := by
  by_cases hj : j = i
  · subst hj
    rw [update_self] at hp
    rw [hg]
    exact List.mem_cons_of_mem v hp
  · rwa [update_of_ne hj] at hp

section
omit [DecidableEq B] [DecidableEq S]

theorem log_push {l : List (Event B S)} {e₀ : Event B S} {P : Event B S → Prop} (h : P e₀) (e : Event B S)
    (he : e ∈ l ++ [e₀]) : e ∈ l ∨ P e := by
  rcases List.mem_append.mp he with he | he
  · exact Or.inl he
  · exact Or.inr (List.mem_singleton.mp he ▸ h)

theorem Carried.work_at (h : Carried c s) {b : B} {w : Work B S} (hw : s.work b = w) : WorkOk c s b w :=
  hw ▸ h.work b

theorem Carried.svc_at (h : Carried c s) {x : S} {v : Svc B S} (hv : s.svc x = v) : SvcOk c s x v :=
  hv ▸ h.svc x

theorem QueueOk.of_wants {b : B} {p : Pkt B} {id : MsgId} {x : S} (h : FifoOk s b p) (hid : id = s.mem.idOf p.msg)
    (hw : s.wants c x id) (hrx : c.rxType x ≠ .callback) : QueueOk c s x p :=
  ⟨h.1, ⟨fun _ => by rw [h.2]; simp, fun _ => hid ▸ hw.1⟩, hrx⟩

theorem QueueOk.forward {p : Pkt B} {id : MsgId} {x y : S} (h : QueueOk c s x p) (hid : id = s.mem.idOf p.msg)
    (hx : id ≤ c.maxPubMsgId x) (hy : id ≤ c.maxPubMsgId y) (hrx : c.rxType y ≠ .callback) : QueueOk c s y p :=
  ⟨h.1, ⟨fun _ => h.2.1.mp (hid ▸ hx), fun _ => hid ▸ hy⟩, hrx⟩

theorem known_new {m : Msg} {src : Option B} (hu : s'.mem.used m) (hn : s'.nextTag = s.nextTag + 1) :
    Known s' ⟨m, s.nextTag, src⟩ :=
  ⟨hu, by simp [hn]⟩

end

theorem Carried.change_work {a : Act B S} (h : Carried c s) (ht : Trans c s a s') (b : B) (w : Work B S)
    (hw : s'.work = update s.work b w) (hf : s'.fifo = s.fifo) (hq : s'.queue = s.queue) (hv : s'.svc = s.svc)
    (hl : s'.log = s.log) (ho : WorkOk c s' b w) : Carried c s' := by
  apply h.change ht
  · exact fun b p hp => Or.inl (by rwa [← hf])
  · rw [hw]
    exact update_or ho
  · exact fun x p hp => Or.inl (by rwa [← hq])
  · exact fun x => Or.inl (by rw [hv])
  · exact fun e he => Or.inl (by rwa [← hl])

theorem Carried.change_svc {a : Act B S} (h : Carried c s) (ht : Trans c s a s') (x : S) (v : Svc B S)
    (hv : s'.svc = update s.svc x v) (hf : s'.fifo = s.fifo) (hw : s'.work = s.work) (hq : s'.queue = s.queue)
    (hl : s'.log = s.log) (ho : SvcOk c s' x v) : Carried c s' := by
  apply h.change ht
  · exact fun b p hp => Or.inl (by rwa [← hf])
  · exact fun b => Or.inl (by rw [hw])
  · exact fun x p hp => Or.inl (by rwa [← hq])
  · rw [hv]
    exact update_or ho
  · exact fun e he => Or.inl (by rwa [← hl])

theorem Carried.trans {a : Act B S} (h : Carried c s) (ht : Trans c s a s') : Carried c s' := by
  have l := trans_later ht
  have hc := h.change ht
  have onWork := h.change_work ht
  have onSvc := h.change_svc ht
  cases ht with
  | workQueued hw | workGetNone hw _ | workRelease hw _ | workReset hw =>
    exact onWork _ _ rfl rfl rfl rfl rfl trivial
  | @workGet b p ps id hw hf hid =>
    have hp : FifoOk s b p := h.fifo b p (by rw [hf]; exact List.mem_cons_self ..)
    exact hc (fun b' q hq => Or.inl (queue_pop hf b' q hq)) (update_or ⟨hp, (Mem.getMsgId_ok hid).2.symm⟩)
      (fun _ _ => Or.inl) (fun _ => Or.inl rfl) fun _ => Or.inl
  | workLock hw _ | scanSkip hw _ => exact onWork _ _ rfl rfl rfl rfl rfl (h.work_at hw)
  | scanEnd hw => exact onWork _ _ rfl rfl rfl rfl rfl (h.work_at hw).1
  | scanCallback hw _ _ =>
    exact hc (fun _ _ => Or.inl) (update_or (h.work_at hw)) (fun _ _ => Or.inl) (fun _ => Or.inl rfl)
      (log_push (h.work_at hw).1.1)
  | @scanMsgq b p id x call μ hw hwant hrx hμ =>
    have ho := h.work_at hw
    exact onWork _ _ rfl rfl rfl rfl rfl
      (l.workOk (w := .put p id x (s.nextSub x)) ⟨ho.1, ho.2, hwant.1, hrx⟩)
  | @scanFifo b p id x call μ hw hwant hrx hμ =>
    have ho := h.work_at hw
    exact hc (fun _ _ => Or.inl) (update_or (l.fifoOk ho.1))
      (queue_push (l.queueOk (.of_wants ho.1 ho.2 hwant (by simp [hrx])))) (fun _ => Or.inl rfl) fun _ => Or.inl
  | @put b p id x tmp hw _ =>
    obtain ⟨ho, hid, hle, hrx⟩ := h.work_at hw
    exact hc (fun _ _ => Or.inl) (update_or ⟨ho, hid⟩)
      (queue_push ⟨ho.1, ⟨fun _ => by rw [ho.2]; simp, fun _ => hid ▸ hle⟩, by simp [hrx]⟩)
      (fun _ => Or.inl rfl) fun _ => Or.inl
  | workSubmit hw => exact onWork _ _ rfl rfl rfl rfl rfl (by split <;> trivial)
  | @takeMsgq x p ps id _ hrx hq hid =>
    have hp := h.queue x p (by rw [hq]; exact List.mem_cons_self ..)
    exact hc (fun _ _ => Or.inl) (fun _ => Or.inl rfl) (fun y q hy => Or.inl (queue_pop hq y q hy))
      (update_or ⟨hp, (Mem.getMsgId_ok hid).2.symm⟩) fun _ => Or.inl
  | @takeFifo x p ps id _ hrx hq hid =>
    have hp := h.queue x p (by rw [hq]; exact List.mem_cons_self ..)
    exact hc (fun _ _ => Or.inl) (fun _ => Or.inl rfl) (fun y q hy => Or.inl (queue_pop hq y q hy))
      (update_or ⟨hp, (Mem.getMsgId_ok hid).2.symm, hrx⟩) fun _ => Or.inl
  | gotPublic hv hle _ =>
    obtain ⟨hp, hid, hrx⟩ := h.svc_at hv
    exact onSvc _ _ rfl rfl rfl rfl rfl ⟨hp, hid, hrx, hle⟩
  | gotPrivate hv _ | walkEnd hv =>
    obtain ⟨hp, hid, _⟩ := h.svc_at hv
    exact onSvc _ _ rfl rfl rfl rfl rfl ⟨hp, hid⟩
  | svcLock hv _ | walkSkip hv _ => exact onSvc _ _ rfl rfl rfl rfl rfl (h.svc_at hv)
  | @walkGive x p id b n μ hv hwant hrx hμ =>
    obtain ⟨hp, hid, _, hle⟩ := h.svc_at hv
    exact hc (fun _ _ => Or.inl) (fun _ => Or.inl rfl)
      (queue_push (l.queueOk (hp.forward hid hle hwant.1 (by simp [hrx]))))
      (update_or (l.svcOk (v := .ready p id) ⟨hp, hid⟩)) fun _ => Or.inl
  | handle hv =>
    have hp := (h.svc_at hv).1
    exact hc (fun _ _ => Or.inl) (fun _ => Or.inl rfl) (fun _ _ => Or.inl) (update_or hp) (log_push hp.1)
  | svcRelease hv _ => exact onSvc _ _ rfl rfl rfl rfl rfl trivial
  | @publish b m ho =>
    have hu := h.owned m ho
    refine hc (queue_push ⟨known_new hu rfl, rfl⟩) (update_or ?_) (fun _ _ => Or.inl) (fun _ => Or.inl rfl)
      (log_push (known_new hu rfl))
    have := l.workOk (h.work b)
    cases hw : s.work b with
    | armed => trivial
    | _ => rw [hw] at this; exact this
  | @publishToCallback x m id ho _ _ _ =>
    have hu := h.owned m ho
    refine hc (fun _ _ => Or.inl) (fun _ => Or.inl rfl) (fun _ _ => Or.inl) (fun _ => Or.inl rfl) ?_
    intro e he
    simp only [List.mem_append, List.mem_cons, List.not_mem_nil, or_false] at he
    rcases he with he | rfl | rfl
    · exact Or.inl he
    · exact Or.inr (known_new hu rfl)
    · exact Or.inr (known_new hu rfl)
  | @publishToQueue x m id ho hid hlt hrx _ =>
    have hu := h.owned m ho
    refine hc (fun _ _ => Or.inl) (fun _ => Or.inl rfl)
      (queue_push ⟨known_new hu rfl, ⟨fun hle => ?_, fun hn => absurd rfl hn⟩, hrx⟩)
      (fun _ => Or.inl rfl) (log_push (known_new hu rfl))
    have hi : s.mem.idOf m = id := (Mem.getMsgId_ok hid).2
    exact absurd hlt (BitVec.not_lt.mpr (hi ▸ hle))
  | _ => exact hc (fun _ _ => Or.inl) (fun _ => Or.inl rfl) (fun _ _ => Or.inl) (fun _ => Or.inl rfl) fun _ => Or.inl

omit [DecidableEq B] [DecidableEq S] in
theorem carried_init (h : Init c s) : Carried c s := by
  constructor
  · intro m ho; rw [h.owned] at ho; cases ho
  · intro b p hp; rw [h.fifo] at hp; cases hp
  · intro b; rw [h.work]; trivial
  · intro x p hp; rw [h.queue] at hp; cases hp
  · intro x; rw [h.svc]; trivial
  · intro e he; rw [h.log] at he; cases he

theorem carried_reachable {P : Sys B S → Act B S → Prop} (h : Runs.Reachable (step c) (Init c) P s) : Carried c s :=
  h.invariant (fun _ => carried_init) fun _ _ _ hs _ hstep => hs.trans (step_trans hstep)

end

end ZephyrPubSub
