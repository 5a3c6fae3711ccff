import ZephyrPubSub.Word
import ZephyrPubSub.RefCount

/-!
# Counting references one atomic access at a time

Elsewhere acquiring and releasing a message are one step each. The source loads
the counter for an assertion, then increments or decrements it, and whoever
takes it to 0 loads the allocator id and calls `free`. Here any number of threads
take turns between these accesses, and the block is allocated again and again.
-/

namespace ZephyrPubSub

open Function Runs

inductive RefPc where
  | idle
  /-- Has been given the block; about to store the header. -/
  | init (i : MsgId) (a : AllocId)
  /-- About to load the counter for the assertion of the first acquire. -/
  | first
  | inc
  | dec
  /-- Took the counter to 0; about to load the allocator id. -/
  | last
  | free (a : AllocId)
  deriving DecidableEq

structure Block (w : Nat) (T : Type) where
  /-- `atomic_data` -/
  word : BitVec w
  isFree : Bool
  pc : T → RefPc
  /-- The references of a thread, or of a queue that threads pass them on by. -/
  held : T → Nat
  frees : List FreeCall

inductive RefAct (T : Type) where
  | alloc (t : T) (i : MsgId) (a : AllocId)
  | acquire (t : T)
  | release (t : T)
  | give (t u : T)
  | run (t : T)

section
variable {w : Nat} {T : Type} [DecidableEq T]

def Block.goto (s : Block w T) (t : T) (v : RefPc) : Block w T := { s with pc := update s.pc t v }

/-- `atomic_inc` -/
def Block.increment (s : Block w T) (t : T) : Block w T :=
  { s.goto t .idle with word := s.word + 1#w, held := update s.held t (s.held t + 1) }

def refStep (m : Msg) (s : Block w T) (t : T) : Except Stop (Block w T) :=
  match s.pc t with
  | .idle => .error .misuse
  | .init i a => .ok { s.goto t .first with word := msgInit i a }
  | .first => if msgGetRefCnt s.word < 255 then .ok (s.goto t .inc) else .error .refOverflow
  | .inc => .ok (s.increment t)
  | .dec =>
    -- `atomic_dec` returns the word before it
    .ok { s.goto t (if msgGetRefCnt s.word = 1 then .last else .idle) with
      word := s.word - 1#w
      held := update s.held t (s.held t - 1) }
  | .last => .ok (s.goto t (.free (msgGetAllocId s.word)))
  | .free a => .ok { s.goto t .idle with isFree := true, frees := s.frees ++ [Mem.freeCallOf a m] }

def blockStep (n : Nat) (m : Msg) (s : Block w T) : RefAct T → Except Stop (Block w T)
  | .alloc t i a =>
    if s.pc t = .idle ∧ s.isFree = true ∧ Mem.Registered n a then .ok { s.goto t (.init i a) with isFree := false }
    else .error .misuse
  | .acquire t =>
    if s.pc t = .idle ∧ 0 < s.held t then
      if msgGetRefCnt s.word < 255 then .ok (s.goto t .inc) else .error .refOverflow
    else .error .misuse
  | .release t =>
    if s.pc t = .idle ∧ 0 < s.held t then
      if 0 < msgGetRefCnt s.word then .ok (s.goto t .dec) else .error .refUnderflow
    else .error .misuse
  | .give t u =>
    if s.pc t = .idle ∧ 0 < s.held t then
      let held := update s.held t (s.held t - 1)
      .ok { s with held := update held u (held u + 1) }
    else .error .misuse
  | .run t => refStep m s t

structure Block.Init (s : Block w T) : Prop where
  isFree : s.isFree = true
  pc : ∀ t, s.pc t = .idle
  held : ∀ t, s.held t = 0
  frees : s.frees = []

/-! ## The functions on the memory -/

inductive RefEvent where
  | newMsg (i : MsgId) (a : AllocId)
  | acquire
  | release

def refEvent (n : Nat) (m : Msg) (μ : Mem) : RefEvent → Except Stop Mem
  | .newMsg i a => (μ.setLife m .unused).newMsg n m i a
  | .acquire => μ.acquireMsg m
  | .release => μ.releaseMsg n m

/-- The increments and decrements are where the functions take effect. -/
def Block.event (s : Block w T) : RefAct T → Option RefEvent
  | .run t =>
    match s.pc t with
    | .inc => some (if msgGetRefCnt s.word = 0 then .newMsg (msgGetMsgId s.word) (msgGetAllocId s.word) else .acquire)
    | .dec => some .release
    | _ => none
  | _ => none

def RefPc.incs : RefPc → Nat
  | .inc => 1
  | _ => 0

variable [Fintype T]

def Block.total (s : Block w T) : Nat := ∑ t, s.held t

def Block.pending (s : Block w T) : Nat := ∑ t, (s.pc t).incs

/-- No thread passes the assertion while others are between it and the
increment, unless the counter has room for all of them. -/
def Room (s : Block w T) : RefAct T → Prop
  | .acquire _ => s.pending = 0 ∨ s.total + s.pending < 255
  | _ => True

/-! ## What the threads may rely on -/

structure InUse (n : Nat) (m : Msg) (s : Block w T) (μ : Mem) (h : Hdr) : Prop where
  isFree : s.isFree = false
  pc : ∀ t, s.pc t = .idle ∨ (s.pc t = .inc ∨ s.pc t = .dec) ∧ 0 < s.held t
  life : μ.life m = .live h
  pos : 0 < s.total
  count : h.refCnt = s.total
  room : s.total + s.pending ≤ 255
  packs : Packs s.word h
  registered : Mem.Registered n h.allocId
  frees : μ.freeCalls = s.frees

structure OneHas (s : Block w T) (t : T) : Prop where
  isFree : s.isFree = false
  others : ∀ u, u ≠ t → s.pc u = .idle
  held : ∀ u, s.held u = 0

inductive BlockPhase (n : Nat) (m : Msg) (s : Block w T) (μ : Mem) : Prop
  | free : s.isFree = true → (∀ t, s.pc t = .idle) → (∀ t, s.held t = 0) → (∀ h, μ.life m ≠ .live h) →
      μ.freeCalls = s.frees → BlockPhase n m s μ
  | new {t i a} : OneHas s t → s.pc t = .init i a ∨ (s.pc t = .first ∨ s.pc t = .inc) ∧ Packs s.word ⟨i, a, 0⟩ →
      Mem.Registered n a → (∀ h, μ.life m ≠ .live h) → μ.freeCalls = s.frees → BlockPhase n m s μ
  | live {h} : InUse n m s μ h → BlockPhase n m s μ
  | dead {t i a} : OneHas s t → s.pc t = .last ∧ Packs s.word ⟨i, a, 0⟩ ∨ s.pc t = .free a →
      (∀ h, μ.life m ≠ .live h) → μ.freeCalls = s.frees ++ [Mem.freeCallOf a m] → BlockPhase n m s μ

variable {n : Nat} {m : Msg} {s s' : Block w T} {μ : Mem} {t : T}

omit [DecidableEq T] in
theorem blockPhase_init (h : s.Init) (hμ : ∀ h, μ.life m ≠ .live h) (hf : μ.freeCalls = []) : BlockPhase n m s μ :=
  .free h.isFree h.pc h.held hμ (by rw [hf, h.frees])

theorem Block.total_update (s : Block w T) (t : T) (v : Nat) : (∑ u, update s.held t v u) + s.held t = s.total + v :=
  Ledger.sum_update id s.held t v

theorem Block.total_increment (s : Block w T) (t : T) : (s.increment t).total = s.total + 1 := by
  have h := s.total_update t (s.held t + 1)
  have hsum : (s.increment t).total = ∑ u, update s.held t (s.held t + 1) u := rfl
  omega

theorem Block.pending_update (s : Block w T) (t : T) (v : RefPc) :
    (∑ u, (update s.pc t v u).incs) + (s.pc t).incs = s.pending + v.incs :=
  Ledger.sum_update RefPc.incs s.pc t v

theorem Block.pending_pos (h : s.pc t = .inc) : 0 < s.pending := by
  have := Ledger.le_sum (fun t => (s.pc t).incs) t
  simp only [h] at this
  exact this

theorem Block.held_other (hone : s.total = 1) (ht : 0 < s.held t) {u : T} (hu : u ≠ t) : s.held u = 0 := by
  have hsum := s.total_update t 0
  have hle := Ledger.le_sum (update s.held t 0) u
  rw [update_of_ne hu] at hle
  omega

omit [DecidableEq T] in
theorem BlockPhase.of_held (h : BlockPhase n m s μ) (ht : 0 < s.held t) : ∃ hd, InUse n m s μ hd := by
  cases h with
  | live h => exact ⟨_, h⟩
  | free _ _ hheld =>
    have := hheld t
    omega
  | new h =>
    have := h.held t
    omega
  | dead h =>
    have := h.held t
    omega

section
omit [Fintype T]

theorem Block.goto_pc (s : Block w T) (t : T) (v : RefPc) : (s.goto t v).pc t = v := update_self ..

theorem Block.goto_other (s : Block w T) {t u : T} (v : RefPc) (hu : u ≠ t) : (s.goto t v).pc u = s.pc u :=
  update_of_ne hu ..

theorem OneHas.goto (h : OneHas s t) (v : RefPc) : OneHas (s.goto t v) t :=
  ⟨h.isFree, fun u hu => (s.goto_other v hu).trans (h.others u hu), h.held⟩

theorem OneHas.eq (h : OneHas s t) {u : T} (hu : s.pc u ≠ .idle) : u = t := by
  by_contra hne
  exact hu (h.others u hne)

end

omit [DecidableEq T] in
theorem OneHas.pending (h : OneHas s t) : s.pending = (s.pc t).incs := by
  have h0 : ∀ u, u ≠ t → (s.pc u).incs = 0 := fun u hu => by rw [h.others u hu]; rfl
  exact Finset.sum_eq_single t (fun u _ => h0 u) fun hn => absurd (Finset.mem_univ t) hn

omit [DecidableEq T] in
theorem Block.total_zero (h : ∀ t, s.held t = 0) : s.total = 0 := Finset.sum_eq_zero fun t _ => h t

/-! ## Every access -/

theorem InUse.acquire {hd : Hdr} (h : InUse n m s μ hd) (hpc : s.pc t = .idle) (ht : 0 < s.held t)
    (hlt : msgGetRefCnt s.word < 255) (hroom : Room s (.acquire t)) : InUse n m (s.goto t .inc) μ hd := by
  have hcnt : s.total < 255 := by
    rw [← h.count, ← packs_getRefCnt h.packs]
    exact hlt
  have hpend := s.pending_update t .inc
  rw [hpc] at hpend
  have hpend' : (s.goto t .inc).pending = s.pending + 1 := hpend
  refine ⟨h.isFree, ?_, h.life, h.pos, h.count, ?_, h.packs, h.registered, h.frees⟩
  · intro u
    by_cases hu : u = t
    · subst hu
      exact .inr ⟨.inl (s.goto_pc u .inc), ht⟩
    · rw [s.goto_other .inc hu]
      exact h.pc u
  · show s.total + (s.goto t .inc).pending ≤ 255
    rw [hpend']
    rcases hroom with hzero | hroom
    · omega
    · omega

theorem InUse.release {hd : Hdr} (h : InUse n m s μ hd) (hpc : s.pc t = .idle) (ht : 0 < s.held t) :
    InUse n m (s.goto t .dec) μ hd := by
  have hpend := s.pending_update t .dec
  rw [hpc] at hpend
  have hpend' : (s.goto t .dec).pending = s.pending := hpend
  refine ⟨h.isFree, ?_, h.life, h.pos, h.count, ?_, h.packs, h.registered, h.frees⟩
  · intro u
    by_cases hu : u = t
    · subst hu
      exact .inr ⟨.inr (s.goto_pc u .dec), ht⟩
    · rw [s.goto_other .dec hu]
      exact h.pc u
  · rw [hpend']
    exact h.room

theorem InUse.give {hd : Hdr} (h : InUse n m s μ hd) (hpc : s.pc t = .idle) (ht : 0 < s.held t) (u : T) :
    let held := update s.held t (s.held t - 1)
    InUse n m { s with held := update held u (held u + 1) } μ hd := by
  intro held
  have htot : ∑ x, update held u (held u + 1) x = s.total := by
    have h₁ := s.total_update t (s.held t - 1)
    have h₂ := Ledger.sum_update id held u (held u + 1)
    simp only [id] at h₂
    show ∑ x, update held u (held u + 1) x = s.total
    have h₃ : ∑ x, held x + s.held t = s.total + (s.held t - 1) := h₁
    omega
  have hle : ∀ x, x ≠ t → s.held x ≤ update held u (held u + 1) x := by
    intro x hx
    by_cases hu : x = u
    · subst hu
      rw [update_self, show held x = s.held x from update_of_ne hx ..]
      omega
    · rw [update_of_ne hu, show held x = s.held x from update_of_ne hx ..]
  refine ⟨h.isFree, ?_, h.life, ?_, ?_, ?_, h.packs, h.registered, h.frees⟩
  · intro x
    by_cases hx : x = t
    · exact .inl (hx ▸ hpc)
    · exact (h.pc x).imp_right fun hp => ⟨hp.1, Nat.lt_of_lt_of_le hp.2 (hle x hx)⟩
  · show 0 < ∑ x, update held u (held u + 1) x
    rw [htot]
    exact h.pos
  · show hd.refCnt = ∑ x, update held u (held u + 1) x
    rw [htot]
    exact h.count
  · show ∑ x, update held u (held u + 1) x + s.pending ≤ 255
    rw [htot]
    exact h.room

theorem InUse.inc (hw : 32 ≤ w) {hd : Hdr} (h : InUse n m s μ hd) (hpc : s.pc t = .inc) :
    ∃ μ', μ.acquireMsg m = .ok μ' ∧
      InUse n m (s.increment t) μ' { hd with refCnt := hd.refCnt + 1 } := by
  have hpos := Block.pending_pos hpc
  have hroom := h.room
  have hlt : hd.refCnt < 255 := by
    rw [h.count]
    omega
  have hword : msgIncRefCnt s.word = some (s.word + 1#w) := if_pos (by
    show (msgGetRefCnt s.word).toNat < 255
    rw [packs_getRefCnt h.packs]
    exact hlt)
  have htot := s.total_increment t
  have hpend : (s.increment t).pending + 1 = s.pending := by
    have := s.pending_update t .idle
    rw [hpc] at this
    exact this
  refine ⟨μ.setLife m (.live { hd with refCnt := hd.refCnt + 1 }), ?_, ?_⟩
  · rw [acquireMsg_eq h.life, Hdr.incRefCnt, if_pos hlt]
    rfl
  · refine ⟨h.isFree, ?_, Mem.setLife_self .., ?_, ?_, ?_, (packs_inc hw h.packs hword).2, h.registered, h.frees⟩
    · intro u
      by_cases hu : u = t
      · subst hu
        exact .inl (s.goto_pc u .idle)
      · have hpcu : (s.increment t).pc u = s.pc u := s.goto_other .idle hu
        have hheld : (s.increment t).held u = s.held u := update_of_ne hu ..
        rw [hpcu, hheld]
        exact h.pc u
    · rw [htot]
      exact Nat.zero_lt_succ _
    · show hd.refCnt + 1 = (s.increment t).total
      rw [htot, h.count]
    · omega

omit [DecidableEq T] in
theorem InUse.dec_word (hw : 32 ≤ w) {hd : Hdr} (h : InUse n m s μ hd) :
    (msgGetRefCnt s.word = 1 ↔ s.total = 1) ∧ Packs (s.word - 1#w) { hd with refCnt := hd.refCnt - 1 } := by
  have hword : msgDecRefCnt s.word = some (msgGetRefCnt s.word, s.word - 1#w) := if_pos (by
    show 0 < (msgGetRefCnt s.word).toNat
    rw [packs_getRefCnt h.packs, h.count]
    exact h.pos)
  refine ⟨?_, (packs_dec hw h.packs hword).2.2⟩
  rw [← BitVec.toNat_inj, packs_getRefCnt h.packs, h.count]
  exact Iff.rfl

/-- A decrement releases the reference; the one that takes the counter to 0 leaves the block to its thread. -/
theorem InUse.dec (hw : 32 ≤ w) {hd : Hdr} (h : InUse n m s μ hd) (hpc : s.pc t = .dec)
    (hs : refStep m s t = .ok s') : ∃ μ', μ.releaseMsg n m = .ok μ' ∧ BlockPhase n m s' μ' := by
  have ht : 0 < s.held t := ((h.pc t).resolve_left (by rw [hpc]; simp)).2
  obtain ⟨hone, hpacks⟩ := h.dec_word hw
  unfold refStep at hs
  rw [hpc] at hs
  cases hs
  have htot : (∑ u, update s.held t (s.held t - 1) u) + 1 = s.total := by
    have := s.total_update t (s.held t - 1)
    omega
  by_cases h1 : s.total = 1
  · have hcnt : hd.refCnt = 1 := h.count.trans h1
    refine ⟨_, Mem.releaseMsg_last h.life hcnt, ?_⟩
    rw [Mem.freeMsg_pool (h := { hd with refCnt := 0 }) h.registered, if_pos (hone.mpr h1)]
    have hfree : OneHas { s.goto t .last with word := s.word - 1#w, held := update s.held t (s.held t - 1) } t := by
      refine ⟨h.isFree, ?_, ?_⟩
      · intro u hu
        show (s.goto t .last).pc u = .idle
        rw [s.goto_other .last hu]
        refine (h.pc u).resolve_right fun hp => ?_
        have := Block.held_other h1 ht hu
        omega
      · intro u
        have hle := Ledger.le_sum (update s.held t (s.held t - 1)) u
        show update s.held t (s.held t - 1) u = 0
        omega
    refine .dead (i := hd.msgId) (a := hd.allocId) hfree (.inl ⟨s.goto_pc t .last, ?_⟩) ?_ ?_
    · rw [hcnt] at hpacks
      exact hpacks
    · intro h' hl
      cases (Mem.setLife_self ..).symm.trans hl
    · show μ.freeCalls ++ _ = s.frees ++ _
      rw [h.frees]
  · have hcnt : hd.refCnt ≠ 1 := fun hc => h1 (h.count.symm.trans hc)
    have hpos : 0 < hd.refCnt := by
      rw [h.count]
      exact h.pos
    have hpend : (s.goto t .idle).pending = s.pending := by
      have := s.pending_update t .idle
      rw [hpc] at this
      exact this
    refine ⟨μ.setLife m (.live { hd with refCnt := hd.refCnt - 1 }), ?_,
      .live (h := { hd with refCnt := hd.refCnt - 1 }) ?_⟩
    · rw [releaseMsg_eq h.life, Hdr.decRefCnt, if_pos hpos]
      simp only [Except.map, if_neg hcnt]
    rw [if_neg fun hc => h1 (hone.mp hc)]
    refine ⟨h.isFree, ?_, Mem.setLife_self .., ?_, ?_, ?_, hpacks, h.registered, h.frees⟩
    · intro u
      by_cases hu : u = t
      · subst hu
        exact .inl (s.goto_pc u .idle)
      · show (s.goto t .idle).pc u = _ ∨ _ ∧ 0 < update s.held t _ u
        rw [s.goto_other .idle hu, update_of_ne hu]
        exact h.pc u
    · show 0 < ∑ u, update s.held t (s.held t - 1) u
      have := h.pos
      omega
    · show hd.refCnt - 1 = ∑ u, update s.held t (s.held t - 1) u
      rw [h.count]
      omega
    · show (∑ u, update s.held t (s.held t - 1) u) + (s.goto t .idle).pending ≤ 255
      have := h.room
      omega

theorem first_inc (hw : 32 ≤ w) {i : MsgId} {a : AllocId} (h : OneHas s t) (hpc : s.pc t = .inc)
    (hp : Packs s.word ⟨i, a, 0⟩) (hr : Mem.Registered n a) (hf : μ.freeCalls = s.frees) :
    ∃ μ', refEvent n m μ (.newMsg i a) = .ok μ' ∧
      InUse n m (s.increment t) μ' ⟨i, a, 1⟩ := by
  have hword : msgIncRefCnt s.word = some (s.word + 1#w) := if_pos (by
    show (msgGetRefCnt s.word).toNat < 255
    rw [packs_getRefCnt hp]
    exact Nat.zero_lt_succ _)
  have htot : (s.increment t).total = 1 := by
    rw [s.total_increment, Block.total_zero h.held]
  have hidle : ∀ u, (s.increment t).pc u = .idle := by
    intro u
    by_cases hu : u = t
    · subst hu
      exact s.goto_pc u .idle
    · exact (s.goto_other .idle hu).trans (h.others u hu)
  have hpend : (s.increment t).pending = 0 := Finset.sum_eq_zero fun u _ => by rw [hidle u]; rfl
  have hok : ∃ μ', refEvent n m μ (.newMsg i a) = .ok μ' := by
    simp [refEvent, Mem.newMsg, Mem.acquireMsg, hr]
  obtain ⟨μ', hμ⟩ := hok
  obtain ⟨-, -, hl, -, -, hfree⟩ := Mem.newMsg_ok hμ
  refine ⟨μ', hμ, h.isFree, fun u => .inl (hidle u), ?_, ?_, ?_, ?_, (packs_inc hw hp hword).2, hr, hfree.trans hf⟩
  · rw [hl]
    exact update_self ..
  · rw [htot]
    exact Nat.one_pos
  · exact htot.symm
  · omega

omit [Fintype T] in
theorem refStep_inc (m : Msg) (hpc : s.pc t = .inc) : refStep m s t = .ok (s.increment t) := by
  unfold refStep
  rw [hpc]

theorem exec_event {μ' : Mem} {e : RefEvent} (h : refEvent n m μ e = .ok μ') :
    exec (refEvent n m) μ (some e).toList = .ok μ' := by
  simp [exec, h]

theorem BlockPhase.run (hw : 32 ≤ w) (h : BlockPhase n m s μ) (hs : refStep m s t = .ok s') :
    ∃ μ', exec (refEvent n m) μ (s.event (.run t)).toList = .ok μ' ∧ BlockPhase n m s' μ' := by
  have hne : s.pc t ≠ .idle := by
    intro hi
    unfold refStep at hs
    rw [hi] at hs
    cases hs
  cases h with
  | free _ hpc => exact absurd (hpc t) hne
  | @new u i a hone hpc hr hl hf =>
    cases hone.eq hne
    rcases hpc with hpc | ⟨hpc | hpc, hp⟩
    · have hev : s.event (.run t) = none := by simp only [Block.event, hpc]
      unfold refStep at hs
      rw [hpc] at hs
      cases hs
      rw [hev]
      have hg := hone.goto .first
      exact ⟨μ, rfl, .new ⟨hg.isFree, hg.others, hg.held⟩ (.inr ⟨.inl (s.goto_pc t .first),
        packs_init hw i a⟩) hr hl hf⟩
    · have hlt : msgGetRefCnt s.word < 255 := by
        show (msgGetRefCnt s.word).toNat < 255
        rw [packs_getRefCnt hp]
        exact Nat.zero_lt_succ _
      have hev : s.event (.run t) = none := by simp only [Block.event, hpc]
      unfold refStep at hs
      rw [hpc] at hs
      simp only [if_pos hlt] at hs
      cases hs
      rw [hev]
      exact ⟨μ, rfl, .new (hone.goto .inc) (.inr ⟨.inr (s.goto_pc t .inc), hp⟩) hr hl hf⟩
    · obtain ⟨μ', hμ, hin⟩ := first_inc hw hone hpc hp hr hf
      have h0 : msgGetRefCnt s.word = 0 := BitVec.eq_of_toNat_eq (packs_getRefCnt hp)
      have hev : s.event (.run t) = some (.newMsg i a) := by
        simp only [Block.event, hpc, if_pos h0, packs_getMsgId hp, packs_getAllocId hp]
      rw [refStep_inc m hpc] at hs
      rw [hev, ← Except.ok.inj hs]
      exact ⟨μ', exec_event hμ, .live hin⟩
  | @live hd hin =>
    rcases (hin.pc t).resolve_left hne with ⟨hpc | hpc, -⟩
    · obtain ⟨μ', hμ, hin'⟩ := hin.inc hw hpc
      have h0 : msgGetRefCnt s.word ≠ 0 := by
        intro h0
        have hpos := hin.pos
        rw [← hin.count, ← packs_getRefCnt hin.packs, h0] at hpos
        exact absurd hpos (Nat.lt_irrefl 0)
      have hev : s.event (.run t) = some .acquire := by simp only [Block.event, hpc, if_neg h0]
      rw [refStep_inc m hpc] at hs
      rw [hev, ← Except.ok.inj hs]
      exact ⟨μ', exec_event (e := .acquire) hμ, .live hin'⟩
    · obtain ⟨μ', hμ, hph⟩ := hin.dec hw hpc hs
      have hev : s.event (.run t) = some .release := by simp only [Block.event, hpc]
      rw [hev]
      exact ⟨μ', exec_event (e := .release) hμ, hph⟩
  | @dead u i a hone hpc hl hf =>
    cases hone.eq hne
    rcases hpc with ⟨hpc, hp⟩ | hpc
    · have hev : s.event (.run t) = none := by simp only [Block.event, hpc]
      unfold refStep at hs
      rw [hpc] at hs
      cases hs
      rw [hev]
      rw [packs_getAllocId hp]
      exact ⟨μ, rfl, .dead (i := i) (hone.goto (.free a)) (.inr (s.goto_pc t (.free a))) hl hf⟩
    · have hev : s.event (.run t) = none := by simp only [Block.event, hpc]
      unfold refStep at hs
      rw [hpc] at hs
      cases hs
      rw [hev]
      refine ⟨μ, rfl, .free rfl ?_ hone.held hl hf⟩
      intro u
      by_cases hu : u = t
      · subst hu
        exact s.goto_pc u .idle
      · exact (s.goto_other .idle hu).trans (hone.others u hu)

theorem BlockPhase.step (hw : 32 ≤ w) (h : BlockPhase n m s μ) {a : RefAct T} (hroom : Room s a)
    (hs : blockStep n m s a = .ok s') :
    ∃ μ', exec (refEvent n m) μ (s.event a).toList = .ok μ' ∧ BlockPhase n m s' μ' := by
  cases a with
  | alloc t i a =>
    refine ⟨μ, rfl, ?_⟩
    simp only [blockStep] at hs
    split at hs
    · rename_i hc
      obtain ⟨-, hfree, hr⟩ := hc
      cases hs
      cases h with
      | free _ hpc hheld hl hf =>
        refine .new (t := t) ⟨rfl, ?_, hheld⟩ (.inl (s.goto_pc t (.init i a))) hr hl hf
        exact fun u hu => (s.goto_other (.init i a) hu).trans (hpc u)
      | new h | dead h =>
        rw [h.isFree] at hfree
        cases hfree
      | live h =>
        rw [h.isFree] at hfree
        cases hfree
    · cases hs
  | acquire t =>
    refine ⟨μ, rfl, ?_⟩
    simp only [blockStep] at hs
    split at hs
    · rename_i hc
      obtain ⟨hd, hin⟩ := h.of_held hc.2
      split at hs
      · rename_i hlt
        cases hs
        exact .live (hin.acquire hc.1 hc.2 hlt hroom)
      · cases hs
    · cases hs
  | release t =>
    refine ⟨μ, rfl, ?_⟩
    simp only [blockStep] at hs
    split at hs
    · rename_i hc
      obtain ⟨hd, hin⟩ := h.of_held hc.2
      split at hs
      · cases hs
        exact .live (hin.release hc.1 hc.2)
      · cases hs
    · cases hs
  | give t u =>
    refine ⟨μ, rfl, ?_⟩
    simp only [blockStep] at hs
    split at hs
    · rename_i hc
      obtain ⟨hd, hin⟩ := h.of_held hc.2
      cases hs
      exact .live (hin.give hc.1 hc.2 u)
    · cases hs
  | run t => exact h.run hw hs

/-- The assertion of a release never fails, that of an acquire when there are 255 references. -/
theorem BlockPhase.error (h : BlockPhase n m s μ) {a : RefAct T} {e : Stop} (he : blockStep n m s a = .error e) :
    e = .misuse ∨ e = .refOverflow ∧ s.total = 255 := by
  cases a with
  | alloc t i a =>
    simp only [blockStep] at he
    split at he
    · cases he
    · cases he
      exact .inl rfl
  | acquire t =>
    simp only [blockStep] at he
    split at he
    · rename_i hc
      obtain ⟨hd, hin⟩ := h.of_held hc.2
      split at he
      · cases he
      · rename_i hlt
        cases he
        have hge : ¬ (msgGetRefCnt s.word).toNat < 255 := hlt
        rw [packs_getRefCnt hin.packs, hin.count] at hge
        have := hin.room
        exact .inr ⟨rfl, by omega⟩
    · cases he
      exact .inl rfl
  | release t =>
    simp only [blockStep] at he
    split at he
    · rename_i hc
      obtain ⟨hd, hin⟩ := h.of_held hc.2
      split at he
      · cases he
      · rename_i hpos
        have hge : ¬ 0 < (msgGetRefCnt s.word).toNat := hpos
        rw [packs_getRefCnt hin.packs, hin.count] at hge
        exact absurd hin.pos hge
    · cases he
      exact .inl rfl
  | give t u =>
    simp only [blockStep] at he
    split at he
    · cases he
    · cases he
      exact .inl rfl
  | run t =>
    simp only [blockStep, refStep] at he
    split at he
    · cases he
      exact .inl rfl
    · cases he
    · rename_i hpc
      split at he
      · cases he
      · rename_i hlt
        have hne : s.pc t ≠ .idle := by rw [hpc]; simp
        cases h with
        | free _ hidle => exact absurd (hidle t) hne
        | new hone hnew =>
          cases hone.eq hne
          rcases hnew with hnew | ⟨-, hp⟩
          · rw [hpc] at hnew
            cases hnew
          · have hge : ¬ (msgGetRefCnt s.word).toNat < 255 := hlt
            rw [packs_getRefCnt hp] at hge
            exact absurd (Nat.zero_lt_succ _) hge
        | live hin =>
          rcases hin.pc t with hi | ⟨hi | hi, -⟩
          · exact absurd hi hne
          · rw [hpc] at hi
            cases hi
          · rw [hpc] at hi
            cases hi
        | dead hone hdead =>
          cases hone.eq hne
          rw [hpc] at hdead
          rcases hdead with ⟨hi, -⟩ | hi
          · cases hi
          · cases hi
    · cases he
    · cases he
    · cases he
    · cases he

def events (n : Nat) (m : Msg) (s : Block w T) (as : List (RefAct T)) : List RefEvent :=
  (path (blockStep n m) s as).filterMap fun p => p.1.event p.2

theorem BlockPhase.exec (hw : 32 ≤ w) : ∀ (as : List (RefAct T)) (s : Block w T) (μ : Mem), BlockPhase n m s μ →
    Runs.exec (blockStep n m) s as = .ok s' → (∀ p ∈ path (blockStep n m) s as, Room p.1 p.2) →
      ∃ μ', Runs.exec (refEvent n m) μ (events n m s as) = .ok μ' ∧ BlockPhase n m s' μ'
  | [], _, μ, h, he, _ => by
    cases he
    exact ⟨μ, rfl, h⟩
  | a :: as, s, μ, h, he, hroom => by
    obtain ⟨s₁, hs₁, he⟩ := exec_cons _ he
    unfold events
    rw [path_cons _ as hs₁] at hroom ⊢
    obtain ⟨μ₁, hμ₁, h₁⟩ := h.step hw (hroom (s, a) (List.mem_cons_self ..)) hs₁
    obtain ⟨μ', hμ', h'⟩ := BlockPhase.exec hw as s₁ μ₁ h₁ he fun p hp => hroom p (List.mem_cons_of_mem _ hp)
    have hev : ((s, a) :: path (blockStep n m) s₁ as).filterMap (fun p => p.1.event p.2) =
        (s.event a).toList ++ events n m s₁ as := by
      rw [List.filterMap_cons]
      cases s.event a <;> rfl
    refine ⟨μ', ?_, h'⟩
    rw [hev, exec_append _ hμ₁]
    exact hμ'

/-- The threads' accesses in any order do what the functions do as single steps
in the order of the increments and decrements: the word packs the header with
the count of the references held, the block is freed once, by the allocator it
came from, after the last release and before it is allocated again. -/
theorem atomics_refine (hw : 32 ≤ w) {s₀ : Block w T} (h₀ : s₀.Init) {μ₀ : Mem} (hl : ∀ h, μ₀.life m ≠ .live h)
    (hf : μ₀.freeCalls = []) (as : List (RefAct T)) (h : exec (blockStep n m) s₀ as = .ok s)
    (hroom : ∀ p ∈ path (blockStep n m) s₀ as, Room p.1 p.2) :
    ∃ μ, exec (refEvent n m) μ₀ (events n m s₀ as) = .ok μ ∧ BlockPhase n m s μ ∧
      ∀ a e, blockStep n m s a = .error e → e = .misuse ∨ e = .refOverflow ∧ s.total = 255 := by
  obtain ⟨μ, hμ, hph⟩ := BlockPhase.exec hw as s₀ μ₀ (blockPhase_init h₀ hl hf) h hroom
  exact ⟨μ, hμ, hph, fun _ _ => hph.error⟩

instance decidableRoom (s : Block w T) (a : RefAct T) : Decidable (Room s a) :=
  match a with
  | .acquire _ => inferInstanceAs (Decidable (s.pending = 0 ∨ s.total + s.pending < 255))
  | .alloc .. | .release _ | .give .. | .run _ => isTrue trivial

/-! ## Too many at once -/

theorem registered_lt {a : AllocId} (h : Mem.Registered n a) : a.toNat < 252 := by
  rcases h with h | ⟨-, h, -⟩
  · have : a.toNat ≤ 127 := h
    omega
  · exact h

omit [Fintype T] in
theorem acquire_passes (n : Nat) (m : Msg) (hpc : s.pc t = .idle) (ht : 0 < s.held t)
    (hlt : msgGetRefCnt s.word < 255) :
    blockStep n m s (.acquire t) = .ok (s.goto t .inc) := by
  simp only [blockStep, if_pos (And.intro hpc ht), if_pos hlt]

/-- With 254 references two threads can pass the assertion together; then the
second increment carries into the allocator id and leaves a counter of 0. -/
theorem assertion_races (hw : 32 ≤ w) {hd : Hdr} (h : InUse n m s μ hd) (hmany : s.total = 254) {u : T} (hne : t ≠ u)
    (ht : s.pc t = .idle) (ht' : 0 < s.held t) (hu : s.pc u = .idle) (hu' : 0 < s.held u) :
    ∃ s', exec (blockStep n m) s [.acquire t, .acquire u, .run t, .run u] = .ok s' ∧ s'.total = 256 ∧
      Packs s'.word ⟨hd.msgId, hd.allocId + 1, 0⟩ := by
  have hlt : msgGetRefCnt s.word < 255 := by
    show (msgGetRefCnt s.word).toNat < 255
    rw [packs_getRefCnt h.packs, h.count]
    omega
  have h₁ := acquire_passes n m ht ht' hlt
  have h₂ := acquire_passes n m (s := s.goto t .inc) (t := u) ((s.goto_other .inc hne.symm).trans hu) hu' hlt
  have h₃ := refStep_inc m (s := (s.goto t .inc).goto u .inc) (t := t)
    (((s.goto t .inc).goto_other .inc hne).trans (s.goto_pc t .inc))
  generalize hs₃ : ((s.goto t .inc).goto u .inc).increment t = s₃ at h₃
  have hpc : s₃.pc u = .inc := by
    rw [← hs₃]
    exact (((s.goto t .inc).goto u .inc).goto_other .idle hne.symm).trans ((s.goto t .inc).goto_pc u .inc)
  have h₄ := refStep_inc m hpc
  refine ⟨s₃.increment u, ?_, ?_, ?_⟩
  · rw [exec, h₁]
    simp only
    rw [exec, h₂]
    simp only
    rw [exec, show blockStep n m _ (.run t) = _ from h₃]
    simp only
    rw [exec, show blockStep n m _ (.run u) = _ from h₄]
    rfl
  · have hsum : s₃.total = s.total + 1 := by
      rw [← hs₃]
      exact ((s.goto t .inc).goto u .inc).total_increment t
    rw [s₃.total_increment, hsum, hmany]
  · have hword : s₃.word = s.word + 1#w := by
      rw [← hs₃]
      rfl
    have ha := registered_lt h.registered
    have hi := hd.msgId.isLt
    have hpow : 2 ^ 32 ≤ 2 ^ w := Nat.pow_le_pow_right (by decide) hw
    have hnat := h.packs.2
    rw [h.count, hmany] at hnat
    refine ⟨Nat.zero_lt_succ _, ?_⟩
    show (s₃.word + 1#w).toNat = hd.msgId.toNat * 65536 + (hd.allocId + 1).toNat * 256 + 0
    have hone : (1#w).toNat = 1 := by
      rw [BitVec.toNat_ofNat]
      exact Nat.mod_eq_of_lt (by omega)
    have hid : (hd.allocId + 1).toNat = hd.allocId.toNat + 1 := by
      rw [BitVec.toNat_add]
      show (hd.allocId.toNat + 1) % 256 = _
      omega
    rw [hword, hid, BitVec.toNat_add, BitVec.toNat_add, hone, hnat,
      Nat.mod_eq_of_lt (a := _ + 254 + 1) (by omega), Nat.mod_eq_of_lt (by omega)]
    omega

end

def freeBlock : Block 32 (Fin 2) := ⟨0, true, fun _ => .idle, fun _ => 0, []⟩

/-- Thread 0 makes a message and passes a reference on; the releases of both overlap. -/
def sharedByTwo : List (RefAct (Fin 2)) :=
  [.alloc 0 3 5, .run 0, .run 0, .run 0, .acquire 0, .run 0, .give 0 1, .release 0, .release 1, .run 1, .run 0, .run 0,
    .run 0, .alloc 1 4 5]

theorem atomics_refine_sharedByTwo :
    ∃ s, exec (blockStep 0 9) freeBlock sharedByTwo = .ok s ∧
      ∃ μ, exec (refEvent 0 9) ⟨fun _ => .unused, fun _ => false, fun _ => 0, []⟩
          (events 0 9 freeBlock sharedByTwo) = .ok μ ∧
        BlockPhase 0 9 s μ ∧
        ∀ a e, blockStep 0 9 s a = .error e → e = .misuse ∨ e = .refOverflow ∧ s.total = 255 :=
  ⟨_, rfl, atomics_refine (by decide) ⟨rfl, fun _ => rfl, fun _ => rfl, rfl⟩ (fun _ h => by cases h) rfl sharedByTwo rfl
    (by decide)⟩

def manyHeld : Block 32 (Fin 2) := ⟨0x000305FE, false, fun _ => .idle, fun _ => 127, []⟩

theorem assertion_races_manyHeld :
    ∃ s, exec (blockStep 0 9) manyHeld [.acquire 0, .acquire 1, .run 0, .run 1] = .ok s ∧ s.total = 256 ∧
      Packs s.word ⟨3, 6, 0⟩ := by
  have h : InUse 0 9 manyHeld ⟨fun _ => .live ⟨3, 5, 254⟩, fun _ => false, fun _ => 0, []⟩ ⟨3, 5, 254⟩ :=
    ⟨rfl, fun _ => .inl rfl, rfl, by decide, by decide, by decide, ⟨by decide, by decide⟩, .inl (by decide), rfl⟩
  exact assertion_races (by decide) h (by decide) (t := 0) (u := 1) (by decide) rfl (by decide) rfl (by decide)

end ZephyrPubSub
