import ZephyrPubSub.Slab
import ZephyrPubSub.Section
import ZephyrPubSub.RefCount

/-!
# The system on memory slabs

Pool messages live in the blocks of memory slabs. A message is its address, and
an address is used again for another message once its block has been freed. A
block is on the free list of its slab or holds a message somebody refers to.
-/

namespace ZephyrPubSub

open Function Runs Outcome

inductive AllocRef where
  | linkSection (index : Nat)
  | runtime (index : Nat)
  deriving DecidableEq, Repr

/-- The id that `pub_sub_new_msg` stores. -/
def AllocRef.id : AllocRef → AllocId
  | .linkSection i => BitVec.ofNat 8 i
  | .runtime i => runtimeId i

def AllocRef.ofId (a : AllocId) : AllocRef :=
  if a ≤ allocIdLinkSectionMaxId then .linkSection a.toNat
  else .runtime (a.toNat - allocIdRuntimeOffset.toNat)

/-- The memory slab allocators of a program, each with the slab it draws from. -/
structure Pools (K S : Type) where
  cfg : Cfg S
  /-- `sizeof(void *)` is `2 ^ k`. -/
  k : Nat
  slab : K → MemSlab
  linkSection : List K
  runtime : List K
  lenSection : linkSection.length ≤ 128
  lenRuntime : runtime.length ≤ 124
  numAllocators : cfg.numAllocators = runtime.length
  room : ∀ κ, msgOverheadNumBytes k ≤ (slab κ).blockSize
  /-- `block_size` is a `size_t`. -/
  word : ∀ κ, (slab κ).blockSize < 2 ^ (8 * 2 ^ k)
  apart : ∀ κ κ', κ ≠ κ' → ∀ b ∈ (slab κ).blocks, ∀ b' ∈ (slab κ').blocks,
    b + (slab κ).blockSize ≤ b' ∨ b' + (slab κ').blockSize ≤ b

namespace Pools

variable {K S : Type} (p : Pools K S)

/-- The `impl` of an allocator. -/
def impl : AllocRef → Option K
  | .linkSection i => p.linkSection[i]?
  | .runtime i => p.runtime[i]?

theorem blockSize_pos (κ : K) : 0 < (p.slab κ).blockSize := by
  have h := p.room κ
  have hpos := Nat.two_pow_pos p.k
  rw [overhead_eq] at h
  omega

theorem one_slab {κ κ' : K} {b : Nat} (h : b ∈ (p.slab κ).blocks) (h' : b ∈ (p.slab κ').blocks) : κ = κ' := by
  by_contra hne
  have := p.blockSize_pos κ
  have := p.blockSize_pos κ'
  rcases p.apart κ κ' hne b h b h' with hlt | hlt
  · omega
  · omega

/-- The id leads back to the allocator it was made from. -/
theorem ofId_id {al : AllocRef} {κ : K} (h : p.impl al = some κ) :
    AllocRef.ofId al.id = al ∧ Mem.Registered p.cfg.numAllocators al.id := by
  cases al with
  | linkSection i =>
    obtain ⟨hi, -⟩ := List.getElem?_eq_some_iff.mp h
    have hlen := p.lenSection
    have hle : BitVec.ofNat 8 i ≤ allocIdLinkSectionMaxId := by
      rw [BitVec.le_def, BitVec.toNat_ofNat]
      show i % 256 ≤ 127
      omega
    refine ⟨?_, .inl hle⟩
    rw [AllocRef.id, AllocRef.ofId, if_pos hle, BitVec.toNat_ofNat, Nat.mod_eq_of_lt (by omega)]
  | runtime i =>
    obtain ⟨hi, -⟩ := List.getElem?_eq_some_iff.mp h
    have hlen := p.lenRuntime
    have hn := runtimeId_toNat (k := i) (by omega)
    have hgt : ¬ runtimeId i ≤ allocIdLinkSectionMaxId := by
      rw [BitVec.le_def, hn]
      show ¬ i + 128 ≤ 127
      omega
    have hoff : allocIdRuntimeOffset.toNat = 128 := rfl
    refine ⟨?_, .inr ⟨?_, ?_, ?_⟩⟩
    · rw [AllocRef.id, AllocRef.ofId, if_neg hgt, hn, hoff, Nat.add_sub_cancel]
    · rw [BitVec.le_def, AllocRef.id, hn, hoff]
      omega
    · rw [BitVec.lt_def, AllocRef.id, hn]
      show i + 128 < 252
      omega
    · rw [AllocRef.id, hn, hoff, Nat.add_sub_cancel, p.numAllocators]
      exact hi

def sized (cfg : Cfg S) (k : Nat) (buffer msgSize numMsgs : K → Nat) (linkSection runtime : List K)
    (lenSection : linkSection.length ≤ 128) (lenRuntime : runtime.length ≤ 124)
    (numAllocators : cfg.numAllocators = runtime.length)
    (word : ∀ κ, memSlabAllocatorBlockSize k (msgSize κ) < 2 ^ (8 * 2 ^ k))
    (apart : ∀ κ κ', κ ≠ κ' → buffer κ + memSlabAllocatorBufSize k (msgSize κ) (numMsgs κ) ≤ buffer κ' ∨
      buffer κ' + memSlabAllocatorBufSize k (msgSize κ') (numMsgs κ') ≤ buffer κ) : Pools K S where
  cfg := cfg
  k := k
  slab κ := .sized k (buffer κ) (msgSize κ) (numMsgs κ)
  linkSection := linkSection
  runtime := runtime
  lenSection := lenSection
  lenRuntime := lenRuntime
  numAllocators := numAllocators
  room κ := (Nat.le_add_left ..).trans (sized_room (buffer κ) (msgSize κ) (numMsgs κ)).1
  word := word
  apart κ κ' hκ b hb b' hb' := by
    obtain ⟨hlo, hhi⟩ := (sized_room (buffer κ) (msgSize κ) (numMsgs κ)).2.2 b hb
    obtain ⟨hlo', hhi'⟩ := (sized_room (buffer κ') (msgSize κ') (numMsgs κ')).2.2 b' hb'
    rcases apart κ κ' hκ with h | h
    · exact .inl (hhi.trans (h.trans hlo'))
    · exact .inr (hhi'.trans (h.trans hlo))

end Pools

/-- Blocks of the slab `κ` are free if they are in `free κ`. -/
structure Pool (B S K : Type) where
  sys : Sys B S
  free : K → List Nat

inductive PoolAct (B S : Type) where
  | sys (a : Act B S)
  | newMsg (allocator : AllocRef) (id : MsgId) (msgSizeBytes pick : Nat)

section
variable {B S K : Type} [DecidableEq B] [DecidableEq S] [DecidableEq K] (p : Pools K S)

/-- Whatever was at the address, `pub_sub_msg_init` writes a new header. -/
def Sys.renew (s : Sys B S) (m : Msg) : Sys B S := { s with mem := s.mem.setLife m .unused }

/-- `pub_sub_new_msg`; `pick` is the kernel's choice of a free block. -/
def Pool.newMsg (s : Pool B S K) (allocator : AllocRef) (i : MsgId) (msgSizeBytes pick : Nat) :
    Except Stop (Option Msg × Pool B S K) :=
  match p.impl allocator with
  -- an allocator that has not been added has the id `PUB_SUB_ALLOC_ID_INVALID`
  | none => .error .assertion
  | some κ => do
    let r ← allocateFromMemSlab p.k (p.slab κ) (s.free κ) (BitVec.ofNat (8 * 2 ^ p.k) msgSizeBytes) pick
    match r.1 with
    | none => .ok (none, s)
    | some m => do
      let sys ← step p.cfg (s.sys.renew m) (.newMsg m i allocator.id)
      .ok (some m, ⟨sys, update s.free κ r.2⟩)

/-- A call of the `free` function of an allocator. -/
def Pools.callFree (free : K → List Nat) : FreeCall → Except Stop (K → List Nat)
  | .linkSection i m =>
    match p.linkSection[i]? with
    | some κ => .ok (update free κ (freeForMemSlab p.k (free κ) m))
    | none => .error .misuse
  | .runtime i m =>
    match p.runtime[i]? with
    | some κ => .ok (update free κ (freeForMemSlab p.k (free κ) m))
    | none => .error .misuse
  | .callback _ => .ok free

def Pools.InSlab (m : Msg) : Prop := ∃ κ, ∃ b ∈ (p.slab κ).blocks, m = msgAt p.k b

instance Pools.decidableInSlab [Fintype K] (m : Msg) : Decidable (p.InSlab m) :=
  inferInstanceAs (Decidable (∃ κ, ∃ b ∈ (p.slab κ).blocks, m = msgAt p.k b))

/-- The calls of `free` that the step makes. -/
def Pool.settle (s : Pool B S K) (sys : Sys B S) : Except Stop (Pool B S K) := do
  let free ← (sys.mem.freeCalls.drop s.sys.mem.freeCalls.length).foldlM p.callFree s.free
  .ok ⟨sys, free⟩

variable [Fintype K]

def poolStep (s : Pool B S K) : PoolAct B S → Except Stop (Pool B S K)
  | .newMsg allocator i msgSizeBytes pick => (s.newMsg p allocator i msgSizeBytes pick).map Prod.snd
  | .sys (.newMsg ..) => .error .misuse
  | .sys (.staticMsgInit m i a) =>
    -- a static message has memory of its own
    if p.InSlab m then .error .misuse else do
      let sys ← step p.cfg s.sys (.staticMsgInit m i a)
      .ok { s with sys := sys }
  | .sys a => do
    let sys ← step p.cfg s.sys a
    s.settle p sys

structure Pool.Init (s : Pool B S K) : Prop where
  sys : ZephyrPubSub.Init p.cfg s.sys
  free : ∀ κ, (s.free κ).Perm (p.slab κ).blocks

end

/-! ## What a step does to the blocks -/

def Life.isLive : Life → Bool
  | .live _ => true
  | _ => false

/-- The message is still in use, or still not, under the same allocator. -/
def SameUse (l l' : Life) : Prop :=
  l'.isLive = l.isLive ∧ ∀ h', l' = .live h' → ∃ h, l = .live h ∧ h.allocId = h'.allocId

theorem SameUse.refl (l : Life) : SameUse l l := ⟨rfl, fun h hl => ⟨h, hl, rfl⟩⟩

theorem SameUse.live {h h' : Hdr} (ha : h'.allocId = h.allocId) : SameUse (.live h) (.live h') :=
  ⟨rfl, fun _ he => by cases he; exact ⟨h, rfl, ha.symm⟩⟩

theorem sameUse_update {f : Msg → Life} {m : Msg} {l : Life} (h : SameUse (f m) l) (k : Msg) :
    SameUse (f k) (update f m l k) := by
  by_cases hk : k = m
  · subst hk
    rw [update_self]
    exact h
  · rw [update_of_ne hk]
    exact .refl _

/-- Either no message is freed, or one by its allocator. -/
inductive Fate (n : Nat) (μ μ' : Mem) : Prop
  | kept (calls : List FreeCall) : (∀ m, SameUse (μ.life m) (μ'.life m)) → μ'.freeCalls = μ.freeCalls ++ calls →
      (∀ f ∈ calls, ∃ m, f = .callback m) → Fate n μ μ'
  | freed {m : Msg} {h : Hdr} : μ.life m = .live h → Mem.Registered n h.allocId →
      μ'.life = update μ.life m (.freed { h with refCnt := 0 }) →
      μ'.freeCalls = μ.freeCalls ++ [Mem.freeCallOf h.allocId m] → Fate n μ μ'

section
variable {n : Nat} {μ μ' μ₁ : Mem} {m : Msg}

theorem Fate.same (hl : μ'.life = μ.life) (hf : μ'.freeCalls = μ.freeCalls) : Fate n μ μ' :=
  .kept [] (fun m => by rw [hl]; exact .refl _) (by rw [hf, List.append_nil]) (by simp)

theorem Fate.acquire (h : μ.acquireMsg m = .ok μ₁) (hl : μ'.life = μ₁.life) (hf : μ'.freeCalls = μ₁.freeCalls) :
    Fate n μ μ' := by
  obtain ⟨hd, hm, -, rfl⟩ := Mem.acquireMsg_ok h
  refine .kept [] ?_ (by rw [hf, List.append_nil]; rfl) (by simp)
  intro k
  rw [hl]
  apply sameUse_update
  rw [hm]
  exact .live rfl

theorem registered_of_runtime (hn : n ≤ 124) {a : AllocId} (h : ¬ a ≤ allocIdLinkSectionMaxId)
    (hlt : a.toNat - allocIdRuntimeOffset.toNat < n) : Mem.Registered n a := by
  rw [BitVec.le_def] at h
  have hoff : allocIdRuntimeOffset.toNat = 128 := rfl
  have hmax : allocIdLinkSectionMaxId.toNat = 127 := rfl
  have hsec : allocIdLinkSection.toNat = 252 := rfl
  refine .inr ⟨?_, ?_, hlt⟩
  · rw [BitVec.le_def]
    omega
  · rw [BitVec.lt_def]
    omega

theorem Fate.release (hn : n ≤ 124) (h : μ.releaseMsg n m = .ok μ₁) (hl : μ'.life = μ₁.life)
    (hf : μ'.freeCalls = μ₁.freeCalls) : Fate n μ μ' := by
  obtain ⟨hd, hm, -, ⟨-, rfl⟩ | ⟨-, rfl⟩⟩ := Mem.releaseMsg_ok h
  · refine .kept [] ?_ (by rw [hf, List.append_nil]; rfl) (by simp)
    intro k
    rw [hl]
    apply sameUse_update
    rw [hm]
    exact .live rfl
  · by_cases hr : Mem.Registered n hd.allocId
    · rw [Mem.freeMsg_pool (h := { hd with refCnt := 0 }) hr] at hl hf
      refine .freed hm hr ?_ hf
      rw [hl]
      exact update_idem ..
    · -- a static or callback message stays
      have hsec : ¬ hd.allocId ≤ allocIdLinkSectionMaxId := fun hle => hr (.inl hle)
      have hrun : ¬ hd.allocId.toNat - allocIdRuntimeOffset.toNat < n :=
        fun hlt => hr (registered_of_runtime hn hsec hlt)
      have huse : ∀ k, SameUse (μ.life k) ((μ.setLife m (.live { hd with refCnt := 0 })).life k) := by
        apply sameUse_update
        rw [hm]
        exact .live rfl
      simp only [Mem.freeMsg, if_neg hsec, if_neg hrun] at hl hf
      split at hl
      · rename_i hc
        rw [if_pos hc] at hf
        exact .kept _ (by rw [hl]; exact huse) hf (by simp)
      · rename_i hc
        rw [if_neg hc] at hf
        exact .kept [] (by rw [hl]; exact huse) (by rw [hf, List.append_nil]; rfl) (by simp)

end

def Act.creates {B S : Type} : Act B S → Bool
  | .newMsg .. | .staticMsgInit .. => true
  | _ => false

theorem memStep_fate {B S : Type} {a : Act B S} {n : Nat} {μ μ' : Mem} (hn : n ≤ 124) (h : MemStep n μ a μ')
    (ha : a.creates = false) :
    Fate n μ μ' := by
  cases h with
  | newMsg h => cases ha
  | staticMsgInit h => cases ha
  | acquireStatic _ _ _ h => exact .acquire h rfl rfl
  | releaseUnpublished _ h => exact .release hn h rfl rfl
  | acquireExtra _ _ h => exact .acquire h rfl rfl
  | releaseExtra _ h => exact .release hn h rfl rfl

section
variable {B S : Type} [DecidableEq B] [DecidableEq S] {c : Cfg S} {s s' : Sys B S} {a : Act B S}

theorem trans_fate (hn : c.numAllocators ≤ 124) (h : Trans c s a s') (ha : a.creates = false) :
    Fate c.numAllocators s.mem s'.mem := by
  cases h with
  | scanMsgq _ _ _ h => exact .acquire h rfl rfl
  | scanFifo _ _ _ h => exact .acquire h rfl rfl
  | workRelease _ h => exact .release hn h rfl rfl
  | walkGive _ _ _ h => exact .acquire h rfl rfl
  | svcRelease _ h => exact .release hn h rfl rfl
  | callReturn _ h => exact .release hn h rfl rfl
  | mem h => exact memStep_fate hn h ha
  | _ => exact .same rfl rfl

end

/-! ## Free or in use -/

section
variable {B S K : Type} [DecidableEq B] [DecidableEq S] [DecidableEq K] {p : Pools K S}

/-- Every block is free or holds a message of an allocator of its slab. -/
structure PoolKept (p : Pools K S) (μ : Mem) (free : K → List Nat) : Prop where
  nodup : ∀ κ, (free κ).Nodup
  sub : ∀ κ, ∀ b ∈ free κ, b ∈ (p.slab κ).blocks
  free_iff : ∀ κ, ∀ b ∈ (p.slab κ).blocks, b ∈ free κ ↔ (μ.life (msgAt p.k b)).isLive = false
  owner : ∀ κ, ∀ b ∈ (p.slab κ).blocks, ∀ h, μ.life (msgAt p.k b) = .live h →
    Mem.Registered p.cfg.numAllocators h.allocId ∧ p.impl (AllocRef.ofId h.allocId) = some κ
  block : ∀ m h, μ.life m = .live h → Mem.Registered p.cfg.numAllocators h.allocId → p.InSlab m

variable {μ μ' : Mem} {free : K → List Nat}

omit [DecidableEq B] [DecidableEq S] [DecidableEq K] in
theorem poolKept_init {s : Pool B S K} (h : s.Init p) : PoolKept p s.sys.mem s.free := by
  have hdead : ∀ m, (s.sys.mem.life m).isLive = false := fun m => by rw [h.sys.life m]; rfl
  constructor
  · intro κ
    exact (h.free κ).nodup_iff.mpr ((p.slab κ).blocks_nodup (p.blockSize_pos κ))
  · intro κ b hb
    exact (h.free κ).mem_iff.mp hb
  · intro κ b hb
    exact ⟨fun _ => hdead _, fun _ => (h.free κ).mem_iff.mpr hb⟩
  · intro κ b _ hd hl
    rw [h.sys.life] at hl
    cases hl
  · intro m hd hl
    rw [h.sys.life] at hl
    cases hl

omit [DecidableEq S] [DecidableEq K] in
theorem PoolKept.same (h : PoolKept p μ free) (hu : ∀ m, SameUse (μ.life m) (μ'.life m)) : PoolKept p μ' free := by
  refine ⟨h.nodup, h.sub, ?_, ?_, ?_⟩
  · intro κ b hb
    rw [h.free_iff κ b hb, (hu _).1]
  · intro κ b hb hd' hl'
    obtain ⟨hd, hl, ha⟩ := (hu _).2 hd' hl'
    rw [← ha]
    exact h.owner κ b hb hd hl
  · intro m hd' hl' hr
    obtain ⟨hd, hl, ha⟩ := (hu _).2 hd' hl'
    rw [← ha] at hr
    exact h.block m hd hl hr

section
omit [DecidableEq S]

theorem callFree_freeCallOf (p : Pools K S) (free : K → List Nat) (a : AllocId) (m : Msg) {κ : K}
    (h : p.impl (AllocRef.ofId a) = some κ) :
    p.callFree free (Mem.freeCallOf a m) = .ok (update free κ (freeForMemSlab p.k (free κ) m)) := by
  unfold AllocRef.ofId at h
  unfold Mem.freeCallOf Pools.callFree
  split at h
  · rename_i ha
    rw [if_pos ha]
    simp only [show p.linkSection[a.toNat]? = some κ from h]
  · rename_i ha
    rw [if_neg ha]
    simp only [show p.runtime[a.toNat - allocIdRuntimeOffset.toNat]? = some κ from h]

/-- The block of a message goes back to the slab it came from. -/
theorem PoolKept.freed (h : PoolKept p μ free) {m : Msg} {hd hd' : Hdr} (hl : μ.life m = .live hd)
    (hr : Mem.Registered p.cfg.numAllocators hd.allocId) (hl' : μ'.life = update μ.life m (.freed hd')) :
    ∃ κ, ∃ b ∈ (p.slab κ).blocks, m = msgAt p.k b ∧ p.impl (AllocRef.ofId hd.allocId) = some κ ∧
      PoolKept p μ' (update free κ (freeForMemSlab p.k (free κ) m)) := by
  obtain ⟨κ, b, hb, rfl⟩ := h.block m hd hl hr
  have hused : b ∉ free κ := fun hf => by
    have := (h.free_iff κ b hb).mp hf
    rw [hl] at this
    cases this
  refine ⟨κ, b, hb, rfl, (h.owner κ b hb hd hl).2, ?_⟩
  rw [freeForMemSlab, psMsg_msgAt]
  constructor
  · intro κ'
    by_cases hκ : κ' = κ
    · subst hκ
      rw [update_self]
      exact List.nodup_cons.mpr ⟨hused, h.nodup κ'⟩
    · rw [update_of_ne hκ]
      exact h.nodup κ'
  · intro κ' b' hb'
    by_cases hκ : κ' = κ
    · subst hκ
      rw [update_self] at hb'
      rcases List.mem_cons.mp hb' with rfl | hb'
      · exact hb
      · exact h.sub κ' b' hb'
    · rw [update_of_ne hκ] at hb'
      exact h.sub κ' b' hb'
  · intro κ' b' hb'
    rw [hl']
    by_cases he : b' = b
    · subst he
      cases p.one_slab hb hb'
      rw [update_self, update_self]
      exact ⟨fun _ => rfl, fun _ => List.mem_cons_self ..⟩
    · rw [update_of_ne fun hm => he (msgAt_inj hm), ← h.free_iff κ' b' hb']
      by_cases hκ : κ' = κ
      · subst hκ
        rw [update_self, List.mem_cons]
        exact ⟨fun hm => hm.resolve_left he, Or.inr⟩
      · rw [update_of_ne hκ]
  · intro κ' b' hb' hd₁ hl₁
    rw [hl'] at hl₁
    by_cases he : b' = b
    · subst he
      rw [update_self] at hl₁
      cases hl₁
    · rw [update_of_ne fun hm => he (msgAt_inj hm)] at hl₁
      exact h.owner κ' b' hb' hd₁ hl₁
  · intro m' hd₁ hl₁ hr₁
    rw [hl'] at hl₁
    by_cases he : m' = msgAt p.k b
    · subst he
      exact ⟨κ, b, hb, rfl⟩
    · rw [update_of_ne he] at hl₁
      exact h.block m' hd₁ hl₁ hr₁

/-- A new message takes a free block out of the slab of its allocator. -/
theorem PoolKept.created (h : PoolKept p μ free) {κ : K} {b : Nat} (hb : b ∈ free κ) {al : AllocRef}
    (hal : p.impl al = some κ) {hd : Hdr} (hid : hd.allocId = al.id)
    (hl' : μ'.life = update μ.life (msgAt p.k b) (.live hd)) :
    PoolKept p μ' (update free κ ((free κ).erase b)) := by
  have hbk := h.sub κ b hb
  obtain ⟨hplace, hreg⟩ := p.ofId_id hal
  constructor
  · intro κ'
    by_cases hκ : κ' = κ
    · subst hκ
      rw [update_self]
      exact (h.nodup κ').erase b
    · rw [update_of_ne hκ]
      exact h.nodup κ'
  · intro κ' b' hb'
    by_cases hκ : κ' = κ
    · subst hκ
      rw [update_self] at hb'
      exact h.sub κ' b' (List.mem_of_mem_erase hb')
    · rw [update_of_ne hκ] at hb'
      exact h.sub κ' b' hb'
  · intro κ' b' hb'
    rw [hl']
    by_cases he : b' = b
    · subst he
      cases p.one_slab hbk hb'
      rw [update_self, update_self]
      exact ⟨fun hm => absurd hm (h.nodup κ).not_mem_erase, fun hm => by cases hm⟩
    · rw [update_of_ne fun hm => he (msgAt_inj hm), ← h.free_iff κ' b' hb']
      by_cases hκ : κ' = κ
      · subst hκ
        rw [update_self, List.mem_erase_of_ne he]
      · rw [update_of_ne hκ]
  · intro κ' b' hb' hd₁ hl₁
    rw [hl'] at hl₁
    by_cases he : b' = b
    · subst he
      cases p.one_slab hbk hb'
      rw [update_self] at hl₁
      cases hl₁
      rw [hid, hplace]
      exact ⟨hreg, hal⟩
    · rw [update_of_ne fun hm => he (msgAt_inj hm)] at hl₁
      exact h.owner κ' b' hb' hd₁ hl₁
  · intro m hd₁ hl₁ hr₁
    rw [hl'] at hl₁
    by_cases he : m = msgAt p.k b
    · exact ⟨κ, b, hbk, he⟩
    · rw [update_of_ne he] at hl₁
      exact h.block m hd₁ hl₁ hr₁

end

omit [DecidableEq S] [DecidableEq K] in
theorem PoolKept.static (h : PoolKept p μ free) {m : Msg} (hm : ¬ p.InSlab m) {hd : Hdr}
    (ha : hd.allocId = allocIdStaticMsg ∨ hd.allocId = allocIdCallbackMsg)
    (hl' : μ'.life = update μ.life m (.live hd)) : PoolKept p μ' free := by
  have hne : ∀ κ, ∀ b ∈ (p.slab κ).blocks, μ'.life (msgAt p.k b) = μ.life (msgAt p.k b) := by
    intro κ b hb
    rw [hl', update_of_ne]
    rintro rfl
    exact hm ⟨κ, b, hb, rfl⟩
  refine ⟨h.nodup, h.sub, ?_, ?_, ?_⟩
  · intro κ b hb
    rw [hne κ b hb, h.free_iff κ b hb]
  · intro κ b hb hd₁ hl₁
    rw [hne κ b hb] at hl₁
    exact h.owner κ b hb hd₁ hl₁
  · intro m' hd₁ hl₁ hr₁
    rw [hl'] at hl₁
    by_cases he : m' = m
    · subst he
      rw [update_self] at hl₁
      cases hl₁
      exact absurd hr₁ (Mem.static_not_registered _ ha)
    · rw [update_of_ne he] at hl₁
      exact h.block m' hd₁ hl₁ hr₁

/-! ## Every step -/

theorem map_ok {α β ε : Type} {x : Except ε α} {f : α → β} {r : β} (h : x.map f = .ok r) :
    ∃ a, x = .ok a ∧ f a = r := by
  cases x with
  | ok a => cases h; exact ⟨a, rfl, rfl⟩
  | error e => cases h

omit [DecidableEq S] [DecidableEq K] in
theorem Pools.numAllocators_le (p : Pools K S) : p.cfg.numAllocators ≤ 124 := by
  rw [p.numAllocators]
  exact p.lenRuntime

omit [DecidableEq S] in
theorem foldlM_callbacks (p : Pools K S) (free : K → List Nat) : ∀ {calls : List FreeCall},
    (∀ f ∈ calls, ∃ m, f = .callback m) → calls.foldlM p.callFree free = .ok free
  | [], _ => rfl
  | f :: calls, h => by
    obtain ⟨m, rfl⟩ := h f (List.mem_cons_self ..)
    show calls.foldlM p.callFree free = .ok free
    exact foldlM_callbacks p free fun g hg => h g (List.mem_cons_of_mem _ hg)

/-- A step of the framework finds the slab of what it frees. -/
theorem PoolKept.settle {s : Pool B S K} (h : PoolKept p s.sys.mem s.free) {a : Act B S} (ha : a.creates = false)
    {sys : Sys B S} (hstep : step p.cfg s.sys a = .ok sys) :
    ∃ s' : Pool B S K, s.settle p sys = .ok s' ∧ s'.sys = sys ∧ PoolKept p s'.sys.mem s'.free := by
  unfold Pool.settle
  cases trans_fate p.numAllocators_le (step_trans hstep) ha with
  | kept calls hu hf hc =>
    refine ⟨⟨sys, s.free⟩, ?_, rfl, h.same hu⟩
    rw [hf, List.drop_left, foldlM_callbacks p s.free hc]
    rfl
  | @freed m hd hl hr hl' hf =>
    obtain ⟨κ, b, hb, rfl, himpl, hk⟩ := h.freed hl hr hl'
    refine ⟨⟨sys, _⟩, ?_, rfl, hk⟩
    rw [hf, List.drop_left, List.foldlM_cons, callFree_freeCallOf p s.free hd.allocId _ himpl]
    rfl

theorem pool_newMsg_ok {s : Pool B S K} {al : AllocRef} {i : MsgId} {size pick : Nat} {r : Option Msg × Pool B S K}
    (h : s.newMsg p al i size pick = .ok r) : ∃ κ, p.impl al = some κ ∧
      (p.slab κ).SizeOk p.k (BitVec.ofNat (8 * 2 ^ p.k) size) ∧
      (r = (none, s) ∧ s.free κ = [] ∨
        ∃ b sys, b ∈ s.free κ ∧ step p.cfg (s.sys.renew (msgAt p.k b)) (.newMsg (msgAt p.k b) i al.id) = .ok sys ∧
          r = (some (msgAt p.k b), ⟨sys, update s.free κ ((s.free κ).erase b)⟩)) := by
  unfold Pool.newMsg at h
  split at h
  · cases h
  · rename_i κ hκ
    rw [hκ]
    obtain ⟨⟨res, free'⟩, ha, h⟩ := bind_ok h
    obtain ⟨hsize, ⟨rfl, hf, -⟩ | ⟨b, rfl, hb, rfl⟩⟩ := allocate_ok ha
    · cases h
      exact ⟨κ, rfl, hsize, .inl ⟨rfl, hf⟩⟩
    · obtain ⟨sys, hs, h⟩ := bind_ok h
      cases h
      exact ⟨κ, rfl, hsize, .inr ⟨b, sys, hb, hs, rfl⟩⟩

theorem newMsg_step_life {c : Cfg S} {s sys : Sys B S} {m : Msg} {i : MsgId} {a : AllocId}
    (h : step c (s.renew m) (.newMsg m i a) = .ok sys) : sys.mem.life = update s.mem.life m (.live ⟨i, a, 1⟩) := by
  obtain ⟨μ, hμ, h⟩ := bind_ok h
  cases h
  rw [(Mem.newMsg_ok hμ).2.2.1]
  exact update_idem ..

variable [Fintype K]

theorem PoolKept.sys {s s' : Pool B S K} (h : PoolKept p s.sys.mem s.free) {a : Act B S}
    (hs : poolStep p s (.sys a) = .ok s') :
    (∀ m i k, a ≠ .newMsg m i k) ∧ step p.cfg s.sys a = .ok s'.sys ∧ PoolKept p s'.sys.mem s'.free := by
  have hne : ∀ m i k, a ≠ .newMsg m i k := by
    rintro m i k rfl
    cases hs
  refine ⟨hne, ?_⟩
  cases hc : a.creates with
  | false =>
    have hset : ∃ sys, step p.cfg s.sys a = .ok sys ∧ s.settle p sys = .ok s' := by
      cases a with
      | newMsg => cases hc
      | staticMsgInit => cases hc
      | _ => exact bind_ok hs
    obtain ⟨sys, hstep, hset⟩ := hset
    obtain ⟨s₁, hs₁, rfl, hk⟩ := h.settle hc hstep
    cases hs₁.symm.trans hset
    exact ⟨hstep, hk⟩
  | true =>
    cases a with
    | newMsg m i k => exact absurd rfl (hne m i k)
    | staticMsgInit m i a =>
      simp only [poolStep] at hs
      split at hs
      · cases hs
      · rename_i hm
        obtain ⟨sys, hstep, hs⟩ := bind_ok hs
        cases hs
        refine ⟨hstep, ?_⟩
        obtain ⟨μ, hμ, hstep⟩ := bind_ok hstep
        cases hstep
        obtain ⟨-, ha, rfl⟩ := Mem.staticMsgInit_ok hμ
        exact h.static hm ha rfl
    | _ => cases hc

theorem poolStep_newMsg_ok {s s' : Pool B S K} {al : AllocRef} {i : MsgId} {size pick : Nat}
    (hs : poolStep p s (.newMsg al i size pick) = .ok s') : s' = s ∨
      ∃ κ b, p.impl al = some κ ∧ b ∈ s.free κ ∧ s'.free = update s.free κ ((s.free κ).erase b) ∧
        step p.cfg (s.sys.renew (msgAt p.k b)) (.newMsg (msgAt p.k b) i al.id) = .ok s'.sys := by
  simp only [poolStep] at hs
  obtain ⟨r, hr, rfl⟩ := map_ok hs
  obtain ⟨κ, hκ, -, ⟨rfl, -⟩ | ⟨b, sys, hb, hstep, rfl⟩⟩ := pool_newMsg_ok hr
  · exact .inl rfl
  · exact .inr ⟨κ, b, hκ, hb, rfl, hstep⟩

theorem PoolKept.step {s s' : Pool B S K} (h : PoolKept p s.sys.mem s.free) {a : PoolAct B S}
    (hs : poolStep p s a = .ok s') : PoolKept p s'.sys.mem s'.free := by
  cases a with
  | newMsg al i size pick =>
    obtain rfl | ⟨κ, b, hκ, hb, hf, hstep⟩ := poolStep_newMsg_ok hs
    · exact h
    · rw [hf]
      exact h.created hb hκ rfl (newMsg_step_life hstep)
  | sys a => exact (h.sys hs).2.2

end

end ZephyrPubSub
