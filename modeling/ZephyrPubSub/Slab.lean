import ZephyrPubSub.Wrapped
import ZephyrPubSub.SubList
import Mathlib.Data.List.Nodup
import Mathlib.Data.List.Range

/-!
# Memory slab allocators

A `k_mem_slab` is a buffer of blocks of one size. An allocator on top of one
hands out the blocks as messages, the header in front; `k_mem_slab_alloc` takes
any of the free blocks, and none when there is no free one.
-/

namespace ZephyrPubSub

open Layout

structure MemSlab where
  buffer : Nat
  blockSize : Nat
  numBlocks : Nat
  deriving DecidableEq, Repr

section
variable (k : Nat)

def wbUp (n : Nat) : Nat := roundUp n (2 ^ k)

def memSlabAllocatorBlockSize (msgSize : Nat) : Nat := wbUp k (msgSize + msgOverheadNumBytes k)

def memSlabAllocatorBufSize (msgSize numMsgs : Nat) : Nat := memSlabAllocatorBlockSize k msgSize * numMsgs

/-- A slab in a buffer of `PUB_SUB_MEM_SLAB_ALLOCATOR_BUF_SIZE` bytes. -/
def MemSlab.sized (buffer msgSize numMsgs : Nat) : MemSlab :=
  ⟨buffer, memSlabAllocatorBlockSize k msgSize, numMsgs⟩

def msgAt (block : Nat) : Nat := block + offsetOf (pubSubMsg k) 2

/-- `k_mem_slab_alloc`; `pick` is the kernel's choice. -/
def kMemSlabAlloc (free : List Nat) (pick : Nat) : Option (Nat × List Nat) :=
  free[pick % free.length]?.map fun block => (block, free.erase block)

/-- The assertion of `pub_sub_allocate_from_mem_slab`, in `size_t` arithmetic. -/
def MemSlab.SizeOk (slab : MemSlab) {w : Nat} (msgSizeBytes : BitVec w) : Prop :=
  msgSizeBytes ≤ BitVec.ofNat w slab.blockSize - BitVec.ofNat w (msgOverheadNumBytes k)

instance MemSlab.decidableSizeOk (slab : MemSlab) {w : Nat} (msgSizeBytes : BitVec w) :
    Decidable (slab.SizeOk k msgSizeBytes) :=
  inferInstanceAs (Decidable (_ ≤ _))

/-- The message, or `none` for NULL, and the blocks that stay free. -/
def allocateFromMemSlab (slab : MemSlab) (free : List Nat) {w : Nat} (msgSizeBytes : BitVec w) (pick : Nat) :
    Except Stop (Option Nat × List Nat) :=
  if slab.SizeOk k msgSizeBytes then
    match kMemSlabAlloc free pick with
    | some (psMsg, free') => .ok (some (msgAt k psMsg), free')
    | none => .ok (none, free)
  else .error .assertion

def freeForMemSlab (free : List Nat) (msg : Nat) : List Nat := psMsg k msg :: free

end

namespace MemSlab

variable (s : MemSlab)

def block (i : Nat) : Nat := s.buffer + i * s.blockSize

def blocks : List Nat := (List.range s.numBlocks).map s.block

theorem mem_blocks {b : Nat} : b ∈ s.blocks ↔ ∃ i < s.numBlocks, s.block i = b := by
  simp [blocks]

theorem block_lt {i j : Nat} (h : i < j) : s.block i + s.blockSize ≤ s.block j := by
  have := Nat.mul_le_mul_right s.blockSize h
  rw [Nat.succ_mul] at this
  unfold block
  omega

theorem block_inj (h : 0 < s.blockSize) {i j : Nat} (he : s.block i = s.block j) : i = j := by
  rcases Nat.lt_trichotomy i j with hlt | heq | hgt
  · have := s.block_lt hlt
    omega
  · exact heq
  · have := s.block_lt hgt
    omega

theorem blocks_nodup (h : 0 < s.blockSize) : s.blocks.Nodup :=
  List.nodup_range.map fun _ _ he => s.block_inj h he

theorem blocks_apart {b b' : Nat} (hb : b ∈ s.blocks) (hb' : b' ∈ s.blocks) :
    s.buffer ≤ b ∧ b + s.blockSize ≤ s.buffer + s.blockSize * s.numBlocks ∧
      (b ≠ b' → b + s.blockSize ≤ b' ∨ b' + s.blockSize ≤ b) := by
  obtain ⟨i, hi, rfl⟩ := s.mem_blocks.mp hb
  obtain ⟨j, _, rfl⟩ := s.mem_blocks.mp hb'
  refine ⟨Nat.le_add_right .., ?_, ?_⟩
  · have := s.block_lt hi
    rw [Nat.mul_comm]
    exact this
  · intro hne
    rcases Nat.lt_trichotomy i j with hlt | heq | hgt
    · exact .inl (s.block_lt hlt)
    · exact absurd (congrArg s.block heq) hne
    · exact .inr (s.block_lt hgt)

end MemSlab

section
variable {k : Nat}

theorem msgAt_eq (block : Nat) : msgAt k block = block + 2 * 2 ^ k := by rw [msgAt, offset_msg]

/-- `pub_sub_free_for_mem_slab` finds the block the message was allocated with. -/
theorem psMsg_msgAt (block : Nat) : psMsg k (msgAt k block) = block := containerOf_add ..

theorem msgAt_inj {b b' : Nat} (h : msgAt k b = msgAt k b') : b = b' := Nat.add_right_cancel h

theorem kMemSlabAlloc_none {free : List Nat} {pick : Nat} : kMemSlabAlloc free pick = none ↔ free = [] := by
  unfold kMemSlabAlloc
  cases free with
  | nil => simp
  | cons b l =>
    have hlt : pick % (b :: l).length < (b :: l).length := Nat.mod_lt _ (Nat.succ_pos _)
    rw [List.getElem?_eq_getElem hlt]
    simp

theorem kMemSlabAlloc_some {free free' : List Nat} {pick b : Nat} (h : kMemSlabAlloc free pick = some (b, free')) :
    b ∈ free ∧ free' = free.erase b := by
  unfold kMemSlabAlloc at h
  obtain ⟨b', hb', he⟩ := Option.map_eq_some_iff.mp h
  cases he
  exact ⟨List.mem_of_getElem? hb', rfl⟩

theorem allocate_ok {slab : MemSlab} {free free' : List Nat} {w : Nat} {size : BitVec w} {pick : Nat}
    {r : Option Nat} (h : allocateFromMemSlab k slab free size pick = .ok (r, free')) :
    slab.SizeOk k size ∧
      (r = none ∧ free = [] ∧ free' = free ∨
        ∃ b, r = some (msgAt k b) ∧ b ∈ free ∧ free' = free.erase b) := by
  unfold allocateFromMemSlab at h
  split at h
  · refine ⟨‹_›, ?_⟩
    cases ha : kMemSlabAlloc free pick with
    | none =>
      rw [ha] at h
      cases h
      exact .inl ⟨rfl, kMemSlabAlloc_none.mp ha, rfl⟩
    | some p =>
      obtain ⟨b, rest⟩ := p
      rw [ha] at h
      cases h
      exact .inr ⟨b, rfl, kMemSlabAlloc_some ha⟩
  · cases h

/-- The subtraction in the assertion wraps around where a block is smaller than the header. -/
theorem sizeOk_fits_iff {slab : MemSlab} {w : Nat} (hs : slab.blockSize < 2 ^ w) (ho : msgOverheadNumBytes k < 2 ^ w) :
    (∀ size : BitVec w, slab.SizeOk k size → size.toNat + msgOverheadNumBytes k ≤ slab.blockSize) ↔
      msgOverheadNumBytes k ≤ slab.blockSize := by
  constructor
  · intro h
    have h0 := h 0#w (by unfold MemSlab.SizeOk; rw [BitVec.le_def]; simp)
    simpa using h0
  · intro hle size hok
    unfold MemSlab.SizeOk at hok
    rw [BitVec.le_def, BitVec.toNat_sub, BitVec.toNat_ofNat, BitVec.toNat_ofNat, Nat.mod_eq_of_lt hs,
      Nat.mod_eq_of_lt ho, show 2 ^ w - msgOverheadNumBytes k + slab.blockSize =
        2 ^ w + (slab.blockSize - msgOverheadNumBytes k) by omega, Nat.add_mod_left,
      Nat.mod_eq_of_lt (by omega)] at hok
    omega

/-- A slab that is sized by the macros has the room its users ask for, and its blocks lie in its buffer. -/
theorem sized_room (buffer msgSize numMsgs : Nat) :
    msgSize + msgOverheadNumBytes k ≤ (MemSlab.sized k buffer msgSize numMsgs).blockSize ∧
      2 ^ k ∣ (MemSlab.sized k buffer msgSize numMsgs).blockSize ∧
      ∀ b ∈ (MemSlab.sized k buffer msgSize numMsgs).blocks, buffer ≤ b ∧
        b + (MemSlab.sized k buffer msgSize numMsgs).blockSize ≤
          buffer + memSlabAllocatorBufSize k msgSize numMsgs := by
  refine ⟨le_roundUp _ (Nat.two_pow_pos k), dvd_roundUp _ _, ?_⟩
  intro b hb
  obtain ⟨i, hi, rfl⟩ := (MemSlab.mem_blocks _).mp hb
  have hmul : (i + 1) * memSlabAllocatorBlockSize k msgSize ≤ numMsgs * memSlabAllocatorBlockSize k msgSize :=
    Nat.mul_le_mul_right _ hi
  rw [Nat.succ_mul] at hmul
  simp only [MemSlab.block, MemSlab.sized, memSlabAllocatorBufSize,
    Nat.mul_comm (memSlabAllocatorBlockSize k msgSize) numMsgs]
  omega

end

end ZephyrPubSub
