import ZephyrPubSub.Allocators
import ZephyrPubSub.Word

/-!
# Allocators of the linker section

`pub_sub_new_msg` numbers the allocators of the section `pub_sub_allocator` by
their index and stores the number in the header; `pub_sub_release_msg` reads it
back out of the packed word and indexes the section with it.
-/

namespace ZephyrPubSub

open Runs

variable {F I : Type} {w : Nat}

structure Allocator (F I : Type) where
  free : F
  impl : I
  allocatorId : AllocId

/-- What `PUB_SUB_ALLOCATOR_DEFINE` puts into the section, in the order of the addresses. -/
structure AllocSection (F I : Type) where
  allocators : List (Allocator F I)
  defined : ∀ a ∈ allocators, a.allocatorId = allocIdLinkSection

def initAndAcquire (i : MsgId) (a : AllocId) : Except Stop (BitVec w) := wordStep (msgInit i a) .inc

/-- `index` is `allocator - STRUCT_SECTION_START(pub_sub_allocator)` and
`allocated` what `allocate` returns. -/
def newMsg (allocator : Allocator F I) (index : Nat) (i : MsgId) (allocated : Option Msg) :
    Except Stop (Option (Msg × BitVec w)) :=
  if allocator.allocatorId = allocIdInvalid then .error .assertion else
  match allocated with
  | none => .ok none
  | some m =>
    if allocator.allocatorId = allocIdLinkSection then
      -- narrowed to a `uint8_t` before the assertion looks at it
      let allocatorId : AllocId := BitVec.ofNat 8 index
      if allocatorId ≤ allocIdLinkSectionMaxId then (initAndAcquire i allocatorId).map fun d => some (m, d)
      else .error .assertion
    else (initAndAcquire i allocator.allocatorId).map fun d => some (m, d)

inductive Freed (F I : Type) where
  | allocator (free : F) (impl : I) (msg : Msg)
  | callback (msg : Msg)
  deriving DecidableEq, Repr

/-- Which allocator the last release calls; `n` runtime allocators are registered. -/
def lastRelease (n : Nat) (allocatorId : AllocId) (m : Msg) : Option FreeCall :=
  if allocatorId ≤ allocIdLinkSectionMaxId then some (.linkSection allocatorId.toNat m)
  else if allocatorId.toNat - allocIdRuntimeOffset.toNat < n then
    some (.runtime (allocatorId.toNat - allocIdRuntimeOffset.toNat) m)
  else if allocatorId = allocIdCallbackMsg then some (.callback m)
  else none

/-- The function and the argument at that place; `none`: nothing is there. -/
def resolve (sec : AllocSection F I) (rt : RuntimeAllocators (Allocator F I)) : FreeCall → Option (Freed F I)
  | .linkSection i m => sec.allocators[i]?.map fun a => .allocator a.free a.impl m
  | .runtime i m => (rt.allocators i).map fun a => .allocator a.free a.impl m
  | .callback m => some (.callback m)

/-- `pub_sub_release_msg` on the word of `m`. -/
def release (sec : AllocSection F I) (rt : RuntimeAllocators (Allocator F I)) (m : Msg) (d : BitVec w) :
    Except Stop (BitVec w × Option (Freed F I)) :=
  match msgDecRefCnt d with
  | none => .error .refUnderflow
  | some (prevRefCnt, d') =>
    if prevRefCnt = 1 then
      match lastRelease rt.numAllocators (msgGetAllocId d') m with
      | none => .ok (d', none)
      | some c =>
        match resolve sec rt c with
        | some f => .ok (d', some f)
        | none => .error .misuse
    else .ok (d', none)

theorem release_last (sec : AllocSection F I) {rt : RuntimeAllocators (Allocator F I)} {m : Msg} {d : BitVec w}
    {h : Hdr} (hw : 32 ≤ w) (hp : Packs d h) (h1 : h.refCnt = 1) {c : FreeCall}
    (hc : lastRelease rt.numAllocators h.allocId m = some c) :
    ∃ d', Packs d' { h with refCnt := 0 } ∧
      release sec rt m d = match resolve sec rt c with
        | some f => .ok (d', some f)
        | none => .error .misuse := by
  obtain ⟨⟨r, d'⟩, hd⟩ := Option.isSome_iff_exists.mp ((dec_ok_iff hp).mpr (by omega))
  obtain ⟨-, hr, hp'⟩ := packs_dec hw hp hd
  rw [h1] at hr hp'
  refine ⟨d', hp', ?_⟩
  have hr1 : r = 1 := BitVec.eq_of_toNat_eq hr
  have hid : msgGetAllocId d' = h.allocId := by rw [packs_getAllocId hp']
  rw [release, hd]
  simp only [hr1, if_true, hid, hc]

/-! ## The round trip -/

theorem initAndAcquire_ok (hw : 32 ≤ w) (i : MsgId) (a : AllocId) :
    ∃ d : BitVec w, initAndAcquire i a = .ok d ∧ Packs d ⟨i, a, 1⟩ :=
  (step_packs hw .inc (packs_init hw i a)).ok' (by simp [Hdr.cntStep, Hdr.incRefCnt])

theorem newMsg_section {allocator : Allocator F I} (ha : allocator.allocatorId = allocIdLinkSection) (index : Nat)
    (i : MsgId) (m : Msg) :
    newMsg allocator index i (some m) =
      if index % 256 ≤ 127 then
        (initAndAcquire i (BitVec.ofNat 8 index)).map fun d : BitVec w => some (m, d)
      else .error .assertion := by
  have hle : BitVec.ofNat 8 index ≤ allocIdLinkSectionMaxId ↔ index % 256 ≤ 127 := by
    rw [BitVec.le_def, BitVec.toNat_ofNat]
    rfl
  rw [newMsg, ha, if_neg (by decide)]
  simp only [if_true, hle]

theorem lastRelease_section {index n : Nat} (hk : index % 256 ≤ 127) (m : Msg) :
    lastRelease n (BitVec.ofNat 8 index) m = some (.linkSection (index % 256) m) := by
  have hle : BitVec.ofNat 8 index ≤ allocIdLinkSectionMaxId := by
    rw [BitVec.le_def, BitVec.toNat_ofNat]
    exact hk
  rw [lastRelease, if_pos hle, BitVec.toNat_ofNat]

/-- The last release of every message that was allocated from the allocator
`a` at `index` calls the `free` of `a` with the `impl` of `a`. -/
def RoundTrips (w : Nat) (sec : AllocSection F I) (index : Nat) (a : Allocator F I) : Prop :=
  ∀ (rt : RuntimeAllocators (Allocator F I)) (i : MsgId) (m : Msg) (d : BitVec w),
    newMsg a index i (some m) = .ok (some (m, d)) →
      ∀ ops d', exec wordStep d ops = .ok d' → msgGetRefCnt d' = 1 →
        ∃ d'', release sec rt m d' = .ok (d'', some (.allocator a.free a.impl m))

/-- The last release goes to the allocator at the index narrowed to 8 bits. -/
theorem release_narrowed (hw : 32 ≤ w) (sec : AllocSection F I) (rt : RuntimeAllocators (Allocator F I)) {index : Nat}
    (hk : index % 256 ≤ 127) (i : MsgId) (m : Msg) {d d' : BitVec w}
    (hd : initAndAcquire i (BitVec.ofNat 8 index) = .ok d) {ops : List CntOp} (he : exec wordStep d ops = .ok d')
    (h1 : msgGetRefCnt d' = 1) :
    ∃ d'', release sec rt m d' = match sec.allocators[index % 256]? with
      | some b => .ok (d'', some (.allocator b.free b.impl m))
      | none => .error .misuse := by
  obtain ⟨d₀, hd₀, hp₀⟩ := initAndAcquire_ok hw i (BitVec.ofNat 8 index)
  cases hd.symm.trans hd₀
  obtain ⟨h, hh, hp⟩ := (exec_packs hw hp₀ ops).ok he
  have hc := Hdr.exec_counted ops _ h hh
  have hcnt : h.refCnt = 1 := by
    rw [← packs_getRefCnt hp, h1]
    rfl
  have hlast : lastRelease rt.numAllocators h.allocId m = some (.linkSection (index % 256) m) := by
    rw [hc.allocId]
    exact lastRelease_section hk m
  obtain ⟨d'', -, hr⟩ := release_last sec hw hp hcnt hlast
  refine ⟨d'', hr.trans ?_⟩
  rw [resolve]
  cases sec.allocators[index % 256]? <;> rfl

/-- Indices from 256 on are narrowed before the assertion that is to refuse
them; those that it lets through come back as another allocator's. -/
theorem section_round_trip_iff (hw : 32 ≤ w) (sec : AllocSection F I) {index : Nat} {a : Allocator F I}
    (ha : sec.allocators[index]? = some a) :
    RoundTrips w sec index a ↔ index < 256 ∨ 127 < index % 256 ∨
      ∃ b, sec.allocators[index % 256]? = some b ∧ b.free = a.free ∧ b.impl = a.impl := by
  have hlink := sec.defined a (List.mem_of_getElem? ha)
  refine ⟨?_, ?_⟩
  · intro hrt
    by_cases hk : index % 256 ≤ 127
    · right
      right
      obtain ⟨d, hd, hp⟩ := initAndAcquire_ok hw 0 (BitVec.ofNat 8 index)
      have hnew : newMsg a index 0 (some 0) = .ok (some (0, d)) := by
        rw [newMsg_section hlink, if_pos hk, hd]
        rfl
      have h1 : msgGetRefCnt d = 1 := BitVec.eq_of_toNat_eq (packs_getRefCnt hp)
      obtain ⟨d₁, hr⟩ := hrt ⟨fun _ => none, 0, Allocator.allocatorId⟩ 0 0 d hnew [] d rfl h1
      obtain ⟨d₂, hr'⟩ := release_narrowed hw sec ⟨fun _ => none, 0, Allocator.allocatorId⟩ hk 0 0 hd
        (show exec wordStep d [] = .ok d from rfl) h1
      rw [hr'] at hr
      cases hb : sec.allocators[index % 256]? with
      | none => rw [hb] at hr; cases hr
      | some b =>
        rw [hb] at hr
        simp only [Except.ok.injEq, Prod.mk.injEq, Option.some.injEq, Freed.allocator.injEq, and_true] at hr
        exact ⟨b, rfl, hr.2⟩
    · exact .inr (.inl (by omega))
  · intro hcond rt i m d hnew ops d' he h1
    rw [newMsg_section hlink] at hnew
    split at hnew
    · rename_i hk
      have hsame : ∃ b, sec.allocators[index % 256]? = some b ∧ b.free = a.free ∧ b.impl = a.impl := by
        obtain hlt | hgt | hb := hcond
        · exact ⟨a, by rw [Nat.mod_eq_of_lt hlt, ha], rfl, rfl⟩
        · omega
        · exact hb
      obtain ⟨b, hb, hf, hi⟩ := hsame
      obtain ⟨d₀, hd₀, -⟩ := initAndAcquire_ok hw i (BitVec.ofNat 8 index)
      rw [hd₀] at hnew
      cases hnew
      obtain ⟨d'', hr⟩ := release_narrowed hw sec rt hk i m hd₀ he h1
      rw [hb] at hr
      rw [← hf, ← hi]
      exact ⟨d'', hr⟩
    · cases hnew

def numbered (n : Nat) : AllocSection Unit Nat where
  allocators := (List.range n).map fun k => ⟨(), k, allocIdLinkSection⟩
  defined := by
    intro a ha
    obtain ⟨k, -, rfl⟩ := List.mem_map.mp ha
    rfl

theorem numbered_get {n k : Nat} (h : k < n) : (numbered n).allocators[k]? = some ⟨(), k, allocIdLinkSection⟩ := by
  rw [numbered, List.getElem?_map, List.getElem?_range h]
  rfl

theorem section_round_trip_numbered : RoundTrips 32 (numbered 200) 5 ⟨(), 5, allocIdLinkSection⟩ :=
  (section_round_trip_iff (by decide) (numbered 200) (numbered_get (by decide))).mpr (.inl (by decide))

theorem section_id_wraps : ¬ ∀ (sec : AllocSection Unit Nat) (index : Nat) (a : Allocator Unit Nat),
    sec.allocators[index]? = some a → RoundTrips 32 sec index a := by
  intro h
  have hrt := h (numbered 257) 256 _ (numbered_get (by decide))
  obtain ⟨d, hr⟩ := hrt ⟨fun _ => none, 0, Allocator.allocatorId⟩ 0 0 1 (by decide) [] 1 rfl (by decide)
  have hrel : release (numbered 257) ⟨fun _ => none, 0, Allocator.allocatorId⟩ 0 (1 : BitVec 32) =
      .ok (0, some (.allocator () 0 0)) := by
    rfl
  rw [hrel] at hr
  cases hr

end ZephyrPubSub
