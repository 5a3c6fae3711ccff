import ZephyrPubSub.Mem
import Mathlib.Data.List.Range
import Mathlib.Data.List.Nodup
import Mathlib.Data.List.Induction

/-!
# Runtime allocators

`pub_sub_add_runtime_allocator` numbers the allocators of type `A`. `max` is
`CONFIG_PUB_SUB_RUNTIME_ALLOCATORS_MAX_NUM`, which Kconfig leaves open.
-/

namespace ZephyrPubSub

open Function

variable {A : Type}

/-- `g_runtime_allocators`, with the `allocator_id` of every allocator. -/
structure RuntimeAllocators (A : Type) where
  allocators : Nat → Option A
  numAllocators : Nat
  allocatorId : A → AllocId

def enomem : Int := 12

/-- The return value and the new table. -/
def addRuntimeAllocator [DecidableEq A] (max : Nat) (t : RuntimeAllocators A) (allocator : A) :
    Int × RuntimeAllocators A :=
  if t.numAllocators < max then
    -- a `uint8_t`
    let allocatorId : BitVec 8 := BitVec.ofNat 8 t.numAllocators
    (0, { allocators := update t.allocators allocatorId.toNat (some allocator)
          numAllocators := t.numAllocators + 1
          allocatorId := update t.allocatorId allocator (allocatorId + allocIdRuntimeOffset) })
  else (-enomem, t)

structure RuntimeAllocators.Init (t : RuntimeAllocators A) : Prop where
  allocators : ∀ i, t.allocators i = none
  numAllocators : t.numAllocators = 0

section
variable [DecidableEq A] (max : Nat)

def addAll (t : RuntimeAllocators A) (as : List A) : RuntimeAllocators A :=
  as.foldl (fun t a => (addRuntimeAllocator max t a).2) t

def given : RuntimeAllocators A → List A → List AllocId
  | _, [] => []
  | t, a :: as =>
    let r := addRuntimeAllocator max t a
    if r.1 = 0 then r.2.allocatorId a :: given r.2 as else given r.2 as

def reservedAllocIds : List AllocId :=
  [allocIdLinkSection, allocIdCallbackMsg, allocIdStaticMsg, allocIdInvalid]

/-- What the ids are for, in a sequence `as` of calls. -/
structure IdsIdentify (t : RuntimeAllocators A) (as : List A) : Prop where
  distinct : (given max t as).Nodup
  unreserved : ∀ id ∈ given max t as, allocIdLinkSectionMaxId < id ∧ id ∉ reservedAllocIds
  /-- The last release of a message with an id given to `a` calls `a`'s `free`. -/
  release : ∀ before a after, as = before ++ a :: after →
    (addRuntimeAllocator max (addAll max t before) a).1 = 0 →
    ∀ (μ : Mem) m h, μ.life m = .live h → h.refCnt = 1 →
      h.allocId = (addRuntimeAllocator max (addAll max t before) a).2.allocatorId a →
      ∃ μ' i, μ.releaseMsg (addAll max t as).numAllocators m = .ok μ' ∧
        μ'.freeCalls = μ.freeCalls ++ [.runtime i m] ∧ (addAll max t as).allocators i = some a
  /-- The last release of a static or callback message calls no allocator's `free`. -/
  static : ∀ (μ : Mem) m h, μ.life m = .live h → h.refCnt = 1 →
    h.allocId = allocIdStaticMsg ∨ h.allocId = allocIdCallbackMsg →
    ∃ μ', μ.releaseMsg (addAll max t as).numAllocators m = .ok μ' ∧
      (μ'.freeCalls = μ.freeCalls ∨ μ'.freeCalls = μ.freeCalls ++ [.callback m])
  /-- A call that fails changes neither the table nor the allocator. -/
  full : ∀ before a after, as = before ++ a :: after →
    (addRuntimeAllocator max (addAll max t before) a).1 = -enomem →
    (addRuntimeAllocator max (addAll max t before) a).2 = addAll max t before

end

/-! ## The numbering -/

def runtimeId (k : Nat) : AllocId := BitVec.ofNat 8 k + allocIdRuntimeOffset

theorem runtimeId_toNat {k : Nat} (h : k < 128) : (runtimeId k).toNat = k + 128 := by
  rw [runtimeId, BitVec.toNat_add, BitVec.toNat_ofNat]
  show (k % 256 + 128) % 256 = _
  omega

section
variable [DecidableEq A] {max : Nat} {t : RuntimeAllocators A}

theorem add_ok (h : t.numAllocators < max) (a : A) :
    addRuntimeAllocator max t a =
      (0, { allocators := update t.allocators (t.numAllocators % 256) (some a)
            numAllocators := t.numAllocators + 1
            allocatorId := update t.allocatorId a (runtimeId t.numAllocators) }) := by
  rw [addRuntimeAllocator, if_pos h]
  simp only [BitVec.toNat_ofNat, runtimeId]

theorem add_full (h : ¬ t.numAllocators < max) (a : A) : addRuntimeAllocator max t a = (-enomem, t) :=
  if_neg h

theorem lt_of_add_ok {a : A} (h : (addRuntimeAllocator max t a).1 = 0) : t.numAllocators < max := by
  by_contra hn
  rw [add_full hn] at h
  cases h

theorem given_eq (as : List A) :
    given max t as = (List.range' t.numAllocators (min as.length (max - t.numAllocators))).map runtimeId := by
  induction as generalizing t with
  | nil => simp [given]
  | cons a as ih =>
    by_cases h : t.numAllocators < max
    · have hlen : min (as.length + 1) (max - t.numAllocators) =
          min as.length (max - (t.numAllocators + 1)) + 1 := by omega
      rw [given, add_ok h, if_pos rfl, ih, List.length_cons, hlen, List.range'_succ, List.map_cons]
      simp only [update_self]
    · have hlen : min (as.length + 1) (max - t.numAllocators) = 0 := by omega
      have hlen' : min as.length (max - t.numAllocators) = 0 := by omega
      rw [given, add_full h, if_neg (show -enomem ≠ 0 by decide), ih, List.length_cons, hlen, hlen']

/-- What the calls for the distinct allocators `as` have done. -/
structure Added (max : Nat) (as : List A) (t : RuntimeAllocators A) : Prop where
  count : t.numAllocators = min as.length max
  table : t.numAllocators ≤ 256 → ∀ k < t.numAllocators, t.allocators k = as[k]?

theorem added_init (h : t.Init) : Added max [] t := by
  refine ⟨by simp [h.numAllocators], ?_⟩
  intro _ k hk
  rw [h.numAllocators] at hk
  omega

theorem Added.add {as : List A} (h : Added max as t) (a : A) :
    Added max (as ++ [a]) (addRuntimeAllocator max t a).2 := by
  have hc := h.count
  by_cases hlt : t.numAllocators < max
  · rw [add_ok hlt]
    refine ⟨by simp only [List.length_append, List.length_singleton]; omega, ?_⟩
    intro hle k hk
    simp only at hle hk
    have hmod : t.numAllocators % 256 = t.numAllocators := by omega
    have hlen : t.numAllocators = as.length := by omega
    simp only [hmod]
    by_cases hkn : k = t.numAllocators
    · rw [hkn, update_self, hlen]
      simp
    · rw [update_of_ne hkn, h.table (by omega) k (by omega), List.getElem?_append_left (by omega)]
  · rw [add_full hlt]
    refine ⟨by simp only [List.length_append, List.length_singleton]; omega, ?_⟩
    intro hle k hk
    have hlen : k < as.length := by
      show k < as.length
      simp only at hk
      omega
    rw [h.table hle k hk, List.getElem?_append_left hlen]

theorem added_all (max : Nat) (h : t.Init) (as : List A) : Added max as (addAll max t as) := by
  induction as using List.reverseRecOn with
  | nil => exact added_init h
  | append_singleton as a ih =>
    rw [addAll, List.foldl_append]
    exact ih.add a

/-! ## When the ids identify -/

theorem given_init (h : t.Init) (as : List A) :
    given max t as = (List.range (min as.length max)).map runtimeId := by
  rw [given_eq, h.numAllocators, Nat.sub_zero, List.range_eq_range']

theorem runtimeId_inj {k l : Nat} (hk : k < 124) (hl : l < 124) (h : runtimeId k = runtimeId l) : k = l := by
  have hn := congrArg BitVec.toNat h
  rw [runtimeId_toNat (by omega), runtimeId_toNat (by omega)] at hn
  omega

theorem runtimeId_unreserved {k : Nat} (hk : k < 124) :
    allocIdLinkSectionMaxId < runtimeId k ∧ runtimeId k ∉ reservedAllocIds := by
  have hn := runtimeId_toNat (k := k) (by omega)
  constructor
  · rw [BitVec.lt_def, hn]
    show 127 < _
    omega
  · intro hmem
    have hcases : ∀ a ∈ reservedAllocIds, 252 ≤ a.toNat := by decide
    have := hcases _ hmem
    omega

theorem releaseMsg_runtime {n k : Nat} {μ : Mem} {m : Msg} {h : Hdr} (hk : k < 124) (hn : k < n)
    (hl : μ.life m = .live h) (hr : h.refCnt = 1) (ha : h.allocId = runtimeId k) :
    ∃ μ', μ.releaseMsg n m = .ok μ' ∧ μ'.freeCalls = μ.freeCalls ++ [.runtime k m] := by
  have hid := runtimeId_toNat (k := k) (by omega)
  have hsec : ¬ runtimeId k ≤ allocIdLinkSectionMaxId := BitVec.not_le.2 (runtimeId_unreserved hk).1
  have hidx : (runtimeId k).toNat - allocIdRuntimeOffset.toNat = k := by
    rw [hid]
    show k + 128 - 128 = k
    omega
  refine ⟨_, Mem.releaseMsg_last hl hr, ?_⟩
  rw [Mem.freeMsg, ha, if_neg hsec, hidx, if_pos hn]
  rfl

theorem releaseMsg_static {n : Nat} {μ : Mem} {m : Msg} {h : Hdr} (hn : n ≤ 125)
    (hl : μ.life m = .live h) (hr : h.refCnt = 1)
    (ha : h.allocId = allocIdStaticMsg ∨ h.allocId = allocIdCallbackMsg) :
    ∃ μ', μ.releaseMsg n m = .ok μ' ∧
      (μ'.freeCalls = μ.freeCalls ∨ μ'.freeCalls = μ.freeCalls ++ [.callback m]) := by
  refine ⟨_, Mem.releaseMsg_last hl hr, ?_⟩
  rcases ha with ha | ha
  · rw [Mem.freeMsg_static (by omega) _ _ (h := { h with refCnt := 0 }) ha]
    exact Or.inl rfl
  · rw [Mem.freeMsg_callback hn _ _ (h := { h with refCnt := 0 }) ha]
    exact Or.inr rfl

theorem idsIdentify_of_le (h : t.Init) {as : List A} (hn : min as.length max ≤ 124) :
    IdsIdentify max t as := by
  have hall := added_all max h as
  have hnum : (addAll max t as).numAllocators ≤ 124 := by rwa [hall.count]
  constructor
  · rw [given_init h]
    apply List.nodup_range.map_on
    intro k hk l hl
    rw [List.mem_range] at hk hl
    exact runtimeId_inj (by omega) (by omega)
  · intro id hid
    rw [given_init h] at hid
    obtain ⟨k, hk, rfl⟩ := List.mem_map.1 hid
    rw [List.mem_range] at hk
    exact runtimeId_unreserved (by omega)
  · intro before a after has hret μ m hd hl hr hid
    have hb := added_all max h before
    have hlt := lt_of_add_ok hret
    have hlen : (addAll max t before).numAllocators = before.length := by
      have := hb.count
      omega
    have hk : before.length < (addAll max t as).numAllocators := by
      rw [hall.count, has, List.length_append, List.length_cons]
      omega
    rw [add_ok hlt, hlen] at hid
    simp only [update_self] at hid
    obtain ⟨μ', heq, hfree⟩ := releaseMsg_runtime (by omega) hk hl hr hid
    refine ⟨μ', before.length, heq, hfree, ?_⟩
    rw [hall.table (by omega) _ hk, has]
    simp
  · intro μ m hd hl hr ha
    exact releaseMsg_static (by omega) hl hr ha
  · intro before a after _ hret
    by_cases hlt : (addAll max t before).numAllocators < max
    · rw [add_ok hlt] at hret
      cases hret
    · rw [add_full hlt]

/-- The 125th allocator is given `PUB_SUB_ALLOC_ID_LINK_SECTION`. -/
theorem given_reserved (max : Nat) (h : t.Init) (as : List A) (hn : 124 < min as.length max) :
    allocIdLinkSection ∈ given max t as := by
  rw [given_init h]
  exact List.mem_map.2 ⟨124, List.mem_range.2 hn, by decide⟩

/-- The ids identify the allocators exactly while no more than 124 of them are added. -/
theorem ids_identify_iff (h : t.Init) (as : List A) : IdsIdentify max t as ↔ min as.length max ≤ 124 := by
  constructor
  · intro hid
    by_contra hn
    have hmem := given_reserved max h as (by omega)
    exact (hid.unreserved _ hmem).2 (by decide)
  · exact idsIdentify_of_le h

end

theorem ids_identify_two : IdsIdentify 5 (⟨fun _ => none, 0, fun _ => 0⟩ : RuntimeAllocators Nat) [0, 1] :=
  (ids_identify_iff ⟨fun _ => rfl, rfl⟩ [0, 1]).mpr (by decide)

/-- With room for 125 allocators the last one gets a reserved id. -/
theorem ids_collide : ∃ as : List Nat, as.Nodup ∧
    ¬ IdsIdentify 125 (⟨fun _ => none, 0, fun _ => 0⟩ : RuntimeAllocators Nat) as := by
  refine ⟨List.range 125, List.nodup_range, ?_⟩
  intro hid
  have hmem := given_reserved 125 (t := (⟨fun _ => none, 0, fun _ => 0⟩ : RuntimeAllocators Nat))
    ⟨fun _ => rfl, rfl⟩ (List.range 125) (by simp)
  exact (hid.unreserved _ hmem).2 (by decide)

end ZephyrPubSub
