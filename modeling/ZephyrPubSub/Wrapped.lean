import ZephyrPubSub.Layout
import ZephyrPubSub.Msg
import Mathlib.Logic.Function.Basic

/-!
# Messages in memory

Everything is found from the message pointer by subtracting offsets. The macros
that define a message in static memory place the header as a member in front of
a member of the message's type, and the functions expect it right in front of
the message: whether both agree depends on the alignment of that type.
-/

namespace ZephyrPubSub

open Function Layout

section
variable (k : Nat)

/-- `void *` and `atomic_t`, both of `2 ^ k` bytes. -/
def word : Member := ⟨2 ^ k, k⟩

/-- `fifo_reserved`, `atomic_data` and the flexible array `msg`. -/
def pubSubMsg : List Member := [word k, word k, ⟨0, k⟩]

/-- `callback` and `pub_sub_msg` -/
def pubSubMsgCallback : List Member := [word k, .struct (pubSubMsg k)]

/-- `timeout`, `subscriber` and `pub_sub_msg` -/
def pubSubMsgDelayable (timeout : Member) : List Member := [timeout, word k, .struct (pubSubMsg k)]

def wrapStaticMsg (msgType : Member) : List Member := [.struct (pubSubMsg k), msgType]

def wrapCallbackMsg (msgType : Member) : List Member := [.struct (pubSubMsgCallback k), msgType]

def msgOverheadNumBytes : Nat := (Member.struct (pubSubMsg k)).size

/-! ## Offsets -/

theorem offset_atomicData : offsetOf (pubSubMsg k) 1 = 2 ^ k := by
  show roundUp (roundUp 0 (2 ^ k) + 2 ^ k) (2 ^ k) = 2 ^ k
  rw [roundUp_zero _ (Nat.two_pow_pos k), Nat.zero_add, roundUp_pow (Nat.dvd_refl _) (Nat.le_refl k)]

theorem offset_msg : offsetOf (pubSubMsg k) 2 = 2 * 2 ^ k := by
  have h1 := offset_atomicData k
  show roundUp (offsetOf (pubSubMsg k) 1 + 2 ^ k) (2 ^ k) = 2 * 2 ^ k
  rw [h1, ← Nat.two_mul, roundUp_pow (Nat.dvd_mul_left _ _) (Nat.le_refl k)]

theorem maxLog_pubSubMsg : maxLog (pubSubMsg k) = k := by simp [maxLog, pubSubMsg, word]

theorem struct_pubSubMsg : Member.struct (pubSubMsg k) = ⟨2 * 2 ^ k, k⟩ := by
  have hend : offsetOf (pubSubMsg k) (pubSubMsg k).length = 2 * 2 ^ k := offset_msg k
  rw [Member.struct, hend, maxLog_pubSubMsg, roundUp_pow (Nat.dvd_mul_left _ _) (Nat.le_refl k)]

theorem overhead_eq : msgOverheadNumBytes k = 2 * 2 ^ k := by rw [msgOverheadNumBytes, struct_pubSubMsg]

theorem offset_callback : offsetOf (pubSubMsgCallback k) 0 = 0 := roundUp_zero _ (Nat.two_pow_pos k)

theorem offset_callbackMsg : offsetOf (pubSubMsgCallback k) 1 = 2 ^ k := by
  rw [pubSubMsgCallback, struct_pubSubMsg]
  exact offset_atomicData k

theorem struct_pubSubMsgCallback : Member.struct (pubSubMsgCallback k) = ⟨3 * 2 ^ k, k⟩ := by
  have hend : offsetOf (pubSubMsgCallback k) (pubSubMsgCallback k).length = 3 * 2 ^ k := by
    have h1 := offset_callbackMsg k
    show offsetOf (pubSubMsgCallback k) 1 + (Member.struct (pubSubMsg k)).size = 3 * 2 ^ k
    rw [h1, struct_pubSubMsg]
    show 2 ^ k + 2 * 2 ^ k = 3 * 2 ^ k
    omega
  have hlog : maxLog (pubSubMsgCallback k) = k := by
    rw [pubSubMsgCallback, struct_pubSubMsg]
    simp [maxLog, word]
  rw [Member.struct, hend, hlog, roundUp_pow (Nat.dvd_mul_left _ _) (Nat.le_refl k)]

theorem offset_staticMsg (T : Member) : offsetOf (wrapStaticMsg k T) 1 = roundUp (2 * 2 ^ k) T.align := by
  rw [wrapStaticMsg, struct_pubSubMsg]
  show roundUp (roundUp 0 (2 ^ k) + 2 * 2 ^ k) T.align = _
  rw [roundUp_zero _ (Nat.two_pow_pos k), Nat.zero_add]

theorem offset_wrapped (s : List Member) (T : Member) : offsetOf [.struct s, T] 0 = 0 :=
  roundUp_zero _ (Nat.two_pow_pos _)

theorem offset_callbackWrapped (T : Member) : offsetOf (wrapCallbackMsg k T) 1 = roundUp (3 * 2 ^ k) T.align := by
  rw [wrapCallbackMsg, struct_pubSubMsgCallback]
  show roundUp (roundUp 0 (2 ^ k) + 3 * 2 ^ k) T.align = _
  rw [roundUp_zero _ (Nat.two_pow_pos k), Nat.zero_add]

end

/-! ## Access through the message pointer -/

section
variable {w : Nat} (k : Nat)

/-- Words of memory at their addresses. -/
abbrev Words (w : Nat) := Nat → BitVec w

def psMsg (msg : Nat) : Nat := containerOf msg (pubSubMsg k) 2

def atomicDataAt (msg : Nat) : Nat := psMsg k msg + offsetOf (pubSubMsg k) 1

def callbackAt (msg : Nat) : Nat :=
  containerOf (psMsg k msg) (pubSubMsgCallback k) 1 + offsetOf (pubSubMsgCallback k) 0

def pubSubMsgInit (m : Words w) (msg : Nat) (i : MsgId) (a : AllocId) : Words w :=
  update m (atomicDataAt k msg) (msgInit i a)

def pubSubStaticMsgInit (m : Words w) (msg : Nat) (i : MsgId) : Words w :=
  pubSubMsgInit k m msg i allocIdStaticMsg

def pubSubCallbackMsgInit (m : Words w) (msg : Nat) (i : MsgId) (callback : BitVec w) : Words w :=
  pubSubMsgInit k (update m (callbackAt k msg) callback) msg i allocIdCallbackMsg

/-- The function `pub_sub_free_callback_msg` calls. -/
def pubSubFreeCallbackMsg (m : Words w) (msg : Nat) : BitVec w := m (callbackAt k msg)

/-- The getters read this of a message that was given the id `i` and the allocator id `a`. -/
def Reads (m : Words w) (msg : Nat) (i : MsgId) (a : AllocId) : Prop :=
  msgGetMsgId (m (atomicDataAt k msg)) = i ∧ msgGetAllocId (m (atomicDataAt k msg)) = a ∧
    msgGetRefCnt (m (atomicDataAt k msg)) = 0

def zeroed (m : Words w) (base size : Nat) : Words w := fun a => if base ≤ a ∧ a < base + size then 0 else m a

/-- `PUB_SUB_STATIC_MSG_DEFINE` with the object at `base`: the memory and the pointer. -/
def staticMsgDefine (T : Member) (base : Nat) (i : MsgId) (m : Words w) : Words w × Nat :=
  (update (zeroed m base (Member.struct (wrapStaticMsg k T)).size)
      (base + offsetOf (wrapStaticMsg k T) 0 + offsetOf (pubSubMsg k) 1) (msgInit i allocIdStaticMsg),
    base + offsetOf (wrapStaticMsg k T) 1)

/-- `PUB_SUB_STATIC_CALLBACK_MSG_DEFINE` -/
def staticCallbackMsgDefine (T : Member) (base : Nat) (i : MsgId) (callback : BitVec w) (m : Words w) :
    Words w × Nat :=
  (update
      (update (zeroed m base (Member.struct (wrapCallbackMsg k T)).size)
        (base + offsetOf (wrapCallbackMsg k T) 0 + offsetOf (pubSubMsgCallback k) 0) callback)
      (base + offsetOf (wrapCallbackMsg k T) 0 + offsetOf (pubSubMsgCallback k) 1 + offsetOf (pubSubMsg k) 1)
      (msgInit i allocIdCallbackMsg),
    base + offsetOf (wrapCallbackMsg k T) 1)

theorem psMsg_eq (msg : Nat) : psMsg k msg = msg - 2 * 2 ^ k := by
  unfold psMsg containerOf
  rw [offset_msg]

theorem atomicDataAt_eq (msg : Nat) : atomicDataAt k msg = msg - 2 * 2 ^ k + 2 ^ k := by
  unfold atomicDataAt
  rw [psMsg_eq, offset_atomicData]

theorem callbackAt_eq (msg : Nat) : callbackAt k msg = msg - 2 * 2 ^ k - 2 ^ k := by
  unfold callbackAt containerOf
  rw [psMsg_eq, offset_callbackMsg, offset_callback, Nat.add_zero]

theorem reads_init (hw : 32 ≤ w) (m : Words w) (msg : Nat) (i : MsgId) (a : AllocId) :
    Reads k (pubSubMsgInit k m msg i a) msg i a := by
  have hp := packs_init hw i a
  unfold Reads pubSubMsgInit
  rw [update_self]
  exact ⟨packs_getMsgId hp, packs_getAllocId hp, BitVec.eq_of_toNat_eq (packs_getRefCnt hp)⟩

/-- The word 0 is the header of a message of the first allocator of the linker section. -/
theorem not_reads_zero {m : Words w} {msg : Nat} {i : MsgId} {a : AllocId} (h0 : m (atomicDataAt k msg) = 0)
    (ha : a ≠ 0) : ¬ Reads k m msg i a := by
  rintro ⟨-, h, -⟩
  rw [h0] at h
  apply ha
  rw [← h, msgGetAllocId]
  exact BitVec.eq_of_toNat_eq (by simp)

/-! ## Where the members are -/

theorem dvd_two_iff (l : Nat) : 2 ^ l ∣ 2 * 2 ^ k ↔ l ≤ k + 1 := by
  rw [← Nat.pow_succ']
  exact Nat.pow_dvd_pow_iff_le_right (by decide)

theorem dvd_three_iff (l : Nat) : 2 ^ l ∣ 3 * 2 ^ k ↔ l ≤ k := by
  constructor
  · intro h
    have hc : Nat.Coprime (2 ^ l) 3 := Nat.Coprime.pow_left l (by decide)
    exact (Nat.pow_dvd_pow_iff_le_right (by decide)).mp (hc.dvd_of_dvd_mul_left h)
  · intro h
    exact Nat.dvd_trans (Nat.pow_dvd_pow 2 h) (Nat.dvd_mul_left _ _)

theorem offset_le_size (f T : Member) : offsetOf [f, T] 1 ≤ (Member.struct [f, T]).size := by
  have h : offsetOf [f, T] 2 = offsetOf [f, T] 1 + T.size := rfl
  have hle := le_roundUp (offsetOf [f, T] 2) (Nat.two_pow_pos (maxLog [f, T]))
  show offsetOf [f, T] 1 ≤ roundUp (offsetOf [f, T] 2) (2 ^ maxLog [f, T])
  omega

/-- Where the type is too aligned, at least one word lies between the header and the message. -/
theorem gap {n : Nat} (T : Member) (hn : 2 ^ k ∣ n) (h : ¬ T.align ∣ n) (hlog : k ≤ T.log) :
    n + 2 ^ k ≤ roundUp n T.align := by
  have hle := le_roundUp n T.align_pos
  have hne : roundUp n T.align ≠ n := fun he => h ((roundUp_eq_iff n T.align_pos).mp he)
  obtain ⟨q, hq⟩ := hn
  obtain ⟨r, hr⟩ := Nat.dvd_trans (Nat.pow_dvd_pow 2 hlog) (dvd_roundUp n T.align)
  have hlt : q < r := Nat.lt_of_mul_lt_mul_left (a := 2 ^ k) (by omega)
  have := Nat.mul_le_mul_left (2 ^ k) hlt
  rw [Nat.mul_succ] at this
  omega

section
variable {k} (hw : 32 ≤ w) (T : Member) (base : Nat) (i : MsgId) (m : Words w)
include hw

theorem static_reads_iff :
    Reads k (staticMsgDefine k T base i m).1 (staticMsgDefine k T base i m).2 i allocIdStaticMsg ↔
      T.log ≤ k + 1 := by
  have hr := offset_staticMsg k T
  have h0 : offsetOf (wrapStaticMsg k T) 0 = 0 := offset_wrapped (pubSubMsg k) T
  have hsize := offset_le_size (.struct (pubSubMsg k)) T
  have hpos := Nat.two_pow_pos k
  rw [← dvd_two_iff k T.log]
  constructor
  · intro hreads
    by_contra hd
    have hlog : k ≤ T.log := by
      by_contra hlt
      exact hd (Nat.dvd_trans (Nat.pow_dvd_pow 2 (by omega)) (Nat.dvd_mul_left (2 ^ k) 2))
    have hgap := gap k T (Nat.dvd_mul_left (2 ^ k) 2) hd hlog
    refine not_reads_zero k ?_ (by decide) hreads
    rw [atomicDataAt_eq]
    simp only [staticMsgDefine, hr, h0, offset_atomicData]
    rw [update_of_ne (by omega), zeroed, if_pos]
    rw [← hr]
    unfold wrapStaticMsg at hr ⊢
    omega
  · intro hd
    have he := (roundUp_eq_iff (2 * 2 ^ k) T.align_pos).mpr hd
    have hat : atomicDataAt k (base + 2 * 2 ^ k) = base + 2 ^ k := by
      rw [atomicDataAt_eq]
      omega
    have := reads_init k hw (zeroed m base (Member.struct (wrapStaticMsg k T)).size) (base + 2 * 2 ^ k) i
      allocIdStaticMsg
    rw [pubSubMsgInit, hat] at this
    simpa only [staticMsgDefine, hr, h0, offset_atomicData, he, Nat.add_zero] using this

theorem callback_reads_iff (callback : BitVec w) :
    Reads k (staticCallbackMsgDefine k T base i callback m).1 (staticCallbackMsgDefine k T base i callback m).2 i
        allocIdCallbackMsg ∧
      pubSubFreeCallbackMsg k (staticCallbackMsgDefine k T base i callback m).1
        (staticCallbackMsgDefine k T base i callback m).2 = callback ↔ T.log ≤ k := by
  have hr := offset_callbackWrapped k T
  have h0 : offsetOf (wrapCallbackMsg k T) 0 = 0 := offset_wrapped (pubSubMsgCallback k) T
  have hsize := offset_le_size (.struct (pubSubMsgCallback k)) T
  have hpos := Nat.two_pow_pos k
  rw [← dvd_three_iff k T.log]
  constructor
  · rintro ⟨hreads, -⟩
    by_contra hd
    have hlog : k ≤ T.log := by
      by_contra hlt
      exact hd (Nat.dvd_trans (Nat.pow_dvd_pow 2 (by omega)) (Nat.dvd_mul_left (2 ^ k) 3))
    have hgap := gap k T (Nat.dvd_mul_left (2 ^ k) 3) hd hlog
    refine not_reads_zero k ?_ (by decide) hreads
    rw [atomicDataAt_eq]
    simp only [staticCallbackMsgDefine, hr, h0, offset_atomicData, offset_callback, offset_callbackMsg]
    rw [update_of_ne (by omega), update_of_ne (by omega), zeroed, if_pos]
    unfold wrapCallbackMsg at hr ⊢
    omega
  · intro hd
    have he := (roundUp_eq_iff (3 * 2 ^ k) T.align_pos).mpr hd
    have hat : atomicDataAt k (base + 3 * 2 ^ k) = base + 2 ^ k + 2 ^ k := by
      rw [atomicDataAt_eq]
      omega
    have hcb : callbackAt k (base + 3 * 2 ^ k) = base := by
      rw [callbackAt_eq]
      omega
    simp only [staticCallbackMsgDefine, hr, h0, offset_atomicData, offset_callback, offset_callbackMsg, he,
      Nat.add_zero]
    constructor
    · have := reads_init k hw
        (update (zeroed m base (Member.struct (wrapCallbackMsg k T)).size) base callback) (base + 3 * 2 ^ k) i
        allocIdCallbackMsg
      rwa [pubSubMsgInit, hat] at this
    · rw [pubSubFreeCallbackMsg, hcb, update_of_ne (by omega), update_self]

theorem staticInit_reads :
    Reads k (pubSubStaticMsgInit k m (base + offsetOf (wrapStaticMsg k T) 1) i)
      (base + offsetOf (wrapStaticMsg k T) 1) i
        allocIdStaticMsg ∧
      ∀ a, a < base ∨ base + offsetOf (wrapStaticMsg k T) 1 < a + 2 ^ k →
        pubSubStaticMsgInit k m (base + offsetOf (wrapStaticMsg k T) 1) i a = m a := by
  have hr := offset_staticMsg k T
  have hle := le_roundUp (2 * 2 ^ k) T.align_pos
  have hat := atomicDataAt_eq k (base + offsetOf (wrapStaticMsg k T) 1)
  constructor
  · exact reads_init k hw m _ i allocIdStaticMsg
  · intro a ha
    rw [pubSubStaticMsgInit, pubSubMsgInit, update_of_ne (by omega)]

theorem callbackInit_reads (callback : BitVec w) :
    Reads k (pubSubCallbackMsgInit k m (base + offsetOf (wrapCallbackMsg k T) 1) i callback)
        (base + offsetOf (wrapCallbackMsg k T) 1) i allocIdCallbackMsg ∧
      pubSubFreeCallbackMsg k (pubSubCallbackMsgInit k m (base + offsetOf (wrapCallbackMsg k T) 1) i callback)
        (base + offsetOf (wrapCallbackMsg k T) 1) = callback ∧
      ∀ a, a < base ∨ base + offsetOf (wrapCallbackMsg k T) 1 < a + 2 ^ k →
        pubSubCallbackMsgInit k m (base + offsetOf (wrapCallbackMsg k T) 1) i callback a = m a := by
  have hr := offset_callbackWrapped k T
  have hle := le_roundUp (3 * 2 ^ k) T.align_pos
  have hpos := Nat.two_pow_pos k
  have hat := atomicDataAt_eq k (base + offsetOf (wrapCallbackMsg k T) 1)
  have hcb := callbackAt_eq k (base + offsetOf (wrapCallbackMsg k T) 1)
  refine ⟨reads_init k hw _ _ i allocIdCallbackMsg, ?_, ?_⟩
  · rw [pubSubFreeCallbackMsg, pubSubCallbackMsgInit, pubSubMsgInit, update_of_ne (by omega), update_self]
  · intro a ha
    rw [pubSubCallbackMsgInit, pubSubMsgInit, update_of_ne (by omega), update_of_ne (by omega)]

/-- A message that the macros define is found through its pointer exactly if its
type needs no padding behind the header of two or three words; one that is
initialized through its pointer is always found, with nothing written outside the
wrapper's header. -/
theorem wrapped_found_iff (callback : BitVec w) :
    (Reads k (staticMsgDefine k T base i m).1 (staticMsgDefine k T base i m).2 i allocIdStaticMsg ↔
      T.log ≤ k + 1) ∧
    (Reads k (staticCallbackMsgDefine k T base i callback m).1 (staticCallbackMsgDefine k T base i callback m).2 i
        allocIdCallbackMsg ∧
      pubSubFreeCallbackMsg k (staticCallbackMsgDefine k T base i callback m).1
        (staticCallbackMsgDefine k T base i callback m).2 = callback ↔ T.log ≤ k) ∧
    (Reads k (pubSubStaticMsgInit k m (base + offsetOf (wrapStaticMsg k T) 1) i) (base + offsetOf (wrapStaticMsg k T) 1)
        i allocIdStaticMsg ∧
      ∀ a, a < base ∨ base + offsetOf (wrapStaticMsg k T) 1 < a + 2 ^ k →
        pubSubStaticMsgInit k m (base + offsetOf (wrapStaticMsg k T) 1) i a = m a) ∧
    Reads k (pubSubCallbackMsgInit k m (base + offsetOf (wrapCallbackMsg k T) 1) i callback)
        (base + offsetOf (wrapCallbackMsg k T) 1) i allocIdCallbackMsg ∧
      pubSubFreeCallbackMsg k (pubSubCallbackMsgInit k m (base + offsetOf (wrapCallbackMsg k T) 1) i callback)
        (base + offsetOf (wrapCallbackMsg k T) 1) = callback ∧
      ∀ a, a < base ∨ base + offsetOf (wrapCallbackMsg k T) 1 < a + 2 ^ k →
        pubSubCallbackMsgInit k m (base + offsetOf (wrapCallbackMsg k T) 1) i callback a = m a :=
  ⟨static_reads_iff hw T base i m, callback_reads_iff hw T base i m callback,
    staticInit_reads hw T base i m, callbackInit_reads hw T base i m callback⟩

end

theorem wrapped_found_iff_uint64 :
    Reads 2 (staticMsgDefine 2 ⟨8, 3⟩ 0x2000 7 (fun _ => (0 : BitVec 32))).1
        (staticMsgDefine 2 ⟨8, 3⟩ 0x2000 7 (fun _ => (0 : BitVec 32))).2 7 allocIdStaticMsg ∧
    ¬ (Reads 2 (staticCallbackMsgDefine 2 ⟨8, 3⟩ 0x2000 7 0x100 (fun _ => (0 : BitVec 32))).1
        (staticCallbackMsgDefine 2 ⟨8, 3⟩ 0x2000 7 0x100 (fun _ => (0 : BitVec 32))).2 7 allocIdCallbackMsg ∧
      pubSubFreeCallbackMsg 2 (staticCallbackMsgDefine 2 ⟨8, 3⟩ 0x2000 7 0x100 (fun _ => (0 : BitVec 32))).1
        (staticCallbackMsgDefine 2 ⟨8, 3⟩ 0x2000 7 0x100 (fun _ => (0 : BitVec 32))).2 = 0x100) ∧
    Reads 2 (pubSubCallbackMsgInit 2 (fun _ => (0 : BitVec 32)) (0x2000 + offsetOf (wrapCallbackMsg 2 ⟨8, 3⟩) 1) 7 0x100)
      (0x2000 + offsetOf (wrapCallbackMsg 2 ⟨8, 3⟩) 1) 7 allocIdCallbackMsg := by
  obtain ⟨hstatic, hcallback, -, hinit, -⟩ :=
    wrapped_found_iff (k := 2) (by decide) ⟨8, 3⟩ 0x2000 7 (fun _ => (0 : BitVec 32)) 0x100
  refine ⟨hstatic.mpr (by decide), ?_, hinit⟩
  intro hf
  exact absurd (hcallback.mp hf) (by decide)

end

/-! ## Delayable messages -/

section
variable {w : Nat} (k : Nat) (timeout : Member)

/-- `offsetof(struct pub_sub_msg_delayable, pub_sub_msg.msg)` -/
def delayableMsgOffset : Nat := offsetOf (pubSubMsgDelayable k timeout) 2 + offsetOf (pubSubMsg k) 2

/-- The union of `PUB_SUB_STATIC_DELAYABLE_MSG_DEFINE`, the second member being an array of bytes. -/
def delayableMsgUnion (T : Member) : Member :=
  .union [.struct (pubSubMsgDelayable k timeout), ⟨delayableMsgOffset k timeout + T.size, 0⟩]

def delayableMsgAt (msg : Nat) : Nat := containerOf (psMsg k msg) (pubSubMsgDelayable k timeout) 2

def timeoutAt (msg : Nat) : Nat := delayableMsgAt k timeout msg + offsetOf (pubSubMsgDelayable k timeout) 0

def subscriberAt (msg : Nat) : Nat := delayableMsgAt k timeout msg + offsetOf (pubSubMsgDelayable k timeout) 1

def msgOfTimeout (t : Nat) : Nat := containerOf t (pubSubMsgDelayable k timeout) 0 + delayableMsgOffset k timeout

/-- `PUB_SUB_STATIC_DELAYABLE_MSG_DEFINE`; what is in the timeout is the kernel's. -/
def staticDelayableMsgDefine (T : Member) (base : Nat) (i : MsgId) (subscriber : BitVec w) (m : Words w) :
    Words w × Nat :=
  (update
      (update (zeroed m base (delayableMsgUnion k timeout T).size)
        (base + offsetOf (pubSubMsgDelayable k timeout) 1) subscriber)
      (base + offsetOf (pubSubMsgDelayable k timeout) 2 + offsetOf (pubSubMsg k) 1) (msgInit i allocIdStaticMsg),
    base + delayableMsgOffset k timeout)

def pubSubDelayableMsgInit (m : Words w) (msg : Nat) (subscriber : BitVec w) (i : MsgId) : Words w :=
  pubSubMsgInit k (update m (subscriberAt k timeout msg) subscriber) msg i allocIdStaticMsg

theorem offset_timeout : offsetOf (pubSubMsgDelayable k timeout) 0 = 0 := roundUp_zero _ timeout.align_pos

theorem offset_subscriber : offsetOf (pubSubMsgDelayable k timeout) 1 = roundUp timeout.size (2 ^ k) := by
  show roundUp (roundUp 0 timeout.align + timeout.size) (2 ^ k) = _
  rw [roundUp_zero _ timeout.align_pos, Nat.zero_add]

theorem offset_delayable : offsetOf (pubSubMsgDelayable k timeout) 2 = roundUp timeout.size (2 ^ k) + 2 ^ k := by
  have h1 := offset_subscriber k timeout
  have hd : 2 ^ k ∣ roundUp timeout.size (2 ^ k) + 2 ^ k := Nat.dvd_add (dvd_roundUp ..) (Nat.dvd_refl _)
  rw [pubSubMsgDelayable, struct_pubSubMsg] at h1 ⊢
  show roundUp (offsetOf [timeout, word k, ⟨2 * 2 ^ k, k⟩] 1 + 2 ^ k) (2 ^ k) = _
  rw [h1, roundUp_pow hd (Nat.le_refl k)]

theorem delayableMsgOffset_eq : delayableMsgOffset k timeout = roundUp timeout.size (2 ^ k) + 3 * 2 ^ k := by
  unfold delayableMsgOffset
  rw [offset_delayable, offset_msg]
  omega

theorem log_delayableMsgUnion (T : Member) : (delayableMsgUnion k timeout T).log = max timeout.log k := by
  have hlog : maxLog (pubSubMsgDelayable k timeout) = max timeout.log k := by
    rw [pubSubMsgDelayable, struct_pubSubMsg]
    simp [maxLog, word]
  show max (maxLog (pubSubMsgDelayable k timeout)) (max 0 0) = max timeout.log k
  rw [hlog, Nat.max_self, Nat.max_zero]

/-! ### Where the functions look -/

variable (base : Nat)

theorem delayableMsgAt_msg : delayableMsgAt k timeout (base + delayableMsgOffset k timeout) = base := by
  unfold delayableMsgAt psMsg delayableMsgOffset
  rw [← Nat.add_assoc, containerOf_add, containerOf_add]

theorem timeoutAt_msg : timeoutAt k timeout (base + delayableMsgOffset k timeout) = base := by
  rw [timeoutAt, delayableMsgAt_msg, offset_timeout, Nat.add_zero]

theorem subscriberAt_msg : subscriberAt k timeout (base + delayableMsgOffset k timeout) =
    base + roundUp timeout.size (2 ^ k) := by
  rw [subscriberAt, delayableMsgAt_msg, offset_subscriber]

theorem atomicDataAt_msg : atomicDataAt k (base + delayableMsgOffset k timeout) =
    base + (roundUp timeout.size (2 ^ k) + 2 ^ k) + 2 ^ k := by
  rw [atomicDataAt_eq, delayableMsgOffset_eq]
  omega

theorem msgOfTimeout_base : msgOfTimeout k timeout base = base + delayableMsgOffset k timeout := by
  rw [msgOfTimeout, containerOf, offset_timeout, Nat.sub_zero]

/-- Every function finds the timer, the subscriber and the header of a delayable
message of any type, defined or initialized at run time, and the timer's handler
finds the message again. But the macro does not align the message for its type:
it is aligned wherever the object lies exactly if the type is no more aligned than the
object is and the message's offset happens to be a multiple of its alignment. -/
theorem delayable_found (hw : 32 ≤ w) (T : Member) (i : MsgId) (subscriber : BitVec w) (m : Words w) {d : Words w × Nat}
    (hd : d = staticDelayableMsgDefine k timeout T base i subscriber m ∨
      d = (pubSubDelayableMsgInit k timeout m (base + delayableMsgOffset k timeout) subscriber i,
        base + delayableMsgOffset k timeout)) :
    Reads k d.1 d.2 i allocIdStaticMsg ∧ d.1 (subscriberAt k timeout d.2) = subscriber ∧
    timeoutAt k timeout d.2 = base ∧ msgOfTimeout k timeout (timeoutAt k timeout d.2) = d.2 ∧
    d.2 + T.size ≤ base + (delayableMsgUnion k timeout T).size ∧
    ((∀ base, (delayableMsgUnion k timeout T).align ∣ base →
        T.align ∣ (staticDelayableMsgDefine k timeout T base i subscriber m).2) ↔
      T.log ≤ max timeout.log k ∧ T.align ∣ roundUp timeout.size (2 ^ k) + 3 * 2 ^ k) := by
  have hpos := Nat.two_pow_pos k
  have hptr : d.2 = base + delayableMsgOffset k timeout := by
    rcases hd with rfl | rfl <;> rfl
  have hwords : ∃ m', d.1 = pubSubMsgInit k (update m' (base + roundUp timeout.size (2 ^ k)) subscriber)
      (base + delayableMsgOffset k timeout) i allocIdStaticMsg := by
    rcases hd with rfl | rfl
    · refine ⟨zeroed m base (delayableMsgUnion k timeout T).size, ?_⟩
      rw [staticDelayableMsgDefine, pubSubMsgInit, atomicDataAt_msg, offset_subscriber, offset_delayable,
        offset_atomicData]
    · refine ⟨m, ?_⟩
      rw [pubSubDelayableMsgInit, subscriberAt_msg]
  obtain ⟨m', hm'⟩ := hwords
  rw [hptr, timeoutAt_msg, hm']
  refine ⟨reads_init k hw _ _ i allocIdStaticMsg, ?_, rfl, msgOfTimeout_base k timeout base, ?_, ?_⟩
  · rw [subscriberAt_msg, pubSubMsgInit, atomicDataAt_msg, update_of_ne (by omega), update_self]
  · have hle : delayableMsgOffset k timeout + T.size ≤ (delayableMsgUnion k timeout T).size :=
      size_le_union (f := ⟨delayableMsgOffset k timeout + T.size, 0⟩) (by simp)
    omega
  · rw [← log_delayableMsgUnion k timeout T, ← delayableMsgOffset_eq]
    exact aligned_at_iff T (delayableMsgUnion k timeout T) (delayableMsgOffset k timeout)

end

theorem delayable_found_uint64 :
    Reads 2 (staticDelayableMsgDefine 2 ⟨24, 3⟩ ⟨8, 3⟩ 0x2000 7 0x100 (fun _ => (0 : BitVec 32))).1
        (staticDelayableMsgDefine 2 ⟨24, 3⟩ ⟨8, 3⟩ 0x2000 7 0x100 (fun _ => (0 : BitVec 32))).2 7 allocIdStaticMsg ∧
      ¬ ∀ base, (delayableMsgUnion 2 ⟨24, 3⟩ ⟨8, 3⟩).align ∣ base → Member.align ⟨8, 3⟩ ∣
        (staticDelayableMsgDefine 2 ⟨24, 3⟩ ⟨8, 3⟩ base 7 0x100 (fun _ => (0 : BitVec 32))).2 := by
  have h := delayable_found 2 ⟨24, 3⟩ 0x2000 (by decide) ⟨8, 3⟩ 7 0x100 (fun _ => (0 : BitVec 32)) (Or.inl rfl)
  exact ⟨h.1, fun hall => absurd (h.2.2.2.2.2.mp hall).2 (by decide)⟩

end ZephyrPubSub
