import Mathlib.Algebra.GroupWithZero.Nat
import Mathlib.Data.List.Basic
import Mathlib.Tactic.Cases

/-!
# Message header

`atomic_data` packs the message id (bits 31..16), the allocator id (15..8) and
the reference count (7..0) into one `atomic_t` of `w` bits, `w` being 32 or 64.
`Hdr` is the record the rest of the development works with; `Packs` relates a
word to it, and every header function of the source respects that relation.
-/

namespace ZephyrPubSub

abbrev MsgId := BitVec 16
abbrev AllocId := BitVec 8

def allocIdInvalid : AllocId := 0xFF
def allocIdStaticMsg : AllocId := 0xFE
def allocIdCallbackMsg : AllocId := 0xFD
def allocIdLinkSection : AllocId := 0xFC
def allocIdLinkSectionMaxId : AllocId := 0x7F
def allocIdRuntimeOffset : AllocId := 0x80

structure Hdr where
  msgId : MsgId
  allocId : AllocId
  refCnt : Nat
  deriving DecidableEq, Repr

/-! ## The packed word -/

section
variable {w : Nat}

/-- `pub_sub_msg_init` stores a count of 0. -/
def msgInit (msgId : MsgId) (allocId : AllocId) : BitVec w :=
  (msgId.setWidth w <<< 16) ||| (allocId.setWidth w <<< 8) ||| 0#w

def msgGetMsgId (d : BitVec w) : MsgId := d.extractLsb' 16 16
def msgGetAllocId (d : BitVec w) : AllocId := d.extractLsb' 8 8
def msgGetRefCnt (d : BitVec w) : BitVec 8 := d.extractLsb' 0 8

/-- `none`: the overflow assertion fails. -/
def msgIncRefCnt (d : BitVec w) : Option (BitVec w) :=
  if msgGetRefCnt d < 255 then some (d + 1#w) else none

/-- The count before the decrement and the new word; `none`: the underflow assertion fails. -/
def msgDecRefCnt (d : BitVec w) : Option (BitVec 8 × BitVec w) :=
  if 0 < msgGetRefCnt d then some (msgGetRefCnt d, d - 1#w) else none

/-- The word of a record: no bit above the 32 of the three fields is set. -/
def Packs (d : BitVec w) (h : Hdr) : Prop :=
  h.refCnt < 256 ∧ d.toNat = h.msgId.toNat * 65536 + h.allocId.toNat * 256 + h.refCnt

theorem packs_lt {d : BitVec w} {h : Hdr} (hp : Packs d h) : d.toNat < 2 ^ 32 := by
  have h₁ := h.msgId.isLt
  have h₂ := h.allocId.isLt
  have h₃ := hp.1
  rw [hp.2]
  omega

theorem packs_getMsgId {d : BitVec w} {h : Hdr} (hp : Packs d h) : msgGetMsgId d = h.msgId := by
  have h₁ := h.msgId.isLt
  have h₂ := h.allocId.isLt
  have h₃ := hp.1
  apply BitVec.eq_of_toNat_eq
  rw [msgGetMsgId, BitVec.extractLsb'_toNat, Nat.shiftRight_eq_div_pow, hp.2]
  omega

theorem packs_getAllocId {d : BitVec w} {h : Hdr} (hp : Packs d h) : msgGetAllocId d = h.allocId := by
  have h₂ := h.allocId.isLt
  have h₃ := hp.1
  apply BitVec.eq_of_toNat_eq
  rw [msgGetAllocId, BitVec.extractLsb'_toNat, Nat.shiftRight_eq_div_pow, hp.2]
  omega

theorem packs_getRefCnt {d : BitVec w} {h : Hdr} (hp : Packs d h) : (msgGetRefCnt d).toNat = h.refCnt := by
  have h₃ := hp.1
  rw [msgGetRefCnt, BitVec.extractLsb'_toNat, Nat.shiftRight_eq_div_pow, hp.2]
  omega

theorem packs_init (hw : 32 ≤ w) (i : MsgId) (a : AllocId) : Packs (msgInit i a : BitVec w) ⟨i, a, 0⟩ := by
  have hi := i.isLt
  have ha := a.isLt
  have hpow : 2 ^ 32 ≤ 2 ^ w := Nat.pow_le_pow_right (by decide) hw
  refine ⟨Nat.zero_lt_succ _, ?_⟩
  have h₁ : (i.setWidth w <<< 16).toNat = i.toNat <<< 16 := by
    rw [BitVec.toNat_shiftLeft, BitVec.toNat_setWidth, Nat.mod_eq_of_lt (a := i.toNat) (by omega)]
    exact Nat.mod_eq_of_lt (by rw [Nat.shiftLeft_eq]; omega)
  have h₂ : (a.setWidth w <<< 8).toNat = a.toNat * 256 := by
    rw [BitVec.toNat_shiftLeft, BitVec.toNat_setWidth, Nat.mod_eq_of_lt (a := a.toNat) (by omega),
      Nat.shiftLeft_eq]
    exact Nat.mod_eq_of_lt (by omega)
  rw [msgInit, BitVec.toNat_or, BitVec.toNat_or, h₁, h₂, BitVec.toNat_ofNat, Nat.zero_mod, Nat.or_zero,
    ← Nat.shiftLeft_add_eq_or_of_lt (by omega), Nat.shiftLeft_eq, Nat.add_zero]

theorem packs_inc (hw : 32 ≤ w) {d d' : BitVec w} {h : Hdr} (hp : Packs d h) (hd : msgIncRefCnt d = some d') :
    h.refCnt < 255 ∧ Packs d' { h with refCnt := h.refCnt + 1 } := by
  have hpow : 2 ^ 32 ≤ 2 ^ w := Nat.pow_le_pow_right (by decide) hw
  have hlt := packs_lt hp
  have hr := packs_getRefCnt hp
  unfold msgIncRefCnt at hd
  split at hd
  · rename_i hc
    have hc' : h.refCnt < 255 := by rw [← hr]; exact hc
    cases hd
    refine ⟨hc', by simp only; omega, ?_⟩
    have hd₂ := hp.2
    rw [BitVec.toNat_add, BitVec.toNat_ofNat, Nat.mod_eq_of_lt (a := 1) (by omega),
      Nat.mod_eq_of_lt (a := d.toNat + 1) (by omega)]
    simp only
    omega
  · cases hd

theorem packs_dec (hw : 32 ≤ w) {d d' : BitVec w} {r : BitVec 8} {h : Hdr} (hp : Packs d h)
    (hd : msgDecRefCnt d = some (r, d')) :
    0 < h.refCnt ∧ r.toNat = h.refCnt ∧ Packs d' { h with refCnt := h.refCnt - 1 } := by
  have hpow : 2 ^ 32 ≤ 2 ^ w := Nat.pow_le_pow_right (by decide) hw
  have hlt := packs_lt hp
  have hr := packs_getRefCnt hp
  have h₃ := hp.1
  unfold msgDecRefCnt at hd
  split at hd
  · rename_i hc
    have hc' : 0 < h.refCnt := by rw [← hr]; exact hc
    cases hd
    refine ⟨hc', hr, by simp only; omega, ?_⟩
    have hd₂ := hp.2
    rw [BitVec.toNat_sub, BitVec.toNat_ofNat, Nat.mod_eq_of_lt (a := 1) (by omega),
      show 2 ^ w - 1 + d.toNat = 2 ^ w + (d.toNat - 1) by omega, Nat.add_mod_left,
      Nat.mod_eq_of_lt (by omega)]
    simp only
    omega
  · cases hd

end

end ZephyrPubSub
