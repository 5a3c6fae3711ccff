import ZephyrPubSub.Mem
import ZephyrPubSub.Runs

/-!
# Runs of the packed word

`pub_sub_msg_inc_ref_cnt` and `pub_sub_msg_dec_ref_cnt` add 1 to the whole word
and subtract 1 from it. Along every sequence of calls the word stays the one of
the record with a counter of its own, which is what `Mem` works with.
-/

namespace ZephyrPubSub

open Runs

/-! ## The masks -/

section
variable {w : Nat}

def genmask (h l : Nat) : BitVec w := (BitVec.allOnes (h + 1 - l)).setWidth w <<< l

/-- `FIELD_GET` on the mask `GENMASK(h, l)`. -/
def fieldGet (h l : Nat) (d : BitVec w) : BitVec w := (d &&& genmask h l) >>> l

theorem extractLsb'_eq_fieldGet (l n : Nat) (hn : 0 < n) (d : BitVec w) :
    d.extractLsb' l n = (fieldGet (l + n - 1) l d).setWidth n := by
  have hlen : l + n - 1 + 1 - l = n := by omega
  apply BitVec.eq_of_getLsbD_eq
  intro i hi
  rw [BitVec.getLsbD_extractLsb', BitVec.getLsbD_setWidth, fieldGet, BitVec.getLsbD_ushiftRight, BitVec.getLsbD_and,
    genmask, hlen, BitVec.getLsbD_shiftLeft, BitVec.getLsbD_setWidth, BitVec.getLsbD_allOnes]
  by_cases hw : l + i < w
  · have h₁ : i < w := by omega
    simp [hi, hw, h₁]
  · simp [BitVec.getLsbD_of_ge d (l + i) (by omega)]

theorem getMsgId_eq_fieldGet (d : BitVec w) : msgGetMsgId d = (fieldGet 31 16 d).setWidth 16 :=
  extractLsb'_eq_fieldGet 16 16 (by decide) d

theorem getAllocId_eq_fieldGet (d : BitVec w) : msgGetAllocId d = (fieldGet 15 8 d).setWidth 8 :=
  extractLsb'_eq_fieldGet 8 8 (by decide) d

theorem getRefCnt_eq_fieldGet (d : BitVec w) : msgGetRefCnt d = (fieldGet 7 0 d).setWidth 8 :=
  extractLsb'_eq_fieldGet 0 8 (by decide) d

end

/-! ## The record -/

inductive CntOp where
  | inc
  | dec
  deriving DecidableEq, Repr

namespace Hdr

def incRefCnt (h : Hdr) : Except Stop Hdr :=
  if h.refCnt < 255 then .ok { h with refCnt := h.refCnt + 1 } else .error .refOverflow

def decRefCnt (h : Hdr) : Except Stop Hdr :=
  if 0 < h.refCnt then .ok { h with refCnt := h.refCnt - 1 } else .error .refUnderflow

def cntStep (h : Hdr) : CntOp → Except Stop Hdr
  | .inc => h.incRefCnt
  | .dec => h.decRefCnt

end Hdr

theorem acquireMsg_eq {μ : Mem} {m : Msg} {h : Hdr} (hl : μ.life m = .live h) :
    μ.acquireMsg m = h.incRefCnt.map fun h' => μ.setLife m (.live h') := by
  rw [Mem.acquireMsg, Hdr.incRefCnt, hl]
  simp only
  split <;> rfl

theorem releaseMsg_eq {n : Nat} {μ : Mem} {m : Msg} {h : Hdr} (hl : μ.life m = .live h) :
    μ.releaseMsg n m = h.decRefCnt.map fun h' =>
      if h.refCnt = 1 then Mem.freeMsg n (μ.setLife m (.live h')) m h' else μ.setLife m (.live h') := by
  rw [Mem.releaseMsg, Hdr.decRefCnt, hl]
  simp only
  split
  · simp only [Except.map]
    split <;> rfl
  · rfl

structure CountedFrom (h₀ : Hdr) (ops : List CntOp) (h : Hdr) : Prop where
  msgId : h.msgId = h₀.msgId
  allocId : h.allocId = h₀.allocId
  refCnt : h.refCnt + ops.count .dec = h₀.refCnt + ops.count .inc

theorem Hdr.exec_counted : ∀ (ops : List CntOp) (h₀ h : Hdr), exec Hdr.cntStep h₀ ops = .ok h →
    CountedFrom h₀ ops h
  | [], _, _, he => by cases he; exact ⟨rfl, rfl, rfl⟩
  | op :: ops, h₀, h, he => by
    obtain ⟨h₁, hs, he'⟩ := exec_cons _ he
    have ih := Hdr.exec_counted ops h₁ h he'
    have hc := ih.refCnt
    cases op with
    | inc =>
      simp only [Hdr.cntStep, Hdr.incRefCnt] at hs
      split at hs
      · cases hs
        refine ⟨ih.msgId, ih.allocId, ?_⟩
        simp only [List.count_cons_self, List.count_cons_of_ne (show CntOp.inc ≠ .dec by decide)]
        simp only at hc
        omega
      · cases hs
    | dec =>
      simp only [Hdr.cntStep, Hdr.decRefCnt] at hs
      split at hs
      · cases hs
        refine ⟨ih.msgId, ih.allocId, ?_⟩
        simp only [List.count_cons_self, List.count_cons_of_ne (show CntOp.dec ≠ .inc by decide)]
        simp only at hc
        omega
      · cases hs

/-! ## The word -/

section
variable {w : Nat}

def wordStep (d : BitVec w) : CntOp → Except Stop (BitVec w)
  | .inc =>
    match msgIncRefCnt d with
    | some d' => .ok d'
    | none => .error .refOverflow
  | .dec =>
    match msgDecRefCnt d with
    | some r => .ok r.2
    | none => .error .refUnderflow

theorem inc_ok_iff {d : BitVec w} {h : Hdr} (hp : Packs d h) : (msgIncRefCnt d).isSome ↔ h.refCnt < 255 := by
  have hr := packs_getRefCnt hp
  have hlt : msgGetRefCnt d < 255 ↔ h.refCnt < 255 := by rw [← hr]; exact BitVec.lt_def
  rw [msgIncRefCnt, ← hlt]
  split
  · exact iff_of_true rfl ‹_›
  · exact iff_of_false nofun ‹_›

theorem dec_ok_iff {d : BitVec w} {h : Hdr} (hp : Packs d h) : (msgDecRefCnt d).isSome ↔ 0 < h.refCnt := by
  have hr := packs_getRefCnt hp
  have hlt : 0 < msgGetRefCnt d ↔ 0 < h.refCnt := by rw [← hr]; exact BitVec.lt_def
  rw [msgDecRefCnt, ← hlt]
  split
  · exact iff_of_true rfl ‹_›
  · exact iff_of_false nofun ‹_›

theorem step_packs (hw : 32 ≤ w) {d : BitVec w} {h : Hdr} (op : CntOp) (hp : Packs d h) :
    Lockstep Packs (wordStep d op) (h.cntStep op) := by
  cases op with
  | inc =>
    have hs := inc_ok_iff hp
    simp only [wordStep, Hdr.cntStep, Hdr.incRefCnt]
    cases hd : msgIncRefCnt d with
    | some d' =>
      obtain ⟨h₁, h₂⟩ := packs_inc hw hp hd
      rw [if_pos h₁]
      exact h₂
    | none =>
      rw [hd] at hs
      rw [if_neg fun hc => by simpa using hs.mpr hc]
      exact rfl
  | dec =>
    have hs := dec_ok_iff hp
    simp only [wordStep, Hdr.cntStep, Hdr.decRefCnt]
    cases hd : msgDecRefCnt d with
    | some r =>
      obtain ⟨h₁, -, h₂⟩ := packs_dec hw hp hd
      rw [if_pos h₁]
      exact h₂
    | none =>
      rw [hd] at hs
      rw [if_neg fun hc => by simpa using hs.mpr hc]
      exact rfl

theorem exec_packs (hw : 32 ≤ w) {d : BitVec w} {h : Hdr} (hp : Packs d h) (ops : List CntOp) :
    Lockstep Packs (exec wordStep d ops) (exec Hdr.cntStep h ops) :=
  exec_lockstep (fun _ _ op hp => step_packs hw op hp) ops d h hp

/-- What the calls on a word return that was initialised and has seen `ops`. -/
structure ReadsBack (i : MsgId) (a : AllocId) (ops : List CntOp) (d : BitVec w) : Prop where
  msgId : msgGetMsgId d = i
  allocId : msgGetAllocId d = a
  refCnt : (msgGetRefCnt d).toNat + ops.count .dec = ops.count .inc
  /-- The next decrement returns the count before it, which is 1 exactly when it takes the count to 0. -/
  dec : ∀ r d', msgDecRefCnt d = some (r, d') →
    r.toNat + ops.count .dec = ops.count .inc ∧ (r = 1 ↔ msgGetRefCnt d' = 0)

theorem readsBack_of_packs (hw : 32 ≤ w) {i : MsgId} {a : AllocId} {ops : List CntOp} {d : BitVec w} {h : Hdr}
    (hp : Packs d h) (hc : CountedFrom ⟨i, a, 0⟩ ops h) : ReadsBack i a ops d := by
  have hcnt : h.refCnt + ops.count .dec = ops.count .inc := by simpa using hc.refCnt
  refine ⟨(packs_getMsgId hp).trans hc.msgId, (packs_getAllocId hp).trans hc.allocId, ?_, ?_⟩
  · rw [packs_getRefCnt hp]
    exact hcnt
  · intro r d' hd
    obtain ⟨h₁, h₂, h₃⟩ := packs_dec hw hp hd
    have h₄ := packs_getRefCnt h₃
    refine ⟨by rw [h₂]; exact hcnt, ?_⟩
    rw [← BitVec.toNat_inj, ← BitVec.toNat_inj, h₂, h₄]
    show h.refCnt = 1 ↔ h.refCnt - 1 = 0
    omega

/-- The packed word refines the record: the same sequences of calls pass the
assertions, and after each of them the word reads back what was stored and counted. -/
theorem word_refines_record (hw : 32 ≤ w) (i : MsgId) (a : AllocId) (ops : List CntOp) :
    Lockstep Packs (exec wordStep (msgInit i a : BitVec w) ops) (exec Hdr.cntStep ⟨i, a, 0⟩ ops) ∧
      ∀ d, exec wordStep (msgInit i a : BitVec w) ops = .ok d → ReadsBack i a ops d := by
  have hb := exec_packs hw (packs_init hw i a) ops
  refine ⟨hb, ?_⟩
  intro d hd
  obtain ⟨h, hh, hp⟩ := hb.ok hd
  exact readsBack_of_packs hw hp (Hdr.exec_counted ops _ h hh)

theorem word_refines_record_sign : ∃ d : BitVec 32, exec wordStep (msgInit 0xFFFF 0xFE : BitVec 32)
      [.inc, .dec] = .ok d ∧
    ReadsBack 0xFFFF 0xFE [.inc, .dec] d :=
  ⟨0xFFFFFE00, by decide, (word_refines_record (by decide) 0xFFFF 0xFE [.inc, .dec]).2 _ (by decide)⟩

end

end ZephyrPubSub
