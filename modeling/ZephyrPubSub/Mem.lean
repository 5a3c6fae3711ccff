import ZephyrPubSub.Msg
import ZephyrPubSub.SubList
import Mathlib.Logic.Function.Basic

/-!
# Message allocation and reference counting

`Mem` holds the header of every message together with the references its
owners keep outside the framework. A block that is allocated again is a new
message here, so a message is `unused`, then `live`, and a pool message ends
`freed`; static and callback messages stay live with a count of 0.
-/

namespace ZephyrPubSub

abbrev Msg := Nat

/-- A message header is not in the state the access needs. -/
def Stop.ofMem : Stop → Bool
  | .useAfterFree | .refOverflow | .refUnderflow => true
  | _ => false

inductive Life where
  | unused
  | live (h : Hdr)
  | freed (h : Hdr)
  deriving DecidableEq, Repr

def Life.msgId : Life → MsgId
  | .unused => 0
  | .live h => h.msgId
  | .freed h => h.msgId

inductive FreeCall where
  | linkSection (index : Nat) (msg : Msg)
  | runtime (index : Nat) (msg : Msg)
  | callback (msg : Msg)
  deriving DecidableEq, Repr

structure Mem where
  life : Msg → Life
  /-- The owner has not published or released the message yet. -/
  owned : Msg → Bool
  /-- References acquired on top of the framework's own. -/
  extra : Msg → Nat
  freeCalls : List FreeCall

namespace Mem

def setLife (μ : Mem) (m : Msg) (l : Life) : Mem := { μ with life := Function.update μ.life m l }

@[simp] theorem setLife_self (μ : Mem) (m : Msg) (l : Life) : (μ.setLife m l).life m = l :=
  Function.update_self ..

@[simp] theorem setLife_ne (μ : Mem) {m k : Msg} (l : Life) (h : k ≠ m) :
    (μ.setLife m l).life k = μ.life k := Function.update_of_ne h ..

@[simp] theorem setLife_owned (μ : Mem) (m : Msg) (l : Life) : (μ.setLife m l).owned = μ.owned := rfl
@[simp] theorem setLife_extra (μ : Mem) (m : Msg) (l : Life) : (μ.setLife m l).extra = μ.extra := rfl
@[simp] theorem setLife_freeCalls (μ : Mem) (m : Msg) (l : Life) :
    (μ.setLife m l).freeCalls = μ.freeCalls := rfl

def getMsgId (μ : Mem) (m : Msg) : Except Stop MsgId :=
  match μ.life m with
  | .live h => .ok h.msgId
  | _ => .error .useAfterFree

def acquireMsg (μ : Mem) (m : Msg) : Except Stop Mem :=
  match μ.life m with
  | .live h =>
    if h.refCnt < 255 then .ok (μ.setLife m (.live { h with refCnt := h.refCnt + 1 }))
    else .error .refOverflow
  | _ => .error .useAfterFree

/-- What `pub_sub_release_msg` does once the count was 1; `n` runtime allocators are registered. -/
def freeMsg (n : Nat) (μ : Mem) (m : Msg) (h : Hdr) : Mem :=
  if h.allocId ≤ allocIdLinkSectionMaxId then
    { μ.setLife m (.freed h) with freeCalls := μ.freeCalls ++ [.linkSection h.allocId.toNat m] }
  else if h.allocId.toNat - allocIdRuntimeOffset.toNat < n then
    { μ.setLife m (.freed h) with
      freeCalls := μ.freeCalls ++ [.runtime (h.allocId.toNat - allocIdRuntimeOffset.toNat) m] }
  else if h.allocId = allocIdCallbackMsg then { μ with freeCalls := μ.freeCalls ++ [.callback m] }
  else μ

def releaseMsg (n : Nat) (μ : Mem) (m : Msg) : Except Stop Mem :=
  match μ.life m with
  | .live h =>
    if 0 < h.refCnt then
      let h' := { h with refCnt := h.refCnt - 1 }
      let μ' := μ.setLife m (.live h')
      if h.refCnt = 1 then .ok (freeMsg n μ' m h') else .ok μ'
    else .error .refUnderflow
  | _ => .error .useAfterFree

def Registered (n : Nat) (a : AllocId) : Prop :=
  a ≤ allocIdLinkSectionMaxId ∨
    (allocIdRuntimeOffset ≤ a ∧ a < allocIdLinkSection ∧ a.toNat - allocIdRuntimeOffset.toNat < n)

instance (n : Nat) (a : AllocId) : Decidable (Registered n a) :=
  inferInstanceAs (Decidable (_ ∨ (_ ∧ _ ∧ _)))

/-- `pub_sub_new_msg` when the allocator has a block. -/
def newMsg (n : Nat) (μ : Mem) (m : Msg) (i : MsgId) (a : AllocId) : Except Stop Mem :=
  if μ.life m = .unused ∧ Registered n a then
    acquireMsg { μ.setLife m (.live ⟨i, a, 0⟩) with owned := Function.update μ.owned m true } m
  else .error .misuse

/-- `pub_sub_static_msg_init` and `pub_sub_callback_msg_init`. -/
def staticMsgInit (μ : Mem) (m : Msg) (i : MsgId) (a : AllocId) : Except Stop Mem :=
  if μ.life m = .unused ∧ (a = allocIdStaticMsg ∨ a = allocIdCallbackMsg) then
    .ok (μ.setLife m (.live ⟨i, a, 0⟩))
  else .error .misuse

/-! ## What each function does -/

def used (μ : Mem) (m : Msg) : Prop := μ.life m ≠ .unused

def idOf (μ : Mem) (m : Msg) : MsgId := (μ.life m).msgId

theorem getMsgId_ok {μ : Mem} {m : Msg} {i : MsgId} (h : μ.getMsgId m = .ok i) :
    μ.used m ∧ μ.idOf m = i := by
  unfold getMsgId at h
  unfold used idOf
  cases hl : μ.life m with
  | live hd => rw [hl] at h; cases h; exact ⟨by simp, rfl⟩
  | unused => rw [hl] at h; cases h
  | freed hd => rw [hl] at h; cases h

theorem getMsgId_error {μ : Mem} {m : Msg} {e : Stop} (h : μ.getMsgId m = .error e) : e.ofMem = true := by
  unfold getMsgId at h
  split at h <;> cases h
  rfl

theorem acquireMsg_error {μ : Mem} {m : Msg} {e : Stop} (h : μ.acquireMsg m = .error e) : e.ofMem = true := by
  unfold acquireMsg at h
  split at h
  · split at h <;> cases h
    rfl
  · cases h; rfl

theorem releaseMsg_error {n : Nat} {μ : Mem} {m : Msg} {e : Stop} (h : μ.releaseMsg n m = .error e) :
    e.ofMem = true := by
  unfold releaseMsg at h
  split at h
  · simp only at h
    split at h
    · split at h <;> cases h
    · cases h; rfl
  · cases h; rfl

theorem acquireMsg_ok {μ μ' : Mem} {m : Msg} (h : μ.acquireMsg m = .ok μ') :
    ∃ hd, μ.life m = .live hd ∧ hd.refCnt < 255 ∧
      μ' = μ.setLife m (.live { hd with refCnt := hd.refCnt + 1 }) := by
  unfold acquireMsg at h
  cases hl : μ.life m with
  | live hd =>
    rw [hl] at h
    simp only at h
    split at h
    · cases h; exact ⟨hd, rfl, ‹_›, rfl⟩
    · cases h
  | unused => rw [hl] at h; cases h
  | freed hd => rw [hl] at h; cases h

theorem acquireMsg_of_live {μ μ' : Mem} {m : Msg} {hd : Hdr} (hl : μ.life m = .live hd)
    (h : μ.acquireMsg m = .ok μ') : μ' = μ.setLife m (.live { hd with refCnt := hd.refCnt + 1 }) := by
  obtain ⟨hd', hl', _, rfl⟩ := acquireMsg_ok h
  rw [hl] at hl'
  cases hl'
  rfl

theorem releaseMsg_ok {n : Nat} {μ μ' : Mem} {m : Msg} (h : μ.releaseMsg n m = .ok μ') :
    ∃ hd, μ.life m = .live hd ∧ 0 < hd.refCnt ∧
      (hd.refCnt ≠ 1 ∧ μ' = μ.setLife m (.live { hd with refCnt := hd.refCnt - 1 }) ∨
        hd.refCnt = 1 ∧
          μ' = freeMsg n (μ.setLife m (.live { hd with refCnt := 0 })) m { hd with refCnt := 0 }) := by
  unfold releaseMsg at h
  cases hl : μ.life m with
  | live hd =>
    rw [hl] at h
    simp only at h
    split at h
    · rename_i hpos
      refine ⟨hd, rfl, hpos, ?_⟩
      split at h
      · rename_i h1; cases h; exact Or.inr ⟨h1, by rw [h1]⟩
      · rename_i h1; cases h; exact Or.inl ⟨h1, rfl⟩
    · cases h
  | unused => rw [hl] at h; cases h
  | freed hd => rw [hl] at h; cases h

theorem releaseMsg_last {n : Nat} {μ : Mem} {m : Msg} {h : Hdr} (hl : μ.life m = .live h) (h1 : h.refCnt = 1) :
    μ.releaseMsg n m =
      .ok (freeMsg n (μ.setLife m (.live { h with refCnt := 0 })) m { h with refCnt := 0 }) := by
  unfold releaseMsg
  rw [hl]
  simp only [h1, Nat.zero_lt_one, if_true]

/-- The ids of static and callback messages are those of the runtime allocators with index 126 and 125. -/
theorem freeMsg_static {n : Nat} (hn : n ≤ 126) (μ : Mem) (m : Msg) {h : Hdr} (ha : h.allocId = allocIdStaticMsg) :
    freeMsg n μ m h = μ := by
  have hsec : ¬ allocIdStaticMsg ≤ allocIdLinkSectionMaxId := by decide
  have hidx : ¬ allocIdStaticMsg.toNat - allocIdRuntimeOffset.toNat < n := by
    show ¬ 126 < n
    omega
  rw [freeMsg, ha, if_neg hsec, if_neg hidx, if_neg (by decide)]

theorem freeMsg_callback {n : Nat} (hn : n ≤ 125) (μ : Mem) (m : Msg) {h : Hdr}
    (ha : h.allocId = allocIdCallbackMsg) :
    freeMsg n μ m h = { μ with freeCalls := μ.freeCalls ++ [.callback m] } := by
  have hsec : ¬ allocIdCallbackMsg ≤ allocIdLinkSectionMaxId := by decide
  have hidx : ¬ allocIdCallbackMsg.toNat - allocIdRuntimeOffset.toNat < n := by
    show ¬ 125 < n
    omega
  rw [freeMsg, ha, if_neg hsec, if_neg hidx, if_pos rfl]

theorem newMsg_ok {n : Nat} {μ μ' : Mem} {m : Msg} {i : MsgId} {a : AllocId} (h : μ.newMsg n m i a = .ok μ') :
    μ.life m = .unused ∧ Registered n a ∧ μ'.life = Function.update μ.life m (.live ⟨i, a, 1⟩) ∧
      μ'.owned = Function.update μ.owned m true ∧ μ'.extra = μ.extra ∧ μ'.freeCalls = μ.freeCalls := by
  unfold newMsg at h
  split at h
  · rename_i hc
    obtain ⟨hd, hl, _, rfl⟩ := acquireMsg_ok h
    have he : hd = ⟨i, a, 0⟩ := by simpa using hl.symm
    subst he
    refine ⟨hc.1, hc.2, ?_, rfl, rfl, rfl⟩
    simp [setLife]
  · cases h

theorem staticMsgInit_ok {μ μ' : Mem} {m : Msg} {i : MsgId} {a : AllocId}
    (h : μ.staticMsgInit m i a = .ok μ') :
    μ.life m = .unused ∧ (a = allocIdStaticMsg ∨ a = allocIdCallbackMsg) ∧
      μ' = μ.setLife m (.live ⟨i, a, 0⟩) := by
  unfold staticMsgInit at h
  split at h
  · rename_i hc; cases h; exact ⟨hc.1, hc.2, rfl⟩
  · cases h

def IdsKept (μ μ' : Mem) : Prop := ∀ m, μ.used m → μ'.used m ∧ μ'.idOf m = μ.idOf m

theorem IdsKept.refl (μ : Mem) : IdsKept μ μ := fun _ h => ⟨h, rfl⟩

theorem IdsKept.of_life {μ μ' : Mem} (h : μ'.life = μ.life) : IdsKept μ μ' := fun m hm => by
  unfold used idOf at *
  rw [h]
  exact ⟨hm, rfl⟩

theorem IdsKept.setLife {μ : Mem} {m : Msg} {l : Life} (hl : l ≠ .unused)
    (hi : μ.used m → l.msgId = μ.idOf m) : IdsKept μ (μ.setLife m l) := by
  intro k hk
  unfold used idOf
  by_cases h : k = m
  · subst h
    rw [setLife_self]
    exact ⟨hl, hi hk⟩
  · rw [setLife_ne μ l h]
    exact ⟨hk, rfl⟩

theorem IdsKept.trans {μ₁ μ₂ μ₃ : Mem} (h₁ : IdsKept μ₁ μ₂) (h₂ : IdsKept μ₂ μ₃) : IdsKept μ₁ μ₃ := fun m hm =>
  have h := h₁ m hm
  have h' := h₂ m h.1
  ⟨h'.1, h'.2.trans h.2⟩

theorem acquireMsg_ids {μ μ' : Mem} {m : Msg} (h : μ.acquireMsg m = .ok μ') : IdsKept μ μ' := by
  obtain ⟨hd, hl, _, rfl⟩ := acquireMsg_ok h
  exact IdsKept.setLife (by simp) fun _ => by simp [idOf, hl, Life.msgId]

theorem freeMsg_ids (n : Nat) {μ : Mem} {m : Msg} {h : Hdr} (hl : μ.life m = .live h) :
    IdsKept μ (freeMsg n μ m h) := by
  have hf : IdsKept μ (μ.setLife m (.freed h)) := IdsKept.setLife (by simp) fun _ => by simp [idOf, hl, Life.msgId]
  unfold freeMsg
  split
  · exact hf.trans (IdsKept.of_life rfl)
  · split
    · exact hf.trans (IdsKept.of_life rfl)
    · split
      · exact IdsKept.of_life rfl
      · exact IdsKept.refl μ

theorem releaseMsg_ids {n : Nat} {μ μ' : Mem} {m : Msg} (h : μ.releaseMsg n m = .ok μ') : IdsKept μ μ' := by
  obtain ⟨hd, hl, _, ⟨_, rfl⟩ | ⟨_, rfl⟩⟩ := releaseMsg_ok h
  · exact IdsKept.setLife (by simp) fun _ => by simp [idOf, hl, Life.msgId]
  · have h₁ : IdsKept μ (μ.setLife m (.live { hd with refCnt := 0 })) :=
      IdsKept.setLife (by simp) fun _ => by simp [idOf, hl, Life.msgId]
    exact h₁.trans (freeMsg_ids n (setLife_self ..))

theorem newMsg_ids {n : Nat} {μ μ' : Mem} {m : Msg} {i : MsgId} {a : AllocId}
    (h : μ.newMsg n m i a = .ok μ') : IdsKept μ μ' := by
  obtain ⟨hu, _, hl, _⟩ := newMsg_ok h
  intro k hk
  have hne : k ≠ m := fun e => hk (e ▸ hu)
  unfold used idOf
  rw [hl, Function.update_of_ne hne]
  exact ⟨hk, rfl⟩

theorem staticMsgInit_ids {μ μ' : Mem} {m : Msg} {i : MsgId} {a : AllocId}
    (h : μ.staticMsgInit m i a = .ok μ') : IdsKept μ μ' := by
  obtain ⟨hu, _, rfl⟩ := staticMsgInit_ok h
  exact IdsKept.setLife (by simp) fun hk => absurd hu hk

theorem acquireMsg_owners {μ μ' : Mem} {k : Msg} (h : μ.acquireMsg k = .ok μ') :
    μ'.owned = μ.owned ∧ μ'.extra = μ.extra := by
  obtain ⟨_, _, _, rfl⟩ := acquireMsg_ok h
  exact ⟨rfl, rfl⟩

theorem freeMsg_owners (n : Nat) (μ : Mem) (k : Msg) (h : Hdr) :
    (freeMsg n μ k h).owned = μ.owned ∧ (freeMsg n μ k h).extra = μ.extra := by
  unfold freeMsg
  split
  · exact ⟨rfl, rfl⟩
  · split
    · exact ⟨rfl, rfl⟩
    · split <;> exact ⟨rfl, rfl⟩

theorem releaseMsg_owners {n : Nat} {μ μ' : Mem} {k : Msg} (h : μ.releaseMsg n k = .ok μ') :
    μ'.owned = μ.owned ∧ μ'.extra = μ.extra := by
  obtain ⟨_, _, _, ⟨_, rfl⟩ | ⟨_, rfl⟩⟩ := releaseMsg_ok h
  · exact ⟨rfl, rfl⟩
  · exact freeMsg_owners ..

end Mem

end ZephyrPubSub
