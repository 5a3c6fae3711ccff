import ZephyrPubSub.Recycling
import ZephyrPubSub.Linking
import ZephyrPubSub.Threads
import Mathlib.Data.Fintype.BigOperators

/-!
# The first word of a block

`struct pub_sub_msg` begins with `fifo_reserved`, the word by which a `k_fifo`
links what is put into it. As long as the block is free, the memory slab has the
link of its free list in the same word. The queues and free lists of the other
modules are threaded through these words here, with the pointer operations of
the kernel, and no word is ever needed by two of them.
-/

namespace ZephyrPubSub

open Function Runs Threads Ledger Outcome

/-! ## The FIFOs -/

section
variable {B S : Type} [DecidableEq B] [DecidableEq S] (c : Cfg S)

/-- What is in the publish FIFO of a broker, or in the `fifo` of a subscriber. -/
def Sys.inFifos (s : Sys B S) : B ⊕ S → List (Pkt B) :=
  Sum.elim s.fifo fun x => if c.rxType x = .fifo then s.queue x else []

inductive FifoCall (B S : Type) where
  | put (fifo : B ⊕ S) (m : Msg)
  | get (fifo : B ⊕ S)

/-- The call of `pub_sub_msg_fifo_put` or `pub_sub_msg_fifo_get` in the step. -/
def Sys.fifoCall (s : Sys B S) : Act B S → Option (FifoCall B S)
  | .publish b m => some (.put (.inl b) m)
  | .publishTo x m => if c.rxType x = .fifo then some (.put (.inr x) m) else none
  | .work b =>
    match s.work b with
    | .get => some (.get (.inl b))
    | .scan p id (some x) _ => if s.wants c x id ∧ c.rxType x = .fifo then some (.put (.inr x) p.msg) else none
    | _ => none
  | .svc x =>
    match s.svc x with
    | .idle => if c.rxType x = .fifo then some (.get (.inr x)) else none
    | .walk p id _ (some n) => if s.wants c n id then some (.put (.inr n) p.msg) else none
    | _ => none
  | _ => none

/-- What the call does to the contents of the FIFOs. -/
inductive FifoEffect (f : B ⊕ S → List (Pkt B)) : Option (FifoCall B S) → (B ⊕ S → List (Pkt B)) → Prop
  | none : FifoEffect f none f
  | put {q p} : FifoEffect f (some (.put q p.msg)) (update f q (f q ++ [p]))
  | get {q} : FifoEffect f (some (.get q)) (update f q (f q).tail)

variable {c} {s s' : Sys B S}

theorem inFifos_fifo (f : B → List (Pkt B)) (b : B) (l : List (Pkt B)) :
    Sys.inFifos c { s with fifo := update f b l } = update (Sys.inFifos c { s with fifo := f }) (.inl b) l :=
  (Sum.update_elim_inl ..).symm

theorem inFifos_queue {x : S} (hrx : c.rxType x = .fifo) (l : List (Pkt B)) :
    Sys.inFifos c { s with queue := update s.queue x l } = update (s.inFifos c) (.inr x) l := by
  unfold Sys.inFifos
  rw [Sum.update_elim_inr]
  congr 1
  funext y
  show (if c.rxType y = .fifo then update s.queue x l y else []) = _
  by_cases hy : y = x
  · subst hy
    rw [if_pos hrx, update_self, update_self]
  · rw [update_of_ne hy, update_of_ne hy]

omit [DecidableEq B] in
theorem inFifos_msgq {x : S} (hrx : c.rxType x ≠ .fifo) (l : List (Pkt B)) :
    Sys.inFifos c { s with queue := update s.queue x l } = s.inFifos c := by
  unfold Sys.inFifos
  congr 1
  funext y
  show (if c.rxType y = .fifo then update s.queue x l y else []) = _
  by_cases hy : y = x
  · subst hy
    rw [if_neg hrx, if_neg hrx]
  · rw [update_of_ne hy]

theorem fifoEffect_put {q : B ⊕ S} {p : Pkt B} {call : Option (FifoCall B S)} (hc : call = some (.put q p.msg))
    (h : s'.inFifos c = update (s.inFifos c) q (s.inFifos c q ++ [p])) :
    FifoEffect (s.inFifos c) call (s'.inFifos c) := by
  rw [hc, h]
  exact .put

theorem fifoEffect_get {q : B ⊕ S} {call : Option (FifoCall B S)} (hc : call = some (.get q))
    (h : s'.inFifos c = update (s.inFifos c) q (s.inFifos c q).tail) :
    FifoEffect (s.inFifos c) call (s'.inFifos c) := by
  rw [hc, h]
  exact .get

theorem fifoEffect_none {call : Option (FifoCall B S)} (hc : call = none) (h : s'.inFifos c = s.inFifos c) :
    FifoEffect (s.inFifos c) call (s'.inFifos c) := by
  rw [hc, h]
  exact .none

omit [DecidableEq B] [DecidableEq S] in
theorem inFifos_inr {x : S} (hrx : c.rxType x = .fifo) : s.inFifos c (.inr x) = s.queue x := if_pos hrx

theorem trans_fifos {a : Act B S} (ht : Trans c s a s')
    (hput : ∀ b p id x tmp, s.work b = .put p id x tmp → c.rxType x = .msgq) :
    FifoEffect (s.inFifos c) (s.fifoCall c a) (s'.inFifos c) := by
  cases ht with
  | @workGetNone b hw hf =>
    refine fifoEffect_get (q := .inl b) (by simp [Sys.fifoCall, hw]) ?_
    show s.inFifos c = update (s.inFifos c) (.inl b) (s.fifo b).tail
    rw [hf]
    exact (update_eq_self_iff.mpr (by exact hf.symm)).symm
  | @workGet b p ps id hw hf =>
    refine fifoEffect_get (q := .inl b) (by simp [Sys.fifoCall, hw]) ?_
    show _ = update (s.inFifos c) (.inl b) (s.fifo b).tail
    rw [hf]
    exact inFifos_fifo s.fifo b ps
  | scanSkip hw hn => exact fifoEffect_none (by simp [Sys.fifoCall, hw, hn]) rfl
  | scanCallback hw hn hrx | scanMsgq hw hn hrx => exact fifoEffect_none (by simp [Sys.fifoCall, hw, hrx]) rfl
  | @scanFifo b p id x tmp μ hw hn hrx =>
    refine fifoEffect_put (q := .inr x) (p := p) (by simp [Sys.fifoCall, hw, hn, hrx]) ?_
    rw [inFifos_inr hrx]
    exact inFifos_queue hrx _
  | put hw => exact fifoEffect_none (by simp [Sys.fifoCall, hw]) (inFifos_msgq (by rw [hput _ _ _ _ _ hw]; simp) _)
  | takeMsgq hv hrx => exact fifoEffect_none (by simp [Sys.fifoCall, hv, hrx]) (inFifos_msgq (by rw [hrx]; simp) _)
  | @takeFifo x p ps id hv hrx hq =>
    refine fifoEffect_get (q := .inr x) (by simp [Sys.fifoCall, hv, hrx]) ?_
    rw [inFifos_inr hrx, hq]
    exact inFifos_queue hrx ps
  | walkSkip hv hn => exact fifoEffect_none (by simp [Sys.fifoCall, hv, hn]) rfl
  | @walkGive x p id b n μ hv hn hrx =>
    refine fifoEffect_put (q := .inr n) (p := p) (by simp [Sys.fifoCall, hv, hn]) ?_
    rw [inFifos_inr hrx]
    exact inFifos_queue hrx _
  | @publish b m => exact fifoEffect_put (p := ⟨m, s.nextTag, some b⟩) rfl (inFifos_fifo s.fifo b _)
  | publishToCallback _ _ _ hrx => exact fifoEffect_none (by simp [Sys.fifoCall, hrx]) rfl
  | @publishToQueue x m id _ _ _ _ _ =>
    by_cases hrx : c.rxType x = .fifo
    · refine fifoEffect_put (q := .inr x) (p := ⟨m, s.nextTag, none⟩) (by simp [Sys.fifoCall, hrx]) ?_
      rw [inFifos_inr hrx]
      exact inFifos_queue hrx _
    · exact fifoEffect_none (by simp [Sys.fifoCall, hrx]) (inFifos_msgq hrx _)
  | workQueued hw | workLock hw | scanEnd hw | workRelease hw | workReset hw | workSubmit hw =>
    exact fifoEffect_none (by simp [Sys.fifoCall, hw]) rfl
  | gotPublic hv | gotPrivate hv | svcLock hv | walkEnd hv | handle hv | svcRelease hv =>
    exact fifoEffect_none (by simp [Sys.fifoCall, hv]) rfl
  | mem hm => cases hm <;> exact fifoEffect_none rfl rfl
  | _ => exact fifoEffect_none rfl rfl

end

/-! ## No block in two lists -/

section
variable {B S K : Type} [DecidableEq B] [DecidableEq S] [DecidableEq K] [Fintype B] [Fintype S] [Fintype K]
variable {p : Pools K S} {u u' : Pool B S K} {t : Sys B S} {g : Msg → Nat} {c : Cfg S}

omit [DecidableEq B] [Fintype B] in
theorem inList_eq_count (m : Msg) : ∀ l : List (Pkt B), inList m l = (l.map Pkt.msg).count m
  | [] => rfl
  | q :: l => by
    rw [inList_cons, List.map_cons, List.count_cons, inList_eq_count m l, one, Nat.add_comm]
    simp only [beq_iff_eq]

omit [DecidableEq B] [DecidableEq S] in
theorem fifoLinks_eq (s : Sys B S) (m : Msg) : fifoLinks c s m = ∑ q, ((s.inFifos c q).map Pkt.msg).count m := by
  rw [Fintype.sum_sum_type]
  unfold fifoLinks
  congr 1
  · exact Finset.sum_congr rfl fun b _ => inList_eq_count m (s.fifo b)
  · apply Finset.sum_congr rfl
    intro x _
    unfold inFifo Sys.inFifos
    rw [Sum.elim_inr]
    split
    · exact inList_eq_count m (s.queue x)
    · rfl

/-- A system of messages in step with the slabs that links each message once. -/
structure Strung (p : Pools K S) (g : Msg → Nat) (u : Pool B S K) (t : Sys B S) : Prop where
  recycles : Recycles p g u t
  carried : Carried p.cfg t
  share : ∀ m, OneShare p.cfg t m

omit [DecidableEq B] [DecidableEq S] [DecidableEq K] [Fintype K] in
theorem strung_init (h : u.Init p) : Strung p (fun _ => 0) u u.sys :=
  ⟨recycles_init h, carried_init h.sys, oneShare_init h.sys⟩

theorem Strung.step (h : Strung p g u t) {a : PoolAct B S} (hs : poolStep p u a = .ok u') :
    ∃ g' t', Strung p g' u' t' := by
  obtain ⟨g', t', hr, ⟨-, rfl⟩ | ⟨a', -, ha⟩⟩ := h.recycles.step hs
  · exact ⟨g', t', hr, h.carried, h.share⟩
  · have ht := step_trans ha
    exact ⟨g', t', hr, h.carried.trans ht, fun m => (h.share m).trans h.recycles.accounted h.carried ht⟩

omit [DecidableEq B] [DecidableEq S] [DecidableEq K] [Fintype K] in
/-- The queues of the system are those of the messages, read as addresses. -/
theorem Strung.inFifos (h : Strung p g u t) (q : B ⊕ S) :
    u.sys.inFifos p.cfg q = (t.inFifos p.cfg q).map (Pkt.map address) := by
  obtain ⟨he, -⟩ := h.recycles.follows
  rw [he]
  cases q with
  | inl b => rfl
  | inr x =>
    unfold Sys.inFifos
    rw [Sum.elim_inr, Sum.elim_inr]
    split <;> rfl

omit [DecidableEq B] [DecidableEq S] [Fintype B] [Fintype S] in
theorem inFifos_init {s : Sys B S} (h : ZephyrPubSub.Init c s) (q : B ⊕ S) : s.inFifos c q = [] := by
  cases q with
  | inl b => exact h.fifo b
  | inr x =>
    unfold Sys.inFifos
    rw [Sum.elim_inr, h.queue]
    exact ite_self _

omit [DecidableEq B] [DecidableEq S] [Fintype B] [Fintype S] in
theorem inFifos_carries {s : Sys B S} {q : B ⊕ S} {a : Pkt B} (h : a ∈ s.inFifos c q) : Carries s a := by
  cases q with
  | inl b => exact .fifo h
  | inr x =>
    unfold Sys.inFifos at h
    rw [Sum.elim_inr] at h
    split at h
    · exact .queue h
    · cases h

omit [DecidableEq K] [Fintype K] in
theorem Strung.apart_msgs (h : Strung p g u t) : Apart fun q => (u.sys.inFifos p.cfg q).map Pkt.msg := by
  apply apart_of_count
  intro a
  have hle := fifoLinks_le (h.share (latest g a))
  rw [fifoLinks_eq] at hle
  refine (Nat.le_of_eq (Finset.sum_congr rfl fun q _ => ?_)).trans hle
  have hcur := allCurrent h.recycles.follows h.recycles.accounted
  rw [h.inFifos, ← inList_eq_count, ← inList_eq_count]
  exact inList_map (fun r hr => hcur r (inFifos_carries hr)) a

omit [DecidableEq B] [DecidableEq S] [DecidableEq K] [Fintype K] in
theorem Strung.put (h : Strung p g u t) {b : B} {q : Pkt B} {id : MsgId} {x : S} {tmp : Option S}
    (hw : u.sys.work b = .put q id x tmp) : p.cfg.rxType x = .msgq := by
  obtain ⟨he, -⟩ := h.recycles.follows
  have hm : u.sys.work b = (t.work b).map address := by rw [he]; rfl
  rw [hm] at hw
  cases hb : t.work b with
  | put r i y z =>
    rw [hb] at hw
    cases hw
    exact (h.carried.work_at hb).2.2.2
  | _ => rw [hb] at hw; cases hw

def Conforming (p : Pools K S) (μ : Mem) : Prop := ∀ m h, μ.life m = .live h → msgAt p.k (psMsg p.k m) = m

/-- The blocks in the queues and the free blocks. -/
def Pool.nodes (p : Pools K S) (u : Pool B S K) : (B ⊕ S) ⊕ K → List Nat :=
  Sum.elim (fun q => (u.sys.inFifos p.cfg q).map fun a => psMsg p.k a.msg) u.free

omit [DecidableEq K] [Fintype K] in
theorem Strung.live (h : Strung p g u t) {q : B ⊕ S} {a : Pkt B} (ha : a ∈ u.sys.inFifos p.cfg q) :
    0 < refs u.sys a.msg ∧ ∃ hd, u.sys.mem.life a.msg = .live hd := by
  have hpos := (inFifos_carries ha).refs
  rw [h.recycles.refs] at hpos
  obtain ⟨hd, hl, -⟩ := h.recycles.accounted.live hpos
  rw [← h.recycles.refs] at hpos
  rw [← h.recycles.follows.2.life] at hl
  exact ⟨hpos, hd, hl⟩

omit [DecidableEq K] [Fintype K] in
theorem Strung.apart (h : Strung p g u t) (hc : Conforming p u.sys.mem) : Apart (u.nodes p) := by
  have hconf : ∀ {q a}, a ∈ u.sys.inFifos p.cfg q → msgAt p.k (psMsg p.k a.msg) = a.msg := by
    intro q a ha
    obtain ⟨-, hd, hl⟩ := h.live ha
    exact hc a.msg hd hl
  have hk := h.recycles.kept
  have hq : Apart fun q => (u.sys.inFifos p.cfg q).map fun a => psMsg p.k a.msg := by
    have hm := h.apart_msgs.map (f := psMsg p.k) ?_
    · simp only [List.map_map] at hm
      exact hm
    · intro q m hm q' m' hm' he
      obtain ⟨a, ha, rfl⟩ := List.mem_map.mp hm
      obtain ⟨a', ha', rfl⟩ := List.mem_map.mp hm'
      rw [← hconf ha, ← hconf ha', he]
  have hf : Apart u.free := by
    refine ⟨hk.nodup, fun κ κ' hne b hb hb' => hne ?_⟩
    exact p.one_slab (hk.sub κ b hb) (hk.sub κ' b hb')
  apply hq.elim hf
  intro q κ b hb hfree
  obtain ⟨a, ha, rfl⟩ := List.mem_map.mp hb
  have hbk := hk.sub κ _ hfree
  have h0 := (h.recycles.used hbk).1.mp hfree
  rw [hconf ha] at h0
  have := (h.live ha).1
  omega

end

/-! ## The words -/

structure Woven (B S K : Type) where
  pool : Pool B S K
  links : Links ((B ⊕ S) ⊕ K) Nat

/-- FIFOs are queues, free lists are stacks. -/
def IsFifo {B S K : Type} (i : (B ⊕ S) ⊕ K) : Prop := i.isLeft = true

section
variable {B S K : Type} [DecidableEq B] [DecidableEq S] [DecidableEq K] (p : Pools K S)

/-- `k_fifo_put` and `k_fifo_get` of the message's block. -/
def Pools.runFifo (w : Links ((B ⊕ S) ⊕ K) Nat) : Option (FifoCall B S) → Links ((B ⊕ S) ⊕ K) Nat
  | none => w
  | some (.put q m) => w.append (.inl q) (psMsg p.k m)
  | some (.get q) => (w.get (.inl q)).2

/-- `k_mem_slab_free`, called by `pub_sub_free_for_mem_slab`. -/
def Pools.runFree (w : Links ((B ⊕ S) ⊕ K) Nat) : FreeCall → Links ((B ⊕ S) ⊕ K) Nat
  | .linkSection i m =>
    match p.linkSection[i]? with
    | some κ => w.push (.inr κ) (psMsg p.k m)
    | none => w
  | .runtime i m =>
    match p.runtime[i]? with
    | some κ => w.push (.inr κ) (psMsg p.k m)
    | none => w
  | .callback _ => w

/-- A static message is preceded by a header. -/
def Pools.laidOut : Act B S → Bool
  | .staticMsgInit m _ _ => msgAt p.k (psMsg p.k m) = m
  | _ => true

variable [Fintype K]

def PoolAct.first : PoolAct B S → PoolAct B S
  | .newMsg al i size _ => .newMsg al i size 0
  | a => a

def wovenStep (w : Woven B S K) : PoolAct B S → Except Stop (Woven B S K)
  | .newMsg al i size _ => do
    let r ← w.pool.newMsg p al i size 0
    match r.1, p.impl al with
    | some _, some κ => .ok ⟨r.2, (w.links.pop (.inr κ)).2⟩
    | _, _ => .ok ⟨r.2, w.links⟩
  | .sys a =>
    if p.laidOut a then do
      let pool ← poolStep p w.pool (.sys a)
      let links := p.runFifo w.links (w.pool.sys.fifoCall p.cfg a)
      .ok ⟨pool, (pool.sys.mem.freeCalls.drop w.pool.sys.mem.freeCalls.length).foldl p.runFree links⟩
    else .error .misuse

/-- After `k_fifo_init` of every FIFO and `k_mem_slab_init` of every slab. -/
structure Woven.Init (w : Woven B S K) : Prop where
  pool : w.pool.Init p
  head : ∀ q, w.links.head (.inl q) = none
  tail : ∀ q, w.links.tail (.inl q) = none
  free : ∀ κ, Chain w.links.next (w.links.head (.inr κ)) (w.pool.free κ)

end

/-! ## Every step keeps the threads -/

section
variable {B S K : Type} [DecidableEq B] [DecidableEq S] [DecidableEq K] [Fintype B] [Fintype S] [Fintype K]
variable {p : Pools K S} {g : Msg → Nat} {t : Sys B S} {w w' : Woven B S K} {u u' : Pool B S K}

omit [DecidableEq B] [DecidableEq S] [DecidableEq K] [Fintype B] [Fintype S] [Fintype K] in
theorem isFifo_inl (q : B ⊕ S) : IsFifo (.inl q : (B ⊕ S) ⊕ K) := rfl

omit [DecidableEq B] [DecidableEq S] [DecidableEq K] [Fintype B] [Fintype S] [Fintype K] in
theorem not_isFifo_inr (κ : K) : ¬ IsFifo (.inr κ : (B ⊕ S) ⊕ K) := Bool.false_ne_true

omit [Fintype B] [Fintype S] [Fintype K] in
theorem newMsg_first {al : AllocRef} {i : MsgId} {size : Nat} {r : Option Msg × Pool B S K}
    (h : u.newMsg p al i size 0 = .ok r) : r = (none, u) ∨ ∃ κ b rest, p.impl al = some κ ∧ u.free κ = b :: rest ∧
      r.1 = some (msgAt p.k b) ∧ r.2.free = update u.free κ rest ∧
      step p.cfg (u.sys.renew (msgAt p.k b)) (.newMsg (msgAt p.k b) i al.id) = .ok r.2.sys := by
  unfold Pool.newMsg at h
  split at h
  · cases h
  · rename_i κ hκ
    obtain ⟨⟨res, free'⟩, ha, h⟩ := bind_ok h
    unfold allocateFromMemSlab at ha
    split at ha
    · cases hf : u.free κ with
      | nil =>
        rw [hf] at ha
        cases ha
        cases h
        exact .inl rfl
      | cons b rest =>
        have hb : kMemSlabAlloc (b :: rest) 0 = some (b, rest) := by
          simp only [kMemSlabAlloc, Nat.zero_mod, List.getElem?_cons_zero, Option.map_some, List.erase_cons_head]
        rw [hf, hb] at ha
        cases ha
        obtain ⟨sys, hs, h⟩ := bind_ok h
        cases h
        exact .inr ⟨κ, b, free', hκ, hf, rfl, rfl, hs⟩
    · cases ha

omit [Fintype B] [Fintype S] in
theorem woven_pool {a : PoolAct B S} (h : wovenStep p w a = .ok w') : poolStep p w.pool a.first = .ok w'.pool := by
  cases a with
  | newMsg al i size pick =>
    obtain ⟨r, hr, h⟩ := bind_ok h
    show (w.pool.newMsg p al i size 0).map Prod.snd = .ok w'.pool
    rw [hr]
    split at h <;> cases h <;> rfl
  | sys a =>
    simp only [wovenStep] at h
    split at h
    · obtain ⟨pool, hp, h⟩ := bind_ok h
      cases h
      exact hp
    · cases h

omit [Fintype B] [Fintype S] [Fintype K] in
theorem threaded_runFifo {links : Links ((B ⊕ S) ⊕ K) Nat} {f f' : B ⊕ S → List (Pkt B)} {free : K → List Nat}
    {call : Option (FifoCall B S)}
    (h : Threaded IsFifo links (Sum.elim (fun q => (f q).map fun a => psMsg p.k a.msg) free))
    (ha : Apart (Sum.elim (fun q => (f q).map fun a => psMsg p.k a.msg) free))
    (ha' : Apart (Sum.elim (fun q => (f' q).map fun a => psMsg p.k a.msg) free)) (he : FifoEffect f call f') :
    Threaded IsFifo (p.runFifo links call) (Sum.elim (fun q => (f' q).map fun a => psMsg p.k a.msg) free) := by
  have hmap : ∀ q l, Sum.elim (fun r => (update f q l r).map fun a => psMsg p.k a.msg) free =
      update (Sum.elim (fun q => (f q).map fun a => psMsg p.k a.msg) free)
        (.inl q) (l.map fun a => psMsg p.k a.msg) := by
    intro q l
    rw [Sum.update_elim_inl]
    congr 1
    funext r
    by_cases hr : r = q
    · subst hr
      rw [update_self, update_self]
    · rw [update_of_ne hr, update_of_ne hr]
  cases he with
  | none => exact h
  | @put q a =>
    rw [hmap, List.map_append] at ha' ⊢
    exact h.append (isFifo_inl q) ha'
  | @get q =>
    rw [hmap, List.map_tail]
    exact (h.get ha (isFifo_inl q)).2

/-- The step of the framework frees at most one block, and puts it on top of its free list. -/
theorem Strung.frees (h : Strung p g u t) {a : Act B S} (hs : poolStep p u (.sys a) = .ok u')
    (links : Links ((B ⊕ S) ⊕ K) Nat) :
    u'.free = u.free ∧ (u'.sys.mem.freeCalls.drop u.sys.mem.freeCalls.length).foldl p.runFree links = links ∨
      ∃ κ b, u'.free = update u.free κ (b :: u.free κ) ∧
        (u'.sys.mem.freeCalls.drop u.sys.mem.freeCalls.length).foldl p.runFree links = links.push (.inr κ) b := by
  have hk := h.recycles.kept
  cases hc : a.creates with
  | false =>
    have hset : ∃ sys, ZephyrPubSub.step p.cfg u.sys a = .ok sys ∧ u.settle p sys = .ok u' := by
      cases a with
      | newMsg => cases hc
      | staticMsgInit => cases hc
      | _ => exact bind_ok hs
    obtain ⟨sys, hstep, hset⟩ := hset
    unfold Pool.settle at hset
    cases trans_fate p.numAllocators_le (step_trans hstep) hc with
    | kept calls hu hf hcb =>
      rw [hf, List.drop_left, foldlM_callbacks p u.free hcb] at hset
      cases hset
      refine .inl ⟨rfl, ?_⟩
      rw [hf, List.drop_left]
      clear hf
      induction calls with
      | nil => rfl
      | cons f calls ih =>
        obtain ⟨m, rfl⟩ := hcb f (List.mem_cons_self ..)
        exact ih fun f hf => hcb f (List.mem_cons_of_mem _ hf)
    | @freed m hd hl hr hl' hf =>
      obtain ⟨κ, b, hb, rfl, himpl, -⟩ := hk.freed hl hr hl'
      have hcall := callFree_freeCallOf p u.free hd.allocId (msgAt p.k b) himpl
      rw [hf, List.drop_left, List.foldlM_cons, hcall] at hset
      cases hset
      refine .inr ⟨κ, b, ?_, ?_⟩
      · show update u.free κ (psMsg p.k (msgAt p.k b) :: u.free κ) = _
        rw [psMsg_msgAt]
      · rw [hf, List.drop_left]
        show p.runFree links (Mem.freeCallOf hd.allocId (msgAt p.k b)) = _
        unfold AllocRef.ofId at himpl
        unfold Mem.freeCallOf Pools.runFree
        split at himpl
        · rename_i hid
          rw [if_pos hid]
          simp only [show p.linkSection[hd.allocId.toNat]? = some κ from himpl, psMsg_msgAt]
        · rename_i hid
          rw [if_neg hid]
          simp only [show p.runtime[hd.allocId.toNat - allocIdRuntimeOffset.toNat]? = some κ from himpl, psMsg_msgAt]
  | true =>
    cases a with
    | newMsg => cases hs
    | staticMsgInit m i k =>
      simp only [poolStep] at hs
      split at hs
      · cases hs
      · obtain ⟨sys, hstep, hs⟩ := bind_ok hs
        cases hs
        obtain ⟨μ, hμ, hstep⟩ := bind_ok hstep
        cases hstep
        obtain ⟨-, -, rfl⟩ := Mem.staticMsgInit_ok hμ
        refine .inl ⟨rfl, ?_⟩
        show List.foldl p.runFree links (List.drop u.sys.mem.freeCalls.length u.sys.mem.freeCalls) = links
        rw [List.drop_length]
        rfl
    | _ => cases hc

omit [Fintype B] [Fintype S] in
theorem Conforming.step (h : Conforming p u.sys.mem) (hk : PoolKept p u.sys.mem u.free) {a : Act B S}
    (hl : p.laidOut a = true)
    (hs : poolStep p u (.sys a) = .ok u') : Conforming p u'.sys.mem := by
  have hstep := (hk.sys hs).2.1
  intro m hd' hm
  cases hc : a.creates with
  | false =>
    cases trans_fate p.numAllocators_le (step_trans hstep) hc with
    | kept calls hu _ _ =>
      obtain ⟨hd, hm', -⟩ := (hu m).2 hd' hm
      exact h m hd hm'
    | @freed m₀ hd _ _ hl' _ =>
      rw [hl'] at hm
      by_cases he : m = m₀
      · subst he
        rw [update_self] at hm
        cases hm
      · rw [update_of_ne he] at hm
        exact h m hd' hm
  | true =>
    cases a with
    | newMsg => cases hs
    | staticMsgInit m₀ i k =>
      obtain ⟨μ, hμ, hstep⟩ := bind_ok hstep
      obtain ⟨-, -, rfl⟩ := Mem.staticMsgInit_ok hμ
      rw [← Except.ok.inj hstep] at hm
      by_cases he : m = m₀
      · rw [he]
        exact of_decide_eq_true hl
      · rw [Mem.setLife_ne _ _ he] at hm
        exact h m hd' hm
    | _ => cases hc

/-- The words thread the lists of a system that links each message once. -/
structure WovenInv (p : Pools K S) (w : Woven B S K) : Prop where
  strung : ∃ g t, Strung p g w.pool t
  conforming : Conforming p w.pool.sys.mem
  threads : Threaded IsFifo w.links (w.pool.nodes p)

omit [DecidableEq B] [DecidableEq S] [DecidableEq K] [Fintype K] in
theorem wovenInv_init (h : w.Init p) : WovenInv p w := by
  refine ⟨⟨_, _, strung_init h.pool⟩, ?_, ?_, ?_⟩
  · intro m hd hl
    rw [h.pool.sys.life] at hl
    cases hl
  · rintro (q | κ)
    · rw [h.head]
      unfold Pool.nodes
      rw [Sum.elim_inl, inFifos_init h.pool.sys]
      rfl
    · exact h.free κ
  · rintro (q | κ) hq
    · rw [h.tail]
      unfold Pool.nodes
      rw [Sum.elim_inl, inFifos_init h.pool.sys]
      rfl
    · exact absurd hq (not_isFifo_inr κ)

theorem WovenInv.sys (h : WovenInv p w) {a : Act B S} (hs : wovenStep p w (.sys a) = .ok w') : WovenInv p w' := by
  obtain ⟨g, t, hstr⟩ := h.strung
  simp only [wovenStep] at hs
  split at hs
  · rename_i hl
    obtain ⟨pool, hp, hs⟩ := bind_ok hs
    obtain ⟨g', t', hstr'⟩ := hstr.step hp
    have hc := h.conforming.step hstr.recycles.kept hl hp
    have hapart := hstr.apart h.conforming
    have hapart' := hstr'.apart hc
    have heff := trans_fifos (step_trans (hstr.recycles.kept.sys hp).2.1) fun b q id x tmp hw => hstr.put hw
    cases hs
    refine ⟨⟨g', t', hstr'⟩, hc, ?_⟩
    unfold Pool.nodes at hapart' ⊢
    obtain ⟨hfree, hfold⟩ | ⟨κ, b, hfree, hfold⟩ := hstr.frees hp (p.runFifo w.links (w.pool.sys.fifoCall p.cfg a))
    · rw [hfree] at hapart' ⊢
      rw [hfold]
      exact threaded_runFifo h.threads hapart hapart' heff
    · rw [hfree, ← Sum.update_elim_inr] at hapart' ⊢
      rw [hfold]
      have hmid : Apart (Sum.elim (fun q => (pool.sys.inFifos p.cfg q).map fun a => psMsg p.k a.msg) w.pool.free) := by
        apply hapart'.sublist
        intro i
        by_cases hi : i = .inr κ
        · subst hi
          rw [update_self]
          exact List.sublist_cons_self ..
        · rw [update_of_ne hi]
      exact (threaded_runFifo h.threads hapart hmid heff).push (not_isFifo_inr κ) hapart'
  · cases hs

theorem WovenInv.step (h : WovenInv p w) {a : PoolAct B S} (hs : wovenStep p w a = .ok w') : WovenInv p w' := by
  cases a with
  | sys a => exact h.sys hs
  | newMsg al i size pick =>
    obtain ⟨g, t, hstr⟩ := h.strung
    obtain ⟨g', t', hstr'⟩ := hstr.step (woven_pool hs)
    obtain ⟨r, hr, hs⟩ := bind_ok hs
    obtain rfl | ⟨κ, b, rest, hκ, hf, hm, hfree, hstep⟩ := newMsg_first hr
    · cases hs
      exact h
    · simp only [hm, hκ] at hs
      cases hs
      have hlife := newMsg_step_life hstep
      obtain ⟨μ, -, hstep⟩ := bind_ok hstep
      refine ⟨⟨g', t', hstr'⟩, ?_, ?_⟩
      · intro m hd hl
        rw [hlife] at hl
        by_cases he : m = msgAt p.k b
        · rw [he, psMsg_msgAt]
        · rw [update_of_ne he] at hl
          exact h.conforming m hd hl
      · have hq : r.2.sys.inFifos p.cfg = w.pool.sys.inFifos p.cfg := by
          rw [← Except.ok.inj hstep]
          rfl
        unfold Pool.nodes
        rw [hq, hfree, ← Sum.update_elim_inr]
        have := (h.threads.pop (not_isFifo_inr κ)).2
        unfold Pool.nodes at this
        rw [Sum.elim_inr, hf] at this
        exact this

/-- In every reachable state the words lead from the head of each FIFO through
the blocks of the messages that are in it, in their order, to its tail, and from
each `free_list` through the free blocks. No word belongs to two lists, so
`k_fifo_get` and `k_mem_slab_alloc` return the blocks that the system takes. -/
theorem words_threaded (h : Reachable (wovenStep p) (Woven.Init p) (fun _ _ => True) w) :
    Reachable (poolStep p) (Pool.Init p) (fun _ _ => True) w.pool ∧ Threaded IsFifo w.links (w.pool.nodes p) ∧
    Apart (w.pool.nodes p) ∧
    (∀ q, (w.links.get (.inl q)).1 = ((w.pool.sys.inFifos p.cfg q).map fun a => psMsg p.k a.msg).head?) ∧
    ∀ κ, (w.links.pop (.inr κ)).1 = (w.pool.free κ).head? := by
  have hinv : Reachable (poolStep p) (Pool.Init p) (fun _ _ => True) w.pool ∧ WovenInv p w := by
    apply h.invariant (I := fun w => Reachable (poolStep p) (Pool.Init p) (fun _ _ => True) w.pool ∧ WovenInv p w)
    · exact fun w hw => ⟨⟨w.pool, hw.pool, .refl _⟩, wovenInv_init hw⟩
    · exact fun w a w' ⟨hr, hi⟩ _ hs => ⟨hr.tail trivial (woven_pool hs), hi.step hs⟩
  obtain ⟨hr, hi⟩ := hinv
  obtain ⟨g, t, hstr⟩ := hi.strung
  have hapart := hstr.apart hi.conforming
  refine ⟨hr, hi.threads, hapart, fun q => ?_, fun κ => ?_⟩
  · exact (hi.threads.get hapart (isFifo_inl q)).1
  · exact (hi.threads.pop (not_isFifo_inr κ)).1

end

def threeBlocks : Pools Unit (Fin 2) := { oneBlock with
  slab := fun _ => .sized 2 0x2000 8 3
  room := fun _ => by decide
  word := fun _ => by decide
  apart := fun _ _ h => absurd rfl h }

def threeBlocksInit : Woven Unit (Fin 2) Unit where
  pool := ⟨msgqAndFifoInit, fun _ => [0x2000, 0x2010, 0x2020]⟩
  links :=
    { next := fun b => if b = 0x2000 then some 0x2010 else if b = 0x2010 then some 0x2020 else none
      head := Sum.elim (fun _ => none) fun _ => some 0x2000
      tail := fun _ => none }

theorem threeBlocks_init : threeBlocksInit.Init threeBlocks :=
  ⟨⟨msgqAndFifo_init, fun _ => List.Perm.refl _⟩, fun _ => rfl, fun _ => rfl, fun _ => ⟨rfl, rfl, rfl, rfl⟩⟩

/-- Two messages are published; the first one is dispatched and waits in the FIFO of a subscriber. -/
def twoPublished : List (PoolAct Unit (Fin 2)) :=
  [.newMsg (.linkSection 0) 3 8 0, .newMsg (.linkSection 0) 3 8 0, .sys (.publish () 0x2018),
   .sys (.publish () 0x2008)] ++
    List.replicate 6 (.sys (.work ()))

/-- The word at 0x2000 has linked two free blocks, then two messages, and is the end of the publish FIFO now. -/
theorem words_threaded_twoPublished : ∃ w, exec (wovenStep threeBlocks) threeBlocksInit twoPublished = .ok w ∧
    w.links.head (.inl (.inl ())) = some 0x2000 ∧ w.links.next 0x2000 = none ∧
    Reachable (poolStep threeBlocks) (Pool.Init threeBlocks) (fun _ _ => True) w.pool ∧
    Threaded IsFifo w.links (w.pool.nodes threeBlocks) ∧ Apart (w.pool.nodes threeBlocks) := by
  have hx : ∃ w, exec (wovenStep threeBlocks) threeBlocksInit twoPublished = .ok w ∧
      w.links.head (.inl (.inl ())) = some 0x2000 ∧ w.links.next 0x2000 = none := ⟨_, rfl, rfl, rfl⟩
  obtain ⟨w, hw, hhead, hnext⟩ := hx
  obtain ⟨hr, ht, ha, -⟩ := words_threaded ⟨threeBlocksInit, threeBlocks_init,
    Run.of_exec (wovenStep threeBlocks) twoPublished _ _ hw fun _ _ => trivial⟩
  exact ⟨w, hw, hhead, hnext, hr, ht, ha⟩

end ZephyrPubSub
