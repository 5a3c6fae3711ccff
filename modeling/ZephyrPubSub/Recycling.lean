import ZephyrPubSub.Image

/-!
# Reusing the blocks is safe

A run of the system on memory slabs is a run of the system in which every
allocation is a new message: no queue, thread or owner holds on to an address
when its block is allocated again. So what holds of all those runs, the
accounting of references for one, holds on memory slabs.
-/

namespace ZephyrPubSub

open Function Runs Outcome

section
variable {B S : Type} [DecidableEq B] [DecidableEq S] [Fintype B] [Fintype S] {c : Cfg S}
  {s t : Sys B S} {g : Msg → Nat}

theorem allCurrent (h : Follows g s t) (ha : Accounted c t) : AllCurrent g t := by
  intro p hp
  obtain ⟨hd, hl, -⟩ := ha.live hp.refs
  exact h.2.live p.msg hd hl

omit [DecidableEq B] [DecidableEq S] in
theorem Accounted.dead (ha : Accounted c t) {m : Msg} (hd : ∀ h, t.mem.life m ≠ .live h) :
    t.mem.owned m = false ∧ t.mem.extra m = 0 := by
  have h0 : refs t m = 0 := by
    by_contra hne
    obtain ⟨hd', hl, -⟩ := ha.live (Nat.pos_of_ne_zero hne)
    exact hd hd' hl
  refine ⟨owned_of_refs h0, ?_⟩
  by_contra hx
  have := refs_extra (Nat.pos_of_ne_zero hx)
  omega

/-! ## Counting references at an address -/

omit [DecidableEq B] [Fintype B] in
theorem one_map {p : Pkt B} (hp : IsCurrent g p.msg) (a : Msg) : one a (p.map address) = one (latest g a) p := by
  have hiff : (p.map address).msg = a ↔ p.msg = latest g a := by
    rw [eq_comm (a := p.msg), latest_eq_iff hp]
    exact eq_comm
  unfold one
  simp only [hiff]

omit [DecidableEq B] [Fintype B] in
theorem inList_map {l : List (Pkt B)} (hl : ∀ p ∈ l, IsCurrent g p.msg) (a : Msg) :
    inList a (l.map (Pkt.map address)) = inList (latest g a) l := by
  induction l with
  | nil => rfl
  | cons p l ih =>
    rw [List.map_cons, inList_cons, inList_cons, one_map (hl p (List.mem_cons_self ..)),
      ih fun q hq => hl q (List.mem_cons_of_mem p hq)]

omit [DecidableEq B] [DecidableEq S] [Fintype B] [Fintype S] in
theorem Work.refs_map {w : Work B S} (hw : ∀ p, w.pkt = some p → IsCurrent g p.msg) (a : Msg) :
    (w.map address).refs a = w.refs (latest g a) := by
  cases w with
  | lock p | scan p | release p => exact one_map (hw p rfl) a
  | put p => simp only [Work.map, Work.refs_put, one_map (hw p rfl)]
  | _ => rfl

omit [DecidableEq B] [DecidableEq S] [Fintype B] [Fintype S] in
theorem Svc.refs_map {v : Svc B S} (hv : ∀ p, v.pkt = some p → IsCurrent g p.msg) (a : Msg) :
    (v.map address).refs a = v.refs (latest g a) := by
  cases v with
  | idle => rfl
  | got p | lock p | walk p | ready p | running p => exact one_map (hv p rfl) a

omit [DecidableEq B] [DecidableEq S] in
theorem refs_follows (h : Follows g s t) (hc : AllCurrent g t) (a : Msg) : refs s a = refs t (latest g a) := by
  obtain ⟨he, hm⟩ := h
  have hf : ∀ b, inList a (s.fifo b) = inList (latest g a) (t.fifo b) := by
    intro b
    rw [he]
    exact inList_map (fun p hp => hc p (.fifo hp)) a
  have hw : ∀ b, (s.work b).refs a = (t.work b).refs (latest g a) := by
    intro b
    rw [he]
    exact Work.refs_map (fun p hp => hc p (.work hp)) a
  have hq : ∀ x, inList a (s.queue x) = inList (latest g a) (t.queue x) := by
    intro x
    rw [he]
    exact inList_map (fun p hp => hc p (.queue hp)) a
  have hv : ∀ x, (s.svc x).refs a = (t.svc x).refs (latest g a) := by
    intro x
    rw [he]
    exact Svc.refs_map (fun p hp => hc p (.svc hp)) a
  have hcl : inList a (s.calls.map Prod.snd) = inList (latest g a) (t.calls.map Prod.snd) := by
    have hmap : s.calls.map Prod.snd = (t.calls.map Prod.snd).map (Pkt.map address) := by
      rw [he]
      simp [Sys.image, callMap, Function.comp_def]
    rw [hmap]
    apply inList_map
    intro p hp
    obtain ⟨e, hx, rfl⟩ := List.mem_map.mp hp
    exact hc e.2 (.call hx)
  simp only [refs, hm.owned, hm.extra, hf, hw, hq, hv, hcl]

end

/-! ## The refinement -/

section
variable {B S K : Type} [DecidableEq B] [DecidableEq S] [DecidableEq K] [Fintype B] [Fintype S] [Fintype K]
variable {p : Pools K S} {s s' : Pool B S K} {t : Sys B S}

/-- A message system that the system on the slabs is in step with. -/
structure Recycles (p : Pools K S) (g : Msg → Nat) (s : Pool B S K) (t : Sys B S) : Prop where
  follows : Follows g s.sys t
  kept : PoolKept p s.sys.mem s.free
  accounted : Accounted p.cfg t

variable {g : Msg → Nat}

omit [DecidableEq B] [DecidableEq S] [DecidableEq K] [Fintype K] in
theorem Recycles.renew (h : Recycles p g s t) {κ : K} {b : Nat} (hb : b ∈ s.free κ) :
    Follows (update g (msgAt p.k b) (g (msgAt p.k b) + 1)) (s.sys.renew (msgAt p.k b)) t := by
  have hdead := (h.kept.free_iff κ b (h.kept.sub κ b hb)).mp hb
  have hd : ∀ hd, s.sys.mem.life (msgAt p.k b) ≠ .live hd := by
    intro hd hl
    rw [hl] at hdead
    cases hdead
  obtain ⟨ho, hx⟩ := h.accounted.dead (m := latest g (msgAt p.k b)) fun hd' hl => hd hd' (by rw [h.follows.2.life, hl])
  rw [← h.follows.2.owned] at ho
  rw [← h.follows.2.extra] at hx
  apply h.follows.renew ho hx hd
  apply h.accounted.dead
  intro hd' hl
  rw [h.follows.2.fresh _ _ (Nat.lt_succ_self _)] at hl
  cases hl

omit [DecidableEq K] [Fintype K] in
/-- The new message is a message that has not been used before. -/
theorem Recycles.newMsg (h : Recycles p g s t) {κ : K} {b : Nat} (hb : b ∈ s.free κ) (i : MsgId) {al : AllocRef}
    (hal : p.impl al = some κ) :
    ∃ sys t', step p.cfg (s.sys.renew (msgAt p.k b)) (.newMsg (msgAt p.k b) i al.id) = .ok sys ∧
      step p.cfg t (.newMsg (Nat.pair (g (msgAt p.k b) + 1) (msgAt p.k b)) i al.id) = .ok t' ∧
      Follows (update g (msgAt p.k b) (g (msgAt p.k b) + 1)) sys t' := by
  have hf := follows_newMsg (c := p.cfg) (h.renew hb) (msgAt p.k b) i al.id
  have hcur : latest (update g (msgAt p.k b) (g (msgAt p.k b) + 1)) (msgAt p.k b) =
      Nat.pair (g (msgAt p.k b) + 1) (msgAt p.k b) := by
    unfold latest
    rw [update_self]
  have hok : ∃ t', step p.cfg t (.newMsg (Nat.pair (g (msgAt p.k b) + 1) (msgAt p.k b)) i al.id) = .ok t' := by
    have hfresh := h.follows.2.fresh (msgAt p.k b) _ (Nat.lt_succ_self _)
    simp [step, Mem.newMsg, hfresh, (p.ofId_id hal).2, Mem.acquireMsg, bind, Except.bind]
  rw [hcur] at hf
  obtain ⟨t', ht'⟩ := hok
  obtain ⟨sys, hs, hfol⟩ := hf.ok' ht'
  exact ⟨sys, t', hs, ht', hfol⟩

def PoolAct.Names (g : Msg → Nat) : PoolAct B S → Act B S → Prop
  | .newMsg _ i .., a' => ∃ m k, a' = .newMsg m i k
  | .sys a, a' => a' = a.map (latest g)

section
variable (p : Pools K S)

def Pool.returned (s : Pool B S K) : PoolAct B S → Option Msg
  | .newMsg al i size pick =>
    match s.newMsg p al i size pick with
    | .ok r => r.1
    | .error _ => none
  | .sys _ => none

/-- The step of the messages that a step on the slabs is: an allocation makes the next message
of its address, and any other action is the same one on the latest messages. -/
def Pool.retell (s : Pool B S K) (g : Msg → Nat) (a : PoolAct B S) : Option (Act B S) :=
  match a with
  | .newMsg al i _ _ => (s.returned p a).map fun m => .newMsg (Nat.pair (g m + 1) m) i al.id
  | .sys a => some (a.map (latest g))

def Pool.renumber (s : Pool B S K) (g : Msg → Nat) (a : PoolAct B S) : Msg → Nat :=
  match s.returned p a with
  | some m => update g m (g m + 1)
  | none => g

/-- The steps of a run in turn, and how often each address has been allocated. -/
def retellAll : (Msg → Nat) → Pool B S K → List (PoolAct B S) → List (Act B S) × (Msg → Nat)
  | g, _, [] => ([], g)
  | g, s, a :: as =>
    match poolStep p s a with
    | .ok s' =>
      let r := retellAll (s.renumber p g a) s' as
      ((s.retell p g a).toList ++ r.1, r.2)
    | .error _ => ([], g)

end

/-- A step on the slabs is a step of the messages, or returns NULL. -/
theorem Recycles.retold (h : Recycles p g s t) {a : PoolAct B S} (hs : poolStep p s a = .ok s') :
    ∃ t', Recycles p (s.renumber p g a) s' t' ∧
      (s.retell p g a = none ∧ s' = s ∧ t' = t ∨
        ∃ a', s.retell p g a = some a' ∧ a.Names g a' ∧ ZephyrPubSub.step p.cfg t a' = .ok t') := by
  have hk := h.kept.step hs
  cases a with
  | newMsg al i size pick =>
    simp only [poolStep] at hs
    obtain ⟨r, hr, rfl⟩ := map_ok hs
    simp only [Pool.renumber, Pool.retell, Pool.returned, hr]
    obtain ⟨κ, hκ, -, ⟨rfl, -⟩ | ⟨b, sys, hb, hstep, rfl⟩⟩ := pool_newMsg_ok hr
    · exact ⟨t, h, .inl ⟨rfl, rfl, rfl⟩⟩
    · obtain ⟨sys', t', hsys, ht', hf⟩ := h.newMsg hb i hκ
      cases hsys.symm.trans hstep
      exact ⟨t', ⟨hf, hk, h.accounted.trans (step_trans ht')⟩, .inr ⟨_, rfl, ⟨_, _, rfl⟩, ht'⟩⟩
  | sys a =>
    obtain ⟨hne, hstep, -⟩ := h.kept.sys hs
    have hl := follows_step (c := p.cfg) h.follows (allCurrent h.follows h.accounted) a hne
    obtain ⟨t', ht', hf⟩ := hl.ok hstep
    exact ⟨t', ⟨hf, hk, h.accounted.trans (step_trans ht')⟩, .inr ⟨_, rfl, rfl, ht'⟩⟩

theorem Recycles.step (h : Recycles p g s t) {a : PoolAct B S} (hs : poolStep p s a = .ok s') :
    ∃ g' t', Recycles p g' s' t' ∧
      (s' = s ∧ t' = t ∨ ∃ a', a.Names g a' ∧ ZephyrPubSub.step p.cfg t a' = .ok t') := by
  obtain ⟨t', h', ⟨-, hs', ht'⟩ | ⟨a', -, hn, ht'⟩⟩ := h.retold hs
  · exact ⟨_, t', h', .inl ⟨hs', ht'⟩⟩
  · exact ⟨_, t', h', .inr ⟨a', hn, ht'⟩⟩

omit [DecidableEq B] [DecidableEq S] [DecidableEq K] [Fintype K] in
theorem recycles_init (h : s.Init p) : Recycles p (fun _ => 0) s s.sys := by
  refine ⟨⟨?_, ?_⟩, poolKept_init h, accounted_init h.sys⟩
  · have hf : List.map (Pkt.map address) ∘ s.sys.fifo = s.sys.fifo := funext fun b => by simp [h.sys.fifo b]
    have hw : Work.map address ∘ s.sys.work = s.sys.work := funext fun b => by simp [h.sys.work b, Work.map]
    have hq : List.map (Pkt.map address) ∘ s.sys.queue = s.sys.queue := funext fun x => by simp [h.sys.queue x]
    have hv : Svc.map address ∘ s.sys.svc = s.sys.svc := funext fun x => by simp [h.sys.svc x, Svc.map]
    have hc : s.sys.calls.map (callMap address) = s.sys.calls := by simp [h.sys.calls]
    have hl : s.sys.log.map (Event.map address) = s.sys.log := by simp [h.sys.log]
    unfold Sys.image
    rw [hf, hw, hq, hv, hc, hl]
  · have hlife := h.sys.life
    constructor
    · intro a
      rw [hlife, hlife]
    · intro a
      rw [h.sys.owned, h.sys.owned]
    · intro a
      rw [h.sys.extra, h.sys.extra]
    · intro m hd hl
      rw [hlife] at hl
      cases hl
    · exact fun _ _ _ => hlife _
    · simp [h.sys.freeCalls]

theorem Recycles.run : ∀ (as : List (PoolAct B S)) {g : Msg → Nat} {s s' : Pool B S K} {t : Sys B S},
    Recycles p g s t → exec (poolStep p) s as = .ok s' →
      ∃ t', exec (ZephyrPubSub.step p.cfg) t (retellAll p g s as).1 = .ok t' ∧ Recycles p (retellAll p g s as).2 s' t'
  | [], g, s, s', t, h, he => by
    cases he
    exact ⟨t, rfl, h⟩
  | a :: as, g, s, s', t, h, he => by
    obtain ⟨s₁, hs₁, he⟩ := exec_cons _ he
    obtain ⟨t₁, h₁, hstep⟩ := h.retold hs₁
    obtain ⟨t', ht', h'⟩ := Recycles.run as h₁ he
    have hact : exec (ZephyrPubSub.step p.cfg) t (s.retell p g a).toList = .ok t₁ := by
      rcases hstep with ⟨hn, -, rfl⟩ | ⟨b, hb, -, hb'⟩
      · rw [hn]
        rfl
      · rw [hb, Option.toList_some, exec, hb']
        rfl
    rw [retellAll]
    simp only [hs₁]
    exact ⟨t', by rw [exec_append _ hact]; exact ht', h'⟩

omit [Fintype K] in
/-- What an allocation does: it fails on its arguments only. -/
theorem Recycles.newMsg_eq (h : Recycles p g s t) (al : AllocRef) (i : MsgId) (size pick : Nat) :
    (s.newMsg p al i size pick = .error .assertion ∧
        ∀ κ, p.impl al = some κ → ¬ (p.slab κ).SizeOk p.k (BitVec.ofNat (8 * 2 ^ p.k) size)) ∨
      ∃ κ, p.impl al = some κ ∧ (p.slab κ).SizeOk p.k (BitVec.ofNat (8 * 2 ^ p.k) size) ∧
        (s.free κ = [] ∧ s.newMsg p al i size pick = .ok (none, s) ∨
          ∃ b sys, b ∈ s.free κ ∧ ZephyrPubSub.step p.cfg (s.sys.renew (msgAt p.k b))
              (.newMsg (msgAt p.k b) i al.id) = .ok sys ∧
            s.newMsg p al i size pick = .ok (some (msgAt p.k b), ⟨sys, update s.free κ ((s.free κ).erase b)⟩)) := by
  unfold Pool.newMsg
  cases hal : p.impl al with
  | none => exact .inl ⟨rfl, by simp⟩
  | some κ =>
    by_cases hsize : (p.slab κ).SizeOk p.k (BitVec.ofNat (8 * 2 ^ p.k) size)
    · refine .inr ⟨κ, rfl, hsize, ?_⟩
      simp only [allocateFromMemSlab, if_pos hsize]
      cases ha : kMemSlabAlloc (s.free κ) pick with
      | none => exact .inl ⟨kMemSlabAlloc_none.mp ha, rfl⟩
      | some r =>
        obtain ⟨b, free'⟩ := r
        obtain ⟨hb, rfl⟩ := kMemSlabAlloc_some ha
        obtain ⟨sys, -, hsys, -⟩ := h.newMsg hb i hal
        refine .inr ⟨b, sys, hb, hsys, ?_⟩
        simp only [bind, Except.bind]
        rw [hsys]
    · left
      simp only [allocateFromMemSlab, if_neg hsize]
      refine ⟨rfl, fun κ' hκ => ?_⟩
      cases hκ
      exact hsize

/-- Where the system on the slabs fails, so does the one of the messages, but
for the assertions on the arguments of an allocation. -/
def FailsAlike (p : Pools K S) (g : Msg → Nat) (t : Sys B S) (e : Stop) : PoolAct B S → Prop
  | .newMsg .. => e = .assertion
  | .sys a => e = .misuse ∨ ZephyrPubSub.step p.cfg t (a.map (latest g)) = .error e

theorem Recycles.error (h : Recycles p g s t) {a : PoolAct B S} {e : Stop} (he : poolStep p s a = .error e) :
    FailsAlike p g t e a := by
  cases a with
  | newMsg al i size pick =>
    simp only [poolStep] at he
    obtain ⟨hn, -⟩ | ⟨κ, -, -, ⟨-, hn⟩ | ⟨b, sys, -, -, hn⟩⟩ := h.newMsg_eq al i size pick
    · rw [hn] at he
      cases he
      exact rfl
    · rw [hn] at he
      cases he
    · rw [hn] at he
      cases he
  | sys a =>
    have hset : ∀ {a : Act B S}, (∀ m i k, a ≠ .newMsg m i k) → ZephyrPubSub.step p.cfg s.sys a = .error e →
        ZephyrPubSub.step p.cfg t (a.map (latest g)) = .error e := by
      intro a hne hstep
      have hl := follows_step (c := p.cfg) h.follows (allCurrent h.follows h.accounted) a hne
      rw [hstep] at hl
      cases ht : ZephyrPubSub.step p.cfg t (a.map (latest g)) with
      | ok t' => rw [ht] at hl; exact hl.elim
      | error e' => rw [ht] at hl; exact congrArg Except.error hl.symm
    cases hc : a.creates with
    | false =>
      have hbind : ZephyrPubSub.step p.cfg s.sys a >>= s.settle p = .error e := by
        cases a with
        | newMsg => cases hc
        | staticMsgInit => cases hc
        | _ => exact he
      refine .inr (hset (by rintro m i k rfl; cases hc) ?_)
      rcases bind_error hbind with hstep | ⟨sys, hstep, hsettle⟩
      · exact hstep
      · obtain ⟨s₁, hs₁, -⟩ := h.kept.settle hc hstep
        rw [hs₁] at hsettle
        cases hsettle
    | true =>
      cases a with
      | newMsg => cases he; exact .inl rfl
      | staticMsgInit m i k =>
        simp only [poolStep] at he
        split at he
        · cases he
          exact .inl rfl
        · rcases bind_error he with hstep | ⟨sys, -, hok⟩
          · exact .inr (hset (by simp) hstep)
          · cases hok
      | _ => cases hc

theorem recycles_reachable {P : Pool B S K → PoolAct B S → Prop} (h : Reachable (poolStep p) (Pool.Init p) P s) :
    ∃ g t, Recycles p g s t := by
  apply h.invariant (I := fun s => ∃ g t, Recycles p g s t)
  · exact fun s hs => ⟨_, _, recycles_init hs⟩
  · rintro s a s' ⟨g, t, hr⟩ - hs
    obtain ⟨g', t', hr', -⟩ := hr.step hs
    exact ⟨g', t', hr'⟩

section
omit [DecidableEq K] [Fintype K]

theorem Recycles.refs (h : Recycles p g s t) (a : Msg) : refs s.sys a = ZephyrPubSub.refs t (latest g a) :=
  refs_follows h.follows (allCurrent h.follows h.accounted) a

/-- A block is in use as long as somebody refers to its message. -/
theorem Recycles.used (h : Recycles p g s t) {κ : K} {b : Nat} (hb : b ∈ (p.slab κ).blocks) :
    (b ∈ s.free κ ↔ ZephyrPubSub.refs s.sys (msgAt p.k b) = 0) ∧
      (b ∉ s.free κ → ∃ hd, s.sys.mem.life (msgAt p.k b) = .live hd ∧
        hd.refCnt = ZephyrPubSub.refs s.sys (msgAt p.k b) ∧ p.impl (AllocRef.ofId hd.allocId) = some κ) := by
  have hlife := h.follows.2.life (msgAt p.k b)
  have hlive : ∀ hd, s.sys.mem.life (msgAt p.k b) = .live hd →
      0 < hd.refCnt ∧ hd.refCnt = ZephyrPubSub.refs s.sys (msgAt p.k b) := by
    intro hd hl
    have hreg := (h.kept.owner κ b hb hd hl).1
    rw [hlife] at hl
    have hpool := h.accounted.pool (latest g (msgAt p.k b))
    unfold Mem.PoolOk at hpool
    rw [hl] at hpool
    refine ⟨(hpool hreg).1, ?_⟩
    rw [h.refs, ← h.accounted.refCnt hl]
  constructor
  · rw [h.kept.free_iff κ b hb]
    constructor
    · intro hdead
      by_contra hne
      rw [h.refs] at hne
      obtain ⟨hd, hl, -⟩ := h.accounted.live (Nat.pos_of_ne_zero hne)
      rw [hlife, hl] at hdead
      cases hdead
    · intro h0
      cases hl : s.sys.mem.life (msgAt p.k b) with
      | live hd =>
        have := hlive hd hl
        omega
      | unused => rfl
      | freed hd => rfl
  · intro hused
    rw [h.kept.free_iff κ b hb] at hused
    cases hl : s.sys.mem.life (msgAt p.k b) with
    | live hd => exact ⟨hd, rfl, (hlive hd hl).2, (h.kept.owner κ b hb hd hl).2⟩
    | unused => rw [hl] at hused; exact absurd rfl hused
    | freed hd => rw [hl] at hused; exact absurd rfl hused

theorem Recycles.free_perm (h : Recycles p g s t) (κ : K) :
    (s.free κ).Perm ((p.slab κ).blocks.filter fun b => ZephyrPubSub.refs s.sys (msgAt p.k b) = 0) := by
  rw [List.perm_ext_iff_of_nodup (h.kept.nodup κ)
    (((p.slab κ).blocks_nodup (p.blockSize_pos κ)).filter _)]
  intro b
  rw [List.mem_filter, decide_eq_true_eq]
  constructor
  · intro hb
    have hbk := h.kept.sub κ b hb
    exact ⟨hbk, (h.used hbk).1.mp hb⟩
  · rintro ⟨hbk, h0⟩
    exact (h.used hbk).1.mpr h0

end

/-- In every reachable state the free blocks of a slab and those whose message
somebody refers to make up the slab, no block counted twice; a message in use
has its count of references and an allocator of this slab. -/
theorem pool_accounted (h : Reachable (poolStep p) (Pool.Init p) (fun _ _ => True) s) (κ : K) :
    (s.free κ).Nodup ∧
    (s.free κ).length + (p.slab κ).blocks.countP (fun b => 0 < ZephyrPubSub.refs s.sys (msgAt p.k b)) =
      (p.slab κ).numBlocks ∧
    ∀ b ∈ (p.slab κ).blocks, (b ∈ s.free κ ↔ ZephyrPubSub.refs s.sys (msgAt p.k b) = 0) ∧
      (b ∉ s.free κ → ∃ hd, s.sys.mem.life (msgAt p.k b) = .live hd ∧
        hd.refCnt = ZephyrPubSub.refs s.sys (msgAt p.k b) ∧ p.impl (AllocRef.ofId hd.allocId) = some κ) := by
  obtain ⟨g, t, hr⟩ := recycles_reachable h
  refine ⟨hr.kept.nodup κ, ?_, fun b hb => hr.used hb⟩
  rw [(hr.free_perm κ).length_eq, ← List.countP_eq_length_filter]
  have hlen : (p.slab κ).blocks.length = (p.slab κ).numBlocks := by simp [MemSlab.blocks]
  have hsum := List.length_eq_countP_add_countP (fun b => decide (ZephyrPubSub.refs s.sys (msgAt p.k b) = 0))
    (l := (p.slab κ).blocks)
  rw [hlen] at hsum
  rw [hsum]
  simp [Nat.pos_iff_ne_zero]

/-- The message is the caller's alone, and no byte of its block belongs to another message in use. -/
structure Granted (p : Pools K S) (s s' : Pool B S K) (κ : K) (size : Nat) (m : Msg) : Prop where
  unused : ZephyrPubSub.refs s.sys m = 0
  owned : s'.sys.mem.owned m = true
  refs : ZephyrPubSub.refs s'.sys m = 1
  block : ∃ b ∈ (p.slab κ).blocks, m = msgAt p.k b ∧ m + size ≤ b + (p.slab κ).blockSize ∧
    ∀ κ', ∀ b' ∈ (p.slab κ').blocks, 0 < ZephyrPubSub.refs s.sys (msgAt p.k b') →
      b + (p.slab κ).blockSize ≤ b' ∨ b' + (p.slab κ').blockSize ≤ b

omit [DecidableEq S] [DecidableEq K] [Fintype S] [Fintype K] in
theorem size_fits {κ : K} {size : Nat} (hsize : size < 2 ^ (8 * 2 ^ p.k))
    (hok : (p.slab κ).SizeOk p.k (BitVec.ofNat (8 * 2 ^ p.k) size)) (b : Nat) :
    msgAt p.k b + size ≤ b + (p.slab κ).blockSize := by
  have hroom := p.room κ
  have hword := p.word κ
  have := (sizeOk_fits_iff hword (by omega)).mpr hroom _ hok
  rw [BitVec.toNat_ofNat, Nat.mod_eq_of_lt hsize, overhead_eq] at this
  rw [msgAt_eq]
  omega

omit [Fintype K] in
theorem Recycles.granted (h : Recycles p g s t) {κ : K} {b : Nat} (hb : b ∈ s.free κ) {al : AllocRef}
    (hal : p.impl al = some κ) {i : MsgId} {size : Nat} {sys : Sys B S}
    (hfit : msgAt p.k b + size ≤ b + (p.slab κ).blockSize)
    (hs : ZephyrPubSub.step p.cfg (s.sys.renew (msgAt p.k b)) (.newMsg (msgAt p.k b) i al.id) = .ok sys)
    (free : K → List Nat) : Granted p s ⟨sys, free⟩ κ size (msgAt p.k b) := by
  have hbk := h.kept.sub κ b hb
  constructor
  · exact (h.used hbk).1.mp hb
  · obtain ⟨μ, hμ, hs⟩ := bind_ok hs
    cases hs
    show μ.owned (msgAt p.k b) = true
    rw [(Mem.newMsg_ok hμ).2.2.2.1, update_self]
  · obtain ⟨sys', t', hsys, ht', hf⟩ := h.newMsg hb i hal
    cases hsys.symm.trans hs
    have ha' := h.accounted.trans (step_trans ht')
    have hl := newMsg_step_life hs
    have hlife := hf.2.life (msgAt p.k b)
    rw [hl, update_self] at hlife
    show ZephyrPubSub.refs sys (msgAt p.k b) = 1
    rw [refs_follows hf (allCurrent hf ha'), ← ha'.refCnt hlife.symm]
  · refine ⟨b, hbk, rfl, hfit, ?_⟩
    intro κ' b' hb' hpos
    by_cases hκ : κ = κ'
    · subst hκ
      have hne : b ≠ b' := by
        rintro rfl
        have := (h.used hbk).1.mp hb
        omega
      exact ((p.slab κ).blocks_apart hbk hb').2.2 hne
    · exact p.apart κ κ' hκ b hbk b' hb'

def Allocates (p : Pools K S) (s : Pool B S K) (κ : K) (size : Nat) : Except Stop (Option Msg × Pool B S K) → Prop
  | .error e => e = .assertion ∧ ¬ (p.slab κ).SizeOk p.k (BitVec.ofNat (8 * 2 ^ p.k) size)
  | .ok (none, s') => s' = s ∧ ∀ b ∈ (p.slab κ).blocks, 0 < ZephyrPubSub.refs s.sys (msgAt p.k b)
  | .ok (some m, s') => Granted p s s' κ size m

/-- An allocation whose size passes the assertion returns NULL exactly when
somebody refers to the message of each block, and else a message of its own
that nobody refers to; one that does not pass changes nothing. -/
theorem pool_newMsg (h : Reachable (poolStep p) (Pool.Init p) (fun _ _ => True) s) {al : AllocRef} {κ : K}
    (hal : p.impl al = some κ) (i : MsgId) {size : Nat} (hsize : size < 2 ^ (8 * 2 ^ p.k)) (pick : Nat) :
    Allocates p s κ size (s.newMsg p al i size pick) := by
  obtain ⟨g, t, hr⟩ := recycles_reachable h
  obtain ⟨he, hno⟩ | ⟨κ', hκ', hok, hr'⟩ := hr.newMsg_eq al i size pick
  · rw [he]
    exact ⟨rfl, hno κ hal⟩
  · cases hal.symm.trans hκ'
    obtain ⟨hf, he⟩ | ⟨b, sys, hb, hs, he⟩ := hr'
    · rw [he]
      refine ⟨rfl, fun b hb => Nat.pos_of_ne_zero fun h0 => ?_⟩
      have := (hr.used hb).1.mpr h0
      rw [hf] at this
      cases this
    · rw [he]
      exact hr.granted hb hal (size_fits hsize hok b) hs _

end

def oneBlock : Pools Unit (Fin 2) :=
  .sized msgqAndFifo 2 (fun _ => 0x2000) (fun _ => 8) (fun _ => 1) [()] [] (by decide) (by decide) rfl (by decide)
    fun _ _ h => absurd rfl h

def oneBlockInit : Pool Unit (Fin 2) Unit := ⟨msgqAndFifoInit, fun _ => [0x2000]⟩

theorem oneBlock_init : oneBlockInit.Init oneBlock := ⟨msgqAndFifo_init, by decide⟩

def publishedOnce : List (Act Unit (Fin 2)) :=
  [.publish () 0x2008] ++ List.replicate 7 (.work ()) ++ [.svc 0, .svc 0, .svc 0] ++ List.replicate 6 (.svc 1)

/-- After that its block is allocated again. -/
def blockTwice : List (PoolAct Unit (Fin 2)) :=
  .newMsg (.linkSection 0) 3 8 0 :: publishedOnce.map .sys ++ [.newMsg (.linkSection 0) 4 8 0]

theorem blockTwice_reaches : ∃ s, exec (poolStep oneBlock) oneBlockInit blockTwice = .ok s ∧
    Reachable (poolStep oneBlock) (Pool.Init oneBlock) (fun _ _ => True) s :=
  ⟨_, rfl, oneBlockInit, oneBlock_init, Run.of_exec (poolStep oneBlock) blockTwice _ _ rfl fun _ _ => trivial⟩

theorem pool_accounted_twice : ∃ s, exec (poolStep oneBlock) oneBlockInit blockTwice = .ok s ∧
    (s.free ()).length + (oneBlock.slab ()).blocks.countP (fun b => 0 < refs s.sys (msgAt oneBlock.k b)) = 1 := by
  obtain ⟨s, hs, hr⟩ := blockTwice_reaches
  exact ⟨s, hs, (pool_accounted hr ()).2.1⟩

/-- The third allocation returns NULL. -/
theorem pool_newMsg_third : ∃ s, exec (poolStep oneBlock) oneBlockInit blockTwice = .ok s ∧
    Allocates oneBlock s () 8 (s.newMsg oneBlock (.linkSection 0) 5 8 0) := by
  obtain ⟨s, hs, hr⟩ := blockTwice_reaches
  have hsize : 8 < 2 ^ (8 * 2 ^ oneBlock.k) := by decide
  exact ⟨s, hs, pool_newMsg hr (show oneBlock.impl (.linkSection 0) = some () from rfl) 5 hsize 0⟩

end ZephyrPubSub
