import ZephyrPubSub.Hosts
import ZephyrPubSub.Isolation
import ZephyrPubSub.Direct
import ZephyrPubSub.Drain

/-!
# Where the publications lead the state machines

With fixed lists and subscriptions, a state machine that is a callback or msgq
subscriber is in the state to which the messages published to its broker lead,
as far as they have got to it. Machines with the same state functions and
subscriptions follow each other.
-/

namespace ZephyrPubSub

open Function Lists Runs

/-! ## Messages of one broker -/

section
variable {B S : Type} [DecidableEq B] [DecidableEq S] {c : Cfg S} {s s' : Sys B S} {a : Act B S}
variable {b : B} {p : Pkt B} {x : S}

/-- Direct publications get to their subscriber only. -/
theorem given_direct (hc : Carried c s) (ht : Trans c s a s') (hp : p.src = none) (h : Given s' x p) :
    Given s x p ∨ ∃ m, a = .publishTo x m := by
  have not_work : ∀ {b}, (s.work b).pkt ≠ some p := by
    intro b hb
    rw [hc.work_src hb] at hp
    cases hp
  rcases h with (h | h | h) | ⟨b, id, tmp, h⟩ | ⟨b, id, call, h⟩
  · cases ht with
    | scanCallback hw _ _ =>
      rcases given_log h with h | h
      · exact .inl h
      · cases h
        exact absurd (by rw [hw]; rfl) not_work
    | handle hv =>
      rcases given_log h with h | h
      · exact .inl h
      · cases h
        exact .inl (given_of_svc (by rw [hv]; rfl))
    | publish _ | publishToQueue _ _ _ _ _ => exact .inl ((given_log h).resolve_right (by simp))
    | publishToCallback _ _ _ _ =>
      simp only [List.mem_append, List.mem_cons, List.not_mem_nil, or_false, reduceCtorEq, false_or] at h
      rcases h with h | h
      · exact .inl (given_of_log h)
      · cases h
        exact .inr ⟨_, rfl⟩
    | _ => exact .inl (given_of_log h)
  · rcases queue_from ht h with h | ⟨b, h⟩ | ⟨y, id, b, n, h⟩ | hi
    · exact .inl (given_of_queue h)
    · exact absurd h not_work
    · exact absurd h (hc.not_walk hp)
    · cases a with
      | publish b m =>
        rw [hi.2] at hp
        cases hp
      | publishTo y m =>
        by_cases hy : x = y
        · subst hy
          exact .inr ⟨m, rfl⟩
        · left
          cases ht with
          | publishToCallback _ _ _ _ => exact given_of_queue h
          | publishToQueue _ _ _ _ _ =>
            simp only [update_of_ne hy] at h
            exact given_of_queue h
          | mem hm => cases hm
      | _ => exact hi.elim
  · exact .inl ((svc_from ht h).elim given_of_svc given_of_queue)
  all_goals
    have hw := (hc.trans ht).work_src (b := b) (p := p) (by rw [h]; rfl)
    rw [hw] at hp
    cases hp

def Act.indirect (x : S) : Act B S → Bool
  | .publishTo y _ => y ≠ x
  | _ => true

def Indirect (x : S) (a : Act B S) : Prop := a.indirect x = true

instance (x : S) (a : Act B S) : Decidable (Indirect x a) := inferInstanceAs (Decidable (_ = true))

theorem from_broker (h : Reachable (step c) (Init c) (fun _ a => KeepsLists a ∧ Indirect x a) s)
    (hx : x ∈ s.subscribers b) (hg : Given s x p) : p.src = some b := by
  have key := h.invariant
    (I := fun s => Sound c s ∧ ∀ b, x ∈ s.subscribers b → ∀ p, Given s x p → p.src = some b) ?_ ?_
  · exact key.2 b hx p hg
  · intro s hi
    refine ⟨sound_init hi, ?_⟩
    rintro b - p ((h | h | h) | ⟨b', id, tmp, h⟩ | ⟨b', id, call, h⟩)
    · rw [hi.log] at h
      cases h
    · rw [hi.queue] at h
      cases h
    · rw [hi.svc] at h
      cases h
    · rw [hi.work] at h
      cases h
    · rw [hi.work] at h
      cases h
  · rintro s a s' ⟨hs, hb⟩ ⟨hk, hd⟩ hstep
    have ht := step_trans hstep
    refine ⟨hs.trans ht hk.moveOk, ?_⟩
    intro b hx p hg
    rw [(lists_kept ht hk).1] at hx
    cases hp : p.src with
    | none =>
      rcases given_direct hs.carried ht hp hg with hg | ⟨m, rfl⟩
      · rw [← hp, hb b hx p hg]
      · exact absurd rfl (of_decide_eq_true hd)
    | some b' =>
      rcases given_trans hs ht hp hg with hg | ⟨hx', -⟩
      · rw [← hp, hb b hx p hg]
      · rw [hs.wf.linked.one_list hx hx']

def Fixed (x : S) (a : Act B S) : Prop := KeepsLists a ∧ KeepsSubs a ∧ Indirect x a

omit [DecidableEq B] in
theorem Fixed.map {f : Msg → Msg} (h : Fixed x a) : Fixed x (a.map f) := by
  obtain ⟨hl, hs, hd⟩ := h
  cases a <;> exact ⟨hl, hs, hd⟩

/-- The calls of the handler are the subscribed publications as far as they have got, and all of them at rest. -/
theorem handed_prefix (h : Reachable (step c) (Init c) (fun _ a => Fixed x a) s) (hx : x ∈ s.subscribers b)
    (hrx : c.rxType x ≠ .fifo) : handedSeq s.log b x <+: (pubSeq s.log b).filter (takes c s x) ∧
      (AtRest s → handedSeq s.log b x = (pubSeq s.log b).filter (takes c s x)) := by
  obtain ⟨-, t, hin⟩ := inStep_run (h.mono fun s a ha => ⟨ha.1, ha.2.1⟩) hx hrx
  constructor
  · calc handedSeq s.log b x
      _ <+: stream s b x := by
        simp only [stream, List.append_assoc]
        exact List.prefix_append ..
      _ = _ := hin.eq
      _ <+: t.filter (takes c s x) := by
        apply List.IsPrefix.filter
        split
        · exact List.dropLast_prefix t
        · exact List.prefix_refl t
      _ <+: (pubSeq s.log b).filter (takes c s x) := by
        apply List.IsPrefix.filter
        rw [hin.pub]
        exact List.prefix_append ..
  · intro hr
    have heq := hin.eq
    simp only [stream, hr.svc, hr.queue, hr.work, Svc.inHand, Work.blockedOn, Work.ahead, List.filter_nil,
      List.append_nil, List.not_mem_nil, if_false] at heq
    rw [heq, hin.pub, hr.fifo, List.append_nil]

end

/-! ## The trace -/

section
variable {B S α : Type} [DecidableEq B] [DecidableEq S] {b : B} {x : S}

theorem traced_calls (f : Msg → Msg) (v : Nat → α) {l : List (Event B S)} (h : ∀ p, .handed x p ∈ l → p.src = some b) :
    ((l.map fun e => (e.map f, v e.pkt.tag)).filter fun e => e.1.callOf x).map Prod.snd =
      (handedSeq l b x).map fun p => v p.tag := by
  induction l with
  | nil => rfl
  | cons e l ih =>
    have ih := ih fun p hp => h p (List.mem_cons_of_mem e hp)
    cases e with
    | published q =>
      rw [show handedSeq (.published q :: l) b x = handedSeq l b x from rfl]
      simpa [Event.map, Event.callOf] using ih
    | handed y q =>
      by_cases hy : y = x
      · subst hy
        have hq := h q (List.mem_cons_self ..)
        simpa [Event.map, Event.callOf, Event.pkt, handedSeq, Event.handedTo, hq] using ih
      · simpa [Event.map, Event.callOf, handedSeq, Event.handedTo, hy] using ih

omit [DecidableEq S] in
theorem traced_publications (f : Msg → Msg) (v : Nat → α) (l : List (Event B S)) :
    ((l.map fun e => (e.map f, v e.pkt.tag)).filter fun e => (e.1.publishedTo b).isSome).map Prod.snd =
      (pubSeq l b).map fun p => v p.tag := by
  induction l with
  | nil => rfl
  | cons e l ih =>
    cases e with
    | published q =>
      by_cases hq : q.src = some b
      · simpa [Event.map, Event.publishedTo, Event.pkt, Pkt.map, pubSeq, hq] using ih
      · simpa [Event.map, Event.publishedTo, Pkt.map, pubSeq, hq] using ih
    | handed y q =>
      rw [show pubSeq (.handed y q :: l) b = pubSeq l b from rfl]
      simpa [Event.map, Event.publishedTo] using ih

end

/-! ## Every run -/

section
variable {B S K σ μ : Type} [DecidableEq B] [DecidableEq S] [DecidableEq K] [DecidableEq σ]
variable [Fintype B] [Fintype S] [Fintype K] {p : Pools K S} {M fuel : Nat} {machine : S → Option (Machine σ μ)}
variable {s : Hosts B S K σ μ} {b : B} {x y : S}

def PoolAct.Is (R : Act B S → Prop) : PoolAct B S → Prop
  | .sys a => R a
  | .newMsg .. => True

/-- What has been published to the broker and subscribed by `x`. -/
def Hosts.subscribed (c : Cfg S) (s : Hosts B S K σ μ) (b : B) (x : S) : List (MsgId × μ) :=
  (s.published b).filter fun msg => s.payload.pool.sys.wants c x msg.1

omit [DecidableEq B] [Fintype B] [Fintype S] in
theorem fixed_names {g : Msg → Nat} {a : PoolAct B S} {a' : Act B S} (ha : a.Is (Fixed x)) (hn : a.Names g a') :
    Fixed x a' := by
  cases a with
  | newMsg al i size pick =>
    obtain ⟨m, k, rfl⟩ := hn
    exact ⟨rfl, rfl, rfl⟩
  | sys a =>
    cases hn
    exact Fixed.map ha

omit [DecidableEq B] [DecidableEq S] [DecidableEq K] [Fintype K] in
theorem AtRest.behind {g : Msg → Nat} {u : Pool B S K} {t : Sys B S} (h : AtRest u.sys) (hr : Recycles p g u t) :
    AtRest t := by
  obtain ⟨hfifo, hwork, hqueue, hsvc, hcalls⟩ := h
  rw [hr.follows.1] at hfifo hwork hqueue hsvc hcalls
  refine ⟨?_, ?_, ?_, ?_, ?_⟩
  · exact fun b => List.map_eq_nil_iff.mp (hfifo b)
  · intro b
    have hw : (t.work b).map address = .armed := hwork b
    cases ht : t.work b <;> rw [ht] at hw <;> cases hw
  · exact fun x => List.map_eq_nil_iff.mp (hqueue x)
  · intro x
    have hv : (t.svc x).map address = .idle := hsvc x
    cases ht : t.svc x <;> rw [ht] at hv <;> cases hv
  · exact List.map_eq_nil_iff.mp hcalls

/-- A machine is where the publications lead that have got to it. -/
theorem machine_follows
    (h : Reachable (hostsStep p M fuel machine) (Hosts.Init p M fuel machine)
      (fun _ a => a.Of (PoolAct.Is (Fixed x))) s)
    (hx : x ∈ s.payload.pool.sys.subscribers b) (hrx : p.cfg.rxType x ≠ .fifo) :
    s.heard x <+: s.subscribed p.cfg b x ∧ (AtRest s.payload.pool.sys → s.heard x = s.subscribed p.cfg b x) ∧
      ∀ m, machine x = some m → m.run M fuel (s.heard x) = .ok (s.hsm x) := by
  obtain ⟨hran, g, t, val, ht, hreach⟩ := traced_run (R := Fixed x) (fun _ _ _ => fixed_names) h
  have hsys := ht.recycles.follows.1
  have hxt : x ∈ t.subscribers b := by
    rw [hsys] at hx
    exact hx
  obtain ⟨hpre, hrest⟩ := handed_prefix hreach hxt hrx
  have hsrc : ∀ q, .handed x q ∈ t.log → q.src = some b := fun q hq =>
    from_broker (hreach.mono fun s a ha => ⟨ha.1, ha.2.2⟩) hxt (given_of_log hq)
  have hheard : s.heard x = (handedSeq t.log b x).map fun q => val q.tag := by
    rw [Hosts.heard, ht.trace]
    exact traced_calls address val hsrc
  have hsub : s.subscribed p.cfg b x = ((pubSeq t.log b).filter (takes p.cfg t x)).map fun q => val q.tag := by
    rw [Hosts.subscribed, Hosts.published, ht.trace, traced_publications, List.filter_map]
    congr 1
    apply List.filter_congr
    intro q hq
    have hid : (val q.tag).1 = t.mem.idOf q.msg := ht.logged _ (published_of_mem hq).1
    unfold takes
    rw [Function.comp_apply, hid, hsys]
    rfl
  refine ⟨?_, ?_, fun m hm => hran x m hm⟩
  · rw [hheard, hsub]
    exact hpre.map _
  · intro hr
    rw [hheard, hsub, hrest (hr.behind ht.recycles)]

/-- Two machines with the same state functions and subscriptions go through the
same states, and at rest they are where all publications lead. -/
theorem replicas_agree {m : Machine σ μ}
    (h : Reachable (hostsStep p M fuel machine) (Hosts.Init p M fuel machine)
      (fun _ a => a.Of (PoolAct.Is fun a => Fixed x a ∧ Fixed y a)) s)
    (hx : x ∈ s.payload.pool.sys.subscribers b) (hy : y ∈ s.payload.pool.sys.subscribers b)
    (hrx : p.cfg.rxType x ≠ .fifo) (hry : p.cfg.rxType y ≠ .fifo) (hmx : machine x = some m) (hmy : machine y = some m)
    (hsame : ∀ i, s.payload.pool.sys.wants p.cfg x i ↔ s.payload.pool.sys.wants p.cfg y i) :
    (m.run M fuel (s.heard x) = .ok (s.hsm x) ∧ m.run M fuel (s.heard y) = .ok (s.hsm y)) ∧
    (s.heard x <+: s.subscribed p.cfg b x ∧ s.heard y <+: s.subscribed p.cfg b x) ∧
    ((s.heard x).length = (s.heard y).length → s.hsm x = s.hsm y) ∧
    (AtRest s.payload.pool.sys → m.run M fuel (s.subscribed p.cfg b x) = .ok (s.hsm x) ∧ s.hsm x = s.hsm y) := by
  have weaken : ∀ {z}, (∀ a : Act B S, Fixed x a ∧ Fixed y a → Fixed z a) →
      Reachable (hostsStep p M fuel machine) (Hosts.Init p M fuel machine)
        (fun _ a => a.Of (PoolAct.Is (Fixed z))) s := by
    intro z hz
    apply h.mono
    intro s a ha
    cases a with
    | write m d => trivial
    | pool a =>
      cases a with
      | newMsg => trivial
      | sys a => exact hz a ha
  obtain ⟨hpx, hrestx, hrunx⟩ := machine_follows (weaken fun a ha => ha.1) hx hrx
  obtain ⟨hpy, hresty, hruny⟩ := machine_follows (weaken fun a ha => ha.2) hy hry
  have hsub : s.subscribed p.cfg b y = s.subscribed p.cfg b x := by
    apply List.filter_congr
    intro msg _
    exact decide_eq_decide.mpr (hsame msg.1).symm
  rw [hsub] at hpy hresty
  have hrunx := hrunx m hmx
  have hruny := hruny m hmy
  -- what the machines have heard decides where they are
  have heq : s.heard x = s.heard y → s.hsm x = s.hsm y := by
    intro he
    rw [he] at hrunx
    exact Except.ok.inj (hrunx.symm.trans hruny)
  refine ⟨⟨hrunx, hruny⟩, ⟨hpx, hpy⟩, ?_, ?_⟩
  · intro hlen
    apply heq
    exact (List.prefix_of_prefix_length_le hpx hpy (Nat.le_of_eq hlen)).eq_of_length hlen
  · intro hr
    refine ⟨hrestx hr ▸ hrunx, heq ?_⟩
    rw [hrestx hr, hresty hr]

end

theorem callbackAndMsgq_numAllocators : callbackAndMsgq.numAllocators = oneBlock.runtime.length := rfl

def Pools.withCfg {K S : Type} (p : Pools K S) (cfg : Cfg S) (h : cfg.numAllocators = p.runtime.length) : Pools K S :=
  ⟨cfg, p.k, p.slab, p.linkSection, p.runtime, p.lenSection, p.lenRuntime, h, p.room, p.word, p.apart⟩

/-- A callback and a msgq subscriber, with messages from one block. -/
def replicated : Pools Unit (Fin 2) := oneBlock.withCfg callbackAndMsgq callbackAndMsgq_numAllocators

def replica (_ : Fin 2) : Option (Machine TestState Nat) := some ⟨.start, testAnswer⟩

theorem replica_consistent (x : Fin 2) (m : Machine TestState Nat) (h : replica x = some m) :
    Consistent testHierarchy.parent m.answer := by
  cases h
  exact testAnswer_consistent

def replicatedInit : Payload Unit (Fin 2) Unit Nat := ⟨⟨callbackAndMsgqInit, fun _ => [0x2000]⟩, fun _ => 0, [], []⟩

instance {B S : Type} [DecidableEq S] (x : S) (a : Act B S) : Decidable (Fixed x a) :=
  inferInstanceAs (Decidable (_ ∧ _ ∧ _))

instance {B S : Type} (R : Act B S → Prop) [DecidablePred R] (a : PoolAct B S) : Decidable (a.Is R) :=
  match a with
  | .sys a => inferInstanceAs (Decidable (R a))
  | .newMsg .. => isTrue trivial

def publishedAndHandled : List (Act Unit (Fin 2)) :=
  [.publish () 0x2008] ++ List.replicate 11 (.work ()) ++ List.replicate 3 (.svc 1)

/-- The message that the machines answer with a transition is published and handled. -/
def transitionOnce : List (PayloadAct Unit (Fin 2) Nat) :=
  .pool (.newMsg (.linkSection 0) 1 8 0) :: .write 0x2008 7 :: publishedAndHandled.map fun a => .pool (.sys a)

theorem transitionOnce_rests : ∃ u, exec (payloadStep replicated) replicatedInit transitionOnce = .ok u ∧
    u.seen.map (fun e => (e.1, e.2.2)) = [(0, 7), (1, 7)] ∧ u.pool.sys.subscribers () = [0, 1] ∧
    u.pool.sys.subs = callbackAndMsgqInit.subs ∧ AtRest u.pool.sys := by
  refine ⟨_, rfl, rfl, rfl, rfl, ?_⟩
  constructor
  · exact fun _ => rfl
  · exact fun _ => rfl
  · intro x
    match x with
    | 0 => rfl
    | 1 => rfl
  · intro x
    match x with
    | 0 => rfl
    | 1 => rfl
  · rfl

theorem replicas_agree_once : ∃ s, exec (hostsStep replicated 3 3 replica) (.start 3 3 replica replicatedInit)
      transitionOnce = .ok s ∧
    s.payload.seen.map (fun e => (e.1, e.2.2)) = [(0, 7), (1, 7)] ∧ AtRest s.payload.pool.sys ∧ s.hsm 0 = s.hsm 1 := by
  obtain ⟨u, hu, hseen, hlist, hsubs, hrest⟩ := transitionOnce_rests
  have h₀ : (Hosts.start 3 3 replica replicatedInit).Init replicated 3 3 replica :=
    Hosts.start_init (H := fun _ => testHierarchy) ⟨⟨callbackAndMsgq_init, by decide⟩, rfl, rfl⟩
      replica_consistent
  obtain ⟨s, hs, rfl, -⟩ := hosts_exec (H := fun _ => testHierarchy) replica_consistent (Nat.le_refl 3) transitionOnce
    ⟨_, h₀, .refl _⟩ (by decide) hu
  have hr := Run.of_acts (K := fun a => a.Of (PoolAct.Is fun a => Fixed 0 a ∧ Fixed 1 a)) _
    transitionOnce hs (by decide)
  have hwants : ∀ i, s.payload.pool.sys.wants replicated.cfg 0 i ↔ s.payload.pool.sys.wants replicated.cfg 1 i := by
    intro i
    unfold Sys.wants
    rw [hsubs]
    exact Iff.rfl
  have h := replicas_agree (b := ()) ⟨_, h₀, hr⟩ (by rw [hlist]; decide) (by rw [hlist]; decide) (by decide) (by decide)
    rfl rfl hwants
  exact ⟨s, hs, hseen, hrest, (h.2.2.2 hrest).2⟩

end ZephyrPubSub
