import ZephyrPubSub.Payload
import ZephyrPubSub.Configuration
import ZephyrPubSub.Sequence

/-!
# State machines in the running system

An HSM is a subscriber whose handler is `msg_handler`. The handler gets the id
the framework has read and reads the data where the message lies. A call of it
is one step: all dispatches are on one work queue and each queue has one reader,
so calls overlap only where a direct publisher calls a callback subscriber.
Behind the memory slabs there is a system in which every allocation is a new
message; there, id and data belong to the publication.
-/

namespace ZephyrPubSub

open Function Runs Outcome

/-! ## The machines -/

structure Machine (σ μ : Type) where
  initialState : σ
  answer : List (Call σ μ) → Call σ μ → Answer σ

def Hsm.blank {σ μ : Type} : Hsm σ μ := ⟨none, none, false, [], [], []⟩

section
variable {σ μ : Type} [DecidableEq σ] (M fuel : Nat) (m : Machine σ μ)

def Machine.handle (hsm : Hsm σ μ) (msg : MsgId × μ) : HsmResult σ μ (Hsm σ μ) :=
  handleMsg M (stateFns m.answer) fuel (msg.1, some msg.2) hsm

def Machine.run (msgs : List (MsgId × μ)) : HsmResult σ μ (Hsm σ μ) := do
  let hsm ← hsmInit (some m.initialState) .blank
  let hsm ← hsmStart M (stateFns m.answer) hsm
  exec (m.handle M fuel) hsm msgs

theorem Machine.run_concat {msgs : List (MsgId × μ)} {msg : MsgId × μ} {hsm hsm' : Hsm σ μ}
    (h : m.run M fuel msgs = .ok hsm) (hmsg : m.handle M fuel hsm msg = .ok hsm') :
    m.run M fuel (msgs ++ [msg]) = .ok hsm' := by
  unfold Machine.run at h ⊢
  obtain ⟨hsm₁, h₁, h⟩ := bind_ok h
  obtain ⟨hsm₂, h₂, h⟩ := bind_ok h
  simp only [h₁, h₂, bind, Except.bind]
  rw [exec_append _ h, exec, hmsg]
  rfl

end

/-! ## The system -/

structure Hosts (B S K σ μ : Type) where
  payload : Payload B S K μ
  hsm : S → Hsm σ μ
  /-- The log, each event with the id and the data of its message. -/
  trace : List (Event B S × MsgId × μ)

section
variable {B S K σ μ : Type}

/-- The `msg_id` for the handlers that the step calls, or of what it publishes. -/
def Sys.msgIdRead (s : Sys B S) : Act B S → MsgId
  | .work b =>
    match s.work b with
    | .scan _ id _ _ => id
    | _ => 0
  | .svc x =>
    match s.svc x with
    | .ready _ id => id
    | _ => 0
  | .publish _ m | .publishTo _ m => s.mem.idOf m
  | _ => 0

def PoolAct.msgIdRead (s : Sys B S) : PoolAct B S → MsgId
  | .sys a => s.msgIdRead a
  | .newMsg .. => 0

def PayloadAct.msgIdRead (s : Sys B S) : PayloadAct B S μ → MsgId
  | .pool a => a.msgIdRead s
  | .write .. => 0

variable [DecidableEq B] [DecidableEq S] [DecidableEq K] [DecidableEq σ] [Fintype K]
variable (p : Pools K S) (M fuel : Nat) (machine : S → Option (Machine σ μ))

def callHandler (hsm : S → Hsm σ μ) (msg : MsgId × μ) : Event B S → Except Stop (S → Hsm σ μ)
  | .published _ => .ok hsm
  | .handed x _ =>
    match machine x with
    | none => .ok hsm
    | some m =>
      match m.handle M fuel (hsm x) msg with
      | .ok h => .ok (update hsm x h)
      | .error _ => .error .assertion

def Hosts.note (id : MsgId) (s : Hosts B S K σ μ) (e : Event B S) : Except Stop (Hosts B S K σ μ) := do
  let msg := (id, s.payload.data e.pkt.msg)
  let hsm ← callHandler M fuel machine s.hsm msg e
  .ok { s with hsm := hsm, trace := s.trace ++ [(e, msg)] }

def hostsStep (s : Hosts B S K σ μ) (a : PayloadAct B S μ) : Except Stop (Hosts B S K σ μ) := do
  let payload ← payloadStep p s.payload a
  exec (Hosts.note M fuel machine (a.msgIdRead s.payload.pool.sys)) { s with payload := payload }
    (payload.pool.sys.log.drop s.payload.pool.sys.log.length)

structure Hosts.Init (s : Hosts B S K σ μ) : Prop where
  payload : s.payload.Init p
  trace : s.trace = []
  started : ∀ x m, machine x = some m → m.run M fuel [] = .ok (s.hsm x)

def Event.callOf (x : S) : Event B S → Bool
  | .published _ => false
  | .handed y _ => y = x

def Hosts.heard (s : Hosts B S K σ μ) (x : S) : List (MsgId × μ) :=
  (s.trace.filter fun e => e.1.callOf x).map Prod.snd

def Hosts.published (s : Hosts B S K σ μ) (b : B) : List (MsgId × μ) :=
  (s.trace.filter fun e => (e.1.publishedTo b).isSome).map Prod.snd

variable {p M fuel machine} {s s' : Hosts B S K σ μ} {id : MsgId}

/-! ## What a step adds -/

omit [DecidableEq B] [DecidableEq K] [Fintype K] in
theorem Hosts.note_ok {e : Event B S} (h : s.note M fuel machine id e = .ok s') :
    s'.payload = s.payload ∧ s'.trace = s.trace ++ [(e, id, s.payload.data e.pkt.msg)] := by
  obtain ⟨hsm, -, h⟩ := bind_ok h
  cases h
  exact ⟨rfl, rfl⟩

omit [DecidableEq B] [DecidableEq K] [Fintype K] in
theorem notes_ok : ∀ (es : List (Event B S)) {s : Hosts B S K σ μ}, exec (Hosts.note M fuel machine id) s es = .ok s' →
    s'.payload = s.payload ∧ s'.trace = s.trace ++ es.map fun e => (e, id, s.payload.data e.pkt.msg)
  | [], s, h => by
    cases h
    simp
  | e :: es, s, h => by
    obtain ⟨s₁, h₁, h⟩ := exec_cons _ h
    obtain ⟨hp₁, ht₁⟩ := Hosts.note_ok h₁
    obtain ⟨hp, ht⟩ := notes_ok es h
    rw [hp, ht, ht₁, hp₁]
    simp

/-- Each machine is where the messages its handler was called with lead. -/
def Ran (M fuel : Nat) (machine : S → Option (Machine σ μ)) (s : Hosts B S K σ μ) : Prop :=
  ∀ x m, machine x = some m → m.run M fuel (s.heard x) = .ok (s.hsm x)

omit [DecidableEq B] in
theorem callHandler_ok {hsm hsm' : S → Hsm σ μ} {x : S} {q : Pkt B} {msg : MsgId × μ}
    (h : callHandler M fuel machine hsm msg (.handed x q) = .ok hsm') : (∀ y, y ≠ x → hsm' y = hsm y) ∧
      ∀ m, machine x = some m → m.handle M fuel (hsm x) msg = .ok (hsm' x) := by
  unfold callHandler at h
  cases hm : machine x with
  | none =>
    simp only [hm] at h
    cases h
    simp
  | some m =>
    simp only [hm] at h
    split at h
    · rename_i hsm₁ h₁
      cases h
      simp +contextual [h₁]
    · cases h

omit [DecidableEq B] [DecidableEq K] [Fintype K] in
theorem Ran.note {e : Event B S} (h : Ran M fuel machine s) (hn : s.note M fuel machine id e = .ok s') :
    Ran M fuel machine s' := by
  obtain ⟨hsm, hh, hn⟩ := bind_ok hn
  cases hn
  intro x m hm
  have hrun := h x m hm
  cases e with
  | published q =>
    cases hh
    simpa [Hosts.heard, Event.callOf] using hrun
  | handed y q =>
    obtain ⟨hne, hself⟩ := callHandler_ok hh
    by_cases hxy : y = x
    · subst hxy
      have := m.run_concat M fuel hrun (hself m hm)
      simpa [Hosts.heard, Event.callOf] using this
    · simp only [hne x (Ne.symm hxy)]
      simpa [Hosts.heard, Event.callOf, hxy] using hrun

theorem hostsStep_ok {a : PayloadAct B S μ} (h : hostsStep p M fuel machine s a = .ok s') :
    payloadStep p s.payload a = .ok s'.payload ∧
      s'.trace = s.trace ++ (s'.payload.pool.sys.log.drop s.payload.pool.sys.log.length).map
        (fun e => (e, a.msgIdRead s.payload.pool.sys, s'.payload.data e.pkt.msg)) ∧
      (Ran M fuel machine s → Ran M fuel machine s') := by
  obtain ⟨payload, hp, h⟩ := bind_ok h
  obtain ⟨hpay, htrace⟩ := notes_ok _ h
  simp only at hpay htrace
  subst hpay
  refine ⟨hp, htrace, fun hr => ?_⟩
  have hrun := Run.of_acts (K := fun _ => True) _ _ h fun _ _ => trivial
  exact hrun.invariant (I := Ran M fuel machine) (fun _ _ _ h _ hs => h.note hs) hr

end

/-! ## The publications behind it -/

section
variable {B S : Type} [DecidableEq B] [DecidableEq S] {c : Cfg S} {s s' : Sys B S} {a : Act B S}

theorem trans_read (hc : Carried c s) (ht : Trans c s a s') {es : List (Event B S)} (hlog : s'.log = s.log ++ es) :
    ∀ e ∈ es, s.mem.used e.pkt.msg ∧ s.msgIdRead a = s.mem.idOf e.pkt.msg := by
  have added : ∀ {fs : List (Event B S)}, s'.log = s.log ++ fs → es = fs :=
    fun h => List.append_cancel_left (hlog.symm.trans h)
  cases ht with
  | scanCallback hw _ _ =>
    obtain ⟨hp, hid⟩ := hc.work_at hw
    rw [added rfl]
    intro e he
    cases List.mem_singleton.mp he
    exact ⟨hp.1.1, by simp [Sys.msgIdRead, hw, hid, Event.pkt]⟩
  | handle hv =>
    obtain ⟨hp, hid⟩ := hc.svc_at hv
    rw [added rfl]
    intro e he
    cases List.mem_singleton.mp he
    exact ⟨hp.1.1, by simp [Sys.msgIdRead, hv, hid, Event.pkt]⟩
  | publish ho | publishToQueue ho _ _ _ _ =>
    rw [added rfl]
    intro e he
    cases List.mem_singleton.mp he
    exact ⟨hc.owned _ ho, rfl⟩
  | publishToCallback ho _ _ _ =>
    rw [added rfl]
    intro e he
    simp only [List.mem_cons, List.not_mem_nil, or_false] at he
    rcases he with rfl | rfl <;> exact ⟨hc.owned _ ho, rfl⟩
  | _ =>
    rw [added (List.append_nil _).symm]
    simp

omit [DecidableEq B] [DecidableEq S] in
theorem Follows.msgIdRead {g : Msg → Nat} {t : Sys B S} (h : Follows g s t) {a : PoolAct B S} {a' : Act B S}
    (hn : a.Names g a') : a.msgIdRead s = t.msgIdRead a' := by
  obtain ⟨he, hm⟩ := h
  cases a with
  | newMsg al i size pick =>
    obtain ⟨m, k, rfl⟩ := hn
    rfl
  | sys a =>
    cases hn
    cases a with
    | work b =>
      simp only [PoolAct.msgIdRead, Sys.msgIdRead, Act.map]
      rw [show s.work b = (t.work b).map address by rw [he]; rfl]
      cases t.work b <;> rfl
    | svc x =>
      simp only [PoolAct.msgIdRead, Sys.msgIdRead, Act.map]
      rw [show s.svc x = (t.svc x).map address by rw [he]; rfl]
      cases t.svc x <;> rfl
    | publish b m | publishTo x m => exact congrArg Life.msgId (hm.life m)
    | _ => rfl

end

section
variable {B S K σ μ : Type} [DecidableEq B] [DecidableEq S] [DecidableEq K] [DecidableEq σ]
variable [Fintype B] [Fintype S] [Fintype K] {p : Pools K S} {M fuel : Nat} {machine : S → Option (Machine σ μ)}
variable {s s' : Hosts B S K σ μ} {g g' : Msg → Nat} {t t' : Sys B S} {val val' : Nat → MsgId × μ}

/-- A system of messages in step with the slabs; `val` has the id and the data of each publication. -/
structure Traced (p : Pools K S) (s : Hosts B S K σ μ) (g : Msg → Nat) (t : Sys B S)
    (val : Nat → MsgId × μ) : Prop where
  recycles : Recycles p g s.payload.pool t
  sole : Sole t
  carried : Carried p.cfg t
  tag : ∀ q, Carries t q → q.tag < t.nextTag
  trace : s.trace = t.log.map fun e => (e.map address, val e.pkt.tag)
  logged : ∀ e ∈ t.log, (val e.pkt.tag).1 = t.mem.idOf e.pkt.msg
  contents : ∀ q, Carries t q → val q.tag = (t.mem.idOf q.msg, s.payload.data (address q.msg))

omit [DecidableEq K] [DecidableEq σ] [Fintype K] in
theorem Traced.current (h : Traced p s g t val) {q : Pkt B} (hq : Carries t q) : latest g (address q.msg) = q.msg :=
  (allCurrent h.recycles.follows h.recycles.accounted q hq).symm

omit [DecidableEq B] [DecidableEq S] [DecidableEq K] [DecidableEq σ] [Fintype K] in
theorem Traced.silent (h : Traced p s g t val) (hpool : s'.payload.pool = s.payload.pool) (htrace : s'.trace = s.trace)
    (hdata : ∀ q, Carries t q → s'.payload.data (address q.msg) = s.payload.data (address q.msg)) :
    Traced p s' g t val := by
  refine ⟨?_, h.sole, h.carried, h.tag, htrace.trans h.trace, h.logged, ?_⟩
  · rw [hpool]
    exact h.recycles
  · intro q hq
    rw [hdata q hq]
    exact h.contents q hq

section
omit [DecidableEq K] [DecidableEq σ] [Fintype K]

theorem Traced.not_written (h : Traced p s g t val) {q : Pkt B} (hq : Carries t q) :
    s.payload.writable (address q.msg) = false := by
  apply Shared.not_writable ⟨g, t, h.recycles, h.sole⟩
  · rw [h.recycles.refs, h.current hq]
    exact hq.refs
  · rw [h.recycles.follows.2.owned, h.current hq]
    exact h.sole.unowned q hq

theorem Traced.extend (h : Traced p s g t val) {a : Act B S} (hr : Recycles p g' s'.payload.pool t')
    (ht : Trans p.cfg t a t') {es : List (Event B S)} (hlog : t'.log = t.log ++ es)
    (hdata : s'.payload.data = s.payload.data)
    (htrace : s'.trace = s.trace ++ es.map fun e => (e.map address, t.msgIdRead a, s.payload.data (address e.pkt.msg)))
    (hold : ∀ n, n < t.nextTag → val' n = val n)
    (hnew : ∀ e ∈ es, val' e.pkt.tag = (t.msgIdRead a, s.payload.data (address e.pkt.msg)))
    (hissued : ∀ q, Issues t a q → .published q ∈ es) : Traced p s' g' t' val' := by
  have hread := trans_read h.carried ht hlog
  have hlater := trans_later ht
  refine ⟨hr, h.sole.trans h.recycles.accounted ht, h.carried.trans ht, ?_, ?_, ?_, ?_⟩
  · intro q hq
    rcases carries_from ht hq with hq | hq
    · exact Nat.lt_of_lt_of_le (h.tag q hq) hlater.2
    · exact trans_tag ht hq
  · rw [htrace, hlog, h.trace, List.map_append]
    congr 1
    · apply List.map_congr_left
      intro e he
      rw [hold _ (h.carried.log e he).2]
    · apply List.map_congr_left
      intro e he
      rw [hnew e he]
  · intro e he
    rw [hlog] at he
    rcases List.mem_append.mp he with he | he
    · have hk := h.carried.log e he
      rw [hold _ hk.2, h.logged e he, hlater.id hk]
    · obtain ⟨hu, hid⟩ := hread e he
      rw [hnew e he, (hlater.1 _ hu).2]
      exact hid
  · intro q hq
    rw [hdata]
    rcases carries_from ht hq with hq | hq
    · obtain ⟨hd, hl, -⟩ := h.recycles.accounted.live hq.refs
      have hu : t.mem.used q.msg := by simp [Mem.used, hl]
      rw [hold _ (h.tag q hq), h.contents q hq, (hlater.1 _ hu).2]
    · obtain ⟨hu, hid⟩ := hread _ (hissued q hq)
      have hval := hnew _ (hissued q hq)
      simp only [Event.pkt] at hu hid hval
      rw [hval, (hlater.1 _ hu).2, hid]

theorem Traced.moves (h : Traced p s g t val) {a : Act B S} (hr : Recycles p g' s'.payload.pool t')
    (ht : Trans p.cfg t a t') (hdata : s'.payload.data = s.payload.data)
    (htrace : ∀ es, t'.log = t.log ++ es →
      s'.trace = s.trace ++ es.map fun e => (e.map address, t.msgIdRead a, s.payload.data (address e.pkt.msg))) :
    ∃ val', Traced p s' g' t' val' := by
  obtain ⟨es, hlog, hes⟩ := trans_log ht
  have hread := trans_read h.carried ht hlog
  -- a publication gets its id and data, the others have theirs
  have published : ∀ {q : Pkt B}, Issues t a q → (∀ e ∈ es, e.pkt = q) → .published q ∈ es →
      ∃ val', Traced p s' g' t' val' := by
    intro q hq hall hmem
    refine ⟨update val q.tag (t.msgIdRead a, s.payload.data (address q.msg)),
      h.extend hr ht hlog hdata (htrace es hlog) ?_ ?_ ?_⟩
    · intro n hn
      apply update_of_ne
      rw [hq.tag]
      omega
    · intro e he
      rw [hall e he, update_self]
    · intro r hr
      rw [hr.unique hq]
      exact hmem
  cases hes with
  | silent hno =>
    exact ⟨val, h.extend hr ht hlog hdata (htrace _ hlog) (fun _ _ => rfl) (by simp) fun q hq => absurd hq (hno q)⟩
  | @handed x q hno hq =>
    refine ⟨val, h.extend hr ht hlog hdata (htrace _ hlog) (fun _ _ => rfl) ?_ fun q hq => absurd hq (hno q)⟩
    intro e he
    rw [(hread e he).2]
    cases List.mem_singleton.mp he
    exact h.contents q hq
  | @published q hq => exact published hq (by simp [Event.pkt]) (by simp)
  | @called x q hq => exact published hq (by simp [Event.pkt]) (by simp)

end

omit [DecidableEq σ] in
theorem Traced.behind (h : Traced p s g t val) {a : PayloadAct B S μ} {u : Payload B S K μ}
    (hp : payloadStep p s.payload a = .ok u) :
    (u.pool = s.payload.pool ∧ ∀ q, Carries t q → u.data (address q.msg) = s.payload.data (address q.msg)) ∨
      ∃ a₁ a' g' t' es, a = .pool a₁ ∧ a₁.Names g a' ∧ ZephyrPubSub.step p.cfg t a' = .ok t' ∧
        Recycles p g' u.pool t' ∧ u.data = s.payload.data ∧ t'.log = t.log ++ es ∧
        u.pool.sys.log.drop s.payload.pool.sys.log.length = es.map (Event.map address) := by
  cases a with
  | write m d =>
    left
    simp only [payloadStep] at hp
    split at hp
    · rename_i hw
      cases hp
      refine ⟨rfl, fun q hq => update_of_ne ?_ _ _⟩
      rintro rfl
      rw [h.not_written hq] at hw
      cases hw
    · cases hp
  | pool a =>
    obtain ⟨v, hv, hp⟩ := bind_ok hp
    obtain ⟨hpool, hdata, -⟩ := noted (v.sys.log.drop s.payload.pool.sys.log.length) { s.payload with pool := v }
    rw [Except.ok.inj hp] at hpool hdata
    simp only at hpool hdata
    rw [hpool, hdata]
    obtain ⟨g', t', hr, ⟨rfl, rfl⟩ | ⟨a', hn, ha'⟩⟩ := h.recycles.step hv
    · exact .inl ⟨rfl, fun _ _ => rfl⟩
    · obtain ⟨es, hlog, -⟩ := trans_log (step_trans ha')
      refine .inr ⟨a, a', g', t', es, rfl, hn, ha', hr, rfl, hlog, ?_⟩
      have hold : s.payload.pool.sys.log = t.log.map (Event.map address) := by rw [h.recycles.follows.1]; rfl
      have hnew : v.sys.log = t'.log.map (Event.map address) := by rw [hr.follows.1]; rfl
      rw [hnew, hlog, List.map_append, ← hold, List.drop_left]

theorem Traced.step (h : Traced p s g t val) {a : PayloadAct B S μ} (hs : hostsStep p M fuel machine s a = .ok s') :
    ∃ g' t' val', Traced p s' g' t' val' ∧
      (t' = t ∨ ∃ a₁ a', a = .pool a₁ ∧ a₁.Names g a' ∧ ZephyrPubSub.step p.cfg t a' = .ok t') := by
  obtain ⟨hp, htrace, -⟩ := hostsStep_ok hs
  rcases h.behind hp with ⟨hpool, hdata⟩ | ⟨a₁, a', g', t', es, rfl, hn, ha', hr, hdata, hlog, hes⟩
  · rw [hpool, List.drop_length] at htrace
    exact ⟨g, t, val, h.silent hpool (by simpa using htrace) hdata, .inl rfl⟩
  · obtain ⟨val', ht'⟩ := h.moves hr (step_trans ha') hdata fun fs hfs => by
      cases List.append_cancel_left (hlog.symm.trans hfs)
      rw [htrace, hes, List.map_map]
      congr 1
      apply List.map_congr_left
      intro e _
      show (e.map address, a₁.msgIdRead s.payload.pool.sys, s'.payload.data (e.map address).pkt.msg) = _
      rw [h.recycles.follows.msgIdRead hn, hdata]
      cases e <;> rfl
    exact ⟨g', t', val', ht', .inr ⟨a₁, a', rfl, hn, ha'⟩⟩

omit [DecidableEq B] [DecidableEq S] [DecidableEq K] [Fintype K] in
theorem traced_init (h : s.Init p M fuel machine) :
    Traced p s (fun _ => 0) s.payload.pool.sys fun n => (0, s.payload.data n) := by
  have hs := h.payload.pool.sys
  refine ⟨recycles_init h.payload.pool, sole_init hs, carried_init hs, ?_, ?_, ?_, ?_⟩
  · exact fun q hq => absurd hq (not_carries_init hs q)
  · rw [h.trace, hs.log]
    rfl
  · intro e he
    rw [hs.log] at he
    cases he
  · exact fun q hq => absurd hq (not_carries_init hs q)

def PayloadAct.Of (K : PoolAct B S → Prop) : PayloadAct B S μ → Prop
  | .pool a => K a
  | .write .. => True

/-- In every run the machines have handled what is traced, and there is a run of the messages behind it. -/
theorem traced_run {K : PoolAct B S → Prop} {R : Act B S → Prop}
    (hK : ∀ g a a', K a → PoolAct.Names g a a' → R a')
    (h : Reachable (hostsStep p M fuel machine) (Hosts.Init p M fuel machine) (fun _ a => a.Of K) s) :
    Ran M fuel machine s ∧ ∃ g t val, Traced p s g t val ∧
      Reachable (ZephyrPubSub.step p.cfg) (ZephyrPubSub.Init p.cfg) (fun _ a => R a) t := by
  apply h.invariant (I := fun s => Ran M fuel machine s ∧ ∃ g t val, Traced p s g t val ∧
    Reachable (ZephyrPubSub.step p.cfg) (ZephyrPubSub.Init p.cfg) (fun _ a => R a) t)
  · intro s hs
    refine ⟨?_, _, _, _, traced_init hs, s.payload.pool.sys, hs.payload.pool.sys, .refl _⟩
    intro x m hm
    rw [Hosts.heard, hs.trace]
    exact hs.started x m hm
  · rintro s a s' ⟨hran, g, t, val, ht, hr⟩ ha hs
    refine ⟨(hostsStep_ok hs).2.2 hran, ?_⟩
    obtain ⟨g', t', val', ht', rfl | ⟨a₁, a', rfl, hn, ha'⟩⟩ := ht.step hs
    · exact ⟨g', t', val', ht', hr⟩
    · exact ⟨g', t', val', ht', hr.tail (hK g a₁ a' ha hn) ha'⟩

end

/-! ## Ids of the application -/

section
variable {B S : Type} [DecidableEq B] [DecidableEq S] {c : Cfg S} {s s' : Sys B S} {a : Act B S} {m : Msg}

def Act.brings : Act B S → Option MsgId
  | .newMsg _ i _ | .staticMsgInit _ i _ => some i
  | _ => none

def PoolAct.brings : PoolAct B S → Option MsgId
  | .newMsg _ i .. => some i
  | .sys a => a.brings

def PoolAct.Unreserved (a : PoolAct B S) : Prop := ∀ i, a.brings = some i → ¬ Reserved i

omit [DecidableEq B] [DecidableEq S] in
theorem PoolAct.Names.brings {g : Msg → Nat} {a : PoolAct B S} {a' : Act B S} (h : a.Names g a') :
    a'.brings = a.brings := by
  cases a with
  | newMsg al i size pick =>
    obtain ⟨m, k, rfl⟩ := h
    rfl
  | sys a =>
    cases h
    cases a <;> rfl

theorem trans_brings (ht : Trans c s a s') (hu : s.mem.life m = .unused) (hu' : s'.mem.used m) :
    a.brings = some (s'.mem.idOf m) := by
  have acquired : ∀ {k μ}, s.mem.acquireMsg k = .ok μ → μ.life m = .unused := by
    intro k μ h
    rw [← hu]
    apply Mem.acquireMsg_other h
    rintro rfl
    obtain ⟨hd, hl, -⟩ := Mem.acquireMsg_ok h
    rw [hu] at hl
    cases hl
  have released : ∀ {k μ}, s.mem.releaseMsg c.numAllocators k = .ok μ → μ.life m = .unused := by
    intro k μ h
    rw [← hu]
    apply Mem.releaseMsg_other h
    rintro rfl
    obtain ⟨hd, hl, -⟩ := Mem.releaseMsg_ok h
    rw [hu] at hl
    cases hl
  cases ht with
  | scanMsgq _ _ _ h | scanFifo _ _ _ h | walkGive _ _ _ h => exact absurd (acquired h) hu'
  | workRelease _ h | svcRelease _ h | callReturn _ h => exact absurd (released h) hu'
  | mem h =>
    cases h with
    | @newMsg k i al μ h =>
      obtain ⟨-, -, hl, -⟩ := Mem.newMsg_ok h
      by_cases hk : m = k
      · subst hk
        simp [Act.brings, Mem.idOf, hl, Life.msgId]
      · exact absurd (by rw [hl, update_of_ne hk, hu]) hu'
    | @staticMsgInit k i al μ h =>
      obtain ⟨-, -, rfl⟩ := Mem.staticMsgInit_ok h
      by_cases hk : m = k
      · subst hk
        simp [Act.brings, Mem.idOf, Life.msgId]
      · exact absurd (by rw [Mem.setLife_ne _ _ hk, hu]) hu'
    | acquireStatic _ _ _ h | acquireExtra _ _ h => exact absurd (acquired h) hu'
    | releaseUnpublished _ h | releaseExtra _ h => exact absurd (released h) hu'
  | _ => exact absurd hu hu'

theorem unreserved_run (h : Reachable (step c) (Init c) (fun _ a => ∀ i, a.brings = some i → ¬ Reserved i) s) :
    ∀ m, s.mem.used m → ¬ Reserved (s.mem.idOf m) := by
  apply h.invariant (I := fun s => ∀ m, s.mem.used m → ¬ Reserved (s.mem.idOf m))
  · intro s hi m hm
    exact absurd (hi.life m) hm
  · intro s a s' hs ha hstep m hm
    have ht := step_trans hstep
    by_cases hu : s.mem.used m
    · rw [(trans_ids ht m hu).2]
      exact hs m hu
    · exact ha _ (trans_brings ht (not_not.mp hu) hm)

end

/-! ## Configurations -/

section
variable {B S K σ μ : Type} [DecidableEq B] [DecidableEq S] [DecidableEq K] [DecidableEq σ]
variable [Fintype B] [Fintype S] [Fintype K] {p : Pools K S} {M fuel : Nat} {machine : S → Option (Machine σ μ)}
variable {s s' : Hosts B S K σ μ} {id : MsgId} {H : S → Hierarchy σ M}

def AllConfigured (machine : S → Option (Machine σ μ)) (H : S → Hierarchy σ M) (hsm : S → Hsm σ μ) : Prop :=
  ∀ x m, machine x = some m → ∃ c, Configured (H x) (hsm x) c

omit [DecidableEq B] [Fintype B] [Fintype S] in
theorem AllConfigured.call {hsm : S → Hsm σ μ} (h : AllConfigured machine H hsm)
    (hcon : ∀ x m, machine x = some m → Consistent (H x).parent m.answer) (hf : M ≤ fuel) {msg : MsgId × μ}
    (hid : ¬ Reserved msg.1) (e : Event B S) :
    ∃ hsm', callHandler M fuel machine hsm msg e = .ok hsm' ∧ AllConfigured machine H hsm' := by
  cases e with
  | published q => exact ⟨hsm, rfl, h⟩
  | handed x q =>
    cases hm : machine x with
    | none => exact ⟨hsm, by simp [callHandler, hm], h⟩
    | some m =>
      obtain ⟨c, hc⟩ := h x m hm
      obtain ⟨hsm₁, n, hok, hn⟩ := handleMsg_configured (H x) (hcon x m hm) hc
        (show ¬ Reserved ((msg.1, some msg.2) : MsgId × Option μ).1 from hid) hf
      refine ⟨update hsm x hsm₁, by simp [callHandler, hm, Machine.handle, hok], ?_⟩
      intro y m' hm'
      by_cases hy : y = x
      · subst hy
        rw [update_self]
        exact ⟨n, hn⟩
      · rw [update_of_ne hy]
        exact h y m' hm'

omit [DecidableEq B] [DecidableEq K] [Fintype B] [Fintype S] [Fintype K] in
theorem AllConfigured.notes (hcon : ∀ x m, machine x = some m → Consistent (H x).parent m.answer) (hf : M ≤ fuel) :
    ∀ (es : List (Event B S)) {s : Hosts B S K σ μ}, AllConfigured machine H s.hsm → (es ≠ [] → ¬ Reserved id) →
      ∃ s', exec (Hosts.note M fuel machine id) s es = .ok s' ∧ AllConfigured machine H s'.hsm
  | [], s, h, _ => ⟨s, rfl, h⟩
  | e :: es, s, h, hid => by
    have hid := hid (List.cons_ne_nil e es)
    obtain ⟨hsm, hcall, hc⟩ : ∃ hsm, callHandler M fuel machine s.hsm (id, s.payload.data e.pkt.msg) e = .ok hsm ∧
      AllConfigured machine H hsm := h.call hcon hf hid e
    obtain ⟨s', hs', h'⟩ := AllConfigured.notes hcon hf es
      (s := { s with hsm := hsm, trace := s.trace ++ [(e, id, s.payload.data e.pkt.msg)] }) hc fun _ => hid
    refine ⟨s', ?_, h'⟩
    rw [exec, Hosts.note]
    simp only [hcall, bind, Except.bind]
    exact hs'

theorem AllConfigured.step (h : AllConfigured machine H s.hsm)
    (hcon : ∀ x m, machine x = some m → Consistent (H x).parent m.answer) (hf : M ≤ fuel)
    {g : Msg → Nat} {t : Sys B S} {val : Nat → MsgId × μ} (ht : Traced p s g t val)
    (hids : ∀ m, t.mem.used m → ¬ Reserved (t.mem.idOf m)) {a : PayloadAct B S μ} {u : Payload B S K μ}
    (hp : payloadStep p s.payload a = .ok u) :
    ∃ s', hostsStep p M fuel machine s a = .ok s' ∧ AllConfigured machine H s'.hsm := by
  rw [hostsStep, hp]
  apply AllConfigured.notes hcon hf
  · exact h
  · rcases ht.behind hp with ⟨hpool, -⟩ | ⟨a₁, a', g', t', es, rfl, hn, ha', -, -, hlog, hes⟩
    · rw [hpool, List.drop_length]
      exact fun hne => absurd rfl hne
    · intro hne
      rw [hes] at hne
      obtain ⟨e, he⟩ := List.exists_mem_of_ne_nil es fun h0 => hne (by rw [h0]; rfl)
      obtain ⟨hu, hid⟩ := trans_read ht.carried (step_trans ha') hlog e he
      rw [show PayloadAct.msgIdRead s.payload.pool.sys (.pool a₁) = t.msgIdRead a' from
        ht.recycles.follows.msgIdRead hn, hid]
      exact hids _ hu

theorem Machine.starts (m : Machine σ μ) (fuel : Nat) {H : Hierarchy σ M} (hcon : Consistent H.parent m.answer) :
    ∃ hsm, m.run M fuel [] = .ok hsm ∧ Configured H hsm m.initialState := by
  obtain ⟨hsm, hs, hc⟩ := hsmStart_configured H hcon
    (show ({ Hsm.blank with currentState := some m.initialState, handlerSet := true } : Hsm σ μ).currentState =
      some m.initialState from rfl) rfl rfl
  refine ⟨hsm, ?_, hc⟩
  simp only [Machine.run, hsmInit, notNull, bind, Except.bind, hs]
  rfl

omit [DecidableEq B] [DecidableEq S] [DecidableEq K] [Fintype B] [Fintype S] [Fintype K] in
theorem allConfigured_init (hi : s.Init p M fuel machine)
    (hcon : ∀ x m, machine x = some m → Consistent (H x).parent m.answer) : AllConfigured machine H s.hsm := by
  intro x m hm
  obtain ⟨hsm, hs, hc⟩ := m.starts fuel (hcon x m hm)
  rw [Except.ok.inj ((hi.started x m hm).symm.trans hs)]
  exact ⟨m.initialState, hc⟩

/-- A direct publisher calls the handler of a machine itself, whoever else is in it. -/
def PoolAct.overlaps (c : Cfg S) (machine : S → Option (Machine σ μ)) : PoolAct B S → Bool
  | .sys (.publishTo x _) => c.rxType x = .callback && (machine x).isSome
  | _ => false

abbrev HostedRun (p : Pools K S) (M fuel : Nat) (machine : S → Option (Machine σ μ)) : Hosts B S K σ μ → Prop :=
  Reachable (hostsStep p M fuel machine) (Hosts.Init p M fuel machine) fun _ a =>
    a.Of fun a => a.Unreserved ∧ a.overlaps p.cfg machine = false

theorem AllConfigured.next (h : AllConfigured machine H s.hsm)
    (hcon : ∀ x m, machine x = some m → Consistent (H x).parent m.answer) (hf : M ≤ fuel)
    (hr : HostedRun p M fuel machine s) {a : PayloadAct B S μ} {u : Payload B S K μ}
    (hp : payloadStep p s.payload a = .ok u) :
    ∃ s', hostsStep p M fuel machine s a = .ok s' ∧ AllConfigured machine H s'.hsm := by
  obtain ⟨-, g, t, val, ht, hreach⟩ := traced_run (R := fun a => ∀ i, a.brings = some i → ¬ Reserved i)
    (fun g a a' ha hn i hi => ha.1 i (hn.brings ▸ hi)) hr
  exact h.step hcon hf ht (unreserved_run hreach) hp

theorem allConfigured_run (hcon : ∀ x m, machine x = some m → Consistent (H x).parent m.answer) (hf : M ≤ fuel)
    (h : HostedRun p M fuel machine s) : AllConfigured machine H s.hsm := by
  have key := h.invariant (I := fun s => HostedRun p M fuel machine s ∧ AllConfigured machine H s.hsm) ?_ ?_
  · exact key.2
  · exact fun s hs => ⟨⟨s, hs, .refl s⟩, allConfigured_init hs hcon⟩
  · rintro s a s' ⟨hr, hc⟩ ha hs
    refine ⟨hr.tail ha hs, ?_⟩
    obtain ⟨s₁, hs₁, hc₁⟩ := hc.next hcon hf hr (hostsStep_ok hs).1
    cases hs.symm.trans hs₁
    exact hc₁

theorem hosts_exec (hcon : ∀ x m, machine x = some m → Consistent (H x).parent m.answer) (hf : M ≤ fuel) :
    ∀ (as : List (PayloadAct B S μ)) {s : Hosts B S K σ μ} {u : Payload B S K μ}, HostedRun p M fuel machine s →
      (∀ a ∈ as, a.Of fun a => a.Unreserved ∧ a.overlaps p.cfg machine = false) →
      exec (payloadStep p) s.payload as = .ok u →
      ∃ s', exec (hostsStep p M fuel machine) s as = .ok s' ∧ s'.payload = u ∧ HostedRun p M fuel machine s'
  | [], s, u, hr, _, he => by
    cases he
    exact ⟨s, rfl, rfl, hr⟩
  | a :: as, s, u, hr, hall, he => by
    obtain ⟨u₁, hu₁, he⟩ := exec_cons _ he
    obtain ⟨s₁, hs₁, -⟩ := (allConfigured_run hcon hf hr).next hcon hf hr hu₁
    cases hu₁.symm.trans (hostsStep_ok hs₁).1
    obtain ⟨s', hs', hpay, hr'⟩ := hosts_exec hcon hf as (hr.tail (hall a (List.mem_cons_self ..)) hs₁)
      (fun b hb => hall b (List.mem_cons_of_mem a hb)) he
    refine ⟨s', ?_, hpay, hr'⟩
    rw [exec, hs₁]
    exact hs'

def Hosts.start (M fuel : Nat) (machine : S → Option (Machine σ μ)) (u : Payload B S K μ) : Hosts B S K σ μ where
  payload := u
  hsm x :=
    match machine x with
    | none => .blank
    | some m =>
      match m.run M fuel [] with
      | .ok hsm => hsm
      | .error e => e.2
  trace := []

omit [DecidableEq B] [DecidableEq S] [DecidableEq K] [Fintype B] [Fintype S] [Fintype K] in
theorem Hosts.start_init {u : Payload B S K μ} (hu : u.Init p)
    (hcon : ∀ x m, machine x = some m → Consistent (H x).parent m.answer) :
    (Hosts.start M fuel machine u).Init p M fuel machine := by
  refine ⟨hu, rfl, ?_⟩
  intro x m hm
  obtain ⟨hsm, hs, -⟩ := m.starts fuel (hcon x m hm)
  simp only [Hosts.start, hm, hs]

/-- In the running system the active states of each machine are its current
state and the ancestors, and no call of its handler goes wrong, as long as no
direct publisher calls the handler of a callback subscriber. -/
theorem machines_configured (hcon : ∀ x m, machine x = some m → Consistent (H x).parent m.answer) (hf : M ≤ fuel)
    (h : HostedRun p M fuel machine s) :
    (∀ x m, machine x = some m → ∃ c, (s.hsm x).currentState = some c ∧
      (∀ u, u ∈ (H x).chain c → Active (s.hsm x).calls u) ∧ ∀ u, u ∉ (H x).chain c → Inactive (s.hsm x).calls u) ∧
    ∀ (a : PayloadAct B S μ) e, hostsStep p M fuel machine s a = .error e ↔ payloadStep p s.payload a = .error e := by
  have hall := allConfigured_run hcon hf h
  constructor
  · intro x m hm
    obtain ⟨c, hc⟩ := hall x m hm
    exact ⟨c, hc.current, fun u hu => active_of_inside (hc.follows.inside hu),
      fun u hu => inactive_of_outside (hc.follows.outside hu)⟩
  · intro a e
    cases hp : payloadStep p s.payload a with
    | error e' => simp [hostsStep, hp, bind, Except.bind]
    | ok u =>
      obtain ⟨s', hs', -⟩ := hall.next hcon hf h hp
      simp [hs']

end

def hosted (x : Fin 2) : Option (Machine TestState Nat) := if x = 0 then some ⟨.start, testAnswer⟩ else none

theorem hosted_consistent (x : Fin 2) (m : Machine TestState Nat) (h : hosted x = some m) :
    Consistent testHierarchy.parent m.answer := by
  unfold hosted at h
  split at h
  · cases h
    exact testAnswer_consistent
  · cases h

def transitionTwice : List (PayloadAct Unit (Fin 2) Nat) :=
  .pool (.newMsg (.linkSection 0) 1 8 0) :: .write 0x2008 7 :: publishedOnce.map (fun a => .pool (.sys a)) ++
    .pool (.newMsg (.linkSection 0) 1 8 0) :: .write 0x2008 9 :: publishedOnce.map fun a => .pool (.sys a)

instance {B S : Type} (a : PoolAct B S) : Decidable a.Unreserved :=
  match h : a.brings with
  | none => isTrue fun i hi => by rw [h] at hi; cases hi
  | some i => decidable_of_iff (¬ Reserved i) ⟨fun hr j hj => by rw [h] at hj; cases hj; exact hr, fun ha => ha i h⟩

instance {B S D : Type} (K : PoolAct B S → Prop) [DecidablePred K] (a : PayloadAct B S D) : Decidable (a.Of K) :=
  match a with
  | .write .. => isTrue trivial
  | .pool a => inferInstanceAs (Decidable (K a))

theorem machines_configured_twice : ∃ s, exec (hostsStep oneBlock 3 3 hosted) (.start 3 3 hosted filledInit)
      transitionTwice = .ok s ∧
    s.payload.seen.map (fun e => (e.1, e.2.2)) = [(0, 7), (1, 7), (0, 9), (1, 9)] ∧
    ∃ c, (s.hsm 0).currentState = some c ∧ ∀ u, u ∈ testHierarchy.chain c → Active (s.hsm 0).calls u := by
  have hx : ∃ u, exec (payloadStep oneBlock) filledInit transitionTwice = .ok u ∧
      u.seen.map (fun e => (e.1, e.2.2)) = [(0, 7), (1, 7), (0, 9), (1, 9)] := ⟨_, rfl, rfl⟩
  obtain ⟨u, hu, hseen⟩ := hx
  have h₀ : (Hosts.start 3 3 hosted filledInit).Init oneBlock 3 3 hosted :=
    Hosts.start_init (H := fun _ => testHierarchy) ⟨oneBlock_init, rfl, rfl⟩ hosted_consistent
  obtain ⟨s, hs, rfl, hr⟩ := hosts_exec (H := fun _ => testHierarchy) hosted_consistent (Nat.le_refl 3) transitionTwice
    ⟨_, h₀, .refl _⟩ (by decide) hu
  obtain ⟨c, hc, hact, -⟩ := (machines_configured (H := fun _ => testHierarchy) hosted_consistent
    (Nat.le_refl 3) hr).1 0 _ rfl
  exact ⟨s, hs, hseen, c, hc, hact⟩

end ZephyrPubSub
