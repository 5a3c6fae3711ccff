import ZephyrPubSub.Delayable

/-!
# Msgq and FIFO subscribers side by side

`Caller` follows the calls of `pub_sub_handle_queued_msg` that one thread makes
for a subscriber `x`, with what they return, next to direct publications of
private messages and what the owners of messages do. A message that is put
while the thread waits goes straight to the thread.
-/

namespace ZephyrPubSub

open Function Runs Outcome

variable {B S : Type}

def eperm : Int := 1
def eagain : Int := 11
def enomsg : Int := 35

inductive CallAt where
  | idle
  /-- In the kernel's get function, the queue being empty. -/
  | waiting (timeout : Delay)
  /-- With a message. -/
  | handling
  deriving DecidableEq, Repr

structure Caller (B S : Type) where
  sys : Sys B S
  call : CallAt
  /-- The arguments of the handler, in the order of its calls. -/
  handled : List (MsgId × Msg)
  /-- What the calls returned, with the message they handled. -/
  returned : List (Option Msg × Int)

/-- What `pub_sub_handle_queued_msg` returns without a message: the error of `k_msgq_get`, which depends on
whether it has waited, or the initial value of `ret`. -/
def notReceived (rxType : RxType) (waited : Bool) : Int :=
  match rxType with
  | .msgq => if waited then -eagain else -enomsg
  | _ => -enomsg

def Act.ofOwner : Act B S → Bool
  | .newMsg .. | .staticMsgInit .. | .acquireStatic _ | .releaseUnpublished _ | .acquireExtra _ | .releaseExtra _ =>
    true
  | _ => false

inductive CallerAct (B S : Type) where
  | publish (m : Msg)
  | handle (timeout : Delay)
  /-- The waiting period ends. -/
  | expire
  | callHandler
  | handlerReturns
  | owner (a : Act B S)

section
variable [DecidableEq S] [DecidableEq B] (c : Cfg S) (x : S) (s : Caller B S)

def callerPublish (m : Msg) : Except Stop (Caller B S) := do
  let sys ← publishToSubscriber c s.sys x m
  match s.call with
  | .waiting _ => do
    let sys ← svcStep c sys x
    .ok { s with sys := sys, call := .handling }
  | _ => .ok { s with sys := sys }

def handleQueuedMsg (timeout : Delay) : Except Stop (Caller B S) :=
  if s.call = .idle then
    match c.rxType x with
    | .callback => .ok { s with returned := s.returned ++ [(none, -eperm)] }
    | rxType =>
      if s.sys.queue x = [] then
        if timeout = .ticks 0 then .ok { s with returned := s.returned ++ [(none, notReceived rxType false)] }
        else .ok { s with call := .waiting timeout }
      else do
        let sys ← svcStep c s.sys x
        .ok { s with sys := sys, call := .handling }
  else .error .misuse

def callerExpire : Except Stop (Caller B S) :=
  match s.call with
  | .waiting (.ticks _) =>
    .ok { s with call := .idle, returned := s.returned ++ [(none, notReceived (c.rxType x) true)] }
  | _ => .error .misuse

/-- A FIFO subscriber looks whether the message is public and has to be forwarded. -/
def callerForward : Except Stop (Sys B S) :=
  match s.sys.svc x with
  | .got .. => svcStep c s.sys x
  | _ => .ok s.sys

def callerHandler : Except Stop (Caller B S) := do
  let sys ← callerForward c x s
  match sys.svc x with
  | .ready p id => do
    let sys ← svcStep c sys x
    .ok { s with sys := sys, handled := s.handled ++ [(id, p.msg)] }
  | _ => .error .misuse

def callerReturns : Except Stop (Caller B S) :=
  match s.sys.svc x with
  | .running p => do
    let sys ← svcStep c s.sys x
    .ok { s with sys := sys, call := .idle, returned := s.returned ++ [(some p.msg, 0)] }
  | _ => .error .misuse

def callerStep : CallerAct B S → Except Stop (Caller B S)
  | .publish m => callerPublish c x s m
  | .handle timeout => handleQueuedMsg c x s timeout
  | .expire => callerExpire c x s
  | .callHandler => callerHandler c x s
  | .handlerReturns => callerReturns c x s
  | .owner a =>
    if a.ofOwner then do
      let sys ← step c s.sys a
      .ok { s with sys := sys }
    else .error .misuse

end

def Caller.start (sys : Sys B S) : Caller B S := ⟨sys, .idle, [], []⟩

def Cfg.withType [DecidableEq S] (c : Cfg S) (x : S) (t : RxType) : Cfg S := { c with rxType := update c.rxType x t }

/-! ## One step of the system -/

section
variable [DecidableEq S] [DecidableEq B] {c c' : Cfg S} {s s' t : Sys B S} {x : S} {m : Msg}

def Sys.directQueued (s : Sys B S) (x : S) (m : Msg) : Sys B S :=
  { s with
    mem := s.mem.transfer m
    queue := update s.queue x (s.queue x ++ [⟨m, s.nextTag, none⟩])
    nextTag := s.nextTag + 1
    log := s.log ++ [.published ⟨m, s.nextTag, none⟩] }

omit [DecidableEq B] in
theorem publishTo_msgq (hm : c.rxType x = .msgq) (h : publishToSubscriber c s x m = .ok s') :
    s.mem.owned m = true ∧ (∃ id, s.mem.getMsgId m = .ok id ∧ c.maxPubMsgId x < id) ∧ s' = s.directQueued x m := by
  unfold publishToSubscriber at h
  split at h
  · rename_i hown
    obtain ⟨id, hid, h⟩ := bind_ok h
    simp only [hm] at h
    split at h
    · rename_i hpriv
      split at h
      · cases h
        exact ⟨hown, ⟨id, hid, hpriv⟩, rfl⟩
      · cases h
    · cases h
  · cases h

omit [DecidableEq B] in
theorem publishTo_fifo (hf : c.rxType x = .fifo) (hown : s.mem.owned m = true) {id : MsgId}
    (hid : s.mem.getMsgId m = .ok id) (hpriv : c.maxPubMsgId x < id) :
    publishToSubscriber c s x m = .ok (s.directQueued x m) := by
  rw [publishToSubscriber, if_pos hown, hid]
  simp only [bind, Except.bind, if_pos hpriv, hf]
  rfl

def Sys.dequeued (s : Sys B S) (x : S) (ps : List (Pkt B)) (v : Svc B S) : Sys B S :=
  { s with queue := update s.queue x ps, svc := update s.svc x v }

theorem svcStep_msgq {p : Pkt B} {ps : List (Pkt B)} (hm : c.rxType x = .msgq) (hs : s.svc x = .idle)
    (hq : s.queue x = p :: ps) (h : svcStep c s x = .ok s') :
    ∃ id, s.mem.getMsgId p.msg = .ok id ∧ s' = s.dequeued x ps (.ready p id) := by
  simp only [svcStep, hs, hm, hq] at h
  obtain ⟨id, hid, h⟩ := bind_ok h
  cases h
  exact ⟨id, hid, rfl⟩

theorem svcStep_fifo {p : Pkt B} {ps : List (Pkt B)} {id : MsgId} (hf : c.rxType x = .fifo) (hs : s.svc x = .idle)
    (hq : s.queue x = p :: ps) (hid : s.mem.getMsgId p.msg = .ok id) :
    svcStep c s x = .ok (s.dequeued x ps (.got p id)) := by
  simp only [svcStep, hs, hf, hq, hid]
  rfl

theorem svcStep_got {p : Pkt B} {id : MsgId} (hs : s.svc x = .got p id) (hpriv : c.maxPubMsgId x < id) :
    svcStep c s x = .ok { s with svc := update s.svc x (.ready p id) } := by
  simp only [svcStep, hs, if_neg (BitVec.not_le.mpr hpriv)]

theorem svcStep_ready {p : Pkt B} {id : MsgId} (hs : s.svc x = .ready p id) :
    svcStep c s x = .ok { s with log := s.log ++ [.handed x p], svc := update s.svc x (.running p) } := by
  simp only [svcStep, hs]

theorem svcStep_running {p : Pkt B} (hs : s.svc x = .running p) :
    svcStep c s x = (s.mem.releaseMsg c.numAllocators p.msg).map fun mem =>
      { s with mem := mem, svc := update s.svc x .idle } := by
  simp only [svcStep, hs]
  cases s.mem.releaseMsg c.numAllocators p.msg <;> rfl

theorem owner_step (hn : c'.numAllocators = c.numAllocators) {a : Act B S} (ha : a.ofOwner = true)
    (ht : t.mem = s.mem) (h : step c s a = .ok s') :
    ∃ μ, s' = { s with mem := μ } ∧ s.mem.IdsKept μ ∧ step c' t a = .ok { t with mem := μ } := by
  cases a with
  | newMsg m id alloc =>
    obtain ⟨μ, hμ, h⟩ := bind_ok h
    cases h
    exact ⟨μ, rfl, Mem.newMsg_ids hμ, by rw [step, hn, ht, hμ]; rfl⟩
  | staticMsgInit m id alloc =>
    obtain ⟨μ, hμ, h⟩ := bind_ok h
    cases h
    exact ⟨μ, rfl, Mem.staticMsgInit_ids hμ, by rw [step, ht, hμ]; rfl⟩
  | acquireStatic m =>
    simp only [step, acquireStatic, ht] at h ⊢
    cases hl : s.mem.life m with
    | live hd =>
      simp only [hl] at h ⊢
      split at h
      · rename_i hc
        obtain ⟨μ, hμ, h⟩ := bind_ok h
        cases h
        exact ⟨_, rfl, (Mem.acquireMsg_ids hμ).trans (Mem.IdsKept.of_life rfl), by rw [if_pos hc, hμ]; rfl⟩
      · cases h
    | _ => rw [hl] at h; cases h
  | releaseUnpublished m =>
    simp only [step, releaseUnpublished, ht, hn] at h ⊢
    split at h
    · rename_i hown
      obtain ⟨μ, hμ, h⟩ := bind_ok h
      cases h
      exact ⟨_, rfl, (Mem.releaseMsg_ids hμ).trans (Mem.IdsKept.of_life rfl), by rw [if_pos hown, hμ]; rfl⟩
    · cases h
  | acquireExtra m =>
    simp only [step, acquireExtra, ht] at h ⊢
    cases hl : s.mem.life m with
    | live hd =>
      simp only [hl] at h ⊢
      split at h
      · rename_i hc
        obtain ⟨μ, hμ, h⟩ := bind_ok h
        cases h
        exact ⟨_, rfl, (Mem.acquireMsg_ids hμ).trans (Mem.IdsKept.of_life rfl), by rw [if_pos hc, hμ]; rfl⟩
      · cases h
    | _ => rw [hl] at h; cases h
  | releaseExtra m =>
    simp only [step, releaseExtra, ht, hn] at h ⊢
    split at h
    · rename_i hext
      obtain ⟨μ, hμ, h⟩ := bind_ok h
      cases h
      exact ⟨_, rfl, (Mem.releaseMsg_ids hμ).trans (Mem.IdsKept.of_life rfl), by rw [if_pos hext, hμ]; rfl⟩
    · cases h
  | _ => cases ha

end

/-! ## Both subscribers -/

/-- What the documentation says a call returns that handled `e.1`. -/
def documented (e : Option Msg × Int) : Option Msg × Int := (e.1, if e.1.isSome then 0 else -enomsg)

/-- The thread of a msgq subscriber, and that of a FIFO subscriber with the same message. -/
inductive SvcAlike (max : MsgId) : Svc B S → Svc B S → Prop
  | idle : SvcAlike max .idle .idle
  | received {p : Pkt B} {id : MsgId} (h : max < id) : SvcAlike max (.ready p id) (.got p id)
  | running (p : Pkt B) : SvcAlike max (.running p) (.running p)

/-- A msgq subscriber is at `s` and a FIFO subscriber at `t`. -/
structure Alike (max : MsgId) (x : S) (s t : Caller B S) : Prop where
  mem : t.sys.mem = s.sys.mem
  queue : t.sys.queue x = s.sys.queue x
  nextTag : t.sys.nextTag = s.sys.nextTag
  svc : SvcAlike max (s.sys.svc x) (t.sys.svc x)
  call : t.call = s.call
  handled : t.handled = s.handled
  returned : t.returned = s.returned.map documented
  quiet : s.call ≠ .handling → s.sys.svc x = .idle ∧ t.sys.svc x = .idle
  empty : ∀ τ, s.call = .waiting τ → s.sys.queue x = []
  priv : ∀ p ∈ s.sys.queue x, s.sys.mem.used p.msg ∧ max < s.sys.mem.idOf p.msg

theorem alike_start {x : S} {sys : Sys B S} (hs : sys.svc x = .idle) (hq : sys.queue x = []) (max : MsgId) :
    Alike max x (Caller.start sys) (Caller.start sys) := by
  refine ⟨rfl, rfl, rfl, ?_, rfl, rfl, rfl, fun _ => ⟨hs, hs⟩, fun _ _ => hq, ?_⟩
  · show SvcAlike max (sys.svc x) (sys.svc x)
    rw [hs]
    exact .idle
  · intro p hp
    rw [Caller.start, hq] at hp
    cases hp

section
variable [DecidableEq S] [DecidableEq B] {c₁ c₂ : Cfg S} {x : S} {s s' t : Caller B S}

omit [DecidableEq B] in
theorem Alike.directQueued {max : MsgId} (h : Alike max x s t) {call : CallAt} (hw : ∀ τ, call ≠ .waiting τ)
    (hc : call ≠ .handling → s.call ≠ .handling) {m : Msg} {id : MsgId} (hid : s.sys.mem.getMsgId m = .ok id)
    (hpriv : max < id) :
    Alike max x { s with sys := s.sys.directQueued x m, call := call }
      { t with sys := t.sys.directQueued x m, call := call } := by
  obtain ⟨hu, hi⟩ := Mem.getMsgId_ok hid
  refine ⟨?_, ?_, ?_, h.svc, rfl, h.handled, h.returned, fun hne => h.quiet (hc hne), fun τ hτ => absurd hτ (hw τ), ?_⟩
  · simp only [Sys.directQueued, h.mem]
  · simp only [Sys.directQueued, update_self, h.queue, h.nextTag]
  · simp only [Sys.directQueued, h.nextTag]
  · intro p hp
    simp only [Sys.directQueued, update_self, List.mem_append, List.mem_singleton] at hp
    rcases hp with hp | rfl
    · exact h.priv p hp
    · exact ⟨hu, hi ▸ hpriv⟩

theorem Alike.dequeue {max : MsgId} (h : Alike max x s t) (hm : c₁.rxType x = .msgq) (hf : c₂.rxType x = .fifo)
    (hc : s.call ≠ .handling) (hq : s.sys.queue x ≠ []) {sys : Sys B S} (hs : svcStep c₁ s.sys x = .ok sys) :
    ∃ sys', svcStep c₂ t.sys x = .ok sys' ∧
      Alike max x { s with sys := sys, call := .handling } { t with sys := sys', call := .handling } := by
  obtain ⟨hidle, hidle'⟩ := h.quiet hc
  obtain ⟨p, ps, hp⟩ := List.exists_cons_of_ne_nil hq
  obtain ⟨id, hid, rfl⟩ := svcStep_msgq hm hidle hp hs
  obtain ⟨hu, hpriv⟩ := h.priv p (by rw [hp]; exact List.mem_cons_self ..)
  have hi := (Mem.getMsgId_ok hid).2
  refine ⟨_, svcStep_fifo hf hidle' (h.queue.trans hp) (by rw [h.mem]; exact hid), ?_⟩
  refine ⟨h.mem, ?_, h.nextTag, ?_, rfl, h.handled, h.returned, fun hne => absurd rfl hne, nofun, ?_⟩
  · simp only [Sys.dequeued, update_self]
  · simp only [Sys.dequeued, update_self]
    exact .received (hi ▸ hpriv)
  · intro q hq
    simp only [Sys.dequeued, update_self] at hq
    exact h.priv q (by rw [hp]; exact List.mem_cons_of_mem _ hq)

variable (hm : c₁.rxType x = .msgq) (hf : c₂.rxType x = .fifo) (hmax : c₂.maxPubMsgId x = c₁.maxPubMsgId x)
  (hn : c₂.numAllocators = c₁.numAllocators)

include hm hf hmax in
theorem Alike.publish (h : Alike (c₁.maxPubMsgId x) x s t) {m : Msg} (hs : callerPublish c₁ x s m = .ok s') :
    ∃ t', callerPublish c₂ x t m = .ok t' ∧ Alike (c₁.maxPubMsgId x) x s' t' := by
  obtain ⟨sys, hp, hs⟩ := bind_ok hs
  obtain ⟨hown, ⟨id, hid, hpriv⟩, rfl⟩ := publishTo_msgq hm hp
  have hp' := publishTo_fifo hf (x := x) (by rw [h.mem]; exact hown) (by rw [h.mem]; exact hid) (hmax ▸ hpriv)
  have hnext : ∀ call : CallAt, (∀ τ, call ≠ .waiting τ) → (call ≠ .handling → s.call ≠ .handling) →
      Alike (c₁.maxPubMsgId x) x { s with sys := s.sys.directQueued x m, call := call }
        { t with sys := t.sys.directQueued x m, call := call } :=
    fun call hw hc => h.directQueued hw hc hid hpriv
  rw [callerPublish, hp']
  simp only [bind, Except.bind, h.call]
  cases hc : s.call with
  | waiting τ =>
    simp only [hc] at hs
    obtain ⟨sys, hd, hs⟩ := bind_ok hs
    cases hs
    obtain ⟨sys', hd', ha⟩ := (hnext .idle nofun fun _ => by simp [hc]).dequeue hm hf nofun
      (by simp [Sys.directQueued]) hd
    exact ⟨_, by rw [hd'], ha⟩
  | idle =>
    simp only [hc] at hs
    cases hs
    have ha := hnext s.call (by simp [hc]) fun hne => hne
    rw [hc] at ha
    exact ⟨_, rfl, ha⟩
  | handling =>
    simp only [hc] at hs
    cases hs
    exact ⟨_, rfl, hnext .handling nofun fun hne => absurd rfl hne⟩

include hm hf in
theorem Alike.handle (h : Alike (c₁.maxPubMsgId x) x s t) {τ : Delay} (hs : handleQueuedMsg c₁ x s τ = .ok s') :
    ∃ t', handleQueuedMsg c₂ x t τ = .ok t' ∧ Alike (c₁.maxPubMsgId x) x s' t' := by
  simp only [handleQueuedMsg, hm, hf, h.call, h.queue] at hs ⊢
  split at hs
  · rename_i hidle
    have hq := h.quiet (by simp [hidle])
    rw [if_pos hidle]
    split at hs
    · rename_i hempty
      rw [if_pos hempty]
      split at hs
      · rename_i hτ
        cases hs
        rw [if_pos hτ]
        refine ⟨_, rfl, h.mem, h.queue, h.nextTag, h.svc, rfl, h.handled, ?_, h.quiet, h.empty, h.priv⟩
        rw [List.map_append, h.returned]
        rfl
      · rename_i hτ
        cases hs
        rw [if_neg hτ]
        exact ⟨_, rfl, h.mem, h.queue, h.nextTag, h.svc, rfl, h.handled, h.returned, fun _ => hq, fun _ _ => hempty,
          h.priv⟩
    · rename_i hne
      obtain ⟨sys, hd, hs⟩ := bind_ok hs
      cases hs
      obtain ⟨sys', hd', ha⟩ := h.dequeue hm hf (by simp [hidle]) hne hd
      rw [if_neg hne, hd']
      exact ⟨_, rfl, ha⟩
  · cases hs

omit [DecidableEq B] [DecidableEq S] in
include hm hf in
theorem Alike.expire (h : Alike (c₁.maxPubMsgId x) x s t) (hs : callerExpire c₁ x s = .ok s') :
    ∃ t', callerExpire c₂ x t = .ok t' ∧ Alike (c₁.maxPubMsgId x) x s' t' := by
  simp only [callerExpire, hm, hf, h.call] at hs ⊢
  split at hs
  · rename_i n hw
    cases hs
    refine ⟨_, rfl, h.mem, h.queue, h.nextTag, h.svc, rfl, h.handled, ?_,
      fun _ => h.quiet (by simp [hw]), nofun, h.priv⟩
    rw [List.map_append, h.returned]
    rfl
  · cases hs

include hmax in
theorem Alike.callHandler (h : Alike (c₁.maxPubMsgId x) x s t) (hs : callerHandler c₁ x s = .ok s') :
    ∃ t', callerHandler c₂ x t = .ok t' ∧ Alike (c₁.maxPubMsgId x) x s' t' := by
  have hsvc := h.svc
  generalize hv : s.sys.svc x = v at hsvc
  generalize hv' : t.sys.svc x = v' at hsvc
  have hforward : ∀ v, s.sys.svc x = v → (∀ p id, v ≠ .got p id) → callerForward c₁ x s = .ok s.sys := by
    intro v hv hne
    rw [callerForward, hv]
    cases v with
    | got p id => exact absurd rfl (hne p id)
    | _ => rfl
  cases hsvc with
  | received hpriv =>
    rename_i p id
    rw [callerHandler, hforward _ hv nofun] at hs
    simp only [bind, Except.bind, hv, svcStep_ready hv] at hs
    cases hs
    have hhandling : s.call = .handling := by
      by_contra hne
      cases hv.symm.trans (h.quiet hne).1
    have hgot := svcStep_got (c := c₂) hv' (hmax ▸ hpriv)
    have hready : ({ t.sys with svc := update t.sys.svc x (.ready p id) } : Sys B S).svc x = .ready p id :=
      update_self ..
    have hrun : callerHandler c₂ x t = .ok { t with
        sys := { t.sys with
          log := t.sys.log ++ [.handed x p]
          svc := update (update t.sys.svc x (.ready p id)) x (.running p) }
        handled := t.handled ++ [(id, p.msg)] } := by
      rw [callerHandler, callerForward, hv']
      simp only [hgot, bind, Except.bind, svcStep_ready hready, update_self]
    refine ⟨_, hrun, h.mem, h.queue, h.nextTag, ?_, h.call, ?_, h.returned, fun hne => absurd hhandling hne, h.empty,
      h.priv⟩
    · simp only [update_self]
      exact .running p
    · simp only [h.handled]
  | idle =>
    rw [callerHandler, hforward _ hv nofun] at hs
    simp only [bind, Except.bind, hv] at hs
    cases hs
  | running p =>
    rw [callerHandler, hforward _ hv nofun] at hs
    simp only [bind, Except.bind, hv] at hs
    cases hs

include hn in
theorem Alike.handlerReturns (h : Alike (c₁.maxPubMsgId x) x s t) (hs : callerReturns c₁ x s = .ok s') :
    ∃ t', callerReturns c₂ x t = .ok t' ∧ Alike (c₁.maxPubMsgId x) x s' t' := by
  have hsvc := h.svc
  rw [callerReturns] at hs
  generalize hv : s.sys.svc x = v at hsvc hs
  generalize hv' : t.sys.svc x = v' at hsvc
  cases hsvc with
  | running p =>
    obtain ⟨sys, h₁, hs⟩ := bind_ok hs
    rw [svcStep_running hv] at h₁
    cases hμ : s.sys.mem.releaseMsg c₁.numAllocators p.msg with
    | error e => rw [hμ] at h₁; cases h₁
    | ok μ =>
      rw [hμ] at h₁
      cases h₁
      cases hs
      have hids := Mem.releaseMsg_ids hμ
      simp only [callerReturns, hv', svcStep_running hv', hn, h.mem, hμ, Except.map, bind, Except.bind]
      refine ⟨_, rfl, rfl, h.queue, h.nextTag, ?_, rfl, h.handled, ?_, ?_, nofun, ?_⟩
      · simp only [update_self]
        exact .idle
      · rw [List.map_append, h.returned]
        rfl
      · intro _
        simp only [update_self, and_self]
      · intro q hq
        obtain ⟨hu, hp⟩ := h.priv q hq
        obtain ⟨hu', hi⟩ := hids q.msg hu
        exact ⟨hu', hi.symm ▸ hp⟩
  | idle => cases hs
  | received _ => cases hs

include hn in
theorem Alike.owner (h : Alike (c₁.maxPubMsgId x) x s t) {a : Act B S} (hs : callerStep c₁ x s (.owner a) = .ok s') :
    ∃ t', callerStep c₂ x t (.owner a) = .ok t' ∧ Alike (c₁.maxPubMsgId x) x s' t' := by
  simp only [callerStep] at hs ⊢
  split at hs
  · rename_i ha
    obtain ⟨sys, h₁, hs⟩ := bind_ok hs
    cases hs
    obtain ⟨μ, rfl, hids, h₂⟩ := owner_step hn ha h.mem h₁
    rw [if_pos ha, h₂]
    refine ⟨_, rfl, rfl, h.queue, h.nextTag, h.svc, h.call, h.handled, h.returned, h.quiet, h.empty, ?_⟩
    intro q hq
    obtain ⟨hu, hp⟩ := h.priv q hq
    obtain ⟨hu', hi⟩ := hids q.msg hu
    exact ⟨hu', hi.symm ▸ hp⟩
  · cases hs

include hm hf hmax hn in
theorem Alike.step (h : Alike (c₁.maxPubMsgId x) x s t) {a : CallerAct B S} (hs : callerStep c₁ x s a = .ok s') :
    ∃ t', callerStep c₂ x t a = .ok t' ∧ Alike (c₁.maxPubMsgId x) x s' t' := by
  cases a with
  | publish m => exact h.publish hm hf hmax hs
  | handle τ => exact h.handle hm hf hs
  | expire => exact h.expire hm hf hs
  | callHandler => exact h.callHandler hmax hs
  | handlerReturns => exact h.handlerReturns hn hs
  | owner a => exact h.owner hn hs

end

/-! ## What the calls return -/

/-- Every call returned 0 with a message and `-ENOMSG` without one. -/
def Documented (s : Caller B S) : Prop := ∀ e ∈ s.returned, documented e = e

section
variable [DecidableEq S] [DecidableEq B] {c : Cfg S} {x : S} {s s' : Caller B S}

omit [DecidableEq B] [DecidableEq S] in
theorem documented_concat {e : Option Msg × Int} {l : List (Option Msg × Int)} :
    (∀ e' ∈ l ++ [e], documented e' = e') ↔ (∀ e' ∈ l, documented e' = e') ∧ documented e = e := by
  simp [or_imp, forall_and]

theorem documented_step (hm : c.rxType x = .msgq) {a : CallerAct B S} (hs : callerStep c x s a = .ok s') :
    Documented s' ↔ Documented s ∧ a ≠ .expire := by
  cases a with
  | publish m =>
    obtain ⟨sys, -, hs⟩ := bind_ok hs
    split at hs
    · obtain ⟨sys', -, hs⟩ := bind_ok hs
      cases hs
      exact (and_iff_left nofun).symm
    · cases hs
      exact (and_iff_left nofun).symm
  | handle τ =>
    simp only [callerStep, handleQueuedMsg, hm] at hs
    split at hs
    · split at hs
      · split at hs
        · cases hs
          exact documented_concat.trans (and_congr_right fun _ => iff_of_true rfl nofun)
        · cases hs
          exact (and_iff_left nofun).symm
      · obtain ⟨sys, -, hs⟩ := bind_ok hs
        cases hs
        exact (and_iff_left nofun).symm
    · cases hs
  | expire =>
    simp only [callerStep, callerExpire, hm] at hs
    split at hs
    · cases hs
      exact documented_concat.trans (and_congr_right fun _ => iff_of_false (by decide) fun hne => hne rfl)
    · cases hs
  | callHandler =>
    obtain ⟨sys, -, hs⟩ := bind_ok hs
    split at hs
    · obtain ⟨sys', -, hs⟩ := bind_ok hs
      cases hs
      exact (and_iff_left nofun).symm
    · cases hs
  | handlerReturns =>
    simp only [callerStep, callerReturns] at hs
    split at hs
    · obtain ⟨sys, -, hs⟩ := bind_ok hs
      cases hs
      exact documented_concat.trans (and_congr_right fun _ => iff_of_true rfl nofun)
    · cases hs
  | owner a =>
    simp only [callerStep] at hs
    split at hs
    · obtain ⟨sys, -, hs⟩ := bind_ok hs
      cases hs
      exact (and_iff_left nofun).symm
    · cases hs

theorem documented_exec (hm : c.rxType x = .msgq) : ∀ (as : List (CallerAct B S)) (s s' : Caller B S),
    exec (callerStep c x) s as = .ok s' → (Documented s' ↔ Documented s ∧ .expire ∉ as)
  | [], s, s', h => by
    cases h
    exact (and_iff_left List.not_mem_nil).symm
  | a :: as, s, s', h => by
    obtain ⟨s₁, h₁, h⟩ := exec_cons _ h
    rw [documented_exec hm as s₁ s' h, documented_step hm h₁, and_assoc, List.mem_cons, not_or, ne_comm]

theorem map_documented_eq_iff {l : List (Option Msg × Int)} : l.map documented = l ↔ ∀ e ∈ l, documented e = e := by
  induction l with
  | nil => simp
  | cons e l ih => simp [ih]

/-- A run against a msgq subscriber is also one against a FIFO subscriber: the handler is called with the same
messages and every message has the same references and is freed by the same calls. What the calls
return is as documented for the FIFO subscriber; for the msgq subscriber it is so, and thus the same, exactly when
no waiting period expires. -/
theorem msgq_fifo_alike_iff (c : Cfg S) (x : S) (sys : Sys B S) (hidle : sys.svc x = .idle) (hempty : sys.queue x = [])
    (as : List (CallerAct B S)) (s : Caller B S)
    (h : exec (callerStep (c.withType x .msgq) x) (.start sys) as = .ok s) :
    ∃ t, exec (callerStep (c.withType x .fifo) x) (.start sys) as = .ok t ∧ t.handled = s.handled ∧
      t.sys.mem = s.sys.mem ∧ Documented t ∧
      (t.returned = s.returned ∧ Documented s ↔ .expire ∉ as) := by
  have hm : (c.withType x .msgq).rxType x = .msgq := update_self ..
  have hf : (c.withType x .fifo).rxType x = .fifo := update_self ..
  obtain ⟨t, ht, ha⟩ := exec_follows (fun s t a s' hst hs => hst.step hm hf rfl rfl hs) as _ _ s
    (alike_start hidle hempty ((c.withType x .msgq).maxPubMsgId x)) h
  refine ⟨t, ht, ha.handled, ha.mem, ?_, ?_⟩
  · intro e he
    rw [ha.returned] at he
    obtain ⟨e', -, rfl⟩ := List.mem_map.mp he
    rfl
  · have hdoc := documented_exec hm as _ s h
    rw [ha.returned, map_documented_eq_iff]
    exact and_self_iff.trans (hdoc.trans (and_iff_right fun e he => absurd he List.not_mem_nil))

end

/-- A message arrives while a call waits, and the next call does not wait. -/
def publishedWhileWaiting : List (CallerAct Unit (Fin 2)) :=
  [.owner (.newMsg 0 9 0), .handle .forever, .publish 0, .callHandler, .handlerReturns, .handle (.ticks 0)]

theorem msgq_fifo_alike_waiting : ∃ s t, exec (callerStep (msgqAndFifo.withType 0 .msgq) 0) (.start msgqAndFifoInit)
      publishedWhileWaiting = .ok s ∧
    exec (callerStep (msgqAndFifo.withType 0 .fifo) 0) (.start msgqAndFifoInit) publishedWhileWaiting = .ok t ∧
      s.handled = [(9, 0)] ∧ t.handled = s.handled ∧ t.returned = s.returned := by
  obtain ⟨t, ht, hh, -, -, hr⟩ := msgq_fifo_alike_iff msgqAndFifo 0 msgqAndFifoInit rfl rfl publishedWhileWaiting _ rfl
  exact ⟨_, t, rfl, ht, rfl, hh, (hr.mpr (by simp [publishedWhileWaiting])).1⟩

theorem msgq_timeout_differs : ¬ ∀ (sys : Sys Unit (Fin 2)) (as : List (CallerAct Unit (Fin 2)))
    (s t : Caller Unit (Fin 2)),
    sys.svc 0 = .idle → sys.queue 0 = [] →
      exec (callerStep (msgqAndFifo.withType 0 .msgq) 0) (.start sys) as = .ok s →
        exec (callerStep (msgqAndFifo.withType 0 .fifo) 0) (.start sys) as = .ok t → t.returned = s.returned := by
  intro h
  have hret := h msgqAndFifoInit [.handle (.ticks 5), .expire] _ _ rfl rfl rfl rfl
  revert hret
  decide

end ZephyrPubSub
