import ZephyrPubSub.Hsm
import ZephyrPubSub.SubList

/-!
# HSMs in threads and interrupts

Before it answers, a state function can publish to any subscriber and service
any queue, its own HSM's included; a callback subscriber's handler then runs
inside the state function. Here each thread or interrupt has a stack of the
state functions that are under way, with the place where `hsm.c` goes on when
they return, and a step is what such a context does next. Between two calls of
state functions the code is that of `Hsm`, cut up at the calls, with
`hsm_start` in the log, and is one step: who is in an HSM's code is in one of
its state functions. A handler that is no HSM's is part of what its caller does.
-/

namespace ZephyrPubSub

open Function

variable {σ μ H T : Type} {M : Nat}

/-- The HSM's subscriber. -/
structure HsmCfg where
  rxType : RxType
  maxPubMsgId : MsgId
  /-- Capacity of the msgq. -/
  maxMsgs : Nat

/-! ## The code between two calls -/

/-- Where `hsm.c` goes on when a state function returns, with its local variables.
`hsm_start` has no `newState`. -/
inductive Point (σ : Type) (M : Nat) where
  | bubble
  /-- The loop that collects parents, at the index `i`. -/
  | collect (newState : Option σ) (parents : Parents σ M) (i : Nat)
  | exit (newState : σ) (parents : Parents σ M) (numParents nestCount : Nat)
  /-- A state has consumed EXIT and is asked for its parent. -/
  | exitWalk (newState : σ) (parents : Parents σ M) (numParents nestCount : Nat)
  /-- The loop that sends ENTRY, with `n` parents to go. -/
  | entry (newState : Option σ) (parents : Parents σ M) (n : Nat)
  | last (newState : Option σ)

/-- The next call of a state function, none when `msg_handler` or `hsm_start` returns. -/
abbrev Next (σ μ : Type) (M : Nat) := Option (Call σ μ × Point σ M) × Hsm σ μ

def callState (call : Call σ μ) (point : Point σ M) (hsm : Hsm σ μ) : Next σ μ M :=
  (some (call, point), hsm.enter call)

def enterTmp (msgId : MsgId) (msg : Option μ) (point : Point σ M) (hsm : Hsm σ μ) :
    HsmResult σ μ (Next σ μ M) := do
  let s ← notNull hsm hsm.tmpState
  .ok (callState ⟨s, msgId, msg⟩ point hsm)

def Hsm.finish (newState : Option σ) (hsm : Hsm σ μ) : Hsm σ μ :=
  { hsm with
    currentState := newState.or hsm.currentState
    log := .done (newState.or hsm.currentState) :: hsm.log }

def walkIgnored (ret : HsmRet) (hsm : Hsm σ μ) : HsmResult σ μ Unit :=
  if ret = .parent ∨ ret = .topState then .ok () else .error (.walkHandled, hsm)

def nextEntry (newState : Option σ) (parents : Parents σ M) : Nat → Hsm σ μ → HsmResult σ μ (Next σ μ M)
  | 0, hsm => do
    let s ← notNull hsm (newState.or hsm.currentState)
    .ok (callState ⟨s, hsmMsgIdEntry, none⟩ (.last newState) hsm)
  | n + 1, hsm => do
    let s ← notNull hsm (← orStop hsm (parents.read n))
    .ok (callState ⟨s, hsmMsgIdEntry, none⟩ (.entry newState parents n) hsm)

section
variable [DecidableEq σ]

def afterCollect (newState : Option σ) (parents : Parents σ M) (numParents : Nat)
    (commonParentIndex : Option Nat) (hsm : Hsm σ μ) : HsmResult σ μ (Next σ μ M) :=
  match newState, commonParentIndex with
  | none, _ => nextEntry none parents numParents hsm
  | some n, none => enterTmp hsmMsgIdExit none (.exit n parents numParents 0) { hsm with tmpState := hsm.currentState }
  | some n, some i => nextEntry (some n) parents i hsm

/-- After the WALK of the loop that collects parents. -/
def collected (newState : Option σ) (parents : Parents σ M) (i : Nat) (ret : HsmRet) (hsm : Hsm σ μ) :
    HsmResult σ μ (Next σ μ M) := do
  walkIgnored ret hsm
  let commonParentIndex := if newState ≠ none ∧ hsm.tmpState = hsm.currentState then some i else none
  let parents ← orStop hsm (parents.write i hsm.tmpState)
  if ret = .parent ∧ commonParentIndex = none ∧ i < M - 1 then
    enterTmp hsmMsgIdWalk none (.collect newState parents (i + 1)) hsm
  else afterCollect newState parents i commonParentIndex hsm

/-- After the EXIT of a state that has named its parent by `ret`. -/
def exited (newState : σ) (parents : Parents σ M) (numParents nestCount : Nat) (ret : HsmRet) (hsm : Hsm σ μ) :
    HsmResult σ μ (Next σ μ M) := do
  let commonParentIndex ←
    if ret = .parent then orStop hsm (findCommon parents hsm.tmpState numParents) else .ok none
  if ret = .parent ∧ commonParentIndex = none ∧ nestCount + 1 < M then
    enterTmp hsmMsgIdExit none (.exit newState parents numParents (nestCount + 1)) hsm
  else nextEntry (some newState) parents (commonParentIndex.getD numParents) hsm

/-- A state function has returned `ret`. -/
def resume (call : Call σ μ) (ret : HsmRet) (hsm : Hsm σ μ) : Point σ M → HsmResult σ μ (Next σ μ M)
  | .bubble =>
    if ret = .parent then enterTmp call.msgId call.msg .bubble hsm
    else if ret = .transition ∧ hsm.tmpState ≠ hsm.currentState then do
      let newState ← notNull hsm hsm.tmpState
      enterTmp hsmMsgIdWalk none (.collect (some newState) .uninit 0) { hsm with tmpState := some newState }
    else .ok (none, hsm.finish none)
  | .collect newState parents i => collected newState parents i ret hsm
  | .exit newState parents numParents nestCount =>
    if ret = .transition then .error (.exitTransition, hsm)
    else if ret = .consumed then
      enterTmp hsmMsgIdWalk none (.exitWalk newState parents numParents nestCount) hsm
    else exited newState parents numParents nestCount ret hsm
  | .exitWalk newState parents numParents nestCount => do
    walkIgnored ret hsm
    exited newState parents numParents nestCount ret hsm
  | .entry newState parents n => nextEntry newState parents n hsm
  | .last newState => .ok (none, hsm.finish newState)

end

def enterHandler (msg : MsgId × Option μ) (hsm : Hsm σ μ) : HsmResult σ μ (Next σ μ M) :=
  if hsm.handlerSet then
    enterTmp msg.1 msg.2 .bubble
      { hsm with tmpState := hsm.currentState, log := .handle msg hsm.currentState :: hsm.log }
  else .error (.noHandler, hsm)

def enterStart (hsm : Hsm σ μ) : HsmResult σ μ (Next σ μ M) := do
  let s ← notNull hsm hsm.currentState
  enterTmp hsmMsgIdWalk none (.collect none .uninit 0) { hsm with tmpState := some s, log := .start :: hsm.log }

/-! ## Contexts -/

inductive Frame (H σ μ : Type) (M : Nat) where
  /-- `pub_sub_handle_queued_msg` has taken the message and not called the handler yet. -/
  | taken (h : H) (msg : MsgId × Option μ)
  /-- A state function has been called. -/
  | call (h : H) (call : Call σ μ) (point : Point σ M)

structure Hsms (T H σ μ : Type) (M : Nat) where
  hsm : H → Hsm σ μ
  /-- The calls under way in each thread or interrupt, the innermost one first. -/
  stack : T → List (Frame H σ μ M)

/-- What a thread or interrupt does next. -/
inductive Deed (H σ μ : Type) where
  /-- `pub_sub_publish_to_subscriber` -/
  | publish (h : H) (msg : MsgId × Option μ)
  /-- A broker or a relaying FIFO subscriber passes a public message on. -/
  | dispatch (h : H) (msg : MsgId × Option μ)
  /-- `pub_sub_handle_queued_msg` takes a message. -/
  | serve (h : H)
  /-- It calls the handler. -/
  | handle
  | start (h : H)
  /-- The innermost state function returns. -/
  | answer (a : Answer σ)

section
variable [DecidableEq H] [DecidableEq T] [DecidableEq σ]

abbrev HsmsResult (T H σ μ : Type) (M : Nat) := Except (HsmStop × Hsms T H σ μ M) (Hsms T H σ μ M)

/-- The code of HSM `h` has run in thread `t`, called by the frames `below`. -/
def Hsms.go (w : Hsms T H σ μ M) (t : T) (h : H) (below : List (Frame H σ μ M)) :
    HsmResult σ μ (Next σ μ M) → HsmsResult T H σ μ M
  | .ok (some (call, point), hsm) =>
    .ok ⟨update w.hsm h hsm, update w.stack t (.call h call point :: below)⟩
  | .ok (none, hsm) => .ok ⟨update w.hsm h hsm, update w.stack t below⟩
  | .error (stop, hsm) => .error (stop, { w with hsm := update w.hsm h hsm })

variable (c : H → HsmCfg) (w : Hsms T H σ μ M)

/-- The subscriber of HSM `h` is given a message. -/
def Hsms.send (t : T) (h : H) (msg : MsgId × Option μ) : HsmsResult T H σ μ M :=
  let queue := (w.hsm h).queue ++ [msg]
  match (c h).rxType with
  | .callback => w.go t h (w.stack t) (enterHandler msg (w.hsm h))
  | .msgq =>
    if (w.hsm h).queue.length < (c h).maxMsgs then
      .ok { w with hsm := update w.hsm h { w.hsm h with queue := queue } }
    else .error (.blocked, w)
  | .fifo => .ok { w with hsm := update w.hsm h { w.hsm h with queue := queue } }

def Hsms.serve (t : T) (h : H) : HsmsResult T H σ μ M :=
  match (c h).rxType, (w.hsm h).queue with
  -- `-EPERM`, and `-ENOMSG` when the timeout ends
  | .callback, _ => .ok w
  | _, [] => .ok w
  | _, msg :: queue =>
    .ok ⟨update w.hsm h { w.hsm h with queue := queue }, update w.stack t (.taken h msg :: w.stack t)⟩

/-- The thread runs a state function or code outside of all HSMs. -/
def Hsms.free (t : T) : Bool :=
  match w.stack t with
  | .taken _ _ :: _ => false
  | _ => true

def Frame.isCall (h : H) : Frame H σ μ M → Bool
  | .taken _ _ => false
  | .call h' _ _ => h' = h

def Hsms.calls (t : T) (h : H) : Nat := (w.stack t).countP (Frame.isCall h)

/-- The HSM whose `msg_handler` or `hsm_start` the step calls. -/
def Hsms.enters : T × Deed H σ μ → Option H
  | (_, .publish h _) => if (c h).rxType = .callback then some h else none
  | (_, .dispatch h _) => if (c h).rxType = .callback then some h else none
  | (t, .handle) =>
    match w.stack t with
    | .taken h _ :: _ => some h
    | _ => none
  | (_, .start h) => some h
  | _ => none

/-- An HSM is called neither from within a state function of its own, directly or through
the state functions of others, nor while another thread or interrupt is in its code. -/
def NotEntered (a : T × Deed H σ μ) : Prop :=
  ∀ h, w.enters c a = some h → w.calls a.1 h = 0 ∧ ∀ t, t ≠ a.1 → w.calls t h = 0

def hsmsStep : T × Deed H σ μ → HsmsResult T H σ μ M
  | (t, .publish h msg) =>
    if w.free t then
      if (c h).maxPubMsgId < msg.1 then w.send c t h msg else .error (.publicMsg, w)
    else .error (.misuse, w)
  | (t, .dispatch h msg) =>
    -- `process_msg` runs in the work queue's thread, inside no state function
    if msg.1 ≤ (c h).maxPubMsgId ∧ ((w.stack t).isEmpty ∨ (c h).rxType = .fifo) then w.send c t h msg
    else .error (.misuse, w)
  | (t, .serve h) => if w.free t then w.serve c t h else .error (.misuse, w)
  | (t, .handle) =>
    match w.stack t with
    | .taken h msg :: below => w.go t h below (enterHandler msg (w.hsm h))
    | _ => .error (.misuse, w)
  | (t, .start h) => if w.free t then w.go t h (w.stack t) (enterStart (w.hsm h)) else .error (.misuse, w)
  | (t, .answer a) =>
    match w.stack t with
    | .call h call point :: below =>
      w.go t h below
        (resume call a.ret { w.hsm h with tmpState := a.assign (w.hsm h).tmpState } point)
    | _ => .error (.misuse, w)

end

end ZephyrPubSub
