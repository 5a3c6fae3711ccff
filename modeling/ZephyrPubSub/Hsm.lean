import ZephyrPubSub.Msg
import Mathlib.Logic.Function.Basic

/-!
# The hierarchical state machine

`hsm.c`, with a type `σ` of state functions and messages of type `μ`. What a
call of a state function does is the parameter `fns`; `stateFns` makes it from
the answers of functions that do not publish to their own HSM. `M` is
`CONFIG_HSM_MAX_NESTED_STATES`.
-/

namespace ZephyrPubSub

variable {σ μ : Type} {M : Nat}

def hsmMsgIdWalk : MsgId := 0xFFFF

def hsmMsgIdEntry : MsgId := hsmMsgIdWalk - 1

def hsmMsgIdExit : MsgId := hsmMsgIdEntry - 1

/-- The ids private to the HSM. -/
def Reserved (msgId : MsgId) : Prop :=
  msgId = hsmMsgIdWalk ∨ msgId = hsmMsgIdEntry ∨ msgId = hsmMsgIdExit

instance (msgId : MsgId) : Decidable (Reserved msgId) := by unfold Reserved; infer_instance

inductive HsmRet where
  | consumed
  | parent
  | topState
  | transition
  deriving DecidableEq, Repr

inductive HsmStop where
  /-- `__ASSERT(... != NULL, "")` of a state function -/
  | nullState
  /-- `__ASSERT(subscriber->handler_data.msg_handler != NULL, "")` -/
  | noHandler
  /-- `__ASSERT(..., "Walk message must be ignored")` -/
  | walkHandled
  /-- `__ASSERT(..., "Can not transition from exit")` -/
  | exitTransition
  | outOfBounds
  /-- A read of an entry of `parents` that was not written. -/
  | unwritten
  /-- "Public messages can not be published directly to subscriber" -/
  | publicMsg
  | blocked
  | misuse
  | outOfFuel
  deriving DecidableEq, Repr

structure Call (σ μ : Type) where
  state : σ
  msgId : MsgId
  msg : Option μ
  deriving DecidableEq, Repr

inductive HsmEvent (σ μ : Type) where
  | handle (msg : MsgId × Option μ) (state : Option σ)
  | call (call : Call σ μ)
  | start
  | done (state : Option σ)
  deriving DecidableEq, Repr

/-- `calls` and `log` are not in the code: the calls of state functions, and these
with the calls of `msg_handler`, newest first. -/
structure Hsm (σ μ : Type) where
  currentState : Option σ
  tmpState : Option σ
  /-- The subscriber's handler is `msg_handler`, with this HSM as its user data. -/
  handlerSet : Bool
  queue : List (MsgId × Option μ)
  calls : List (Call σ μ)
  log : List (HsmEvent σ μ)

/-- A call that goes wrong leaves the HSM as it is then. -/
abbrev HsmResult (σ μ α : Type) := Except (HsmStop × Hsm σ μ) α

abbrev StateFns (σ μ : Type) := Call σ μ → Hsm σ μ → HsmResult σ μ (HsmRet × Hsm σ μ)

def orStop {α : Type} (hsm : Hsm σ μ) : Except HsmStop α → HsmResult σ μ α
  | .ok a => .ok a
  | .error e => .error (e, hsm)

def notNull (hsm : Hsm σ μ) (fn : Option σ) : HsmResult σ μ σ :=
  match fn with
  | none => .error (.nullState, hsm)
  | some s => .ok s

/-! ## State functions that only answer -/

inductive Answer (σ : Type) where
  | consumed
  | parent (parentFn : Option σ)
  | topState
  | transition (newFn : Option σ)
  deriving DecidableEq, Repr

def Answer.ret : Answer σ → HsmRet
  | .consumed => .consumed
  | .parent _ => .parent
  | .topState => .topState
  | .transition _ => .transition

def Answer.assign : Answer σ → Option σ → Option σ
  | .consumed, tmp => tmp
  | .parent fn, _ => fn
  | .topState, _ => none
  | .transition fn, _ => fn

def Hsm.enter (hsm : Hsm σ μ) (call : Call σ μ) : Hsm σ μ :=
  { hsm with calls := call :: hsm.calls, log := .call call :: hsm.log }

/-- State functions that answer without publishing to their own HSM. An answer may
depend on every call before, so any behaviour of theirs in a run is some `answer`. -/
def stateFns (answer : List (Call σ μ) → Call σ μ → Answer σ) : StateFns σ μ := fun call hsm =>
  let a := answer hsm.calls call
  .ok (a.ret, { hsm.enter call with tmpState := a.assign hsm.tmpState })

/-! ## The array of parents -/

/-- `hsm_state_fn parents[CONFIG_HSM_MAX_NESTED_STATES]`; an entry is `none` until it is written. -/
abbrev Parents (σ : Type) (M : Nat) := Fin M → Option (Option σ)

def Parents.uninit : Parents σ M := fun _ => none

def Parents.write (ps : Parents σ M) (i : Nat) (fn : Option σ) : Except HsmStop (Parents σ M) :=
  if h : i < M then .ok (Function.update ps ⟨i, h⟩ (some fn)) else .error .outOfBounds

def Parents.read (ps : Parents σ M) (i : Nat) : Except HsmStop (Option σ) :=
  if h : i < M then
    match ps ⟨i, h⟩ with
    | some fn => .ok fn
    | none => .error .unwritten
  else .error .outOfBounds

/-! ## The loops -/

section
variable (fns : StateFns σ μ)

/-- `hsm->tmp_state(hsm, msg_id, msg)` -/
def callTmp (msgId : MsgId) (msg : Option μ) (hsm : Hsm σ μ) : HsmResult σ μ (HsmRet × Hsm σ μ) := do
  let s ← notNull hsm hsm.tmpState
  fns ⟨s, msgId, msg⟩ hsm

def sendWalk (hsm : Hsm σ μ) : HsmResult σ μ (HsmRet × Hsm σ μ) := do
  let (ret, hsm) ← callTmp fns hsmMsgIdWalk none hsm
  if ret = .parent ∨ ret = .topState then .ok (ret, hsm) else .error (.walkHandled, hsm)

/-- The loop that collects the parents of `tmp_state`, with the last index written and
`common_parent_index`. `i` is the next index: the code's counter, which starts at -1, is
incremented before it is used. `hsm_start` has the loop without a common parent. -/
def collectParents (isCommon : Hsm σ μ → Bool) (parents : Parents σ M) (i : Nat) (hsm : Hsm σ μ) :
    HsmResult σ μ (Parents σ M × Nat × Option Nat × Hsm σ μ) := do
  let (ret, hsm) ← sendWalk fns hsm
  let commonParentIndex := if isCommon hsm then some i else none
  let parents ← orStop hsm (parents.write i hsm.tmpState)
  if ret = .parent ∧ commonParentIndex = none ∧ i < M - 1 then
    collectParents isCommon parents (i + 1) hsm
  else .ok (parents, i, commonParentIndex, hsm)
termination_by M - i

def sendEntries (parents : Parents σ M) : Nat → Hsm σ μ → HsmResult σ μ (Hsm σ μ)
  | 0, hsm => .ok hsm
  | i + 1, hsm => do
    let s ← notNull hsm (← orStop hsm (parents.read i))
    let (_, hsm) ← fns ⟨s, hsmMsgIdEntry, none⟩ hsm
    sendEntries parents i hsm

/-- The search for `tmp_state` among the first `n` parents; a later match replaces an earlier one. -/
def findCommon (parents : Parents σ M) [DecidableEq σ] (tmp : Option σ) : Nat → Except HsmStop (Option Nat)
  | 0 => .ok none
  | n + 1 => do
    let commonParentIndex ← findCommon parents tmp n
    let fn ← parents.read n
    .ok (if fn = tmp then some n else commonParentIndex)

/-- The parent of the state that returned `ret` from EXIT, asked for with WALK when it consumed that. -/
def parentAfterExit (ret : HsmRet) (hsm : Hsm σ μ) : HsmResult σ μ (HsmRet × Hsm σ μ) :=
  if ret = .consumed then sendWalk fns hsm else .ok (ret, hsm)

/-- The loop that sends `HSM_MSG_ID_EXIT`, with the `common_parent_index` it finds. -/
def sendExits [DecidableEq σ] (parents : Parents σ M) (numParents nestCount : Nat) (hsm : Hsm σ μ) :
    HsmResult σ μ (Option Nat × Hsm σ μ) := do
  let (ret, hsm) ← callTmp fns hsmMsgIdExit none hsm
  if ret = .transition then .error (.exitTransition, hsm)
  let (ret, hsm) ← parentAfterExit fns ret hsm
  let commonParentIndex ←
    if ret = .parent then orStop hsm (findCommon parents hsm.tmpState numParents) else .ok none
  if ret = .parent ∧ commonParentIndex = none ∧ nestCount + 1 < M then
    sendExits parents numParents (nestCount + 1) hsm
  else .ok (commonParentIndex, hsm)
termination_by M - nestCount

/-! ## The functions -/

variable (M)

def hsmInit (initialState : Option σ) (hsm : Hsm σ μ) : HsmResult σ μ (Hsm σ μ) := do
  let s ← notNull hsm initialState
  .ok { hsm with currentState := some s, handlerSet := true }

def hsmStart (hsm : Hsm σ μ) : HsmResult σ μ (Hsm σ μ) := do
  let s ← notNull hsm hsm.currentState
  let (parents, numParents, _, hsm) ←
    collectParents fns (M := M) (fun _ => false) .uninit 0 { hsm with tmpState := some s }
  let hsm ← sendEntries fns parents numParents hsm
  let s ← notNull hsm hsm.currentState
  let (_, hsm) ← fns ⟨s, hsmMsgIdEntry, none⟩ hsm
  .ok hsm

variable [DecidableEq σ]

def transitionState (newState : σ) (hsm : Hsm σ μ) : HsmResult σ μ (Hsm σ μ) := do
  let (parents, numParents, commonParentIndex, hsm) ←
    collectParents fns (M := M) (fun hsm => hsm.tmpState = hsm.currentState) .uninit 0
      { hsm with tmpState := some newState }
  let (commonParentIndex, hsm) ←
    match commonParentIndex with
    | some i => .ok (some i, hsm)
    | none => sendExits fns parents numParents 0 { hsm with tmpState := hsm.currentState }
  let hsm ← sendEntries fns parents (commonParentIndex.getD numParents) hsm
  let (_, hsm) ← fns ⟨newState, hsmMsgIdEntry, none⟩ hsm
  .ok { hsm with currentState := some newState }

def bubble (msgId : MsgId) (msg : Option μ) : Nat → Hsm σ μ → HsmResult σ μ (HsmRet × Hsm σ μ)
  | 0, hsm => .error (.outOfFuel, hsm)
  | fuel + 1, hsm => do
    let (ret, hsm) ← callTmp fns msgId msg hsm
    if ret = .parent then bubble msgId msg fuel hsm else .ok (ret, hsm)

def msgHandler (fuel : Nat) (msgId : MsgId) (msg : Option μ) (hsm : Hsm σ μ) :
    HsmResult σ μ (Hsm σ μ) := do
  let (ret, hsm) ← bubble fns msgId msg fuel { hsm with tmpState := hsm.currentState }
  if ret = .transition ∧ hsm.tmpState ≠ hsm.currentState then
    let newState ← notNull hsm hsm.tmpState
    transitionState M fns newState hsm
  else .ok hsm

def handleMsg (fuel : Nat) (msg : MsgId × Option μ) (hsm : Hsm σ μ) : HsmResult σ μ (Hsm σ μ) :=
  if hsm.handlerSet then do
    let hsm ← msgHandler M fns fuel msg.1 msg.2 { hsm with log := .handle msg hsm.currentState :: hsm.log }
    .ok { hsm with log := .done hsm.currentState :: hsm.log }
  else .error (.noHandler, hsm)

def hsmRun (fuel : Nat) (initialState : σ) (msgs : List (MsgId × Option μ)) (hsm : Hsm σ μ) :
    HsmResult σ μ (Hsm σ μ) := do
  let hsm ← hsmInit (some initialState) hsm
  let hsm ← hsmStart M fns hsm
  msgs.foldlM (fun hsm msg => handleMsg M fns fuel msg hsm) hsm

end

end ZephyrPubSub
