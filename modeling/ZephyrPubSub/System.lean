import ZephyrPubSub.Mem

/-!
# The running system

One state for all brokers, subscribers and messages. `work b` is where broker
`b`'s work item stands in `publish_work_handler` and `process_msg`, `svc x`
where subscriber `x`'s thread stands in `pub_sub_handle_queued_msg` and
`send_to_next_fifo_subscriber`: msgq and FIFO subscribers call it from their own
threads, not from the one `process_msg` runs in. A step is one kernel call or
one loop turn, so an interleaving of all threads is a sequence of actions. While
`process_msg` is in a callback subscriber's handler, the handler can add and
remove subscribers: its thread owns the mutex, and `k_mutex` is recursive. A
failed assertion and a NULL broker end the run.
-/

namespace ZephyrPubSub

open Lists Function

structure Cfg (S : Type) where
  rxType : S → RxType
  maxPubMsgId : S → MsgId
  maxMsgs : S → Nat
  /-- `g_runtime_allocators.num_allocators` -/
  numAllocators : Nat

/-- One publication of a message. Only `msg` exists in the code: `tag` numbers
the publications and `src` is the broker, or `none` for a direct one. -/
structure Pkt (B : Type) where
  msg : Msg
  tag : Nat
  src : Option B
  deriving DecidableEq, Repr

inductive Owner (S : Type) where
  | work
  | svc (x : S)
  deriving DecidableEq, Repr

inductive Work (B S : Type) where
  /-- `k_work_poll` waits for the publish FIFO. -/
  | armed
  | queued
  | get
  | lock (p : Pkt B) (id : MsgId)
  /-- In the list loop before its turn at `sub`, or still in the handler of `call`. -/
  | scan (p : Pkt B) (id : MsgId) (sub call : Option S)
  /-- In `k_msgq_put` for subscriber `sub`, reference acquired and `tmp` read. -/
  | put (p : Pkt B) (id : MsgId) (sub : S) (tmp : Option S)
  | release (p : Pkt B)
  | reset
  | submit

def Work.calling {B S : Type} : Work B S → Bool
  | .scan _ _ _ (some _) => true
  | _ => false

inductive Svc (B S : Type) where
  | idle
  /-- A FIFO subscriber has dequeued the message. -/
  | got (p : Pkt B) (id : MsgId)
  /-- `send_to_next_fifo_subscriber` has read the broker pointer. -/
  | lock (p : Pkt B) (id : MsgId) (broker : B)
  | walk (p : Pkt B) (id : MsgId) (broker : B) (nextSub : Option S)
  | ready (p : Pkt B) (id : MsgId)
  | running (p : Pkt B)

inductive Admin where
  | idle
  | adding
  | removing
  deriving DecidableEq, Repr

inductive Event (B S : Type) where
  | published (p : Pkt B)
  | handed (x : S) (p : Pkt B)
  deriving DecidableEq, Repr

structure Sys (B S : Type) where
  mem : Mem
  fifo : B → List (Pkt B)
  mutex : B → Option (Owner S)
  subscribers : B → List S
  work : B → Work B S
  broker : S → Option B
  admin : S → Admin
  subs : S → MsgId → Bool
  priority : S → Nat
  queue : S → List (Pkt B)
  svc : S → Svc B S
  /-- Handlers of callback subscribers called by direct publishers. -/
  calls : List (S × Pkt B)
  nextTag : Nat
  log : List (Event B S)

section
variable {B S : Type} [DecidableEq S]

def Sys.listOf (s : Sys B S) (x : S) : List S :=
  match s.admin x, s.broker x with
  | .idle, some b => s.subscribers b
  | _, _ => []

/-- `SYS_SLIST_PEEK_NEXT_CONTAINER`; the pointer of an unlinked node is NULL. -/
def Sys.nextSub (s : Sys B S) (x : S) : Option S := (after x (s.listOf x)).head?

def Sys.wants (c : Cfg S) (s : Sys B S) (x : S) (id : MsgId) : Prop :=
  id ≤ c.maxPubMsgId x ∧ s.subs x id = true

instance (c : Cfg S) (s : Sys B S) (x : S) (id : MsgId) : Decidable (s.wants c x id) :=
  inferInstanceAs (Decidable (_ ∧ _))

variable [DecidableEq B] (c : Cfg S) (s : Sys B S)

/-! ## The broker's work item -/

/-- The turn of the list loop at subscriber `x`, whose next node is read first. -/
def deliver (b : B) (p : Pkt B) (id : MsgId) (x : S) : Except Stop (Sys B S) :=
  let tmp := s.nextSub x
  if s.wants c x id then
    match c.rxType x with
    | .callback =>
      .ok { s with log := s.log ++ [.handed x p], work := update s.work b (.scan p id tmp (some x)) }
    | .msgq => do
      let mem ← s.mem.acquireMsg p.msg
      .ok { s with mem := mem, work := update s.work b (.put p id x tmp) }
    | .fifo => do
      -- `fifo_sub_handled` is set and the loop is left
      let mem ← s.mem.acquireMsg p.msg
      .ok { s with
        mem := mem
        queue := update s.queue x (s.queue x ++ [p])
        mutex := update s.mutex b none
        work := update s.work b (.release p) }
  else .ok { s with work := update s.work b (.scan p id tmp none) }

def workStep (b : B) : Except Stop (Sys B S) :=
  match s.work b with
  | .armed => .error .blocked
  | .queued => .ok { s with work := update s.work b .get }
  | .get =>
    match s.fifo b with
    | [] => .ok { s with work := update s.work b .reset }
    | p :: ps => do
      let id ← s.mem.getMsgId p.msg
      .ok { s with fifo := update s.fifo b ps, work := update s.work b (.lock p id) }
  | .lock p id =>
    if s.mutex b = none then
      .ok { s with
        mutex := update s.mutex b (some .work)
        work := update s.work b (.scan p id (s.subscribers b).head? none) }
    else .error .blocked
  | .scan p id (some x) _ => deliver c s b p id x
  | .scan p _ none _ =>
    .ok { s with mutex := update s.mutex b none, work := update s.work b (.release p) }
  | .put p id x tmp =>
    if (s.queue x).length < c.maxMsgs x then
      .ok { s with
        queue := update s.queue x (s.queue x ++ [p])
        work := update s.work b (.scan p id tmp none) }
    else .error .blocked
  | .release p => do
    let mem ← s.mem.releaseMsg c.numAllocators p.msg
    .ok { s with mem := mem, work := update s.work b .get }
  | .reset => .ok { s with work := update s.work b .submit }
  | .submit =>
    -- `k_work_poll_submit` queues the work at once if the polled FIFO has data
    .ok { s with work := update s.work b (if s.fifo b = [] then .armed else .queued) }

/-! ## Handling a queued message -/

def forward (x : S) (p : Pkt B) (id : MsgId) (b : B) (n : S) : Except Stop (Sys B S) :=
  if s.wants c n id then
    -- the union of another subscriber type holds no k_fifo
    if c.rxType n = .fifo then do
      let mem ← s.mem.acquireMsg p.msg
      .ok { s with
        mem := mem
        queue := update s.queue n (s.queue n ++ [p])
        mutex := update s.mutex b none
        svc := update s.svc x (.ready p id) }
    else .error .notFifo
  else .ok { s with svc := update s.svc x (.walk p id b (s.nextSub n)) }

def svcStep (x : S) : Except Stop (Sys B S) :=
  match s.svc x with
  | .idle =>
    match c.rxType x, s.queue x with
    | .callback, _ => .error .misuse
    | _, [] => .error .blocked
    | .msgq, p :: ps => do
      let id ← s.mem.getMsgId p.msg
      .ok { s with queue := update s.queue x ps, svc := update s.svc x (.ready p id) }
    | .fifo, p :: ps => do
      let id ← s.mem.getMsgId p.msg
      .ok { s with queue := update s.queue x ps, svc := update s.svc x (.got p id) }
  | .got p id =>
    if id ≤ c.maxPubMsgId x then
      match s.broker x with
      | some b => .ok { s with svc := update s.svc x (.lock p id b) }
      | none => .error .nullBroker
    else .ok { s with svc := update s.svc x (.ready p id) }
  | .lock p id b =>
    if s.mutex b = none then
      .ok { s with
        mutex := update s.mutex b (some (.svc x))
        svc := update s.svc x (.walk p id b (s.nextSub x)) }
    else .error .blocked
  | .walk p id b (some n) => forward c s x p id b n
  | .walk p id b none =>
    .ok { s with mutex := update s.mutex b none, svc := update s.svc x (.ready p id) }
  | .ready p _ =>
    .ok { s with log := s.log ++ [.handed x p], svc := update s.svc x (.running p) }
  | .running p => do
    let mem ← s.mem.releaseMsg c.numAllocators p.msg
    .ok { s with mem := mem, svc := update s.svc x .idle }

/-! ## Publishing -/

/-- The poll event of an armed work item fires on `k_fifo_put`. -/
def wake : Work B S → Work B S
  | .armed => .queued
  | w => w

def Mem.transfer (μ : Mem) (m : Msg) : Mem := { μ with owned := update μ.owned m false }

def publishToBroker (b : B) (m : Msg) : Except Stop (Sys B S) :=
  if s.mem.owned m then
    let p : Pkt B := ⟨m, s.nextTag, some b⟩
    .ok { s with
      mem := s.mem.transfer m
      fifo := update s.fifo b (s.fifo b ++ [p])
      work := update s.work b (wake (s.work b))
      nextTag := s.nextTag + 1
      log := s.log ++ [.published p] }
  else .error .misuse

def publishToSubscriber (x : S) (m : Msg) : Except Stop (Sys B S) :=
  if s.mem.owned m then do
    let id ← s.mem.getMsgId m
    let p : Pkt B := ⟨m, s.nextTag, none⟩
    if c.maxPubMsgId x < id then
      match c.rxType x with
      | .callback =>
        .ok { s with
          mem := s.mem.transfer m
          calls := s.calls ++ [(x, p)]
          nextTag := s.nextTag + 1
          log := s.log ++ [.published p, .handed x p] }
      | .msgq =>
        if (s.queue x).length < c.maxMsgs x then
          .ok { s with
            mem := s.mem.transfer m
            queue := update s.queue x (s.queue x ++ [p])
            nextTag := s.nextTag + 1
            log := s.log ++ [.published p] }
        else .error .blocked
      | .fifo =>
        .ok { s with
          mem := s.mem.transfer m
          queue := update s.queue x (s.queue x ++ [p])
          nextTag := s.nextTag + 1
          log := s.log ++ [.published p] }
    else .error .assertion
  else .error .misuse

def callReturn (x : S) (p : Pkt B) : Except Stop (Sys B S) :=
  if (x, p) ∈ s.calls then do
    let mem ← s.mem.releaseMsg c.numAllocators p.msg
    .ok { s with mem := mem, calls := s.calls.erase (x, p) }
  else .error .misuse

/-! ## Adding and removing subscribers -/

/-- `k_mutex_lock` for an add or a remove does not wait. -/
def Sys.Lockable (b : B) : Prop := s.mutex b = none ∨ (s.work b).calling = true

instance (b : B) : Decidable (s.Lockable b) := inferInstanceAs (Decidable (_ ∨ _))

def addStart (b : B) (x : S) : Except Stop (Sys B S) :=
  if s.admin x = .idle then
    if s.broker x = none then
      .ok { s with broker := update s.broker x (some b), admin := update s.admin x .adding }
    else .error .assertion
  else .error .misuse

def addLink (x : S) : Except Stop (Sys B S) :=
  match s.admin x, s.broker x with
  | .adding, some b =>
    if s.Lockable b then
      .ok { s with
        subscribers := update s.subscribers b
          (insertSubscriber c.rxType s.priority (s.subscribers b) x)
        admin := update s.admin x .idle }
    else .error .blocked
  | _, _ => .error .misuse

def removeUnlink (x : S) : Except Stop (Sys B S) :=
  if s.admin x = .idle then
    match s.broker x with
    | some b =>
      if s.Lockable b then
        .ok { s with
          subscribers := update s.subscribers b ((s.subscribers b).erase x)
          admin := update s.admin x .removing }
      else .error .blocked
    | none => .error .assertion
  else .error .misuse

def removeClear (x : S) : Except Stop (Sys B S) :=
  if s.admin x = .removing then
    .ok { s with broker := update s.broker x none, admin := update s.admin x .idle }
  else .error .misuse

/-! ## Message owners -/

/-- The owner of a static or callback message takes the reference it will publish. -/
def acquireStatic (m : Msg) : Except Stop (Sys B S) :=
  match s.mem.life m with
  | .live h =>
    if (h.allocId = allocIdStaticMsg ∨ h.allocId = allocIdCallbackMsg) ∧ h.refCnt = 0 then do
      let mem ← s.mem.acquireMsg m
      .ok { s with mem := { mem with owned := update mem.owned m true } }
    else .error .misuse
  | _ => .error .misuse

def releaseUnpublished (m : Msg) : Except Stop (Sys B S) :=
  if s.mem.owned m then do
    let mem ← s.mem.releaseMsg c.numAllocators m
    .ok { s with mem := mem.transfer m }
  else .error .misuse

def acquireExtra (m : Msg) : Except Stop (Sys B S) :=
  match s.mem.life m with
  | .live h =>
    if 0 < h.refCnt then do
      let mem ← s.mem.acquireMsg m
      .ok { s with mem := { mem with extra := update mem.extra m (mem.extra m + 1) } }
    else .error .misuse
  | _ => .error .misuse

def releaseExtra (m : Msg) : Except Stop (Sys B S) :=
  if 0 < s.mem.extra m then do
    let mem ← s.mem.releaseMsg c.numAllocators m
    .ok { s with mem := { mem with extra := update mem.extra m (mem.extra m - 1) } }
  else .error .misuse

/-! ## Subscriptions -/

def subscribe (x : S) (id : MsgId) : Except Stop (Sys B S) :=
  if id ≤ c.maxPubMsgId x then .ok { s with subs := update s.subs x (update (s.subs x) id true) }
  else .error .assertion

def unsubscribe (x : S) (id : MsgId) : Except Stop (Sys B S) :=
  if id ≤ c.maxPubMsgId x then .ok { s with subs := update s.subs x (update (s.subs x) id false) }
  else .error .assertion

/-! ## Steps -/

inductive Act (B S : Type) where
  | work (b : B)
  | svc (x : S)
  | publish (b : B) (m : Msg)
  | publishTo (x : S) (m : Msg)
  | callReturn (x : S) (p : Pkt B)
  | addStart (b : B) (x : S)
  | addLink (x : S)
  | removeUnlink (x : S)
  | removeClear (x : S)
  | setPriority (x : S) (n : Nat)
  | newMsg (m : Msg) (id : MsgId) (a : AllocId)
  | staticMsgInit (m : Msg) (id : MsgId) (a : AllocId)
  | acquireStatic (m : Msg)
  | releaseUnpublished (m : Msg)
  | acquireExtra (m : Msg)
  | releaseExtra (m : Msg)
  | subscribe (x : S) (id : MsgId)
  | unsubscribe (x : S) (id : MsgId)

def step : Act B S → Except Stop (Sys B S)
  | .work b => workStep c s b
  | .svc x => svcStep c s x
  | .publish b m => publishToBroker s b m
  | .publishTo x m => publishToSubscriber c s x m
  | .callReturn x p => callReturn c s x p
  | .addStart b x => addStart s b x
  | .addLink x => addLink c s x
  | .removeUnlink x => removeUnlink s x
  | .removeClear x => removeClear s x
  | .setPriority x n => .ok { s with priority := update s.priority x n }
  | .newMsg m id a => do
    let mem ← s.mem.newMsg c.numAllocators m id a
    .ok { s with mem := mem }
  | .staticMsgInit m id a => do
    let mem ← s.mem.staticMsgInit m id a
    .ok { s with mem := mem }
  | .acquireStatic m => acquireStatic s m
  | .releaseUnpublished m => releaseUnpublished c s m
  | .acquireExtra m => acquireExtra s m
  | .releaseExtra m => releaseExtra c s m
  | .subscribe x id => subscribe c s x id
  | .unsubscribe x id => unsubscribe c s x id

/-- Nothing has been published yet; the work items have been submitted. -/
structure Init : Prop where
  life : ∀ m, s.mem.life m = .unused
  owned : ∀ m, s.mem.owned m = false
  extra : ∀ m, s.mem.extra m = 0
  freeCalls : s.mem.freeCalls = []
  fifo : ∀ b, s.fifo b = []
  mutex : ∀ b, s.mutex b = none
  nodup : ∀ b, (s.subscribers b).Nodup
  mem_iff : ∀ b x, x ∈ s.subscribers b ↔ s.broker x = some b
  fifoLast : ∀ b, FifoLast c.rxType (s.subscribers b)
  work : ∀ b, s.work b = .armed
  admin : ∀ x, s.admin x = .idle
  queue : ∀ x, s.queue x = []
  svc : ∀ x, s.svc x = .idle
  calls : s.calls = []
  log : s.log = []

end

/-! For the numerals of `Fin 2` and `Fin 3` in concrete systems. -/

instance neZeroTwo : NeZero 2 := ⟨by decide⟩

instance neZeroThree : NeZero 3 := ⟨by decide⟩

section
variable {B S : Type} {c : Cfg S} {subscribers : B → List S} {broker : S → Option B}

def Sys.init (subscribers : B → List S) (broker : S → Option B) (subs : S → MsgId → Bool)
    (priority : S → Nat) : Sys B S where
  mem := ⟨fun _ => .unused, fun _ => false, fun _ => 0, []⟩
  fifo _ := []
  mutex _ := none
  subscribers := subscribers
  work _ := .armed
  broker := broker
  admin _ := .idle
  subs := subs
  priority := priority
  queue _ := []
  svc _ := .idle
  calls := []
  nextTag := 0
  log := []

theorem init_of_lists (subs : S → MsgId → Bool) (priority : S → Nat) (hn : ∀ b, (subscribers b).Nodup)
    (hm : ∀ b x, x ∈ subscribers b ↔ broker x = some b) (hf : ∀ b, FifoLast c.rxType (subscribers b)) :
    Init c (Sys.init subscribers broker subs priority) := by
  constructor <;> first | exact hn | exact hm | exact hf | intros; rfl

end

end ZephyrPubSub
