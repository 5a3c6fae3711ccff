import ZephyrPubSub.Pool
import ZephyrPubSub.Carriers
import Mathlib.Data.Nat.Pairing

/-!
# Messages at addresses

Elsewhere a block that is allocated again is a new message. Here each use of an
address `a` is a message of its own, `Nat.pair n a` for the `n`-th use, and
`MemShows` says that a memory of addresses is a memory of such messages of which
only the latest of each address is looked at. What the framework does with the
one memory it does with the other.
-/

namespace ZephyrPubSub

open Function Runs

/-! ## Renaming messages -/

section
variable {B S : Type} (f : Msg → Msg)

def Pkt.map (p : Pkt B) : Pkt B := { p with msg := f p.msg }

def Work.map : Work B S → Work B S
  | .armed => .armed
  | .queued => .queued
  | .get => .get
  | .lock p id => .lock (p.map f) id
  | .scan p id sub call => .scan (p.map f) id sub call
  | .put p id sub tmp => .put (p.map f) id sub tmp
  | .release p => .release (p.map f)
  | .reset => .reset
  | .submit => .submit

def Svc.map : Svc B S → Svc B S
  | .idle => .idle
  | .got p id => .got (p.map f) id
  | .lock p id b => .lock (p.map f) id b
  | .walk p id b nextSub => .walk (p.map f) id b nextSub
  | .ready p id => .ready (p.map f) id
  | .running p => .running (p.map f)

def Event.map : Event B S → Event B S
  | .published p => .published (p.map f)
  | .handed x p => .handed x (p.map f)

def FreeCall.map : FreeCall → FreeCall
  | .linkSection i m => .linkSection i (f m)
  | .runtime i m => .runtime i (f m)
  | .callback m => .callback (f m)

def Act.map : Act B S → Act B S
  | .publish b m => .publish b (f m)
  | .publishTo x m => .publishTo x (f m)
  | .callReturn x p => .callReturn x (p.map f)
  | .newMsg m id a => .newMsg (f m) id a
  | .staticMsgInit m id a => .staticMsgInit (f m) id a
  | .acquireStatic m => .acquireStatic (f m)
  | .releaseUnpublished m => .releaseUnpublished (f m)
  | .acquireExtra m => .acquireExtra (f m)
  | .releaseExtra m => .releaseExtra (f m)
  | a => a

def callMap (e : S × Pkt B) : S × Pkt B := (e.1, e.2.map f)

/-- The system with every message renamed, over the memory `μ`. -/
def Sys.image (μ : Mem) (t : Sys B S) : Sys B S where
  mem := μ
  fifo := List.map (Pkt.map f) ∘ t.fifo
  mutex := t.mutex
  subscribers := t.subscribers
  work := Work.map f ∘ t.work
  broker := t.broker
  admin := t.admin
  subs := t.subs
  priority := t.priority
  queue := List.map (Pkt.map f) ∘ t.queue
  svc := Svc.map f ∘ t.svc
  calls := t.calls.map (callMap f)
  nextTag := t.nextTag
  log := t.log.map (Event.map f)

end

/-! ## Uses of an address -/

/-- Where the message is. -/
def address (m : Msg) : Msg := (Nat.unpair m).2

/-- The message at the address, `g` being the number of its latest use. -/
def latest (g : Msg → Nat) (a : Msg) : Msg := Nat.pair (g a) a

@[simp] theorem address_pair (n a : Nat) : address (Nat.pair n a) = a := by simp [address]

@[simp] theorem address_latest (g : Msg → Nat) (a : Msg) : address (latest g a) = a := address_pair ..

def IsCurrent (g : Msg → Nat) (m : Msg) : Prop := m = latest g (address m)

theorem isCurrent_latest (g : Msg → Nat) (a : Msg) : IsCurrent g (latest g a) := by
  unfold IsCurrent
  rw [address_latest]

theorem latest_eq_iff {g : Msg → Nat} {m : Msg} (h : IsCurrent g m) (a : Msg) : latest g a = m ↔ a = address m := by
  constructor
  · rintro rfl
    rw [address_latest]
  · rintro rfl
    exact h.symm

/-- `μ` has at each address what `ν` has of the latest message there. -/
structure MemShows (g : Msg → Nat) (μ ν : Mem) : Prop where
  life : ∀ a, μ.life a = ν.life (latest g a)
  owned : ∀ a, μ.owned a = ν.owned (latest g a)
  extra : ∀ a, μ.extra a = ν.extra (latest g a)
  live : ∀ m h, ν.life m = .live h → IsCurrent g m
  fresh : ∀ a n, g a < n → ν.life (Nat.pair n a) = .unused
  freeCalls : μ.freeCalls = ν.freeCalls.map (FreeCall.map address)

section
variable {g : Msg → Nat} {μ ν : Mem} {m : Msg}

/-- A change at the latest message of an address is a change at the address. -/
theorem update_latest {α : Type} {φ ψ : Msg → α} (h : ∀ a, φ a = ψ (latest g a)) (hm : IsCurrent g m) (v : α)
    (a : Msg) : update φ (address m) v a = update ψ m v (latest g a) := by
  by_cases ha : a = address m
  · rw [(latest_eq_iff hm a).mpr ha, update_self, ha, update_self]
  · rw [update_of_ne ha, update_of_ne fun he => ha ((latest_eq_iff hm a).mp he), h]

theorem MemShows.at (h : MemShows g μ ν) (hm : IsCurrent g m) : μ.life (address m) = ν.life m := by
  rw [h.life, ← hm]

theorem MemShows.setLife (h : MemShows g μ ν) (hm : IsCurrent g m) (l : Life) :
    MemShows g (μ.setLife (address m) l) (ν.setLife m l) := by
  refine ⟨fun a => update_latest h.life hm l a, h.owned, h.extra, ?_, ?_, h.freeCalls⟩
  · intro k hd hl
    by_cases hk : k = m
    · rw [hk]
      exact hm
    · rw [Mem.setLife_ne _ _ hk] at hl
      exact h.live k hd hl
  · intro a n hn
    rw [Mem.setLife_ne]
    · exact h.fresh a n hn
    · rintro rfl
      have := congrArg (fun m => (Nat.unpair m).1) hm
      simp only [address_pair, latest, Nat.unpair_pair] at this
      omega

theorem MemShows.setOwned (h : MemShows g μ ν) (hm : IsCurrent g m) (v : Bool) :
    MemShows g { μ with owned := update μ.owned (address m) v } { ν with owned := update ν.owned m v } :=
  ⟨h.life, fun a => update_latest h.owned hm v a, h.extra, h.live, h.fresh, h.freeCalls⟩

theorem MemShows.setExtra (h : MemShows g μ ν) (hm : IsCurrent g m) (v : Nat) :
    MemShows g { μ with extra := update μ.extra (address m) v } { ν with extra := update ν.extra m v } :=
  ⟨h.life, h.owned, fun a => update_latest h.extra hm v a, h.live, h.fresh, h.freeCalls⟩

theorem MemShows.call (h : MemShows g μ ν) (f : FreeCall) :
    MemShows g { μ with freeCalls := μ.freeCalls ++ [f.map address] } { ν with freeCalls := ν.freeCalls ++ [f] } :=
  ⟨h.life, h.owned, h.extra, h.live, h.fresh, by simp [h.freeCalls]⟩

/-! ## The memory functions -/

theorem MemShows.getMsgId (h : MemShows g μ ν) (hm : IsCurrent g m) : μ.getMsgId (address m) = ν.getMsgId m := by
  unfold Mem.getMsgId
  rw [h.at hm]

theorem MemShows.acquireMsg (h : MemShows g μ ν) (hm : IsCurrent g m) :
    Lockstep (MemShows g) (μ.acquireMsg (address m)) (ν.acquireMsg m) := by
  unfold Mem.acquireMsg
  rw [h.at hm]
  cases ν.life m with
  | live hd => exact Lockstep.ite (fun _ => h.setLife hm _) fun _ => rfl
  | unused => exact rfl
  | freed hd => exact rfl

theorem MemShows.freeMsg (h : MemShows g μ ν) (hm : IsCurrent g m) (n : Nat) (hd : Hdr) :
    MemShows g (Mem.freeMsg n μ (address m) hd) (Mem.freeMsg n ν m hd) := by
  unfold Mem.freeMsg
  split
  · exact (h.setLife hm (.freed hd)).call (.linkSection hd.allocId.toNat m)
  · split
    · exact (h.setLife hm (.freed hd)).call (.runtime (hd.allocId.toNat - allocIdRuntimeOffset.toNat) m)
    · split
      · exact h.call (.callback m)
      · exact h

theorem MemShows.releaseMsg (h : MemShows g μ ν) (hm : IsCurrent g m) (n : Nat) :
    Lockstep (MemShows g) (μ.releaseMsg n (address m)) (ν.releaseMsg n m) := by
  unfold Mem.releaseMsg
  rw [h.at hm]
  cases ν.life m with
  | live hd =>
    refine Lockstep.ite (fun _ => ?_) fun _ => rfl
    have hset := h.setLife hm (.live { hd with refCnt := hd.refCnt - 1 })
    exact Lockstep.ite (fun _ => hset.freeMsg hm n _) fun _ => hset
  | unused => exact rfl
  | freed hd => exact rfl

theorem MemShows.staticMsgInit (h : MemShows g μ ν) (hm : IsCurrent g m) (i : MsgId) (a : AllocId) :
    Lockstep (MemShows g) (μ.staticMsgInit (address m) i a) (ν.staticMsgInit m i a) := by
  unfold Mem.staticMsgInit
  rw [h.at hm]
  exact Lockstep.ite (fun _ => h.setLife hm _) fun _ => rfl

end

/-! ## The steps -/

section
variable {B S : Type} [DecidableEq B] [DecidableEq S] {c : Cfg S} {g : Msg → Nat}

/-- `s` is `t` with the messages replaced by their addresses. -/
def Follows (g : Msg → Nat) (s t : Sys B S) : Prop := s = t.image address s.mem ∧ MemShows g s.mem t.mem

theorem Lockstep.bind₂ {σ τ β γ ε : Type} {Q : β → γ → Prop} {R : σ → τ → Prop} {x : Except ε β} {y : Except ε γ}
    {f : β → Except ε σ} {h : γ → Except ε τ} (hxy : Lockstep Q x y) (hf : ∀ b c, Q b c → Lockstep R (f b) (h c)) :
    Lockstep R (x >>= f) (y >>= h) := by
  cases x with
  | ok b =>
    obtain ⟨c, rfl, hq⟩ := hxy.ok rfl
    exact hf b c hq
  | error e =>
    cases y with
    | ok c => exact hxy.elim
    | error e' => exact hxy

variable {t : Sys B S} {μ : Mem}

theorem follows_deliver (h : MemShows g μ t.mem) {b : B} {p : Pkt B} (hp : IsCurrent g p.msg) (id : MsgId) (x : S) :
    Lockstep (Follows g) (deliver c (t.image address μ) b (p.map address) id x) (deliver c t b p id x) := by
  unfold deliver
  refine Lockstep.ite (fun _ => ?_) fun _ => ?_
  · cases c.rxType x with
    | callback => exact ⟨by simp [Sys.image, comp_update, Work.map, Event.map]; rfl, h⟩
    | msgq =>
      refine Lockstep.bind₂ (h.acquireMsg hp) fun μ' ν' h' => ?_
      exact ⟨by simp [Sys.image, comp_update, Work.map]; rfl, h'⟩
    | fifo =>
      refine Lockstep.bind₂ (h.acquireMsg hp) fun μ' ν' h' => ?_
      exact ⟨by simp [Sys.image, comp_update, Work.map], h'⟩
  · exact ⟨by simp [Sys.image, comp_update, Work.map]; rfl, h⟩

/-- What the framework is working with is in use, and so the latest message of its address. -/
def AllCurrent (g : Msg → Nat) (t : Sys B S) : Prop := ∀ p, Carries t p → IsCurrent g p.msg

theorem follows_workStep (h : MemShows g μ t.mem) (hc : AllCurrent g t) (b : B) :
    Lockstep (Follows g) (workStep c (t.image address μ) b) (workStep c t b) := by
  have hw : (t.image address μ).work b = (t.work b).map address := rfl
  have hf : (t.image address μ).fifo b = (t.fifo b).map (Pkt.map address) := rfl
  unfold workStep
  rw [hw, hf]
  cases hwb : t.work b with
  | armed => exact rfl
  | queued => exact ⟨by simp [Sys.image, comp_update, Work.map], h⟩
  | get =>
    cases hfb : t.fifo b with
    | nil => exact ⟨by simp [Sys.image, comp_update, Work.map], h⟩
    | cons p ps =>
      have hp : IsCurrent g p.msg := hc p (.fifo (by rw [hfb]; exact List.mem_cons_self ..))
      show Lockstep (Follows g) (μ.getMsgId (address p.msg) >>= _) (t.mem.getMsgId p.msg >>= _)
      rw [h.getMsgId hp]
      exact Lockstep.bind fun id => ⟨by simp [Sys.image, comp_update, Work.map], h⟩
  | lock p id => exact Lockstep.ite (fun _ => ⟨by simp [Sys.image, comp_update, Work.map], h⟩) fun _ => rfl
  | scan p id sub call =>
    cases sub with
    | none => exact ⟨by simp [Sys.image, comp_update, Work.map], h⟩
    | some x => exact follows_deliver h (hc p (.work (b := b) (by rw [hwb]; rfl))) id x
  | put p id x tmp =>
    have hq : ((t.image address μ).queue x).length = (t.queue x).length := List.length_map _
    simp only [Work.map, hq]
    exact Lockstep.ite (fun _ => ⟨by simp [Sys.image, comp_update, Work.map], h⟩) fun _ => rfl
  | release p =>
    refine Lockstep.bind₂ (h.releaseMsg (hc p (.work (b := b) (by rw [hwb]; rfl))) c.numAllocators)
      fun μ' ν' h' => ?_
    exact ⟨by simp [Sys.image, comp_update, Work.map], h'⟩
  | reset => exact ⟨by simp [Sys.image, comp_update, Work.map], h⟩
  | submit =>
    refine ⟨?_, h⟩
    cases hfb : t.fifo b <;> simp [Sys.image, comp_update, Work.map]

theorem follows_forward (h : MemShows g μ t.mem) (x : S) {p : Pkt B} (hp : IsCurrent g p.msg) (id : MsgId) (b : B)
    (n : S) : Lockstep (Follows g) (forward c (t.image address μ) x (p.map address) id b n)
      (forward c t x p id b n) := by
  unfold forward
  refine Lockstep.ite (fun _ => Lockstep.ite (fun _ => ?_) fun _ => rfl) fun _ => ?_
  · refine Lockstep.bind₂ (h.acquireMsg hp) fun μ' ν' h' => ?_
    exact ⟨by simp [Sys.image, comp_update, Svc.map], h'⟩
  · exact ⟨by simp [Sys.image, comp_update, Svc.map]; rfl, h⟩

theorem follows_svcStep (h : MemShows g μ t.mem) (hc : AllCurrent g t) (x : S) :
    Lockstep (Follows g) (svcStep c (t.image address μ) x) (svcStep c t x) := by
  have hv : (t.image address μ).svc x = (t.svc x).map address := rfl
  have hq : (t.image address μ).queue x = (t.queue x).map (Pkt.map address) := rfl
  have hb : (t.image address μ).broker x = t.broker x := rfl
  unfold svcStep
  rw [hv, hq, hb]
  cases hvx : t.svc x with
  | idle =>
    cases hqx : t.queue x with
    | nil => cases c.rxType x <;> exact rfl
    | cons p ps =>
      have hp : IsCurrent g p.msg := hc p (.queue (by rw [hqx]; exact List.mem_cons_self ..))
      cases c.rxType x with
      | callback => exact rfl
      | msgq | fifo =>
        show Lockstep (Follows g) (μ.getMsgId (address p.msg) >>= _) (t.mem.getMsgId p.msg >>= _)
        rw [h.getMsgId hp]
        exact Lockstep.bind fun id => ⟨by simp [Sys.image, comp_update, Svc.map], h⟩
  | got p id =>
    refine Lockstep.ite (fun _ => ?_) fun _ => ⟨by simp [Sys.image, comp_update, Svc.map], h⟩
    cases t.broker x with
    | none => exact rfl
    | some b => exact ⟨by simp [Sys.image, comp_update, Svc.map], h⟩
  | lock p id b => exact Lockstep.ite (fun _ => ⟨by simp [Sys.image, comp_update, Svc.map]; rfl, h⟩) fun _ => rfl
  | walk p id b n =>
    cases n with
    | none => exact ⟨by simp [Sys.image, comp_update, Svc.map], h⟩
    | some n => exact follows_forward h x (hc p (.svc (x := x) (by rw [hvx]; rfl))) id b n
  | ready p id => exact ⟨by simp [Sys.image, comp_update, Svc.map, Event.map], h⟩
  | running p =>
    refine Lockstep.bind₂ (h.releaseMsg (hc p (.svc (x := x) (by rw [hvx]; rfl))) c.numAllocators)
      fun μ' ν' h' => ?_
    exact ⟨by simp [Sys.image, comp_update, Svc.map], h'⟩

omit [DecidableEq B] [DecidableEq S] in
theorem map_wake (f : Msg → Msg) (w : Work B S) : wake (w.map f) = (wake w).map f := by
  cases w <;> rfl

variable {m : Msg}

theorem MemShows.transfer {ν : Mem} (h : MemShows g μ ν) (hm : IsCurrent g m) :
    MemShows g (μ.transfer (address m)) (ν.transfer m) := h.setOwned hm false

omit [DecidableEq S] in
theorem follows_publish (h : MemShows g μ t.mem) (hm : IsCurrent g m) (b : B) :
    Lockstep (Follows g) (publishToBroker (t.image address μ) b (address m)) (publishToBroker t b m) := by
  have ho : (t.image address μ).mem.owned (address m) = t.mem.owned m := by
    rw [show (t.image address μ).mem = μ from rfl, h.owned, ← hm]
  have hw : (t.image address μ).work b = (t.work b).map address := rfl
  unfold publishToBroker
  rw [ho, hw, map_wake]
  refine Lockstep.ite (fun _ => ⟨?_, h.transfer hm⟩) fun _ => rfl
  simp [Sys.image, comp_update, Event.map, Pkt.map]

omit [DecidableEq B] in
theorem follows_publishTo (h : MemShows g μ t.mem) (hm : IsCurrent g m) (x : S) :
    Lockstep (Follows g) (publishToSubscriber c (t.image address μ) x (address m))
      (publishToSubscriber c t x m) := by
  have ho : (t.image address μ).mem.owned (address m) = t.mem.owned m := by
    rw [show (t.image address μ).mem = μ from rfl, h.owned, ← hm]
  have hid : (t.image address μ).mem.getMsgId (address m) = t.mem.getMsgId m := h.getMsgId hm
  have hq : ((t.image address μ).queue x).length = (t.queue x).length := List.length_map _
  unfold publishToSubscriber
  rw [ho, hid, hq]
  refine Lockstep.ite (fun _ => Lockstep.bind fun id => Lockstep.ite (fun _ => ?_) fun _ => rfl) fun _ => rfl
  cases c.rxType x with
  | callback => exact ⟨by simp [Sys.image, callMap, Event.map, Pkt.map], h.transfer hm⟩
  | msgq =>
    refine Lockstep.ite (fun _ => ⟨?_, h.transfer hm⟩) fun _ => rfl
    simp [Sys.image, comp_update, Event.map, Pkt.map]
  | fifo => exact ⟨by simp [Sys.image, comp_update, Event.map, Pkt.map], h.transfer hm⟩

omit [DecidableEq B] in
theorem map_latest {p : Pkt B} (hp : IsCurrent g p.msg) : (p.map address).map (latest g) = p := by
  unfold Pkt.map
  rw [← hp]

/-- The running handlers at addresses, where each is of the latest message of its address. -/
theorem calls_latest (l : List (S × Pkt B)) (hl : ∀ e ∈ l, IsCurrent g e.2.msg) (x : S) {q : Pkt B}
    (hq : IsCurrent g q.msg) :
    ((x, q.map address) ∈ l.map (callMap address) ↔ (x, q) ∈ l) ∧
      (l.map (callMap address)).erase (x, q.map address) = (l.erase (x, q)).map (callMap address) := by
  induction l with
  | nil => exact ⟨by simp, rfl⟩
  | cons e l ih =>
    obtain ⟨ih₁, ih₂⟩ := ih fun e he => hl e (List.mem_cons_of_mem _ he)
    have he := hl e (List.mem_cons_self ..)
    have hiff : (x, q.map address) = callMap address e ↔ (x, q) = e := by
      constructor
      · intro heq
        have h₁ : x = e.1 := congrArg Prod.fst heq
        have h₂ : q.map address = e.2.map address := congrArg Prod.snd heq
        rw [h₁, ← map_latest hq, h₂, map_latest he]
      · rintro rfl
        rfl
    refine ⟨by rw [List.map_cons, List.mem_cons, List.mem_cons, hiff, ih₁], ?_⟩
    rw [List.map_cons, List.erase_cons, List.erase_cons]
    by_cases heq : (x, q) = e
    · subst heq
      simp [callMap]
    · have hne : ¬ callMap address e = (x, q.map address) := fun h => heq (hiff.mp h.symm)
      simp [hne, Ne.symm heq, ih₂]

theorem follows_callReturn (h : MemShows g μ t.mem) (hc : AllCurrent g t) (x : S) {q : Pkt B}
    (hq : IsCurrent g q.msg) :
    Lockstep (Follows g) (callReturn c (t.image address μ) x (q.map address)) (callReturn c t x q) := by
  have hcalls : (t.image address μ).calls = t.calls.map (callMap address) := rfl
  obtain ⟨hmem, herase⟩ := calls_latest t.calls (fun e he => hc e.2 (.call he)) x hq
  unfold callReturn
  rw [hcalls, herase]
  simp only [hmem]
  refine Lockstep.ite (fun _ => ?_) fun _ => rfl
  refine Lockstep.bind₂ (h.releaseMsg hq c.numAllocators) fun μ' ν' h' => ?_
  exact ⟨rfl, h'⟩

omit [DecidableEq B] [DecidableEq S] in
theorem follows_owners (h : MemShows g μ t.mem) (hm : IsCurrent g m) :
    Lockstep (Follows g) (acquireStatic (t.image address μ) (address m)) (acquireStatic t m) ∧
    Lockstep (Follows g) (releaseUnpublished c (t.image address μ) (address m)) (releaseUnpublished c t m) ∧
    Lockstep (Follows g) (acquireExtra (t.image address μ) (address m)) (acquireExtra t m) ∧
    Lockstep (Follows g) (releaseExtra c (t.image address μ) (address m)) (releaseExtra c t m) := by
  have hl : (t.image address μ).mem.life (address m) = t.mem.life m := h.at hm
  have ho : (t.image address μ).mem.owned (address m) = t.mem.owned m := by
    rw [show (t.image address μ).mem = μ from rfl, h.owned, ← hm]
  have he : ∀ {μ' ν' : Mem}, MemShows g μ' ν' → μ'.extra (address m) = ν'.extra m := by
    intro μ' ν' h'
    rw [h'.extra, ← hm]
  have hx : (t.image address μ).mem.extra (address m) = t.mem.extra m := he h
  refine ⟨?_, ?_, ?_, ?_⟩
  · unfold acquireStatic
    rw [hl]
    cases t.mem.life m with
    | live hd =>
      refine Lockstep.ite (fun _ => ?_) fun _ => rfl
      exact Lockstep.bind₂ (h.acquireMsg hm) fun μ' ν' h' => ⟨rfl, h'.setOwned hm true⟩
    | unused => exact rfl
    | freed hd => exact rfl
  · unfold releaseUnpublished
    rw [ho]
    refine Lockstep.ite (fun _ => ?_) fun _ => rfl
    exact Lockstep.bind₂ (h.releaseMsg hm c.numAllocators) fun μ' ν' h' => ⟨rfl, h'.transfer hm⟩
  · unfold acquireExtra
    rw [hl]
    cases t.mem.life m with
    | live hd =>
      refine Lockstep.ite (fun _ => ?_) fun _ => rfl
      refine Lockstep.bind₂ (h.acquireMsg hm) fun μ' ν' h' => ⟨rfl, ?_⟩
      simp only [he h']
      exact h'.setExtra hm _
    | unused => exact rfl
    | freed hd => exact rfl
  · unfold releaseExtra
    rw [hx]
    refine Lockstep.ite (fun _ => ?_) fun _ => rfl
    refine Lockstep.bind₂ (h.releaseMsg hm c.numAllocators) fun μ' ν' h' => ⟨rfl, ?_⟩
    simp only [he h']
    exact h'.setExtra hm _

omit [DecidableEq B] [DecidableEq S] in
theorem lockable_image (t : Sys B S) (μ : Mem) (b : B) : (t.image address μ).Lockable b ↔ t.Lockable b := by
  have hcall : ((t.work b).map address).calling = (t.work b).calling := by
    cases t.work b with
    | scan p id sub call => cases call <;> rfl
    | _ => rfl
  exact or_congr Iff.rfl (iff_of_eq (congrArg (· = true) hcall))

/-- Steps that do not look at the messages. -/
theorem follows_lists (h : MemShows g μ t.mem) (x : S) (id : MsgId) :
    (∀ b, Lockstep (Follows g) (addStart (t.image address μ) b x) (addStart t b x)) ∧
    Lockstep (Follows g) (addLink c (t.image address μ) x) (addLink c t x) ∧
    Lockstep (Follows g) (removeUnlink (t.image address μ) x) (removeUnlink t x) ∧
    Lockstep (Follows g) (removeClear (t.image address μ) x) (removeClear t x) ∧
    Lockstep (Follows g) (subscribe c (t.image address μ) x id) (subscribe c t x id) ∧
    Lockstep (Follows g) (unsubscribe c (t.image address μ) x id) (unsubscribe c t x id) := by
  have ha : (t.image address μ).admin x = t.admin x := rfl
  have hb : (t.image address μ).broker x = t.broker x := rfl
  refine ⟨?_, ?_, ?_, ?_, ?_, ?_⟩
  · intro b
    unfold addStart
    exact Lockstep.ite (fun _ => Lockstep.ite (fun _ => ⟨rfl, h⟩) fun _ => rfl) fun _ => rfl
  · unfold addLink
    rw [ha, hb]
    cases t.admin x <;> cases t.broker x
    case adding.some b =>
      simp only [lockable_image]
      exact Lockstep.ite (fun _ => ⟨rfl, h⟩) fun _ => rfl
    all_goals exact rfl
  · unfold removeUnlink
    rw [ha, hb]
    refine Lockstep.ite (fun _ => ?_) fun _ => rfl
    cases t.broker x with
    | none => exact rfl
    | some b =>
      simp only [lockable_image]
      exact Lockstep.ite (fun _ => ⟨rfl, h⟩) fun _ => rfl
  · unfold removeClear
    exact Lockstep.ite (fun _ => ⟨rfl, h⟩) fun _ => rfl
  · unfold subscribe
    exact Lockstep.ite (fun _ => ⟨rfl, h⟩) fun _ => rfl
  · unfold unsubscribe
    exact Lockstep.ite (fun _ => ⟨rfl, h⟩) fun _ => rfl

/-- A step of the system at addresses is the step of the system of messages,
taken with the latest messages of the addresses it names. -/
theorem follows_step {s : Sys B S} (h : Follows g s t) (hc : AllCurrent g t) (a : Act B S)
    (ha : ∀ m i k, a ≠ .newMsg m i k) : Lockstep (Follows g) (step c s a) (step c t (a.map (latest g))) := by
  obtain ⟨he, h⟩ := h
  rw [he]
  generalize s.mem = μ at h
  have hcur := isCurrent_latest g
  have hat := address_latest g
  cases a with
  | work b => exact follows_workStep h hc b
  | svc x => exact follows_svcStep h hc x
  | publish b m =>
    have := follows_publish h (hcur m) b
    rwa [hat] at this
  | publishTo x m =>
    have := follows_publishTo (c := c) h (hcur m) x
    rwa [hat] at this
  | callReturn x p =>
    have hp : IsCurrent g (p.map (latest g)).msg := hcur p.msg
    have hpm : (p.map (latest g)).map address = p := by
      unfold Pkt.map
      rw [hat]
    have := follows_callReturn (c := c) h hc x hp
    rwa [hpm] at this
  | addStart b x => exact (follows_lists (c := c) h x 0).1 b
  | addLink x => exact (follows_lists h x 0).2.1
  | removeUnlink x => exact (follows_lists (c := c) h x 0).2.2.1
  | removeClear x => exact (follows_lists (c := c) h x 0).2.2.2.1
  | setPriority x n => exact ⟨rfl, h⟩
  | newMsg m i k => exact absurd rfl (ha m i k)
  | staticMsgInit m i k =>
    refine Lockstep.bind₂ ?_ fun μ' ν' h' => ⟨rfl, h'⟩
    have := h.staticMsgInit (hcur m) i k
    rwa [hat] at this
  | acquireStatic m =>
    have := (follows_owners (c := c) h (hcur m)).1
    rwa [hat] at this
  | releaseUnpublished m =>
    have := (follows_owners (c := c) h (hcur m)).2.1
    rwa [hat] at this
  | acquireExtra m =>
    have := (follows_owners (c := c) h (hcur m)).2.2.1
    rwa [hat] at this
  | releaseExtra m =>
    have := (follows_owners (c := c) h (hcur m)).2.2.2
    rwa [hat] at this
  | subscribe x id => exact (follows_lists h x id).2.2.2.2.1
  | unsubscribe x id => exact (follows_lists h x id).2.2.2.2.2

/-! ## A new use of an address -/

omit [DecidableEq B] [DecidableEq S] in
theorem Follows.renew {s : Sys B S} (h : Follows g s t) {a : Msg} (ho : s.mem.owned a = false)
    (hx : s.mem.extra a = 0) (hd : ∀ h, s.mem.life a ≠ .live h)
    (hnew : t.mem.owned (Nat.pair (g a + 1) a) = false ∧ t.mem.extra (Nat.pair (g a + 1) a) = 0) :
    Follows (update g a (g a + 1)) (s.renew a) t := by
  obtain ⟨he, h⟩ := h
  have hat : latest (update g a (g a + 1)) a = Nat.pair (g a + 1) a := by
    unfold latest
    rw [update_self]
  have hne : ∀ b, b ≠ a → latest (update g a (g a + 1)) b = latest g b := by
    intro b hb
    unfold latest
    rw [update_of_ne hb]
  refine ⟨by rw [Sys.renew, he]; rfl, ?_⟩
  constructor
  · intro b
    by_cases hb : b = a
    · rw [hb, hat, h.fresh a _ (Nat.lt_succ_self _)]
      exact Mem.setLife_self ..
    · rw [hne b hb, ← h.life]
      exact Mem.setLife_ne _ _ hb
  · intro b
    by_cases hb : b = a
    · rw [hb, hat, hnew.1]
      exact ho
    · rw [hne b hb, ← h.owned]
      rfl
  · intro b
    by_cases hb : b = a
    · rw [hb, hat, hnew.2]
      exact hx
    · rw [hne b hb, ← h.extra]
      rfl
  · intro m hd' hl
    have hm := h.live m hd' hl
    unfold IsCurrent at hm ⊢
    rw [hne]
    · exact hm
    · intro hma
      rw [hma] at hm
      exact hd hd' (by rw [h.life, ← hm, hl])
  · intro b n hn
    by_cases hb : b = a
    · subst hb
      rw [update_self] at hn
      exact h.fresh b n (by omega)
    · rw [update_of_ne hb] at hn
      exact h.fresh b n hn
  · exact h.freeCalls

theorem follows_newMsg {s : Sys B S} (h : Follows g s t) (a : Msg) (i : MsgId) (k : AllocId) :
    Lockstep (Follows g) (step c s (.newMsg a i k)) (step c t (.newMsg (latest g a) i k)) := by
  obtain ⟨he, h⟩ := h
  rw [he]
  generalize s.mem = μ at h
  have hm := isCurrent_latest g a
  refine Lockstep.bind₂ ?_ fun μ' ν' h' => ⟨rfl, h'⟩
  unfold Mem.newMsg
  rw [show (t.image address μ).mem = μ from rfl, h.life]
  refine Lockstep.ite (fun _ => ?_) fun _ => rfl
  have hset := ((h.setLife hm (.live ⟨i, k, 0⟩)).setOwned hm true).acquireMsg hm
  rwa [address_latest] at hset

end

end ZephyrPubSub
