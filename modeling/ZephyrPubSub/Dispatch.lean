import ZephyrPubSub.Invariant
import ZephyrPubSub.RefCount
import ZephyrPubSub.Traversal

/-!
# A dispatch of the running system

`dispatch` takes a broker's work item through `process_msg` with nobody else to
act but the handlers it calls, and these remove subscribers with the steps of
the running system. It takes the turns of the loop in `processMsg`.
-/

namespace Outcome

open Runs

theorem Both.exec_append {σ α ε : Type} {step : σ → α → Except ε σ} {P Q : σ → Prop} {E : ε → Prop} {bs : List α}
    (h : ∀ t, Q t → Both P E (exec step t bs)) : ∀ {as : List α} {s : σ}, Both Q E (exec step s as) →
      Both P E (exec step s (as ++ bs))
  | [], s, hs => h s hs
  | a :: as, s, hs => by
    rw [List.cons_append, exec]
    rw [exec] at hs
    cases ha : step s a with
    | ok t =>
      rw [ha] at hs
      exact Both.exec_append h hs
    | error e =>
      rw [ha] at hs
      exact hs

end Outcome

namespace ZephyrPubSub

open Function Lists Outcome Runs

section
variable {B S : Type} [DecidableEq B] [DecidableEq S]

def Sys.registry (s : Sys B S) : Registry B S := ⟨s.subscribers, s.broker, s.priority⟩

def removeActs (xs : List S) : List (Act B S) := xs.flatMap fun x => [.removeUnlink x, .removeClear x]

variable (c : Cfg S) (h : Handlers B S) (b : B)

def turnActs (s : Sys B S) (id : MsgId) (x : S) : List (Act B S) :=
  .work b ::
    if s.wants c x id then
      match c.rxType x with
      | .callback => removeActs (h.removes s.registry x)
      -- `k_msgq_put`
      | .msgq => [.work b]
      | .fifo => []
    else []

def dispatchLoop : Nat → Sys B S → Except Stop (Option (Sys B S))
  | 0, _ => .ok none
  | fuel + 1, s =>
    match s.work b with
    | .scan _ id (some x) _ => do
      let s' ← exec (step c) s (turnActs c h b s id x)
      dispatchLoop fuel s'
    | .scan _ _ none _ => do
      let s' ← step c s (.work b)
      .ok (some s')
    | _ => .ok (some s)

/-- From the lock of the list to its release. -/
def dispatch (fuel : Nat) (s : Sys B S) : Except Stop (Option (Sys B S)) := do
  let s' ← step c s (.work b)
  dispatchLoop c h b fuel s'

def handedBy (p : Pkt B) : TraversalEvent S → Option (Event B S)
  | .delivered x => if c.rxType x = .callback then some (.handed x p) else none
  | .removed _ => none

/-- Since `s₀` the running system has done with the message what the loop has. -/
structure SameDone (p : Pkt B) (s₀ s : Sys B S) (t : Traversal B S) : Prop where
  registry : s.registry = t.reg
  handed : s.log = s₀.log ++ t.log.filterMap (handedBy c p)
  queued : ∀ x, c.rxType x ≠ .callback → s.queue x = s₀.queue x ++ List.replicate (t.log.count (.delivered x)) p

end

section
variable {B S : Type} [DecidableEq B] [DecidableEq S] {c : Cfg S} {s s' : Sys B S} {x : S}

/-! ## What a handler removes -/

structure OnlyLists (s s' : Sys B S) : Prop where
  log : s'.log = s.log
  queue : s'.queue = s.queue
  subs : s'.subs = s.subs
  work : s'.work = s.work
  admin : s'.admin = s.admin

omit [DecidableEq B] [DecidableEq S] in
theorem OnlyLists.refl (s : Sys B S) : OnlyLists s s := ⟨rfl, rfl, rfl, rfl, rfl⟩

omit [DecidableEq B] [DecidableEq S] in
theorem OnlyLists.trans {u : Sys B S} (h : OnlyLists s s') (h' : OnlyLists s' u) : OnlyLists s u :=
  ⟨h'.log.trans h.log, h'.queue.trans h.queue, h'.subs.trans h.subs, h'.work.trans h.work, h'.admin.trans h.admin⟩

section
variable {h : Handlers B S} {b : B} {p : Pkt B} {id : MsgId} {s₀ : Sys B S} {t : Traversal B S}

/-- The running system and the loop come to the same turn. -/
structure Along (c : Cfg S) (b : B) (p : Pkt B) (id : MsgId) (s₀ s : Sys B S) (t : Traversal B S) : Prop where
  done : SameDone c p s₀ s t
  subs : s.subs = s₀.subs
  idle : ∀ x, s.admin x = .idle
  place : (∃ call, s.work b = .scan p id t.sub call) ∧ t.tmp = t.sub.bind s.nextSub ∨
    s.work b = .release p ∧ t.sub = none

section
omit [DecidableEq B]

theorem SameDone.queue (hd : SameDone c p s₀ s t) (hrx : c.rxType x ≠ .callback) (hr : s'.registry = t.reg)
    (hl : s'.log = s.log) (hq : s'.queue = update s.queue x (s.queue x ++ [p])) (sub tmp : Option S) :
    SameDone c p s₀ s' ⟨t.reg, sub, tmp, t.log ++ [.delivered x]⟩ := by
  refine ⟨hr, ?_, ?_⟩
  · rw [hl, hd.handed, List.filterMap_append]
    simp [handedBy, hrx]
  · intro y hy
    rw [hq, List.count_append]
    by_cases hyx : y = x
    · subst hyx
      rw [update_self, hd.queued y hy, List.count_singleton_self, List.replicate_add, List.append_assoc]
      rfl
    · have hcount : List.count (TraversalEvent.delivered y) [.delivered x] = 0 := by
        apply List.count_eq_zero.mpr
        simpa using hyx
      rw [update_of_ne hyx, hd.queued y hy, hcount, Nat.add_zero]

end

omit [DecidableEq B] in
theorem Along.scan (ha : Along c b p id s₀ s t) (hx : t.sub = some x) :
    (∃ call, s.work b = .scan p id (some x) call) ∧ t.tmp = s.nextSub x := by
  rcases ha.place with ⟨⟨call, hw⟩, htmp⟩ | ⟨_, hn⟩
  · rw [hx] at hw htmp
    exact ⟨⟨call, hw⟩, htmp⟩
  · rw [hx] at hn; cases hn

section
variable [Fintype B] [Fintype S]

end

end

end

end ZephyrPubSub
