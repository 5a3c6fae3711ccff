import ZephyrPubSub.Delivery
import ZephyrPubSub.Delayable
import ZephyrPubSub.Shares

/-!
# One FIFO at a time

A FIFO links the messages themselves, through the one `fifo_reserved` word each
of them has, so a message must not be put into a second FIFO. The right to put
it into the next one is a share there is only one of.
-/

namespace ZephyrPubSub

open Runs

section
variable {B S : Type} [DecidableEq B] [DecidableEq S] [Fintype B] [Fintype S]
variable {c : Cfg S} {s : Sys B S} {t : Timed B S}

/-- The lists have their FIFO subscribers at the end. -/
def FifoLists (c : Cfg S) (s : Sys B S) : Prop := ∀ b, FifoLast c.rxType (s.subscribers b)

theorem oneShare_reachable {P : Sys B S → Act B S → Prop} (h : Reachable (step c) (Init c) P s) :
    Accounted c s ∧ Carried c s ∧ ∀ m, OneShare c s m := by
  apply h.invariant (I := fun s => Accounted c s ∧ Carried c s ∧ ∀ m, OneShare c s m)
  · intro s hi
    exact ⟨accounted_init hi, carried_init hi, oneShare_init hi⟩
  · intro s a s' ⟨ha, hc, ho⟩ _ hstep
    have ht := step_trans hstep
    exact ⟨ha.trans ht, hc.trans ht, fun m => (ho m).trans ha hc ht⟩

omit [Fintype B] [Fintype S] in
theorem walk_reachable (h : Reachable (step c) (Init c) (fun s _ => FifoLists c s) s) :
    Wf s ∧ Carried c s ∧ ∀ x p id b n, s.svc x = .walk p id b (some n) → c.rxType n = .fifo := by
  apply h.invariant (I := fun s => Wf s ∧ Carried c s ∧
    ∀ x p id b n, s.svc x = .walk p id b (some n) → c.rxType n = .fifo)
  · intro s hi
    exact ⟨wf_init hi, carried_init hi, (fifoTail_init hi).walk⟩
  · intro s a s' ⟨hw, hc, hn⟩ hl hstep
    have ht := step_trans hstep
    exact ⟨hw.trans ht, hc.trans ht, fun _ _ _ _ _ hv => FifoTail.walk_trans ⟨hl, hn⟩ hw hc ht hv⟩

omit [DecidableEq B] [DecidableEq S] in
theorem fifoLinks_le {m : Msg} (h : OneShare c s m) : fifoLinks c s m ≤ 1 := by
  have := h.routes
  simp only [routes] at this
  omega

/-- In every reachable state each message is in at most one FIFO and alive there,
every message put into a FIFO was in none, and the relay meets FIFO subscribers only. -/
theorem linked_once (h : Reachable (timedStep c) (TimedInit c) (fun t _ => FifoLists c t.sys) t) :
    (∀ m, fifoLinks c t.sys m ≤ 1) ∧
    (∀ m, 0 < fifoLinks c t.sys m → ∃ hd, t.sys.mem.life m = .live hd ∧ 0 < hd.refCnt) ∧
    (∀ a t', timedStep c t a = .ok t' → ∀ m, fifoLinks c t.sys m < fifoLinks c t'.sys m →
      fifoLinks c t.sys m = 0) ∧
    ∀ x, timedStep c t (.sys (.svc x)) ≠ .error .notFifo := by
  have once : ∀ {t : Timed B S}, Reachable (timedStep c) (TimedInit c) (fun _ _ => True) t →
      Accounted c t.sys ∧ ∀ m, fifoLinks c t.sys m ≤ 1 := by
    intro t h
    obtain ⟨ha, _, ho⟩ := oneShare_reachable (sys_reachable (P := fun _ _ => True)
      (fun _ _ _ _ _ _ _ => trivial) h).1
    exact ⟨ha, fun m => fifoLinks_le (ho m)⟩
  have hany := h.mono (Q := fun _ _ => True) fun _ _ _ => trivial
  obtain ⟨ha, hlinks⟩ := once hany
  refine ⟨hlinks, ?_, ?_, ?_⟩
  · intro m hm
    have hle := routes_le_refs c t.sys m
    obtain ⟨hd, hl, hr⟩ := ha.live (m := m) (by simp only [routes] at hle; omega)
    exact ⟨hd, hl, by simp only [routes] at hle; omega⟩
  · intro a t' hstep m hm
    have := (once (hany.tail trivial hstep)).2 m
    omega
  · intro x he
    have hsys := (sys_reachable (P := fun s _ => FifoLists c s)
      (fun t _ s _ hg hl _ b => by rw [hl]; exact hg b) h).1
    obtain ⟨_, _, hwalk⟩ := walk_reachable hsys
    rcases bind_error he with he | ⟨_, _, he⟩
    · rcases svcStep_error he with he | ⟨he, _⟩ | ⟨_, p, id, b, n, hv, hn⟩ | ⟨he, _⟩
      · cases he
      · rcases he with he | he <;> cases he
      · exact hn (hwalk x p id b n hv)
      · cases he
    · cases he

end

def publishedAndExpired : List (TimedAct Unit (Fin 2)) :=
  [.sys (.newMsg 0 3 0), .sys (.publish () 0), .init 1 0 9, .start 1 (.ticks 5), .expire 1]

theorem linked_once_expired : ∃ t,
    Runs.exec (timedStep twoFifos) (Timed.idle twoFifosInit) publishedAndExpired = .ok t ∧
    fifoLinks twoFifos t.sys 0 = 1 ∧ fifoLinks twoFifos t.sys 1 ≤ 1 := by
  refine ⟨_, rfl, by decide, (linked_once ⟨Timed.idle twoFifosInit, timedInit_idle twoFifos_init,
    Run.of_exec (timedStep twoFifos) publishedAndExpired _ _ rfl ?_⟩).1 1⟩
  unfold FifoLists FifoLast
  decide

end ZephyrPubSub
