import ZephyrPubSub.Contexts
import ZephyrPubSub.Outcome
import ZephyrPubSub.Runs

/-!
# Run to completion

An HSM's log tells whether each message has been handled to its end before the
next one. The code between two calls of state functions carries that order on,
so a step loses it only by entering an HSM that is under way in some context.
-/

namespace ZephyrPubSub

open Outcome Runs Function

variable {σ μ H T : Type} {M : Nat}

inductive Phase (σ μ : Type) where
  /-- Nothing is being processed; the current state after the last time. -/
  | idle (current : Option (Option σ))
  /-- `msg_handler` has been called and no state function yet. -/
  | called (msg : MsgId × Option μ) (state : Option σ)
  | handling
  deriving DecidableEq

section
variable [DecidableEq σ] [DecidableEq μ]

/-- Where the HSM stands after a log, `none` when it has been called before it was done with
the message before, or a message has been handled in another state than that one led to. -/
def phase : List (HsmEvent σ μ) → Option (Phase σ μ)
  | [] => some (.idle none)
  | .handle msg state :: l =>
    match phase l with
    | some (.idle current) =>
      if current = none ∨ current = some state then some (.called msg state) else none
    | _ => none
  | .start :: l =>
    match phase l with
    | some (.idle _) => some .handling
    | _ => none
  | .call call :: l =>
    match phase l with
    | some (.called msg state) =>
      if state = some call.state ∧ msg = (call.msgId, call.msg) then some .handling else none
    | some .handling => some .handling
    | _ => none
  | .done state :: l =>
    match phase l with
    | some .handling => some (.idle (some state))
    | _ => none

/-- Each message has been handled to its end, in the state the one before it has led to. -/
def RunToCompletion (hsm : Hsm σ μ) : Prop := (phase hsm.log).isSome

def Handling (hsm : Hsm σ μ) : Prop := phase hsm.log = some .handling

def Idle (hsm : Hsm σ μ) : Prop :=
  ∃ current, phase hsm.log = some (.idle current) ∧ (current = none ∨ current = some hsm.currentState)

def Broken (hsm : Hsm σ μ) : Prop := phase hsm.log = none

variable {hsm : Hsm σ μ}

theorem Handling.runToCompletion (h : Handling hsm) : RunToCompletion hsm := by
  rw [RunToCompletion, h]
  rfl

theorem Idle.runToCompletion (h : Idle hsm) : RunToCompletion hsm := by
  obtain ⟨current, hp, -⟩ := h
  rw [RunToCompletion, hp]
  rfl

theorem not_broken (h : RunToCompletion hsm) : ¬ Broken hsm := by
  intro hb
  rw [RunToCompletion, hb] at h
  cases h

theorem broken_of_not (h : ¬ RunToCompletion hsm) : Broken hsm := by
  rwa [RunToCompletion, Option.isSome_iff_ne_none, not_not] at h

end

/-! ## What the code between two calls keeps -/

section
variable {Q R E : Hsm σ μ → Prop} {hsm : Hsm σ μ}

/-- `Q` holds from call to call, `R` after the return, `E` where an assertion fails. -/
structure Kept (Q R E : Hsm σ μ → Prop) : Prop where
  tmp : ∀ hsm tmp, Q hsm → Q { hsm with tmpState := tmp }
  enter : ∀ call hsm, Q hsm → Q (hsm.enter call)
  finish : ∀ newState hsm, Q hsm → R (hsm.finish newState)
  weaken : ∀ hsm, Q hsm → E hsm

def Next.Meets (Q R : Hsm σ μ → Prop) : Next σ μ M → Prop
  | (some _, hsm) => Q hsm
  | (none, hsm) => R hsm

/-- What the code may lead to. -/
abbrev LeadsTo (Q R E : Hsm σ μ → Prop) (r : HsmResult σ μ (Next σ μ M)) : Prop :=
  Both (Next.Meets Q R) (fun e => E e.2) r

theorem orStop_both {α : Type} {x : Except HsmStop α} (hE : E hsm) :
    Both (fun _ => True) (fun e => E e.2) (orStop hsm x) := by
  cases x with
  | ok a => trivial
  | error e => exact hE

theorem notNull_both {fn : Option σ} (hE : E hsm) :
    Both (fun s => fn = some s) (fun e => E e.2) (notNull hsm fn) := by
  cases fn with
  | none => exact hE
  | some s => rfl

theorem walkIgnored_both {ret : HsmRet} (hE : E hsm) :
    Both (fun _ => True) (fun e => E e.2) (walkIgnored ret hsm) :=
  Both.ite (fun _ => trivial) fun _ => hE

theorem Kept.enterTmp (hc : Kept Q R E) (h : Q hsm) (msgId : MsgId) (msg : Option μ) (point : Point σ M) :
    LeadsTo Q R E (enterTmp msgId msg point hsm) := by
  refine (notNull_both (hc.weaken _ h)).bind ?_
  intro s _
  exact hc.enter _ _ h

theorem Kept.nextEntry (hc : Kept Q R E) (h : Q hsm) (newState : Option σ) (parents : Parents σ M) (n : Nat) :
    LeadsTo Q R E (nextEntry newState parents n hsm) := by
  cases n with
  | zero =>
    refine (notNull_both (hc.weaken _ h)).bind ?_
    intro s _
    exact hc.enter _ _ h
  | succ n =>
    refine (orStop_both (hc.weaken _ h)).bind ?_
    intro fn _
    refine (notNull_both (hc.weaken _ h)).bind ?_
    intro s _
    exact hc.enter _ _ h

theorem Kept.afterCollect (hc : Kept Q R E) (h : Q hsm) (newState : Option σ) (parents : Parents σ M)
    (num : Nat) (com : Option Nat) : LeadsTo Q R E (afterCollect newState parents num com hsm) := by
  cases newState with
  | none => exact hc.nextEntry h _ _ _
  | some n =>
    cases com with
    | none => exact hc.enterTmp (hc.tmp _ _ h) _ _ _
    | some i => exact hc.nextEntry h _ _ _

variable [DecidableEq σ]

theorem Kept.collected (hc : Kept Q R E) (h : Q hsm) (newState : Option σ) (parents : Parents σ M) (i : Nat)
    (ret : HsmRet) : LeadsTo Q R E (collected newState parents i ret hsm) := by
  refine (walkIgnored_both (hc.weaken _ h)).bind ?_
  intro _ _
  refine (orStop_both (hc.weaken _ h)).bind ?_
  intro parents' _
  exact Both.ite (fun _ => hc.enterTmp h _ _ _) fun _ => hc.afterCollect h _ _ _ _

theorem Kept.exited (hc : Kept Q R E) (h : Q hsm) (newState : σ) (parents : Parents σ M) (num nest : Nat)
    (ret : HsmRet) : LeadsTo Q R E (exited newState parents num nest ret hsm) := by
  have hnext : ∀ com : Option Nat, LeadsTo Q R E
      (if ret = .parent ∧ com = none ∧ nest + 1 < M then
        ZephyrPubSub.enterTmp hsmMsgIdExit none (.exit newState parents num (nest + 1)) hsm
      else ZephyrPubSub.nextEntry (some newState) parents (com.getD num) hsm) := by
    intro com
    exact Both.ite (fun _ => hc.enterTmp h _ _ _) fun _ => hc.nextEntry h _ _ _
  exact Both.ite (fun _ => (orStop_both (hc.weaken _ h)).bind fun com _ => hnext com) fun _ => hnext none

theorem Kept.resume (hc : Kept Q R E) (h : Q hsm) (call : Call σ μ) (ret : HsmRet) (point : Point σ M) :
    LeadsTo Q R E (resume call ret hsm point) := by
  cases point with
  | bubble =>
    refine Both.ite (fun _ => hc.enterTmp h _ _ _) fun _ => Both.ite (fun _ => ?_) fun _ => hc.finish _ _ h
    exact (notNull_both (hc.weaken _ h)).bind fun s _ => hc.enterTmp (hc.tmp _ _ h) _ _ _
  | collect newState parents i => exact hc.collected h _ _ _ _
  | exit newState parents num nest =>
    refine Both.ite (fun _ => hc.weaken _ h) fun _ => Both.ite (fun _ => ?_) fun _ => hc.exited h _ _ _ _ _
    exact hc.enterTmp h _ _ _
  | exitWalk newState parents num nest =>
    exact (walkIgnored_both (hc.weaken _ h)).bind fun _ _ => hc.exited h _ _ _ _ _
  | entry newState parents n => exact hc.nextEntry h _ _ _
  | last newState => exact hc.finish _ _ h

variable [DecidableEq μ]

theorem handling_kept : Kept (Handling : Hsm σ μ → Prop) Idle RunToCompletion where
  tmp _ _ h := h
  enter call hsm h := by
    show phase (.call call :: hsm.log) = _
    rw [phase, h]
  finish newState hsm h := by
    refine ⟨some (newState.or hsm.currentState), ?_, Or.inr rfl⟩
    show phase (.done _ :: hsm.log) = _
    rw [phase, h]
  weaken _ h := h.runToCompletion

theorem broken_kept : Kept (Broken : Hsm σ μ → Prop) Broken Broken where
  tmp _ _ h := h
  enter call hsm h := by
    show phase (.call call :: hsm.log) = _
    rw [phase, h]
  finish newState hsm h := by
    show phase (.done _ :: hsm.log) = _
    rw [phase, h]
  weaken _ h := h

theorem enterHandler_idle (h : Idle hsm) (msg : MsgId × Option μ) :
    LeadsTo (M := M) Handling Idle RunToCompletion (enterHandler msg hsm) := by
  obtain ⟨current, hp, hc⟩ := id h
  have hcalled : phase (.handle msg hsm.currentState :: hsm.log) = some (.called msg hsm.currentState) := by
    rw [phase, hp]
    exact if_pos hc
  refine Both.ite (fun _ => ?_) fun _ => h.runToCompletion
  refine (notNull_both ?_).bind ?_
  · show (phase _).isSome
    rw [hcalled]
    rfl
  · intro s hs
    show phase (.call ⟨s, msg.1, msg.2⟩ :: .handle msg hsm.currentState :: hsm.log) = _
    rw [phase, hcalled]
    exact if_pos ⟨hs, rfl⟩

theorem enterStart_idle (h : Idle hsm) : LeadsTo (M := M) Handling Idle RunToCompletion (enterStart hsm) := by
  obtain ⟨current, hp, -⟩ := id h
  refine (notNull_both h.runToCompletion).bind ?_
  intro s _
  apply handling_kept.enterTmp
  show phase (.start :: hsm.log) = _
  rw [phase, hp]

/-- An HSM that is called while it is not idle is called out of turn. -/
theorem enterHandler_broken (h : Handling hsm ∨ Broken hsm) (msg : MsgId × Option μ) :
    LeadsTo (M := M) Broken Broken (fun _ => True) (enterHandler msg hsm) := by
  have hb : phase (.handle msg hsm.currentState :: hsm.log) = none := by
    rcases h with h | h <;> rw [phase, h]
  refine Both.ite (fun _ => ?_) fun _ => trivial
  refine (notNull_both (E := fun _ => True) trivial).bind ?_
  intro s _
  exact broken_kept.enter _ _ hb

theorem enterStart_broken (h : Handling hsm ∨ Broken hsm) :
    LeadsTo (M := M) Broken Broken (fun _ => True) (enterStart hsm) := by
  have hb : phase (.start :: hsm.log) = none := by
    rcases h with h | h <;> rw [phase, h]
  refine (notNull_both (E := fun _ => True) trivial).bind ?_
  intro s _
  refine (notNull_both (E := fun _ => True) trivial).bind ?_
  intro s' _
  exact broken_kept.enter _ _ hb

end

/-! ## Steps -/

section
variable [DecidableEq H] [DecidableEq T] {c : H → HsmCfg} {w w' : Hsms T H σ μ M} {a : T × Deed H σ μ}
variable {t : T} {h : H} {below : List (Frame H σ μ M)} {r : HsmResult σ μ (Next σ μ M)}

structure Silent (w w' : Hsms T H σ μ M) : Prop where
  log : ∀ h, (w'.hsm h).log = (w.hsm h).log
  current : ∀ h, (w'.hsm h).currentState = (w.hsm h).currentState
  calls : ∀ t h, w'.calls t h = w.calls t h

omit [DecidableEq T] in
theorem silent_refl (w : Hsms T H σ μ M) : Silent w w := ⟨fun _ => rfl, fun _ => rfl, fun _ _ => rfl⟩

omit [DecidableEq T] in
theorem silent_queue (w : Hsms T H σ μ M) (h : H) (queue : List (MsgId × Option μ)) :
    Silent w { w with hsm := update w.hsm h { w.hsm h with queue := queue } } := by
  refine ⟨fun h' => ?_, fun h' => ?_, fun _ _ => rfl⟩
  · show (update w.hsm h _ h').log = _
    rcases eq_or_ne h' h with rfl | hh
    · rw [update_self]
    · rw [update_of_ne hh]
  · show (update w.hsm h _ h').currentState = _
    rcases eq_or_ne h' h with rfl | hh
    · rw [update_self]
    · rw [update_of_ne hh]

theorem calls_update (hsm : H → Hsm σ μ) (t' : T) (h : H) :
    Hsms.calls ⟨hsm, update w.stack t below⟩ t' h =
      if t' = t then below.countP (Frame.isCall h) else w.calls t' h := by
  by_cases ht : t' = t
  · subst ht
    rw [if_pos rfl]
    show (update w.stack t' below t').countP _ = _
    rw [update_self]
  · rw [if_neg ht]
    show (update w.stack t below t').countP _ = _
    rw [update_of_ne ht, Hsms.calls]

theorem silent_taken (w : Hsms T H σ μ M) (t : T) (h : H) (msg : MsgId × Option μ)
    (queue : List (MsgId × Option μ)) :
    Silent w ⟨update w.hsm h { w.hsm h with queue := queue }, update w.stack t (.taken h msg :: w.stack t)⟩ := by
  obtain ⟨hlog, hcur, -⟩ := silent_queue w h queue
  refine ⟨hlog, hcur, ?_⟩
  intro t' h'
  rw [calls_update, List.countP_cons_of_neg (by simp [Frame.isCall])]
  split
  · subst t'
    rfl
  · rfl

theorem go_hsm {h' : H} (hne : h' ≠ h) :
    Both (fun w' => w'.hsm h' = w.hsm h') (fun _ => True) (w.go t h below r) := by
  match r with
  | .error (stop, hsm) => trivial
  | .ok (some (call, point), hsm) => exact update_of_ne hne _ _
  | .ok (none, hsm) => exact update_of_ne hne _ _

variable [DecidableEq σ]

/-- What a step can do. -/
inductive HsmsTrans (c : H → HsmCfg) (w : Hsms T H σ μ M) (a : T × Deed H σ μ) : HsmsResult T H σ μ M → Prop
  | stopped (stop : HsmStop) : HsmsTrans c w a (.error (stop, w))
  | silent {v : Hsms T H σ μ M} : w.enters c a = none → Silent w v → HsmsTrans c w a (.ok v)
  | handler {h : H} {msg : MsgId × Option μ} {below : List (Frame H σ μ M)} : w.enters c a = some h →
      (∀ h', below.countP (Frame.isCall h') = w.calls a.1 h') →
      HsmsTrans c w a (w.go a.1 h below (enterHandler msg (w.hsm h)))
  | start {h : H} : w.enters c a = some h → HsmsTrans c w a (w.go a.1 h (w.stack a.1) (enterStart (w.hsm h)))
  | resumed {h : H} {call : Call σ μ} {point : Point σ M} {below : List (Frame H σ μ M)} {ret : HsmRet}
      {tmp : Option σ} : w.enters c a = none → w.stack a.1 = .call h call point :: below →
      HsmsTrans c w a (w.go a.1 h below (resume call ret { w.hsm h with tmpState := tmp } point))

theorem send_trans {msg : MsgId × Option μ} (ht : a.1 = t)
    (he : w.enters c a = if (c h).rxType = .callback then some h else none) :
    HsmsTrans c w a (w.send c t h msg) := by
  subst ht
  cases hrx : (c h).rxType with
  | callback =>
    rw [hrx, if_pos rfl] at he
    simp only [Hsms.send, hrx]
    exact .handler he fun _ => rfl
  | msgq =>
    rw [hrx, if_neg (by decide)] at he
    simp only [Hsms.send, hrx]
    split
    · exact .silent he (silent_queue w h _)
    · exact .stopped _
  | fifo =>
    rw [hrx, if_neg (by decide)] at he
    simp only [Hsms.send, hrx]
    exact .silent he (silent_queue w h _)

theorem serve_trans : HsmsTrans c w (t, .serve h) (w.serve c t h) := by
  unfold Hsms.serve
  split
  · exact .silent rfl (silent_refl w)
  · exact .silent rfl (silent_refl w)
  · exact .silent rfl (silent_taken w t h _ _)

theorem hsmsStep_trans (c : H → HsmCfg) (w : Hsms T H σ μ M) (a : T × Deed H σ μ) :
    HsmsTrans c w a (hsmsStep c w a) := by
  obtain ⟨t, d⟩ := a
  cases d with
  | publish h msg =>
    rw [hsmsStep]
    split
    · split
      · exact send_trans rfl rfl
      · exact .stopped _
    · exact .stopped _
  | dispatch h msg =>
    rw [hsmsStep]
    split
    · exact send_trans rfl rfl
    · exact .stopped _
  | serve h =>
    rw [hsmsStep]
    split
    · exact serve_trans
    · exact .stopped _
  | handle =>
    rw [hsmsStep]
    split
    · rename_i h msg below hs
      have he : w.enters c (t, .handle) = some h := by
        rw [Hsms.enters, hs]
      apply HsmsTrans.handler he
      intro h'
      rw [Hsms.calls, hs, List.countP_cons_of_neg (by simp [Frame.isCall])]
    · exact .stopped _
  | start h =>
    rw [hsmsStep]
    split
    · exact .start rfl
    · exact .stopped _
  | answer ans =>
    rw [hsmsStep]
    split
    · rename_i h call point below hs
      exact .resumed rfl hs
    · exact .stopped _

/-! ## Order -/

variable [DecidableEq μ]

def Hsms.RunToCompletion (w : Hsms T H σ μ M) : Prop := ∀ h, ZephyrPubSub.RunToCompletion (w.hsm h)

/-- Each HSM is idle, or one call of its state functions is under way. -/
structure Sequenced (w : Hsms T H σ μ M) : Prop where
  idle : ∀ h, (∀ t, w.calls t h = 0) → Idle (w.hsm h)
  handling : ∀ t h, w.calls t h ≠ 0 → Handling (w.hsm h)
  single : ∀ t h, w.calls t h ≤ 1
  alone : ∀ t t' h, w.calls t h ≠ 0 → w.calls t' h ≠ 0 → t = t'

omit [DecidableEq T] in
theorem Sequenced.runToCompletion (ho : Sequenced w) : w.RunToCompletion := by
  intro h
  by_cases hb : ∀ t, w.calls t h = 0
  · exact (ho.idle h hb).runToCompletion
  · obtain ⟨t, ht⟩ := not_forall.mp hb
    exact (ho.handling t h ht).runToCompletion

omit [DecidableEq T] in
theorem Sequenced.silent (ho : Sequenced w) (hq : Silent w w') : Sequenced w' := by
  have hidle : ∀ h, Idle (w.hsm h) → Idle (w'.hsm h) := by
    intro h hi
    rwa [Idle, hq.log, hq.current]
  refine ⟨fun h hz => hidle h (ho.idle h fun t => (hq.calls t h).symm.trans (hz t)), ?_, ?_, ?_⟩
  · intro t h hb
    rw [Handling, hq.log]
    exact ho.handling t h (by rwa [hq.calls] at hb)
  · intro t h
    rw [hq.calls]
    exact ho.single t h
  · intro t t' h hb hb'
    rw [hq.calls] at hb hb'
    exact ho.alone t t' h hb hb'

/-- The frames `fs` of thread `t` and the HSM `h` change, which no other thread is in. -/
theorem Sequenced.update (ho : Sequenced w) {fs : List (Frame H σ μ M)} {hsm : Hsm σ μ}
    (hrest : ∀ h', h' ≠ h → fs.countP (Frame.isCall h') = w.calls t h')
    (helse : ∀ t', t' ≠ t → w.calls t' h = 0) (hle : fs.countP (Frame.isCall h) ≤ 1)
    (hidle : fs.countP (Frame.isCall h) = 0 → Idle hsm) (hbusy : fs.countP (Frame.isCall h) ≠ 0 → Handling hsm) :
    Sequenced ⟨Function.update w.hsm h hsm, Function.update w.stack t fs⟩ := by
  have hother : ∀ t' h', h' ≠ h →
      Hsms.calls ⟨Function.update w.hsm h hsm, Function.update w.stack t fs⟩ t' h' = w.calls t' h' := by
    intro t' h' hh
    rw [calls_update]
    split
    · subst t'
      exact hrest h' hh
    · rfl
  have hown : ∀ t', Hsms.calls ⟨Function.update w.hsm h hsm, Function.update w.stack t fs⟩ t' h =
      if t' = t then fs.countP (Frame.isCall h) else 0 := by
    intro t'
    rw [calls_update]
    split
    · rfl
    · exact helse t' ‹_›
  constructor
  · intro h' hz
    show Idle (Function.update w.hsm h hsm h')
    rcases eq_or_ne h' h with rfl | hh
    · rw [update_self]
      exact hidle ((if_pos rfl).symm.trans ((hown t).symm.trans (hz t)))
    · rw [update_of_ne hh]
      exact ho.idle h' fun t' => (hother t' h' hh).symm.trans (hz t')
  · intro t' h' hb
    show Handling (Function.update w.hsm h hsm h')
    rcases eq_or_ne h' h with rfl | hh
    · rw [update_self]
      rw [hown] at hb
      split at hb
      · exact hbusy hb
      · exact absurd rfl hb
    · rw [update_of_ne hh]
      rw [hother t' h' hh] at hb
      exact ho.handling t' h' hb
  · intro t' h'
    rcases eq_or_ne h' h with rfl | hh
    · rw [hown]
      split
      · exact hle
      · exact Nat.zero_le 1
    · rw [hother t' h' hh]
      exact ho.single t' h'
  · intro t₁ t₂ h' h₁ h₂
    rcases eq_or_ne h' h with rfl | hh
    · rw [hown] at h₁ h₂
      split at h₁
      · split at h₂
        · exact ‹t₁ = t›.trans ‹t₂ = t›.symm
        · exact absurd rfl h₂
      · exact absurd rfl h₁
    · rw [hother _ h' hh] at h₁ h₂
      exact ho.alone t₁ t₂ h' h₁ h₂

/-- The code of `h` runs while no other call of `h` is under way. -/
theorem Sequenced.go (ho : Sequenced w) (hbelow : below.countP (Frame.isCall h) = 0)
    (hrest : ∀ h', h' ≠ h → below.countP (Frame.isCall h') = w.calls t h')
    (helse : ∀ t', t' ≠ t → w.calls t' h = 0) (hr : LeadsTo Handling Idle ZephyrPubSub.RunToCompletion r) :
    Both Sequenced (fun e => e.2.RunToCompletion) (w.go t h below r) := by
  match r, hr with
  | .error (stop, hsm), he =>
    intro h'
    show ZephyrPubSub.RunToCompletion (Function.update w.hsm h hsm h')
    rcases eq_or_ne h' h with rfl | hh
    · rw [update_self]
      exact he
    · rw [update_of_ne hh]
      exact ho.runToCompletion h'
  | .ok (some (call, point), hsm), hh =>
    have hone : (Frame.call h call point :: below).countP (Frame.isCall h) = 1 := by
      rw [List.countP_cons_of_pos (by simp [Frame.isCall]), hbelow]
    apply ho.update _ helse hone.le
    · intro hz
      rw [hone] at hz
      cases hz
    · intro _
      exact hh
    · intro h' hne
      rw [List.countP_cons_of_neg (by simpa [Frame.isCall] using hne.symm)]
      exact hrest h' hne
  | .ok (none, hsm), hi =>
    exact ho.update hrest helse (by rw [hbelow]; exact Nat.zero_le 1) (fun _ => hi) fun hb => absurd hbelow hb

theorem go_broken (hr : LeadsTo Broken Broken (fun _ => True) r) :
    Both (fun w' => Broken (w'.hsm h)) (fun _ => True) (w.go t h below r) := by
  match r, hr with
  | .error (stop, hsm), _ => trivial
  | .ok (some (call, point), hsm), hb =>
    show Broken (Function.update w.hsm h hsm h)
    rw [update_self]
    exact hb
  | .ok (none, hsm), hb =>
    show Broken (Function.update w.hsm h hsm h)
    rw [update_self]
    exact hb

omit [DecidableEq T] [DecidableEq σ] [DecidableEq μ] in
theorem NotEntered.calls (hn : NotEntered c w a) (he : w.enters c a = some h) (t : T) : w.calls t h = 0 := by
  obtain ⟨hown, helse⟩ := hn h he
  rcases eq_or_ne t a.1 with rfl | ht
  · exact hown
  · exact helse t ht

theorem Sequenced.step (ho : Sequenced w) (hn : NotEntered c w a) :
    Both Sequenced (fun e => e.2.RunToCompletion) (hsmsStep c w a) := by
  have ht := hsmsStep_trans c w a
  generalize hsmsStep c w a = x at ht ⊢
  cases ht with
  | stopped stop => exact ho.runToCompletion
  | silent _ hq => exact ho.silent hq
  | handler he hbelow =>
    have hz := hn.calls he
    exact ho.go ((hbelow _).trans (hz _)) (fun h' _ => hbelow h') (fun t' _ => hz t')
      (enterHandler_idle (ho.idle _ hz) _)
  | start he =>
    have hz := hn.calls he
    exact ho.go (hz _) (fun _ _ => rfl) (fun t' _ => hz t') (enterStart_idle (ho.idle _ hz))
  | @resumed h call point below ret tmp _ hs =>
    have hcalls : w.calls a.1 h = below.countP (Frame.isCall h) + 1 := by
      rw [Hsms.calls, hs, List.countP_cons_of_pos (by simp [Frame.isCall])]
    have hb : w.calls a.1 h ≠ 0 := by rw [hcalls]; exact Nat.succ_ne_zero _
    apply ho.go
    · have hle := ho.single a.1 h
      omega
    · intro h' hne
      rw [Hsms.calls, hs, List.countP_cons_of_neg (by simpa [Frame.isCall] using hne.symm)]
    · intro t' ht
      exact not_not.mp fun hb' => ht (ho.alone t' a.1 h hb' hb)
    · exact handling_kept.resume (handling_kept.tmp _ _ (ho.handling a.1 h hb)) call ret point

theorem broken_of_entered (ho : Sequenced w) (hn : ¬ NotEntered c w a) (hs : hsmsStep c w a = .ok w') :
    ¬ w'.RunToCompletion := by
  intro hr
  obtain ⟨h, hn⟩ := not_forall.mp hn
  obtain ⟨he, hn⟩ := Classical.not_imp.mp hn
  obtain ⟨t, hb⟩ : ∃ t, w.calls t h ≠ 0 := by
    by_contra hz
    have hz' : ∀ t, w.calls t h = 0 := by simpa using hz
    exact hn ⟨hz' a.1, fun t _ => hz' t⟩
  have hh := ho.handling t h hb
  have hx : Both (fun w' => Broken (w'.hsm h)) (fun _ => True) (hsmsStep c w a) := by
    have ht := hsmsStep_trans c w a
    generalize hsmsStep c w a = x at ht ⊢
    cases ht with
    | stopped stop => trivial
    | silent he' _ => rw [he] at he'; cases he'
    | handler he' _ =>
      cases he.symm.trans he'
      exact go_broken (enterHandler_broken (Or.inl hh) _)
    | start he' =>
      cases he.symm.trans he'
      exact go_broken (enterStart_broken (Or.inl hh))
    | resumed he' _ => rw [he] at he'; cases he'
  exact not_broken (hr h) (hx.of_ok hs)

/-- Order that is lost stays lost. -/
theorem broken_step {h : H} (hb : Broken (w.hsm h)) :
    Both (fun w' => Broken (w'.hsm h)) (fun _ => True) (hsmsStep c w a) := by
  have hgo : ∀ {t : T} {h' : H} {below : List (Frame H σ μ M)} {r : HsmResult σ μ (Next σ μ M)},
      (h' = h → LeadsTo Broken Broken (fun _ => True) r) →
        Both (fun w' => Broken (w'.hsm h)) (fun _ => True) (w.go t h' below r) := by
    intro t h' below r hr
    rcases eq_or_ne h' h with rfl | hne
    · exact go_broken (hr rfl)
    · exact (go_hsm hne.symm).mono (fun w' hw => by rwa [Broken, hw]) fun _ h => h
  have ht := hsmsStep_trans c w a
  generalize hsmsStep c w a = x at ht ⊢
  cases ht with
  | stopped stop => trivial
  | silent _ hq =>
    show phase _ = none
    rw [hq.log]
    exact hb
  | handler _ _ => exact hgo fun hh => enterHandler_broken (Or.inr (hh ▸ hb)) _
  | start _ => exact hgo fun hh => enterStart_broken (Or.inr (hh ▸ hb))
  | @resumed h' call point below ret tmp _ _ =>
    refine hgo fun hh => ?_
    have hb' := broken_kept.resume (broken_kept.tmp _ tmp (hh ▸ hb)) call ret point
    exact hb'.mono (fun _ h => h) fun _ _ => trivial

structure Untouched (w : Hsms T H σ μ M) : Prop where
  log : ∀ h, (w.hsm h).log = []
  stack : ∀ t, w.stack t = []

omit [DecidableEq T] [DecidableEq σ] [DecidableEq μ] in
theorem Untouched.calls (hf : Untouched w) (t : T) (h : H) : w.calls t h = 0 := by
  rw [Hsms.calls, hf.stack]
  rfl

omit [DecidableEq T] in
theorem sequenced_untouched (hf : Untouched w) : Sequenced w where
  idle h _ := ⟨none, by rw [hf.log]; rfl, Or.inl rfl⟩
  handling t h hb := absurd (hf.calls t h) hb
  single t h := by rw [hf.calls]; exact Nat.zero_le 1
  alone t _ h hb _ := absurd (hf.calls t h) hb

theorem runToCompletion_before (hs : hsmsStep c w a = .ok w') (hr : w'.RunToCompletion) : w.RunToCompletion := by
  intro h
  by_contra hn
  exact not_broken (hr h) ((broken_step (broken_of_not hn)).of_ok hs)

theorem sequenced_step (hj : w.RunToCompletion → Sequenced w) (hs : hsmsStep c w a = .ok w')
    (hr : w'.RunToCompletion) : Sequenced w' := by
  have ho := hj (runToCompletion_before hs hr)
  by_cases hn : NotEntered c w a
  · exact (ho.step hn).of_ok hs
  · exact absurd hr (broken_of_entered ho hn hs)

/-- Each message is handled to its end before the next one, in every state of a run,
exactly when no step of the run enters an HSM that is under way; also where an assertion fails. -/
theorem run_to_completion {w₀ : Hsms T H σ μ M} {as : List (T × Deed H σ μ)} (h₀ : Untouched w₀)
    (h : exec (hsmsStep c) w₀ as = .ok w) :
    ((∀ p ∈ path (hsmsStep c) w₀ as, p.1.RunToCompletion) ∧ w.RunToCompletion ↔
      ∀ p ∈ path (hsmsStep c) w₀ as, NotEntered c p.1 p.2) ∧
    (w.RunToCompletion → ∀ a stop w', NotEntered c w a → hsmsStep c w a = .error (stop, w') →
      w'.RunToCompletion) := by
  have hord : Run (hsmsStep c) (fun _ _ => True) w₀ w := Run.of_exec _ as w₀ w h fun _ _ => trivial
  have hj : w.RunToCompletion → Sequenced w := by
    refine hord.invariant (I := fun w => w.RunToCompletion → Sequenced w) ?_ fun _ => sequenced_untouched h₀
    intro s a s' hs _ hstep
    exact sequenced_step hs hstep
  refine ⟨?_, fun hr a stop w' hn hs => ((hj hr).step hn).of_error hs⟩
  refine path_iff _ (J := fun w => w.RunToCompletion → Sequenced w) (I := Hsms.RunToCompletion) ?_ ?_ as w₀ w
    (fun _ => sequenced_untouched h₀) (sequenced_untouched h₀).runToCompletion h
  · intro s a s' hs hstep
    exact sequenced_step hs hstep
  · intro s a s' hs hr hstep
    constructor
    · intro hr'
      by_contra hn
      exact broken_of_entered (hs hr) hn hstep hr'
    · intro hn
      exact ((hs hr).step hn).of_ok hstep |>.runToCompletion

end

/-! ## Two HSMs of one state and two threads -/

def freshHsms : Hsms Bool Bool Unit Unit 1 where
  hsm _ := ⟨some (), none, true, [], [], []⟩
  stack _ := []

theorem untouched_freshHsms : Untouched freshHsms := ⟨fun _ => rfl, fun _ => rfl⟩

instance (c : Bool → HsmCfg) (w : Hsms Bool Bool Unit Unit 1) (a : Bool × Deed Bool Unit Unit) :
    Decidable (NotEntered c w a) :=
  inferInstanceAs (Decidable (∀ h : Bool, w.enters c a = some h → _ ∧ ∀ t : Bool, t ≠ a.1 → w.calls t h = 0))

instance (w : Hsms Bool Bool Unit Unit 1) : Decidable w.RunToCompletion :=
  inferInstanceAs (Decidable (∀ h : Bool, (phase (w.hsm h).log).isSome))

def publishTwo : List (Bool × Deed Bool Unit Unit) :=
  [(false, .publish true (1, none)), (false, .serve true), (false, .handle), (false, .publish true (2, none)),
    (false, .answer .consumed), (false, .serve true), (false, .handle), (false, .answer .topState)]

theorem run_to_completion_fifo :
    ∃ w, exec (hsmsStep fun _ => ⟨.fifo, 0, 0⟩) freshHsms publishTwo = .ok w ∧ w.RunToCompletion ∧
      ∀ a stop w', NotEntered (fun _ => ⟨.fifo, 0, 0⟩) w a →
        hsmsStep (fun _ => ⟨.fifo, 0, 0⟩) w a = .error (stop, w') → w'.RunToCompletion := by
  refine ⟨_, rfl, ?_⟩
  have h := run_to_completion untouched_freshHsms
    (rfl : exec (hsmsStep fun _ => ⟨.fifo, 0, 0⟩) freshHsms publishTwo = .ok _)
  have hr := (h.1.mpr (by decide)).2
  exact ⟨hr, h.2 hr⟩

/-- A handler is entered again: by its own state function, by that of another HSM it has published
to, by a state function that services its own queue, and by another thread. -/
theorem entered_again :
    (∃ w, exec (hsmsStep fun _ => ⟨.callback, 0, 0⟩) freshHsms
      [(false, .publish true (1, none)), (false, .publish true (2, none))] = .ok w ∧ ¬ w.RunToCompletion) ∧
    (∃ w, exec (hsmsStep fun _ => ⟨.callback, 0, 0⟩) freshHsms
      [(false, .publish true (1, none)), (false, .publish false (2, none)),
        (false, .publish true (3, none))] = .ok w ∧ ¬ w.RunToCompletion) ∧
    (∃ w, exec (hsmsStep fun _ => ⟨.fifo, 0, 0⟩) freshHsms
      [(false, .publish true (1, none)), (false, .publish true (2, none)), (false, .serve true), (false, .handle),
        (false, .serve true), (false, .handle)] = .ok w ∧ ¬ w.RunToCompletion) ∧
    (∃ w, exec (hsmsStep fun _ => ⟨.callback, 0, 0⟩) freshHsms
      [(false, .publish true (1, none)), (true, .publish true (2, none))] = .ok w ∧ ¬ w.RunToCompletion) := by
  refine ⟨⟨_, rfl, ?_⟩, ⟨_, rfl, ?_⟩, ⟨_, rfl, ?_⟩, ⟨_, rfl, ?_⟩⟩
  all_goals decide

end ZephyrPubSub
