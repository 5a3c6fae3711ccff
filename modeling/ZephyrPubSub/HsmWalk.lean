import ZephyrPubSub.Hsm
import ZephyrPubSub.Ancestry
import Mathlib.Data.List.Induction

/-!
# The loops of the HSM

State functions that keep to a parent relation `up` send each loop from a
state along its ancestors. One lemma for each loop says how far it gets, what
it leaves in the array of parents and which calls other than WALK it makes. They
hold for every `up`, also with cycles.
-/

namespace ZephyrPubSub

open Ancestry

variable {σ μ : Type} {M : Nat} {up : σ → Option σ} {answer : List (Call σ μ) → Call σ μ → Answer σ}
variable {hsm hsm' hsm'' : Hsm σ μ} {s : σ}

def defaultAnswer (up : σ → Option σ) (s : σ) : Answer σ :=
  match up s with
  | some p => .parent (some p)
  | none => .topState

/-- The state functions name the parents `up`, never handle WALK and answer EXIT without a transition. -/
structure Consistent (up : σ → Option σ) (answer : List (Call σ μ) → Call σ μ → Answer σ) : Prop where
  walk : ∀ calls s, answer calls ⟨s, hsmMsgIdWalk, none⟩ = defaultAnswer up s
  exit : ∀ calls s, answer calls ⟨s, hsmMsgIdExit, none⟩ = .consumed ∨
    answer calls ⟨s, hsmMsgIdExit, none⟩ = defaultAnswer up s
  other : ∀ calls call, ¬ Reserved call.msgId → answer calls call = .consumed ∨
    answer calls call = defaultAnswer up call.state ∨ ∃ n, answer calls call = .transition (some n)

/-- What `Consistent` says of the messages that the HSM itself sends. -/
structure Passing (up : σ → Option σ) (answer : List (Call σ μ) → Call σ μ → Answer σ) : Prop where
  walk : ∀ calls s, answer calls ⟨s, hsmMsgIdWalk, none⟩ = defaultAnswer up s
  exit : ∀ calls s, answer calls ⟨s, hsmMsgIdExit, none⟩ = .consumed ∨
    answer calls ⟨s, hsmMsgIdExit, none⟩ = defaultAnswer up s

theorem Consistent.passing (h : Consistent up answer) : Passing up answer := ⟨h.walk, h.exit⟩

theorem defaultAnswer_ret_eq_parent : (defaultAnswer up s).ret = .parent ↔ up s ≠ none := by
  unfold defaultAnswer
  cases up s <;> simp [Answer.ret]

theorem defaultAnswer_ret_walk :
    (defaultAnswer up s).ret = .parent ∨ (defaultAnswer up s).ret = .topState := by
  unfold defaultAnswer
  cases up s <;> simp [Answer.ret]

@[simp] theorem defaultAnswer_assign (tmp : Option σ) : (defaultAnswer up s).assign tmp = up s := by
  unfold defaultAnswer
  cases up s <;> rfl

/-! ## Calls -/

def notWalk (calls : List (Call σ μ)) : List (Call σ μ) := calls.filter (·.msgId ≠ hsmMsgIdWalk)

def entryCall (s : σ) : Call σ μ := ⟨s, hsmMsgIdEntry, none⟩

def exitCall (s : σ) : Call σ μ := ⟨s, hsmMsgIdExit, none⟩

/-- From `hsm` to `hsm'` the calls `new`, newest first, and WALKs are made, and no transition ends. -/
structure Sends (hsm hsm' : Hsm σ μ) (new : List (Call σ μ)) : Prop where
  current : hsm'.currentState = hsm.currentState
  handler : hsm'.handlerSet = hsm.handlerSet
  calls : notWalk hsm'.calls = new ++ notWalk hsm.calls

theorem Sends.trans {new new' : List (Call σ μ)} (h : Sends hsm hsm' new) (h' : Sends hsm' hsm'' new') :
    Sends hsm hsm'' (new' ++ new) where
  current := h'.current.trans h.current
  handler := h'.handler.trans h.handler
  calls := by rw [h'.calls, h.calls, List.append_assoc]

def Hsm.answered (hsm : Hsm σ μ) (call : Call σ μ) (a : Answer σ) : Hsm σ μ :=
  { hsm.enter call with tmpState := a.assign hsm.tmpState }

@[simp] theorem Hsm.answered_currentState (call : Call σ μ) (a : Answer σ) :
    (hsm.answered call a).currentState = hsm.currentState := rfl

@[simp] theorem Hsm.answered_handlerSet (call : Call σ μ) (a : Answer σ) :
    (hsm.answered call a).handlerSet = hsm.handlerSet := rfl

@[simp] theorem Hsm.answered_tmpState (call : Call σ μ) (a : Answer σ) :
    (hsm.answered call a).tmpState = a.assign hsm.tmpState := rfl

@[simp] theorem Hsm.answered_calls (call : Call σ μ) (a : Answer σ) :
    (hsm.answered call a).calls = call :: hsm.calls := rfl

theorem stateFns_eq (call : Call σ μ) (hsm : Hsm σ μ) :
    stateFns answer call hsm =
      .ok ((answer hsm.calls call).ret, hsm.answered call (answer hsm.calls call)) := rfl

theorem callTmp_eq (fns : StateFns σ μ) (msgId : MsgId) (msg : Option μ) (hs : hsm.tmpState = some s) :
    callTmp fns msgId msg hsm = fns ⟨s, msgId, msg⟩ hsm := by
  simp [callTmp, hs, notNull, bind, Except.bind]

theorem sends_answered {call : Call σ μ} {a : Answer σ} (h : call.msgId ≠ hsmMsgIdWalk) :
    Sends hsm (hsm.answered call a) [call] :=
  ⟨rfl, rfl, by simp [notWalk, h]⟩

theorem sends_walk (a : Answer σ) : Sends hsm (hsm.answered ⟨s, hsmMsgIdWalk, none⟩ a) [] :=
  ⟨rfl, rfl, by simp [notWalk]⟩

theorem sends_entry (a : Answer σ) : Sends hsm (hsm.answered (entryCall s) a) [entryCall s] := by
  apply sends_answered
  show hsmMsgIdEntry ≠ hsmMsgIdWalk
  decide

theorem sends_exit (a : Answer σ) : Sends hsm (hsm.answered (exitCall s) a) [exitCall s] := by
  apply sends_answered
  show hsmMsgIdExit ≠ hsmMsgIdWalk
  decide

theorem sendWalk_spec (h : Passing up answer) (hs : hsm.tmpState = some s) :
    ∃ hsm', sendWalk (stateFns answer) hsm = .ok ((defaultAnswer up s).ret, hsm') ∧
      hsm'.tmpState = up s ∧ Sends hsm hsm' [] := by
  refine ⟨hsm.answered ⟨s, hsmMsgIdWalk, none⟩ (defaultAnswer up s), ?_, by simp, sends_walk _⟩
  rw [sendWalk, callTmp_eq _ _ _ hs, stateFns_eq, h.walk]
  show (if _ then _ else _) = _
  exact if_pos defaultAnswer_ret_walk

/-! ## The array -/

def Written (ps : Parents σ M) (l : List (Option σ)) : Prop :=
  ∀ i (h : i < M), i < l.length → ps ⟨i, h⟩ = l[i]?

theorem written_uninit : Written (Parents.uninit : Parents σ M) [] := by
  intro i _ hi
  simp at hi

theorem write_spec {ps : Parents σ M} {l : List (Option σ)} (h : Written ps l) (hl : l.length < M)
    (fn : Option σ) : ∃ ps', ps.write l.length fn = .ok ps' ∧ Written ps' (l ++ [fn]) := by
  refine ⟨_, by rw [Parents.write, dif_pos hl], ?_⟩
  intro i hi hil
  by_cases hlen : i = l.length
  · subst hlen
    simp
  · have hlt : i < l.length := by
      rw [List.length_append, List.length_singleton] at hil
      omega
    rw [Function.update_of_ne (by simpa using hlen), h i hi hlt, List.getElem?_append_left hlt]

theorem read_spec {ps : Parents σ M} {l : List (Option σ)} {i : Nat} {fn : Option σ} (h : Written ps l)
    (hM : l.length ≤ M) (hi : l[i]? = some fn) : ps.read i = .ok fn := by
  have hil : i < l.length := (List.getElem?_eq_some_iff.1 hi).1
  rw [Parents.read, dif_pos (by omega), h i (by omega) hil, hi]

/-! ## The loops -/

theorem collectParents_step {fns : StateFns σ μ} {isCommon : Hsm σ μ → Bool} {ps ps' : Parents σ M} {i : Nat}
    {ret : HsmRet} (hw : sendWalk fns hsm = .ok (ret, hsm')) (hps : ps.write i hsm'.tmpState = .ok ps') :
    collectParents fns isCommon ps i hsm =
      if ret = .parent ∧ (if isCommon hsm' then some i else none) = none ∧ i < M - 1 then
        collectParents fns isCommon ps' (i + 1) hsm'
      else .ok (ps', i, if isCommon hsm' then some i else none, hsm') := by
  rw [collectParents, hw]
  simp only [bind, Except.bind, hps, orStop]

/-- The state climbed to is the first one whose parent `stop`s, the top one, or the last there is room for. -/
theorem collectParents_spec (h : Passing up answer) {isCommon : Hsm σ μ → Bool} {stop : Option σ → Bool}
    {ps : Parents σ M} {l : List (Option σ)} (hs : hsm.tmpState = some s)
    (hstop : ∀ hsm' : Hsm σ μ, hsm'.currentState = hsm.currentState → isCommon hsm' = stop hsm'.tmpState)
    (hps : Written ps l) (hl : l.length < M) :
    ∃ v t ps' num hsm', collectParents (stateFns answer) isCommon ps l.length hsm =
        .ok (ps', num, if stop (up t) then some num else none, hsm') ∧
      Climb up s v t ∧ Written ps' (l ++ v.map up) ∧ num + 1 = l.length + v.length ∧ num < M ∧
      Sends hsm hsm' [] ∧ (∀ u ∈ v.dropLast, stop (up u) = false) ∧
      (stop (up t) ∨ up t = none ∨ num + 1 = M) := by
  induction hk : M - l.length generalizing l ps s hsm with
  | zero => omega
  | succ k ih =>
    obtain ⟨hsm₁, hw, ht, hsend⟩ := sendWalk_spec h hs
    obtain ⟨ps₁, hwr, hps₁⟩ := write_spec hps hl (up s)
    have hcom : isCommon hsm₁ = stop (up s) := by rw [hstop hsm₁ hsend.current, ht]
    rw [← ht] at hwr
    have hcond : ((defaultAnswer up s).ret = .parent ∧ (if stop (up s) then some l.length else none) = none ∧
        l.length < M - 1) ↔ up s ≠ none ∧ stop (up s) = false ∧ l.length < M - 1 := by
      rw [defaultAnswer_ret_eq_parent]
      simp
    rw [collectParents_step hw hwr, hcom]
    by_cases hgo : up s ≠ none ∧ stop (up s) = false ∧ l.length < M - 1
    · obtain ⟨hup, hns, hlM⟩ := hgo
      obtain ⟨p, hp⟩ := Option.ne_none_iff_exists'.1 hup
      have hlen : (l ++ [up s]).length = l.length + 1 := by simp
      obtain ⟨v, t, ps', num, hsm', heq, hc, hw', hn, hnM, hs', hd, hend⟩ :=
        ih (ht.trans hp) (fun h' hh' => hstop h' (hh'.trans hsend.current)) hps₁ (by omega) (by omega)
      rw [if_pos (hcond.2 ⟨hup, hns, hlM⟩), ← hlen, heq]
      refine ⟨s :: v, t, ps', num, hsm', rfl, .higher hp hc, by simpa using hw', ?_, hnM, hsend.trans hs', ?_, hend⟩
      · rw [List.length_cons]
        omega
      · intro u hu
        rw [hc.eq_cons, List.dropLast_cons_cons, ← hc.eq_cons] at hu
        rcases List.mem_cons.1 hu with rfl | hu
        · exact hns
        · exact hd u hu
    · rw [if_neg (mt hcond.1 hgo)]
      refine ⟨[s], s, ps₁, l.length, hsm₁, rfl, .here s, hps₁, rfl, hl, hsend, by simp, ?_⟩
      by_cases hup : up s = none
      · exact Or.inr (Or.inl hup)
      · cases hst : stop (up s) with
        | true => exact Or.inl rfl
        | false =>
          have hM : ¬ l.length < M - 1 := fun hlt => hgo ⟨hup, hst, hlt⟩
          exact Or.inr (Or.inr (by omega))

/-- The states before the `n`-th entry are entered, the last one first. -/
theorem sendEntries_spec (answer : List (Call σ μ) → Call σ μ → Answer σ) (hsm : Hsm σ μ) {ps : Parents σ M}
    {l : List (Option σ)} {v : List σ} (hps : Written ps l) (hM : l.length ≤ M) (hv : v.map some <+: l) :
    ∃ hsm', sendEntries (stateFns answer) ps v.length hsm = .ok hsm' ∧ Sends hsm hsm' (v.map entryCall) := by
  induction v using List.reverseRecOn generalizing hsm with
  | nil => exact ⟨hsm, rfl, rfl, rfl, rfl⟩
  | append_singleton v s ih =>
    rw [List.map_append] at hv
    have hread : ps.read v.length = .ok (some s) := by
      obtain ⟨r, rfl⟩ := hv
      apply read_spec hps hM
      simp
    obtain ⟨hsm', heq, hsend⟩ :=
      ih (hsm.answered (entryCall s) (answer hsm.calls (entryCall s))) ((List.prefix_append _ _).trans hv)
    refine ⟨hsm', ?_, by simpa using (sends_entry _).trans hsend⟩
    rw [List.length_append, List.length_singleton, sendEntries, hread]
    exact heq

theorem findCommon_spec [DecidableEq σ] {ps : Parents σ M} {l : List (Option σ)} (tmp : Option σ) {n : Nat}
    (hps : Written ps l) (hM : l.length ≤ M) (hn : n ≤ l.length) :
    ∃ c, findCommon ps tmp n = .ok c ∧ (∀ j, c = some j → j < n ∧ l[j]? = some tmp) ∧
      (c = none → tmp ∉ l.take n) := by
  induction n with
  | zero => exact ⟨none, rfl, by simp, by simp⟩
  | succ n ih =>
    obtain ⟨c, heq, hsome, hnone⟩ := ih (by omega)
    obtain ⟨fn, hfn⟩ : ∃ fn, l[n]? = some fn := ⟨l[n], List.getElem?_eq_getElem (by omega)⟩
    have hstep : findCommon ps tmp (n + 1) = .ok (if fn = tmp then some n else c) := by
      rw [findCommon, heq]
      show (ps.read n >>= _) = _
      rw [read_spec hps hM hfn]
      rfl
    refine ⟨_, hstep, ?_, ?_⟩
    · intro j hj
      split_ifs at hj with hft
      · obtain rfl := Option.some.inj hj
        exact ⟨by omega, hft ▸ hfn⟩
      · have := hsome j hj
        exact ⟨by omega, this.2⟩
    · intro hc
      split_ifs at hc with hft
      rw [List.take_add_one, hfn]
      simpa [Ne.symm hft] using hnone hc

theorem parentAfterExit_spec (h : Passing up answer) (hs : hsm.tmpState = some s) {a : Answer σ}
    (ha : a = .consumed ∨ a = defaultAnswer up s) :
    ∃ hsm', parentAfterExit (stateFns answer) a.ret (hsm.answered (exitCall s) a) =
        .ok ((defaultAnswer up s).ret, hsm') ∧
      hsm'.tmpState = up s ∧ Sends hsm hsm' [exitCall s] := by
  rcases ha with rfl | rfl
  · obtain ⟨hsm', hw, ht, hsend⟩ :=
      sendWalk_spec h (show (hsm.answered (exitCall s) .consumed).tmpState = some s from hs)
    exact ⟨hsm', hw, ht, (sends_exit _).trans hsend⟩
  · refine ⟨_, if_neg ?_, defaultAnswer_assign _, sends_exit _⟩
    rcases defaultAnswer_ret_walk (s := s) with hr | hr <;> rw [hr] <;> decide

theorem sendExits_step [DecidableEq σ] (h : Passing up answer) {ps : Parents σ M} {n nest : Nat}
    {c : Option Nat} (hs : hsm.tmpState = some s)
    (hc : ∀ p, up s = some p → findCommon ps (some p) n = .ok c) (hc' : up s = none → c = none) :
    ∃ hsm', Sends hsm hsm' [exitCall s] ∧ hsm'.tmpState = up s ∧
      sendExits (stateFns answer) ps n nest hsm =
        if up s ≠ none ∧ c = none ∧ nest + 1 < M then sendExits (stateFns answer) ps n (nest + 1) hsm'
        else .ok (c, hsm') := by
  have ha := h.exit hsm.calls s
  obtain ⟨hsm', hp, ht, hsend⟩ := parentAfterExit_spec h hs ha
  have hnt : (answer hsm.calls (exitCall s)).ret ≠ .transition := by
    rcases ha with ha | ha <;> rw [exitCall, ha]
    · simp [Answer.ret]
    · rcases defaultAnswer_ret_walk (s := s) with hr | hr <;> rw [hr] <;> decide
  refine ⟨hsm', hsend, ht, ?_⟩
  have hret : (defaultAnswer up s).ret = .parent ↔ up s ≠ none := defaultAnswer_ret_eq_parent
  rw [exitCall] at hp hnt
  rw [sendExits, callTmp_eq _ _ _ hs, stateFns_eq]
  simp only [bind, Except.bind, if_neg hnt, hp, ht, hret]
  cases hup : up s with
  | none => simp [hc' hup]
  | some p => simp [hc p hup, orStop]

/-- EXIT goes to the states climbed through. The climb ends below the first parent that is one of the
first `n` entries, at the top state, or after `M` states. -/
theorem sendExits_spec [DecidableEq σ] (h : Passing up answer) {ps : Parents σ M} {l : List (Option σ)}
    {n nest : Nat} (hps : Written ps l) (hM : l.length ≤ M) (hn : n ≤ l.length)
    (hs : hsm.tmpState = some s) (hnest : nest < M) :
    ∃ w t c hsm', sendExits (stateFns answer) ps n nest hsm = .ok (c, hsm') ∧ Climb up s w t ∧
      Sends hsm hsm' (w.reverse.map exitCall) ∧ nest + w.length ≤ M ∧
      (∀ u ∈ w.dropLast, up u ∉ l.take n) ∧
      (∀ j, c = some j → j < n ∧ ∃ p, up t = some p ∧ l[j]? = some (some p)) ∧
      (c = none → up t = none ∨ up t ∉ l.take n ∧ nest + w.length = M) := by
  induction hk : M - nest generalizing nest s hsm with
  | zero => omega
  | succ k ih =>
    obtain ⟨c, hc, hc', hsome, hnone⟩ : ∃ c, (∀ p, up s = some p → findCommon ps (some p) n = .ok c) ∧
        (up s = none → c = none) ∧
        (∀ j, c = some j → j < n ∧ ∃ p, up s = some p ∧ l[j]? = some (some p)) ∧
        (c = none → up s = none ∨ up s ∉ l.take n) := by
      cases hup : up s with
      | none => exact ⟨none, by simp, by simp, by simp, by simp⟩
      | some p =>
        obtain ⟨c, heq, hsome, hnone⟩ := findCommon_spec (some p) hps hM hn
        refine ⟨c, ?_, by simp, ?_, fun hcn => Or.inr (hnone hcn)⟩
        · intro p' hp'
          rw [← Option.some.inj hp', heq]
        · intro j hj
          exact ⟨(hsome j hj).1, p, rfl, (hsome j hj).2⟩
    obtain ⟨hsm₁, hsend, ht, hstep⟩ := sendExits_step h hs hc hc'
    rw [hstep]
    by_cases hgo : up s ≠ none ∧ c = none ∧ nest + 1 < M
    · obtain ⟨hup, rfl, hlt⟩ := hgo
      obtain ⟨p, hp⟩ := Option.ne_none_iff_exists'.1 hup
      obtain ⟨w, t, c, hsm', heq, hcl, hs', hwM, hd, hcs, hcn⟩ := ih (ht.trans hp) hlt (by omega)
      rw [if_pos ⟨hup, rfl, hlt⟩, heq]
      refine ⟨s :: w, t, c, hsm', rfl, .higher hp hcl, by simpa using hsend.trans hs', ?_, ?_, hcs, ?_⟩
      · rw [List.length_cons]
        omega
      · intro u hu
        rw [hcl.eq_cons, List.dropLast_cons_cons, ← hcl.eq_cons] at hu
        rcases List.mem_cons.1 hu with rfl | hu
        · exact (hnone rfl).resolve_left hup
        · exact hd u hu
      · intro hc
        rw [List.length_cons]
        exact (hcn hc).imp_right fun ⟨hu, hw⟩ => ⟨hu, by omega⟩
    · rw [if_neg hgo]
      refine ⟨[s], s, c, hsm₁, rfl, .here s, hsend, hnest, by simp, hsome, ?_⟩
      intro hcn
      by_cases hup : up s = none
      · exact Or.inl hup
      · have hM : ¬ nest + 1 < M := fun hlt => hgo ⟨hup, hcn, hlt⟩
        refine Or.inr ⟨(hnone hcn).resolve_left hup, ?_⟩
        show nest + 1 = M
        omega

theorem bubble_step {msgId : MsgId} {msg : Option μ} {fuel : Nat} {a : Answer σ} (hs : hsm.tmpState = some s)
    (ha : answer hsm.calls ⟨s, msgId, msg⟩ = a) :
    bubble (stateFns answer) msgId msg (fuel + 1) hsm =
      if a.ret = .parent then bubble (stateFns answer) msgId msg fuel (hsm.answered ⟨s, msgId, msg⟩ a)
      else .ok (a.ret, hsm.answered ⟨s, msgId, msg⟩ a) := by
  rw [bubble, callTmp_eq _ _ _ hs, stateFns_eq, ha]
  rfl

/-- The states `v`, asked in this order after `calls`, all answer with their parent. -/
inductive Passes (answer : List (Call σ μ) → Call σ μ → Answer σ) (msgId : MsgId) (msg : Option μ) :
    List (Call σ μ) → List σ → Prop
  | nil (calls : List (Call σ μ)) : Passes answer msgId msg calls []
  | cons {calls : List (Call σ μ)} {s : σ} {v : List σ} : (answer calls ⟨s, msgId, msg⟩).ret = .parent →
      Passes answer msgId msg (⟨s, msgId, msg⟩ :: calls) v → Passes answer msgId msg calls (s :: v)

/-- A state that answers the message with its parent names the one in the forest. -/
def NamesParent (F : Forest σ) (answer : List (Call σ μ) → Call σ μ → Answer σ) (msgId : MsgId) (msg : Option μ) :
    Prop :=
  ∀ calls s p, answer calls ⟨s, msgId, msg⟩ = .parent p → p = F.parent s ∧ p ≠ none

theorem Consistent.namesParent {F : Forest σ} (h : Consistent F.parent answer) {msgId : MsgId}
    (hid : ¬ Reserved msgId) (msg : Option μ) : NamesParent F answer msgId msg := by
  intro calls s p hp
  rcases h.other calls ⟨s, msgId, msg⟩ hid with hc | hd | ⟨n, hn⟩
  · cases hc.symm.trans hp
  · have hdef := hd.symm.trans hp
    unfold defaultAnswer at hdef
    split at hdef
    · rename_i q hq
      cases hdef
      exact ⟨hq.symm, nofun⟩
    · cases hdef
  · cases hn.symm.trans hp

/-- A message goes up to the first state that does not answer with its parent. -/
theorem bubble_passes {F : Forest σ} {msgId : MsgId} {msg : Option μ} (h : NamesParent F answer msgId msg)
    {fuel : Nat} (hs : hsm.tmpState = some s) (hf : (F.chain s).length ≤ fuel) :
    ∃ v t a hsm', bubble (stateFns answer) msgId msg fuel hsm = .ok (a.ret, hsm') ∧ a.ret ≠ .parent ∧
      a = answer hsm'.calls.tail ⟨t, msgId, msg⟩ ∧ Passes answer msgId msg hsm.calls v ∧
      Climb F.parent s (v ++ [t]) t ∧ hsm'.tmpState = a.assign (some t) ∧
      hsm'.currentState = hsm.currentState ∧ hsm'.handlerSet = hsm.handlerSet ∧
      hsm'.calls = (v ++ [t]).reverse.map (⟨·, msgId, msg⟩) ++ hsm.calls := by
  induction fuel generalizing s hsm with
  | zero => simp [F.chain_eq] at hf
  | succ fuel ih =>
    obtain ⟨a, ha⟩ : ∃ a, answer hsm.calls ⟨s, msgId, msg⟩ = a := ⟨_, rfl⟩
    rw [bubble_step hs ha]
    by_cases hret : a.ret = .parent
    · obtain ⟨q, rfl⟩ : ∃ q, a = .parent q := by
        cases a with
        | parent q => exact ⟨q, rfl⟩
        | _ => cases hret
      obtain ⟨hq, hne⟩ := h _ _ _ ha
      obtain ⟨p, rfl⟩ := Option.ne_none_iff_exists'.1 hne
      have hp : F.parent s = some p := hq.symm
      rw [F.chain_eq, F.above_of_some hp, List.length_cons] at hf
      have htmp : (hsm.answered ⟨s, msgId, msg⟩ (.parent (some p))).tmpState = some p := rfl
      obtain ⟨v, t, b, hsm', heq, hb, hbt, hpass, hc, htm, hcur, hhs, hcalls⟩ := ih htmp (by omega)
      rw [if_pos hret, heq]
      exact ⟨s :: v, t, b, hsm', rfl, hb, hbt, .cons (by rw [ha]; rfl) hpass, .higher hp hc, htm, hcur, hhs,
        by simp [hcalls]⟩
    · rw [if_neg hret]
      refine ⟨[], s, a, _, rfl, hret, ha.symm, .nil _, .here s, ?_, rfl, rfl, rfl⟩
      rw [Hsm.answered_tmpState, hs]

end ZephyrPubSub
