import ZephyrPubSub.HsmWalk

/-!
# The active configuration

In a hierarchy whose chains fit the configured depth, the calls of a transition
are the route from the current state to the new one. From the start on the
states entered and not left are therefore the current state and its ancestors.
-/

namespace ZephyrPubSub

open Ancestry

variable {σ μ : Type} {M : Nat} {answer : List (Call σ μ) → Call σ μ → Answer σ}
variable {hsm hsm' : Hsm σ μ} {c n s : σ}

/-- States with parents, each chain to a top state having at most `CONFIG_HSM_MAX_NESTED_STATES` states. -/
structure Hierarchy (σ : Type) (M : Nat) extends Forest σ where
  short : ∀ s, (toForest.chain s).length ≤ M

theorem Hierarchy.depth_pos (H : Hierarchy σ M) (s : σ) : 0 < M := by
  have hs := H.short s
  rw [H.chain_eq, List.length_cons] at hs
  omega

theorem tail_prefix_of_climb {up : σ → Option σ} {v : List σ} {t : σ} (h : Climb up s v t) :
    v.tail.map some <+: v.map up := by
  rw [h.map_up]
  exact List.prefix_append _ _

theorem collectParents_start {up : σ → Option σ} (h : Passing up answer) (hM : 1 ≤ M) (hsm : Hsm σ μ)
    (isCommon : Hsm σ μ → Bool) (stop : Option σ → Bool) (hs : hsm.tmpState = some s)
    (hstop : ∀ hsm' : Hsm σ μ, hsm'.currentState = hsm.currentState → isCommon hsm' = stop hsm'.tmpState) :
    ∃ v t ps num hsm', collectParents (stateFns answer) isCommon (.uninit : Parents σ M) 0 hsm =
        .ok (ps, num, if stop (up t) then some num else none, hsm') ∧
      Climb up s v t ∧ Written ps (v.map up) ∧ v.length ≤ M ∧ v.length = num + 1 ∧
      Sends hsm hsm' [] ∧ (∀ u ∈ v.dropLast, stop (up u) = false) ∧
      (stop (up t) ∨ up t = none ∨ v.length = M) := by
  obtain ⟨v, t, ps, num, hsm', heq, hv, hps, hn, hnM, hsend, hd, hend⟩ :=
    collectParents_spec h hs hstop written_uninit hM
  have hlen : num + 1 = v.length := by simpa using hn
  exact ⟨v, t, ps, num, hsm', heq, hv, hps, by omega, hlen.symm, hsend, hd, by rwa [← hlen]⟩

/-- Where all chains fit, the collection ends at a parent that `stop`s it or at the top state. -/
theorem collectParents_hierarchy (H : Hierarchy σ M) (h : Consistent H.parent answer) (hsm : Hsm σ μ)
    (isCommon : Hsm σ μ → Bool) (stop : Option σ → Bool) (hs : hsm.tmpState = some s)
    (hstop : ∀ hsm' : Hsm σ μ, hsm'.currentState = hsm.currentState → isCommon hsm' = stop hsm'.tmpState) :
    ∃ v t ps num hsm', collectParents (stateFns answer) isCommon (.uninit : Parents σ M) 0 hsm =
        .ok (ps, num, if stop (H.parent t) then some num else none, hsm') ∧
      Climb H.parent s v t ∧ Written ps (v.map H.parent) ∧ v.length ≤ M ∧ v.tail.length = num ∧
      Sends hsm hsm' [] ∧ (∀ u ∈ v.dropLast, stop (H.parent u) = false) ∧
      (stop (H.parent t) ∨ H.parent t = none) := by
  obtain ⟨v, t, ps, num, hsm', heq, hv, hps, hM, hn, hsend, hd, hend⟩ :=
    collectParents_start h.passing (H.depth_pos s) hsm isCommon stop hs hstop
  refine ⟨v, t, ps, num, hsm', heq, hv, hps, hM, ?_, hsend, hd, ?_⟩
  · rw [List.length_tail]
    omega
  · rcases hend with hst | htop | hfull
    · exact Or.inl hst
    · exact Or.inr htop
    · exact Or.inr (H.root_of_climb (H.short s) hv (by omega))

theorem enter_spec (answer : List (Call σ μ) → Call σ μ → Answer σ) (hsm : Hsm σ μ)
    {up : σ → Option σ} {ps : Parents σ M} {l : List (Option σ)} {v : List σ} {t : σ}
    (hps : Written ps l) (hM : l.length ≤ M) (hl : v.tail.map some <+: l) (hv : Climb up s v t) :
    ∃ hsm₁ hsm', sendEntries (stateFns answer) ps v.tail.length hsm = .ok hsm₁ ∧
      stateFns answer ⟨s, hsmMsgIdEntry, none⟩ hsm₁ = .ok ((answer hsm₁.calls (entryCall s)).ret, hsm') ∧
      hsm₁.currentState = hsm.currentState ∧ Sends hsm hsm' (v.map entryCall) := by
  obtain ⟨hsm₁, heq, hsend⟩ := sendEntries_spec answer hsm hps hM hl
  refine ⟨hsm₁, _, heq, stateFns_eq _ _, hsend.current, ?_⟩
  rw [hv.eq_cons]
  exact hsend.trans (sends_entry _)

/-! ## The functions -/

theorem hsmStart_spec (H : Hierarchy σ M) (h : Consistent H.parent answer) (hc : hsm.currentState = some c) :
    ∃ hsm' t, hsmStart M (stateFns answer) hsm = .ok hsm' ∧ Climb H.parent c (H.chain c) t ∧
      H.above t = [] ∧ Sends hsm hsm' ((H.chain c).map entryCall) := by
  obtain ⟨v, t, ps, num, hsm₁, hcol, hv, hps, hM, hn, hs₁, -, hend⟩ :=
    collectParents_hierarchy H h { hsm with tmpState := some c } (fun _ => false) (fun _ => false) rfl
      (fun _ _ => rfl)
  have htop : H.parent t = none := by simpa using hend
  have hchain : H.chain c = v := by rw [H.chain_of_climb hv, H.above_of_none htop, List.append_nil]
  obtain ⟨hsm₂, hsm', hent, hlast, hcur, hs₂⟩ :=
    enter_spec answer hsm₁ hps (by simpa using hM) (tail_prefix_of_climb hv) hv
  refine ⟨hsm', t, ?_, hchain ▸ hv, H.above_of_none htop, ?_⟩
  · have hc₂ : hsm₂.currentState = some c := by rw [hcur, hs₁.current, hc]
    subst hn
    simp only [hc] at hcol
    simp only [hsmStart, hc, notNull, bind, Except.bind, hcol, hent, hc₂, hlast]
  · have hs := hs₁.trans hs₂
    rw [hchain]
    exact ⟨hs.current, hs.handler, by simpa using hs.calls⟩

variable [DecidableEq σ]

theorem transitionState_eq {fns : StateFns σ μ} {ps : Parents σ M} {num : Nat} {com : Option Nat}
    (com' : Option Nat) {hsm₁ hsm₂ hsm₃ hsm₄ : Hsm σ μ} {ret : HsmRet}
    (hcol : collectParents fns (fun hsm => hsm.tmpState = hsm.currentState) .uninit 0
      { hsm with tmpState := some n } = .ok (ps, num, com, hsm₁))
    (hcom : com = none → sendExits fns ps num 0 { hsm₁ with tmpState := hsm₁.currentState } = .ok (com', hsm₂))
    (hcom' : com ≠ none → com' = com ∧ hsm₂ = hsm₁)
    (hent : sendEntries fns ps (com'.getD num) hsm₂ = .ok hsm₃)
    (hlast : fns ⟨n, hsmMsgIdEntry, none⟩ hsm₃ = .ok (ret, hsm₄)) :
    transitionState M fns n hsm = .ok { hsm₄ with currentState := some n } := by
  rw [transitionState, hcol]
  cases com with
  | none =>
    simp only [bind, Except.bind, hcom rfl, hent, hlast]
  | some i =>
    obtain ⟨rfl, rfl⟩ := hcom' (by simp)
    simp only [bind, Except.bind, hent, hlast]

omit [DecidableEq σ] in
theorem take_parents {up : σ → Option σ} {v : List σ} {t : σ} (hv : Climb up n v t) :
    (v.map up).take v.tail.length = v.tail.map some := by
  rw [hv.map_up]
  simp

omit [DecidableEq σ] in
/-- The states entered: up to below the common parent, or all when there is none. -/
theorem entered_below (H : Hierarchy σ M) {v : List σ} {t u : σ} {com : Option Nat} (hv : Climb H.parent n v t)
    (htop : H.parent t = none) (hnone : com = none → H.parent u = none)
    (hsome : ∀ j, com = some j → j < v.tail.length ∧ ∃ a, H.parent u = some a ∧
      (v.map H.parent)[j]? = some (some a)) :
    ∃ below t', Climb H.parent n below t' ∧ below.tail.length = com.getD v.tail.length ∧
      below.tail.map some <+: v.map H.parent ∧ H.above u = H.above t' := by
  cases hcom : com with
  | none =>
    refine ⟨v, t, hv, rfl, tail_prefix_of_climb hv, ?_⟩
    rw [H.above_of_none (hnone hcom), H.above_of_none htop]
  | some j =>
    obtain ⟨hj, a, hua, hja⟩ := hsome j hcom
    have hjv : v.tail[j]? = some a := by
      have hjt : (v.tail.map some)[j]? = some (some a) := by
        rw [← take_parents hv, List.getElem?_take_of_lt hj, hja]
      simpa using hjt
    have hsplit : v = n :: v.tail.take j ++ a :: v.tail.drop (j + 1) := by
      obtain ⟨hlt, ha⟩ := List.getElem?_eq_some_iff.1 hjv
      rw [← ha, ← List.drop_eq_getElem_cons hlt, List.cons_append, List.take_append_drop]
      exact hv.eq_cons
    obtain ⟨t', ht', hta⟩ := hv.upTo hsplit
    refine ⟨_, t', ht', ?_, ?_, ?_⟩
    · rw [List.tail_cons, List.length_take]
      simp only [Option.getD_some]
      omega
    · rw [List.tail_cons, List.map_take]
      exact (List.take_prefix _ _).trans (tail_prefix_of_climb hv)
    · rw [H.above_of_some hua, H.above_of_some hta]

/-- The calls of a transition, in order: EXIT to `left`, then ENTRY to `v` from its end. -/
theorem transitionState_route (H : Hierarchy σ M) (h : Consistent H.parent answer)
    (hc : hsm.currentState = some c) (n : σ) :
    ∃ left v hsm', transitionState M (stateFns answer) n hsm = .ok hsm' ∧
      Route H.toForest c n left v ∧ hsm'.currentState = some n ∧ hsm'.handlerSet = hsm.handlerSet ∧
      notWalk hsm'.calls = v.map entryCall ++ (left.reverse.map exitCall ++ notWalk hsm.calls) := by
  obtain ⟨v, t, ps, num, hsm₁, hcol, hv, hps, hM, hn, hs₁, hbelow, hend⟩ :=
    collectParents_hierarchy H h { hsm with tmpState := some n } (fun hsm => hsm.tmpState = hsm.currentState)
      (fun fn => fn = some c) rfl
      (by intro hsm' hcur; rw [hcur, hc])
  have hps_len : (v.map H.parent).length ≤ M := by rwa [List.length_map]
  have hcur₁ : hsm₁.currentState = some c := hs₁.current.trans hc
  subst hn
  by_cases hfound : H.parent t = some c
  · -- the current state is an ancestor: nothing is left
    obtain ⟨hsm₃, hsm₄, hent, hlast, -, hs₂⟩ :=
      enter_spec answer hsm₁ hps hps_len (tail_prefix_of_climb hv) hv
    have hs := hs₁.trans hs₂
    refine ⟨[], v, _, transitionState_eq (some v.tail.length) hcol ?_ ?_ hent hlast,
      .down hv (H.above_of_some hfound), rfl, hs.handler, by simpa using hs.calls⟩
    · simp [hfound]
    · simp [hfound]
  · have htop : H.parent t = none := hend.resolve_left (by simpa using hfound)
    have habove : H.above n = v.tail := by
      have hch := H.chain_of_climb hv
      rw [H.above_of_none htop, List.append_nil, H.chain_eq, hv.eq_cons] at hch
      exact (List.cons.inj hch).2
    have htake := take_parents hv
    have hcn : c ∉ H.above n := by
      intro hmem
      rw [habove] at hmem
      obtain ⟨u, hu, hup⟩ := hv.exists_child hmem
      simpa [hup] using hbelow u hu
    obtain ⟨w, u, com, hsm₂, hex, hw, hs₂, hwM, hskip, hsome, hnone⟩ :=
      sendExits_spec h.passing hps hps_len (n := v.tail.length) (by simp)
        (show ({ hsm₁ with tmpState := hsm₁.currentState } : Hsm σ μ).tmpState = some c from hcur₁) (H.depth_pos c)
    have hleft : ∀ x ∈ w.tail, x ∉ H.above n := by
      intro x hx hmem
      obtain ⟨y, hy, hyx⟩ := hw.exists_child hx
      apply hskip y hy
      rw [htake, hyx]
      exact List.mem_map_of_mem (habove ▸ hmem)
    have hroot : com = none → H.parent u = none := by
      intro hcom
      rcases hnone hcom with hu | ⟨-, hwM'⟩
      · exact hu
      · exact H.root_of_climb (H.short c) hw (by omega)
    obtain ⟨below, t', hb, hbtail, hpre, hab⟩ := entered_below H hv htop hroot hsome
    obtain ⟨hsm₃, hsm₄, hent, hlast, -, hs₃⟩ :=
      enter_spec answer hsm₂ hps hps_len hpre hb
    have hs := hs₂.trans hs₃
    have hcalls := hs.calls
    refine ⟨w, below, _, transitionState_eq com hcol (fun _ => hex) ?_ (hbtail ▸ hent) hlast,
      .across hcn hleft hw hb hab, rfl, hs.handler.trans hs₁.handler, ?_⟩
    · simp [hfound]
    · rw [List.append_assoc] at hcalls
      have hnw := hs₁.calls
      rw [List.nil_append] at hnw
      exact hcalls.trans (by rw [hnw])

theorem msgHandler_eq {fns : StateFns σ μ} {msgId : MsgId} {msg : Option μ} {fuel : Nat} {hsm₁ : Hsm σ μ}
    {ret : HsmRet} (hc : hsm.currentState = some c)
    (hb : bubble fns msgId msg fuel { hsm with tmpState := some c } = .ok (ret, hsm₁)) :
    msgHandler M fns fuel msgId msg hsm =
      if ret = .transition ∧ hsm₁.tmpState ≠ hsm₁.currentState then
        notNull hsm₁ hsm₁.tmpState >>= fun newState => transitionState M fns newState hsm₁
      else .ok hsm₁ := by
  have hstart : { hsm with tmpState := hsm.currentState } = { hsm with tmpState := some c } := by rw [hc]
  rw [msgHandler, hstart, hb]
  rfl

/-- A message leaves the current state as it is, without an ENTRY or EXIT, or leads to another one. -/
theorem msgHandler_route (H : Hierarchy σ M) (h : Consistent H.parent answer)
    (hc : hsm.currentState = some c) {msgId : MsgId} (hid : ¬ Reserved msgId) (msg : Option μ) {fuel : Nat}
    (hf : M ≤ fuel) :
    ∃ hsm₁ hsm' up, bubble (stateFns answer) msgId msg fuel { hsm with tmpState := some c } = .ok (up, hsm₁) ∧
      msgHandler M (stateFns answer) fuel msgId msg hsm = .ok hsm' ∧ hsm'.handlerSet = hsm.handlerSet ∧
      (∃ v t, Climb H.parent c v t ∧ hsm₁.calls = v.reverse.map (⟨·, msgId, msg⟩) ++ hsm.calls) ∧
      (hsm' = hsm₁ ∧ hsm₁.currentState = some c ∨
        ∃ n left v, up = .transition ∧ hsm₁.tmpState = some n ∧ n ≠ c ∧ Route H.toForest c n left v ∧
          hsm'.currentState = some n ∧
          notWalk hsm'.calls = v.map entryCall ++ (left.reverse.map exitCall ++ notWalk hsm₁.calls)) := by
  obtain ⟨v, t, a, hsm₁, hb, hap, hat, -, hv, htmp, hcur, hhs, hcalls⟩ :=
    bubble_passes (h.namesParent (F := H.toForest) hid msg)
      (show ({ hsm with tmpState := some c } : Hsm σ μ).tmpState = some c from rfl) (Nat.le_trans (H.short c) hf)
  have hcur₁ : hsm₁.currentState = some c := hcur.trans hc
  have hmsg := msgHandler_eq (M := M) hc hb
  by_cases hgo : a.ret = .transition ∧ hsm₁.tmpState ≠ hsm₁.currentState
  · obtain ⟨hret, hne⟩ := hgo
    obtain ⟨n, rfl⟩ : ∃ n, a = .transition (some n) := by
      rcases h.other hsm₁.calls.tail ⟨t, msgId, msg⟩ hid with ha | ha | ⟨n, ha⟩
      · rw [hat, ha] at hret
        cases hret
      · rw [hat, ha] at hret
        rcases defaultAnswer_ret_walk (s := t) with hr | hr <;> rw [hr] at hret <;> cases hret
      · exact ⟨n, hat.trans ha⟩
    have hn : hsm₁.tmpState = some n := htmp
    obtain ⟨left, v', hsm', heq, hroute, hcur', hhs', hcalls'⟩ := transitionState_route H h hcur₁ n
    refine ⟨hsm₁, hsm', _, hb, ?_, hhs'.trans hhs, ⟨v ++ [t], t, hv, hcalls⟩,
      Or.inr ⟨n, left, v', rfl, hn, ?_, hroute, hcur', hcalls'⟩⟩
    · rw [hmsg, if_pos ⟨hret, hne⟩, hn]
      exact heq
    · rintro rfl
      exact hne (hn.trans hcur₁.symm)
  · exact ⟨hsm₁, hsm₁, _, hb, by rw [hmsg, if_neg hgo], hhs, ⟨v ++ [t], t, hv, hcalls⟩, Or.inl ⟨rfl, hcur₁⟩⟩

/-! ## What has been entered -/

def toMove (call : Call σ μ) : Option (Move σ) :=
  if call.msgId = hsmMsgIdEntry then some (.enter call.state)
  else if call.msgId = hsmMsgIdExit then some (.leave call.state) else none

omit [DecidableEq σ] in
theorem toMove_entry (s : σ) (msg : Option μ) : toMove ⟨s, hsmMsgIdEntry, msg⟩ = some (.enter s) := if_pos rfl

omit [DecidableEq σ] in
theorem toMove_exit (s : σ) (msg : Option μ) : toMove ⟨s, hsmMsgIdExit, msg⟩ = some (.leave s) := by
  have hne : hsmMsgIdExit ≠ hsmMsgIdEntry := by decide
  exact (if_neg hne).trans (if_pos rfl)

def moves (calls : List (Call σ μ)) : List (Move σ) := calls.filterMap toMove

def received (calls : List (Call σ μ)) (s : σ) (msgId : MsgId) : Nat :=
  calls.countP fun call => call.state = s ∧ call.msgId = msgId

def Active (calls : List (Call σ μ)) (s : σ) : Prop :=
  received calls s hsmMsgIdEntry = received calls s hsmMsgIdExit + 1

def Inactive (calls : List (Call σ μ)) (s : σ) : Prop :=
  received calls s hsmMsgIdEntry = received calls s hsmMsgIdExit

section
omit [DecidableEq σ]

theorem moves_append (l r : List (Call σ μ)) : moves (l ++ r) = moves l ++ moves r :=
  List.filterMap_append

theorem toMove_eq_enter {call : Call σ μ} :
    toMove call = some (.enter s) ↔ call.state = s ∧ call.msgId = hsmMsgIdEntry := by
  unfold toMove
  split
  · rename_i hid
    simp [hid]
  · rename_i hid
    split <;> simp [hid]

theorem toMove_eq_leave {call : Call σ μ} :
    toMove call = some (.leave s) ↔ call.state = s ∧ call.msgId = hsmMsgIdExit := by
  have hne : hsmMsgIdEntry ≠ hsmMsgIdExit := by decide
  unfold toMove
  split
  · rename_i hid
    simp [hid, hne]
  · split <;> simp [*]

end

theorem count_moves (calls : List (Call σ μ)) {e : Move σ} {msgId : MsgId}
    (h : ∀ call : Call σ μ, toMove call = some e ↔ call.state = s ∧ call.msgId = msgId) :
    (moves calls).count e = received calls s msgId := by
  unfold moves received List.count
  rw [List.countP_filterMap]
  apply List.countP_congr
  intro call _
  have hc := h call
  cases ho : toMove call with
  | none =>
    rw [ho] at hc
    simpa using hc
  | some e' =>
    rw [ho] at hc
    simpa using hc

theorem count_enter (calls : List (Call σ μ)) (s : σ) :
    (moves calls).count (.enter s) = received calls s hsmMsgIdEntry :=
  count_moves calls fun _ => toMove_eq_enter

theorem count_leave (calls : List (Call σ μ)) (s : σ) :
    (moves calls).count (.leave s) = received calls s hsmMsgIdExit :=
  count_moves calls fun _ => toMove_eq_leave

theorem active_of_inside {calls : List (Call σ μ)} (h : Inside (moves calls) s) : Active calls s := by
  rwa [Inside, count_enter, count_leave] at h

theorem inactive_of_outside {calls : List (Call σ μ)} (h : Outside (moves calls) s) : Inactive calls s := by
  rwa [Outside, count_enter, count_leave] at h

section
omit [DecidableEq σ]

theorem moves_notWalk (calls : List (Call σ μ)) : moves (notWalk calls) = moves calls := by
  rw [moves, notWalk, List.filterMap_filter]
  congr 1
  funext call
  by_cases hw : call.msgId = hsmMsgIdWalk
  · have : toMove call = none := by
      rw [toMove, hw, if_neg (by decide), if_neg (by decide)]
    simp [hw, this]
  · simp [hw]

theorem moves_entries (v : List σ) : moves (v.map (entryCall (μ := μ))) = v.map .enter := by
  induction v with
  | nil => rfl
  | cons s v ih =>
    rw [List.map_cons, entryCall, moves, List.filterMap_cons_some (toMove_entry s none), ← moves, ih, List.map_cons]

theorem moves_exits (v : List σ) : moves (v.map (exitCall (μ := μ))) = v.map .leave := by
  induction v with
  | nil => rfl
  | cons s v ih =>
    rw [List.map_cons, exitCall, moves, List.filterMap_cons_some (toMove_exit s none), ← moves, ih, List.map_cons]

theorem moves_other {msgId : MsgId} (hid : ¬ Reserved msgId) (msg : Option μ) (v : List σ)
    (calls : List (Call σ μ)) :
    moves (v.map (⟨·, msgId, msg⟩) ++ calls) = moves calls := by
  have hen : msgId ≠ hsmMsgIdEntry := fun h => hid (Or.inr (Or.inl h))
  have hex : msgId ≠ hsmMsgIdExit := fun h => hid (Or.inr (Or.inr h))
  induction v with
  | nil => rfl
  | cons s v ih =>
    rw [List.map_cons, List.cons_append, moves, List.filterMap_cons_none (by simp [toMove, hen, hex])]
    exact ih

end

/-! ## Runs -/

/-- The states entered and not left are those of the current state's chain. -/
structure Configured (H : Hierarchy σ M) (hsm : Hsm σ μ) (c : σ) : Prop where
  current : hsm.currentState = some c
  handler : hsm.handlerSet = true
  follows : Follows H.toForest (moves hsm.calls) (H.chain c)

omit [DecidableEq σ] in
theorem hsmStart_configured (H : Hierarchy σ M) (h : Consistent H.parent answer)
    (hc : hsm.currentState = some c) (hhs : hsm.handlerSet = true) (hcalls : hsm.calls = []) :
    ∃ hsm', hsmStart M (stateFns answer) hsm = .ok hsm' ∧ Configured H hsm' c := by
  obtain ⟨hsm', t, heq, hv, htop, hs⟩ := hsmStart_spec H h hc
  refine ⟨hsm', heq, hs.current.trans hc, hs.handler.trans hhs, ?_⟩
  have hmoves : moves hsm'.calls = (H.chain c).map .enter ++ [] := by
    rw [← moves_notWalk, hs.calls, hcalls, moves_append, moves_entries]
    rfl
  have hstart : Follows H.toForest [] (H.above t) := htop ▸ Follows.start
  rw [hmoves]
  exact hstart.enter_all hv

theorem msgHandler_configured (H : Hierarchy σ M) (h : Consistent H.parent answer)
    (hcon : Configured H hsm c) {msgId : MsgId} (hid : ¬ Reserved msgId) (msg : Option μ) {fuel : Nat}
    (hf : M ≤ fuel) :
    ∃ hsm' n, msgHandler M (stateFns answer) fuel msgId msg hsm = .ok hsm' ∧ Configured H hsm' n := by
  obtain ⟨hsm₁, hsm', ret, -, heq, hhs, ⟨w, t, -, hcalls⟩, hend⟩ :=
    msgHandler_route H h hcon.current hid msg hf
  have hfol : Follows H.toForest (moves hsm₁.calls) (H.chain c) := by
    rw [hcalls, moves_other hid]
    exact hcon.follows
  rcases hend with ⟨rfl, hcur⟩ | ⟨n, left, v, -, -, -, hroute, hcur, hnw⟩
  · exact ⟨hsm', c, heq, hcur, hhs.trans hcon.handler, hfol⟩
  · refine ⟨hsm', n, heq, hcur, hhs.trans hcon.handler, ?_⟩
    have hmoves : moves hsm'.calls = v.map .enter ++ (left.reverse.map .leave ++ moves hsm₁.calls) := by
      rw [← moves_notWalk, hnw, moves_append, moves_append, moves_entries, moves_exits, moves_notWalk]
    rw [hmoves]
    exact hfol.route hroute

theorem handleMsg_configured (H : Hierarchy σ M) (h : Consistent H.parent answer)
    (hcon : Configured H hsm c) {msg : MsgId × Option μ} (hid : ¬ Reserved msg.1) {fuel : Nat}
    (hf : M ≤ fuel) :
    ∃ hsm' n, handleMsg M (stateFns answer) fuel msg hsm = .ok hsm' ∧ Configured H hsm' n := by
  obtain ⟨hsm₁, n, heq, hcon₁⟩ := msgHandler_configured H h
    (show Configured H { hsm with log := .handle msg hsm.currentState :: hsm.log } c from
      ⟨hcon.current, hcon.handler, hcon.follows⟩) hid msg.2 hf
  refine ⟨{ hsm₁ with log := .done hsm₁.currentState :: hsm₁.log }, n, ?_,
    hcon₁.current, hcon₁.handler, hcon₁.follows⟩
  rw [handleMsg, if_pos hcon.handler, heq]
  rfl

theorem handleMsgs_configured (H : Hierarchy σ M) (h : Consistent H.parent answer) {fuel : Nat} (hf : M ≤ fuel)
    {msgs : List (MsgId × Option μ)} (hm : ∀ msg ∈ msgs, ¬ Reserved msg.1) (hcon : Configured H hsm c) :
    ∃ hsm' n, msgs.foldlM (fun hsm msg => handleMsg M (stateFns answer) fuel msg hsm) hsm = .ok hsm' ∧
      Configured H hsm' n := by
  induction msgs generalizing hsm c with
  | nil => exact ⟨hsm, c, rfl, hcon⟩
  | cons msg msgs ih =>
    obtain ⟨hsm₁, n, heq, hcon₁⟩ := handleMsg_configured H h hcon (hm msg List.mem_cons_self) hf
    obtain ⟨hsm', n', heq', hcon'⟩ := ih (fun m hmem => hm m (List.mem_cons_of_mem _ hmem)) hcon₁
    refine ⟨hsm', n', ?_, hcon'⟩
    rw [List.foldlM_cons, heq]
    exact heq'

/-- The states that are active after a run are the current state and its ancestors, and every ENTRY
and EXIT of the run found its state, the parent and the children as they should be. -/
theorem active_configuration (H : Hierarchy σ M) (h : Consistent H.parent answer) (hcalls : hsm.calls = [])
    (initialState : σ) {msgs : List (MsgId × Option μ)} (hm : ∀ msg ∈ msgs, ¬ Reserved msg.1)
    {fuel : Nat} (hf : M ≤ fuel) :
    ∃ hsm' c, hsmRun M (stateFns answer) fuel initialState msgs hsm = .ok hsm' ∧ hsm'.currentState = some c ∧
      (∀ s, s ∈ H.chain c → Active hsm'.calls s) ∧ (∀ s, s ∉ H.chain c → Inactive hsm'.calls s) ∧
      (∀ later earlier s msg, hsm'.calls = later ++ ⟨s, hsmMsgIdEntry, msg⟩ :: earlier →
        Inactive earlier s ∧ ∀ p, H.parent s = some p → Active earlier p) ∧
      (∀ later earlier s msg, hsm'.calls = later ++ ⟨s, hsmMsgIdExit, msg⟩ :: earlier →
        Active earlier s ∧ ∀ p, H.parent p = some s → Inactive earlier p) := by
  obtain ⟨hsm₁, hstart, hcon₁⟩ :=
    hsmStart_configured H h (show ({ hsm with currentState := some initialState, handlerSet := true } :
      Hsm σ μ).currentState = some initialState from rfl) rfl hcalls
  obtain ⟨hsm', c, hrun, hcon⟩ := handleMsgs_configured H h hf hm hcon₁
  refine ⟨hsm', c, ?_, hcon.current, ?_, ?_, ?_, ?_⟩
  · rw [hsmRun, hsmInit]
    simp only [notNull, bind, Except.bind, hstart]
    exact hrun
  · intro s hs
    exact active_of_inside (hcon.follows.inside hs)
  · intro s hs
    exact inactive_of_outside (hcon.follows.outside hs)
  · intro later earlier s msg heq
    have hfol := hcon.follows
    rw [heq, moves_append, moves, moves, List.filterMap_cons_some (toMove_entry s msg)] at hfol
    obtain ⟨st, hst⟩ := hfol.earlier
    have he := hst.entered
    exact ⟨inactive_of_outside he.1, fun p hp => active_of_inside (he.2 p hp)⟩
  · intro later earlier s msg heq
    have hfol := hcon.follows
    rw [heq, moves_append, moves, moves, List.filterMap_cons_some (toMove_exit s msg)] at hfol
    obtain ⟨st, hst⟩ := hfol.earlier
    have hl := hst.left
    exact ⟨active_of_inside hl.1, fun p hp => inactive_of_outside (hl.2 p hp)⟩

inductive TestState where
  | top
  | sub
  | start
  | sibling
  deriving DecidableEq

def TestState.parent : TestState → Option TestState
  | .top => none
  | .sub => some .top
  | .start => some .sub
  | .sibling => some .sub

def TestState.depth : TestState → Nat
  | .top => 0
  | .sub => 1
  | .start => 2
  | .sibling => 2

def testForest : Forest TestState where
  parent := TestState.parent
  acyclic := by
    apply Subrelation.wf (r := InvImage (· < ·) TestState.depth) _ (InvImage.wf _ Nat.lt_wfRel.wf)
    intro p s h
    show p.depth < s.depth
    cases s <;> cases h <;> decide

def testHierarchy : Hierarchy TestState 3 where
  toForest := testForest
  short := by
    intro s
    cases s <;> simp [Forest.chain_eq, Forest.above, testForest, TestState.parent]

/-- `sub` answers message 1 with a transition to `sibling`, `top` and `start` consume ENTRY and EXIT. -/
def testAnswer (_ : List (Call TestState Nat)) (call : Call TestState Nat) : Answer TestState :=
  if call.msgId = 1 ∧ call.state = .sub then .transition (some .sibling)
  else if (call.msgId = hsmMsgIdEntry ∨ call.msgId = hsmMsgIdExit) ∧ call.state ≠ .sub then .consumed
  else defaultAnswer TestState.parent call.state

theorem testAnswer_consistent : Consistent testHierarchy.parent testAnswer := by
  constructor
  · intro calls s
    cases s <;> rfl
  · intro calls s
    cases s
    · exact Or.inl rfl
    · exact Or.inr rfl
    · exact Or.inl rfl
    · exact Or.inl rfl
  · intro calls call _
    unfold testAnswer
    split
    · exact Or.inr (Or.inr ⟨_, rfl⟩)
    · split
      · exact Or.inl rfl
      · exact Or.inr (Or.inl rfl)

theorem active_configuration_test : ∃ hsm' c,
    hsmRun 3 (stateFns testAnswer) 3 .start [(1, some 0), (2, none)] ⟨none, none, false, [], [], []⟩ = .ok hsm' ∧
      hsm'.currentState = some c ∧ (∀ s, s ∈ testHierarchy.chain c → Active hsm'.calls s) ∧
      ∀ s, s ∉ testHierarchy.chain c → Inactive hsm'.calls s := by
  have hm : ∀ msg ∈ [((1 : MsgId), some 0), (2, none)], ¬ Reserved msg.1 := by decide
  obtain ⟨hsm', c, hrun, hc, hact, hin, -⟩ :=
    active_configuration testHierarchy testAnswer_consistent
      (show (⟨none, none, false, [], [], []⟩ : Hsm TestState Nat).calls = [] from rfl) .start hm (Nat.le_refl 3)
  exact ⟨hsm', c, hrun, hc, hact, hin⟩

end ZephyrPubSub
