import ZephyrPubSub.Configuration

/-!
# Hierarchies of any depth and graphs with cycles

Only the walks of `hsm_start` and of a transition have an array to fill.
Bubbling has no limit on the depth, and the walks end after `M` states
wherever the parents lead.
-/

namespace ZephyrPubSub

open Ancestry

variable {σ μ : Type} {M : Nat} {answer : List (Call σ μ) → Call σ μ → Answer σ}
variable {hsm : Hsm σ μ} {c n : σ}

/-! ## Bubbling -/

theorem climb_prefix (F : Forest σ) {s t : σ} {v : List σ} (h : Climb F.parent s v t) : v <+: F.chain s := by
  rw [F.chain_of_climb h]
  exact List.prefix_append _ _

theorem nodup_chain (F : Forest σ) (s : σ) : (F.chain s).Nodup := by
  rw [F.chain_eq]
  exact List.nodup_cons.mpr ⟨F.not_mem_above s, F.nodup_above s⟩

/-- The message goes to `c` and its ancestors, to each once, up to the first state `t` that does not answer
with its parent. If that answer leads nowhere else, nothing more is called. A transition
starts from `c`, whichever state `t` is. -/
theorem message_bubbles [DecidableEq σ] (F : Forest σ) {msgId : MsgId} {msg : Option μ}
    (h : NamesParent F answer msgId msg) (hc : hsm.currentState = some c) {fuel : Nat}
    (hf : (F.chain c).length ≤ fuel) :
    ∃ v t a hsm₁, v ++ [t] <+: F.chain c ∧ (v ++ [t]).Nodup ∧ Passes answer msgId msg hsm.calls v ∧
      a = answer hsm₁.calls.tail ⟨t, msgId, msg⟩ ∧ a.ret ≠ .parent ∧
      hsm₁.calls = (v ++ [t]).reverse.map (⟨·, msgId, msg⟩) ++ hsm.calls ∧ hsm₁.currentState = some c ∧
      (a = .consumed ∨ a = .topState ∨ a = .transition (some c) →
        msgHandler M (stateFns answer) fuel msgId msg hsm = .ok hsm₁) ∧
      ∀ n, n ≠ c → a = .transition (some n) →
        msgHandler M (stateFns answer) fuel msgId msg hsm = transitionState M (stateFns answer) n hsm₁ := by
  obtain ⟨v, t, a, hsm₁, hb, hap, hat, hpass, hv, htmp, hcur, -, hcalls⟩ :=
    bubble_passes h (show ({ hsm with tmpState := some c } : Hsm σ μ).tmpState = some c from rfl) hf
  have hpre := climb_prefix F hv
  have hcur₁ : hsm₁.currentState = some c := hcur.trans hc
  have hmsg := msgHandler_eq (M := M) hc hb
  refine ⟨v, t, a, hsm₁, hpre, (nodup_chain F c).sublist hpre.sublist, hpass, hat, hap, hcalls, hcur₁, ?_, ?_⟩
  · intro ha
    have hstay : ¬ (a.ret = .transition ∧ hsm₁.tmpState ≠ hsm₁.currentState) := by
      rw [htmp, hcur₁]
      obtain rfl | rfl | rfl := ha <;> simp [Answer.ret, Answer.assign]
    rw [hmsg, if_neg hstay]
  · intro n hn ha
    have htmp' : hsm₁.tmpState = some n := by
      rw [htmp, ha]
      rfl
    have hgo : a.ret = .transition ∧ hsm₁.tmpState ≠ hsm₁.currentState := by
      rw [htmp', hcur₁, ha]
      exact ⟨rfl, fun he => hn (Option.some.inj he)⟩
    rw [hmsg, if_pos hgo, htmp']
    rfl

theorem message_bubbles_test : ∃ v t hsm₁, v ++ [t] <+: [.start, .sub, .top] ∧
    hsm₁.calls = (v ++ [t]).reverse.map (⟨·, 1, some 0⟩) ∧ hsm₁.currentState = some .start ∧
      (testAnswer hsm₁.calls.tail ⟨t, 1, some 0⟩ = .transition (some .sibling) →
        msgHandler 1 (stateFns testAnswer) 3 1 (some 0) ⟨some .start, none, true, [], [], []⟩ =
          transitionState 1 (stateFns testAnswer) .sibling hsm₁) := by
  have hchain : testForest.chain .start = [.start, .sub, .top] := by
    simp [Forest.chain_eq, Forest.above, testForest, TestState.parent]
  obtain ⟨v, t, a, hsm₁, hpre, -, -, ha, -, hcalls, hcur, -, htrans⟩ := message_bubbles (M := 1) testForest
    (testAnswer_consistent.namesParent (F := testForest) (show ¬ Reserved 1 by decide) (some 0))
    (show (⟨some .start, none, true, [], [], []⟩ : Hsm TestState Nat).currentState = some .start from rfl)
    (show (testForest.chain .start).length ≤ 3 by rw [hchain]; decide)
  refine ⟨v, t, hsm₁, hchain ▸ hpre, by simpa using hcalls, hcur, ?_⟩
  intro h
  exact htrans .sibling (by decide) (ha.trans h)

/-! ## The walks -/

section
variable {up : σ → Option σ} {hsm' : Hsm σ μ}

/-- From `hsm` to `hsm'` at most `M` ENTRY and at most `M` EXIT messages are sent, and the last is an ENTRY
to `s`. -/
def EndsIn (M : Nat) (s : σ) (hsm hsm' : Hsm σ μ) : Prop :=
  ∃ left entered : List σ, notWalk hsm'.calls = (s :: entered).map entryCall ++
    (left.map exitCall ++ notWalk hsm.calls) ∧
    (s :: entered).length ≤ M ∧ left.length ≤ M

theorem enter_below (answer : List (Call σ μ) → Call σ μ → Answer σ) (hsm : Hsm σ μ) (n : σ) {ps : Parents σ M}
    {l : List (Option σ)} {w : List σ} (hps : Written ps l) (hM : l.length ≤ M) (hw : w.map some <+: l) :
    ∃ hsm₁ hsm', sendEntries (stateFns answer) ps w.length hsm = .ok hsm₁ ∧
      stateFns answer ⟨n, hsmMsgIdEntry, none⟩ hsm₁ = .ok ((answer hsm₁.calls (entryCall n)).ret, hsm') ∧
      hsm₁.currentState = hsm.currentState ∧ Sends hsm hsm' ((n :: w).map entryCall) := by
  obtain ⟨hsm₁, heq, hsend⟩ := sendEntries_spec answer hsm hps hM hw
  exact ⟨hsm₁, _, heq, stateFns_eq _ _, hsend.current, hsend.trans (sends_entry _)⟩

theorem hsmStart_bounded (h : Passing up answer) (hM : 1 ≤ M) (hc : hsm.currentState = some c) :
    ∃ hsm', hsmStart M (stateFns answer) hsm = .ok hsm' ∧ EndsIn M c hsm hsm' ∧ hsm'.currentState = some c := by
  obtain ⟨v, t, ps, num, hsm₁, hcol, hv, hps, hvM, hn, hs₁, -, -⟩ :=
    collectParents_start h hM { hsm with tmpState := some c } (fun _ => false) (fun _ => false) rfl (fun _ _ => rfl)
  have hlen : v.tail.length = num := by rw [List.length_tail, hn, Nat.add_sub_cancel]
  obtain ⟨hsm₂, hsm', hent, hlast, hcur, hs₂⟩ :=
    enter_below answer hsm₁ c hps (by rwa [List.length_map]) (tail_prefix_of_climb hv)
  have hc₂ : hsm₂.currentState = some c := by rw [hcur, hs₁.current, hc]
  have hs := hs₁.trans hs₂
  refine ⟨hsm', ?_, ⟨[], v.tail, by simpa using hs.calls, ?_, Nat.zero_le _⟩, hs.current.trans hc⟩
  · subst hlen
    simp only [hc] at hcol
    simp only [hsmStart, hc, notNull, bind, Except.bind, hcol, hent, hc₂, hlast]
  · rw [List.length_cons]
    omega

theorem transitionState_bounded [DecidableEq σ] (h : Passing up answer) (hM : 1 ≤ M)
    (hc : hsm.currentState = some c) (n : σ) :
    ∃ hsm', transitionState M (stateFns answer) n hsm = .ok hsm' ∧ EndsIn M n hsm hsm' ∧
      hsm'.currentState = some n := by
  obtain ⟨v, t, ps, num, hsm₁, hcol, hv, hps, hvM, hn, hs₁, -, -⟩ :=
    collectParents_start h hM { hsm with tmpState := some n } (fun hsm => hsm.tmpState = hsm.currentState)
      (fun fn => fn = some c) rfl (by intro hsm' hcur; rw [hcur, hc])
  have hlen : v.tail.length = num := by rw [List.length_tail, hn, Nat.add_sub_cancel]
  have hmap : (v.map up).length ≤ M := by rwa [List.length_map]
  have hcur₁ : hsm₁.currentState = some c := hs₁.current.trans hc
  by_cases hfound : up t = some c
  · obtain ⟨hsm₃, hsm₄, hent, hlast, -, hs₃⟩ := enter_below answer hsm₁ n hps hmap (tail_prefix_of_climb hv)
    rw [hlen] at hent
    refine ⟨_, transitionState_eq (some num) hcol (by simp [hfound]) (by simp [hfound]) hent hlast,
      ⟨[], v.tail, by simpa using (hs₁.trans hs₃).calls, ?_, Nat.zero_le _⟩, rfl⟩
    rw [List.length_cons]
    omega
  · obtain ⟨w, u, com, hsm₂, hex, -, hs₂, hwM, -, hsome, -⟩ :=
      sendExits_spec h hps hmap (n := num) (by rw [List.length_map]; omega)
        (show ({ hsm₁ with tmpState := hsm₁.currentState } : Hsm σ μ).tmpState = some c from hcur₁) hM
    -- below a common parent, or all that has been collected
    obtain ⟨below, hbl, hpre⟩ : ∃ below : List σ, below.length = com.getD num ∧ below.map some <+: v.map up := by
      cases hcom : com with
      | none => exact ⟨v.tail, hlen, tail_prefix_of_climb hv⟩
      | some j =>
        have hj := (hsome j hcom).1
        refine ⟨v.tail.take j, ?_, ?_⟩
        · rw [List.length_take, Option.getD_some]
          omega
        · rw [List.map_take]
          exact (List.take_prefix _ _).trans (tail_prefix_of_climb hv)
    have hblM : below.length ≤ num := by
      rw [hbl]
      cases hcom : com with
      | none => exact Nat.le_refl _
      | some j => exact Nat.le_of_lt (hsome j hcom).1
    obtain ⟨hsm₃, hsm₄, hent, hlast, -, hs₃⟩ := enter_below answer hsm₂ n hps hmap hpre
    rw [hbl] at hent
    refine ⟨_, transitionState_eq com hcol (fun _ => hex) (by simp [hfound]) hent hlast,
      ⟨w.reverse, below, ?_, ?_, ?_⟩, rfl⟩
    · have hcalls := (hs₂.trans hs₃).calls
      have hnw := hs₁.calls
      rw [List.nil_append] at hnw
      rw [List.append_assoc] at hcalls
      exact hcalls.trans (by rw [hnw])
    · rw [List.length_cons]
      omega
    · rw [List.length_reverse]
      omega

/-- Wherever the parents lead, `hsm_start` and a transition end without a failed assertion and without an
access to `parents` that is out of bounds or reads an entry not written. -/
theorem walks_bounded [DecidableEq σ] (h : Passing up answer) (hM : 1 ≤ M) (hc : hsm.currentState = some c) (n : σ) :
    (∃ hsm', hsmStart M (stateFns answer) hsm = .ok hsm' ∧ EndsIn M c hsm hsm' ∧ hsm'.currentState = some c) ∧
      ∃ hsm', transitionState M (stateFns answer) n hsm = .ok hsm' ∧ EndsIn M n hsm hsm' ∧
        hsm'.currentState = some n :=
  ⟨hsmStart_bounded h hM hc, transitionState_bounded h hM hc n⟩

/-- Two states that name each other as parents, and EXIT consumed by one of them. -/
def cyclicAnswer (_ : List (Call Bool Nat)) (call : Call Bool Nat) : Answer Bool :=
  if call = exitCall true then .consumed else .parent (some !call.state)

theorem cyclicAnswer_passing : Passing (fun s : Bool => some !s) cyclicAnswer := by
  refine ⟨?_, ?_⟩
  · intro calls s
    cases s <;> rfl
  · intro calls s
    cases s
    · exact .inr rfl
    · exact .inl rfl

theorem walks_bounded_cyclic : ∃ hsm' : Hsm Bool Nat,
    transitionState 2 (stateFns cyclicAnswer) false ⟨some true, none, true, [], [], []⟩ = .ok hsm' ∧
      EndsIn 2 false ⟨some true, none, true, [], [], []⟩ hsm' ∧ hsm'.currentState = some false :=
  (walks_bounded cyclicAnswer_passing (M := 2) (by decide) (c := true) rfl false).2

end

end ZephyrPubSub
