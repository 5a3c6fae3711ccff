import ZephyrPubSub.Carriers
import ZephyrPubSub.Sequence

/-!
# Who is given a message first

With fixed lists a message goes down its broker's list. Whoever has got it, the
subscribers in front of him that want it have got it before: the handler of a
callback subscriber has been called, a msgq subscriber has it queued at least,
and a FIFO subscriber has taken it out of its queue.
-/

namespace ZephyrPubSub

open Lists Function Runs

/-! ## The rest of the list -/

section
variable {S : Type} [DecidableEq S] {rx : S → RxType} {t : Track S} {o : Option (Site S)} {x y : S}

namespace Track

theorem todo_behind (hn : t.list.Nodup) (hx : x ∈ t.todo o) (hy : y ∈ after x t.list) : y ∈ t.todo o := by
  cases o with
  | none => cases hx
  | some u =>
    cases u with
    | pub => exact mem_of_mem_after hy
    | work =>
      simp only [todo] at hx ⊢
      cases hw : t.work with
      | none => rw [hw] at hx; cases hx
      | some w =>
        rw [hw] at hx
        cases w with
        | lock => exact mem_of_mem_after hy
        | scan sub => exact fromPtr_behind hn hx hy
        | put z => exact after_trans hn hx hy
    | sub z =>
      simp only [todo] at hx ⊢
      unfold subRest at hx ⊢
      split at hx
      · exact fromPtr_behind hn hx hy
      · exact after_trans hn hx hy

/-- The message has passed whoever is in front of somebody who has got it. -/
theorem Inv.passed (h : Inv rx t o) (hy : y ∈ after x t.list) (hg : 0 < t.got y) : x ∉ t.todo o := by
  intro hx
  have h0 := h.fresh.zero y (todo_behind h.nodup hx hy)
  exact absurd h0 (Nat.ne_of_gt hg)

theorem Inv.not_putting (h : Inv rx t o) (hy : y ∈ after x t.list) (hg : 0 < t.got y) :
    WorkPos.putting x t.work = 0 := by
  by_contra hp
  have hw : t.work = some (.put x) := by
    unfold WorkPos.putting at hp
    split at hp
    · rename_i z hw
      split at hp
      · subst z; exact hw
      · exact absurd rfl hp
    · exact absurd rfl hp
  obtain rfl := h.at_.of_work hw
  have h0 := h.fresh.zero y (by simpa only [view, todo, workRest, hw] using hy)
  exact absurd h0 (Nat.ne_of_gt hg)

theorem Inv.not_waiting (h : Inv rx t o) (hx : rx x = .fifo) (hy : y ∈ after x t.list) (hg : 0 < t.got y) :
    ¬ t.waiting x := by
  intro hw
  have h0 := h.fresh.zero y (by rw [view, (h.waiting hx hw).2]; exact hy)
  exact absurd h0 (Nat.ne_of_gt hg)

end Track

end

section
variable {B S : Type} [DecidableEq B] [DecidableEq S] {c : Cfg S} {s s' : Sys B S}
variable {b : B} {p : Pkt B} {x y : S} {i : MsgId} {o : Option (Site S)}

/-! ## What has got to a subscriber -/

def Called (s : Sys B S) : Prop := ∀ x p, s.svc x = .running p → .handed x p ∈ s.log

theorem Called.trans {a : Act B S} (h : Called s) (ht : Trans c s a s') : Called s' := by
  intro x p hv
  obtain ⟨es, hlog, -⟩ := trans_log ht
  by_cases ha : a = .svc x
  · subst ha
    cases ht with
    | handle =>
      simp only [update_self, Svc.running.injEq] at hv
      subst hv
      exact List.mem_append_right _ (List.mem_singleton_self _)
    | mem => exact h x p hv
    | _ => simp at hv
  · rw [svc_frame ht ha] at hv
    rw [hlog]
    exact List.mem_append_left es (h x p hv)

theorem Called.got_pos (h : Called s) (hy : Reached s y p) : 0 < (track s b p).got y := by
  have handed : .handed y p ∈ s.log → 0 < (track s b p).got y := by
    intro hl
    apply Nat.lt_of_lt_of_le _ (handed_le_got s b p y)
    exact List.count_pos_iff.mpr hl
  rcases hy with hl | hq | hv
  · exact handed hl
  · have := List.count_pos_iff.mpr hq
    simp only [Track.got, track]
    omega
  · cases hvy : s.svc y with
    | idle => rw [hvy] at hv; cases hv
    | running q =>
      rw [hvy] at hv
      cases hv
      exact handed (h y p hvy)
    | _ =>
      rw [hvy] at hv
      cases hv
      simp [Track.got, track, hvy, Svc.pos]

/-- The subscriber has got broker `b`'s message and lets it pass to those behind. -/
structure LetsPass (c : Cfg S) (s : Sys B S) (b : B) (p : Pkt B) (x : S) : Prop where
  reached : Reached s x p
  callback : c.rxType x = .callback → .handed x p ∈ s.log
  msgq : ∀ id tmp, s.work b ≠ .put p id x tmp
  fifo : c.rxType x = .fifo → p ∉ s.queue x

theorem Way.letsPass (h : Way c s b p i o) (hs : Sweep.Served x ((track s b p).view o))
    (hxy : y ∈ after x (s.subscribers b)) (hg : 0 < (track s b p).got y) : LetsPass c s b p x := by
  have hc := h.sound.carried
  have hput := h.inv.not_putting hxy hg
  have hgot : (track s b p).got x = 1 := hs.resolve_left (h.inv.passed hxy hg)
  have hreached : Reached s x p := by
    by_contra hn
    simp only [Reached, not_or] at hn
    obtain ⟨hl, hq, hv⟩ := hn
    have h₁ : timesHanded s.log x p = 0 := List.count_eq_zero.mpr hl
    have h₂ : (s.queue x).count p = 0 := List.count_eq_zero.mpr hq
    have h₃ : (s.svc x).pos p = none := by
      cases hvx : s.svc x with
      | idle => rfl
      | running => rfl
      | _ => rw [hvx] at hv; simp only [Svc.pkt, Option.some.injEq] at hv; simp [Svc.pos, hv]
    simp only [Track.got, track, h₁, h₂, h₃] at hgot hput
    simp [hput] at hgot
  refine ⟨hreached, ?_, ?_, ?_⟩
  · intro hcb
    rcases hreached with hl | hq | hv
    · exact hl
    · rw [queue_callback hc hcb] at hq; cases hq
    · rw [svc_msgq hc (by simp [hcb]) hcb] at hv; cases hv
  · intro id tmp hw
    simp [track, hw, Work.pos, WorkPos.putting] at hput
  · intro hf hq
    exact h.inv.not_waiting hf hxy hg (Or.inl (List.count_pos_iff.mpr hq))

/-! ## The order of the calls -/

def Precedent {α : Type} (e f : α) (l : List α) : Prop := ∀ l₁ l₂, l = l₁ ++ f :: l₂ → e ∈ l₁

theorem Precedent.append {α : Type} {e f : α} {l es : List α} (h : Precedent e f l) (hes : f ∈ es → e ∈ l) :
    Precedent e f (l ++ es) := by
  intro l₁ l₂ he
  rcases List.append_eq_append_iff.mp he with ⟨k, rfl, hk⟩ | ⟨k, rfl, hk⟩
  · apply List.mem_append_left
    exact hes (hk ▸ List.mem_append_right _ (List.mem_cons_self ..))
  · cases k with
    | nil =>
      rw [List.nil_append] at hk
      rw [List.append_nil] at hes
      exact hes (hk ▸ List.mem_cons_self ..)
    | cons g k =>
      cases hk
      exact h l₁ k rfl

omit [DecidableEq B] [DecidableEq S] in
theorem LogStep.one_call {a : Act B S} {es : List (Event B S)} {q : Pkt B} (h : LogStep s a es)
    (hx : .handed x p ∈ es) (hy : .handed y q ∈ es) : x = y := by
  cases h with
  | silent => cases hx
  | handed =>
    cases List.mem_singleton.mp hx
    cases List.mem_singleton.mp hy
    rfl
  | published => cases List.mem_singleton.mp hx
  | called =>
    simp only [List.mem_cons, reduceCtorEq, Event.handed.injEq, List.not_mem_nil, or_false, false_or] at hx hy
    rw [hx.1, hy.1]

/-! ## Every run -/

/-- `y` stands behind `x`, which is still in line for the message or has got it. -/
structure InLine (c : Cfg S) (s : Sys B S) (b : B) (p : Pkt B) (i : MsgId) (x y : S) : Prop where
  settled : Settled s
  way : ∃ o, Way c s b p i o ∧ Sweep.Served x ((track s b p).view o)
  called : Called s
  behind : y ∈ after x (s.subscribers b)
  order : c.rxType x = .callback → Precedent (.handed x p) (.handed y p) s.log

theorem InLine.letsPass (h : InLine c s b p i x y) (hy : Reached s y p) : LetsPass c s b p x := by
  obtain ⟨o, hw, hs⟩ := h.way
  exact hw.letsPass hs h.behind (h.called.got_pos hy)

theorem InLine.trans {a : Act B S} (h : InLine c s b p i x y) (ht : Trans c s a s') (hk : KeepsLists a)
    (hwant : InFlight s p → s.wants c x i) : InLine c s' b p i x y := by
  have hl := (lists_kept ht hk).1
  have hbehind : y ∈ after x (s'.subscribers b) := by
    rw [hl]
    exact h.behind
  obtain ⟨o, hw, hs⟩ := h.way
  have hway : ∃ o', Way c s' b p i o' ∧ Sweep.Served x ((track s' b p).view o') := by
    obtain ⟨o', hw', hsw⟩ := hw.removal (fun z => z = x ∧ s.wants c x i) ht (h.settled.removal hk) fun z hz =>
      ⟨hz.1 ▸ hl ▸ left_mem_of_after h.behind, hz.1 ▸ hz.2, Or.inr hk⟩
    refine ⟨o', hw', hsw.served hw.inv.fresh ?_ ?_ hs⟩
    · exact fun hx => hwant (hw.todo_inFlight hx)
    · exact fun hx => ⟨rfl, hwant (hw.todo_inFlight hx)⟩
  have hcalled := h.called.trans ht
  refine ⟨h.settled.trans hw.sound ht hk, hway, hcalled, hbehind, ?_⟩
  intro hcb
  obtain ⟨es, hlog, hes⟩ := trans_log ht
  rw [hlog]
  apply (h.order hcb).append
  intro hy
  -- a step that calls the handler of `y` calls no other one
  obtain ⟨o', hw', hs'⟩ := hway
  have hreached : Reached s' y p := Or.inl (hlog ▸ List.mem_append_right _ hy)
  have hx := (hw'.letsPass hs' hbehind (hcalled.got_pos hreached)).callback hcb
  rw [hlog] at hx
  apply (List.mem_append.mp hx).resolve_right
  intro hx
  exact ne_of_mem_after (hw.sound.wf.linked.nodup b) h.behind (hes.one_call hy hx)

omit [DecidableEq B] [DecidableEq S] in
theorem called_init (h : Init c s) : Called s := by
  intro x p hv
  rw [h.svc] at hv
  cases hv

theorem inLine_publish {m : Msg} {s₀ s₁ : Sys B S} (h : Sound c s₀) (hset : Settled s₀) (hc : Called s₀)
    (hp : step c s₀ (.publish b m) = .ok s₁) (hxy : y ∈ after x (s₀.subscribers b)) :
    InLine c s₁ b (s₀.newPkt b m) (s₀.mem.idOf m) x y := by
  have hw := way_publish h hp
  have ht := step_trans hp
  have hl := (lists_kept ht rfl).1
  have hbehind : y ∈ after x (s₁.subscribers b) := by
    rw [hl]
    exact hxy
  refine ⟨hset.trans h ht rfl, ⟨_, hw, Or.inl (left_mem_of_after hbehind)⟩, hc.trans ht, hbehind, ?_⟩
  intro _ l₁ l₂ he
  -- nobody has been called with the new publication
  have hy : timesHanded s₁.log y (s₀.newPkt b m) = 0 := by
    have h0 : (track s₁ b (s₀.newPkt b m)).got y = 0 := hw.inv.unstarted (Or.inl rfl) y
    have hle := handed_le_got s₁ b (s₀.newPkt b m) y
    omega
  exact absurd (he ▸ List.mem_append_right _ (List.mem_cons_self ..)) (List.count_eq_zero.mp hy)

/-- With fixed lists, whoever has got a message of the broker, each subscriber
in front of him that wants it has got it and lets it pass, and callback
subscribers in front of him are called before him. -/
theorem served_in_turn {s₀ s₁ : Sys B S} {m : Msg} (h₀ : Reachable (step c) (Init c) (fun _ a => KeepsLists a) s₀)
    (hp : step c s₀ (.publish b m) = .ok s₁) (hxy : y ∈ after x (s₀.subscribers b))
    (hr : Run (step c) (fun s a => KeepsLists a ∧ (InFlight s (s₀.newPkt b m) → s.wants c x (s₀.mem.idOf m))) s₁ s) :
    (Reached s y (s₀.newPkt b m) → LetsPass c s b (s₀.newPkt b m) x) ∧
    (c.rxType x = .callback → Precedent (.handed x (s₀.newPkt b m)) (.handed y (s₀.newPkt b m)) s.log) := by
  have hcalled : Called s₀ := h₀.invariant (fun _ => called_init) fun _ _ _ h _ hs => h.trans (step_trans hs)
  obtain ⟨hrt, hset⟩ := settled_reachable h₀
  have hend : InLine c s b (s₀.newPkt b m) (s₀.mem.idOf m) x y := by
    apply hr.invariant (I := fun s => InLine c s b (s₀.newPkt b m) (s₀.mem.idOf m) x y)
    · exact fun s a t h hk hs => h.trans (step_trans hs) hk.1 hk.2
    · exact inLine_publish hrt.sound hset hcalled hp hxy
  exact ⟨hend.letsPass, hend.order⟩

end

theorem served_in_turn_callback : ∃ s₁ s s₂, step callbackAndMsgq callbackAndMsgqInit (.newMsg 0 3 0) = .ok s₁ ∧
    step callbackAndMsgq s₁ (.publish () 0) = .ok s ∧
    Runs.exec (step callbackAndMsgq) s (List.replicate 6 (.work ())) = .ok s₂ ∧
    (s₂.queue 1).length = 1 ∧ LetsPass callbackAndMsgq s₂ () ⟨0, 0, some ()⟩ 0 := by
  refine ⟨_, _, _, rfl, rfl, rfl, rfl, ?_⟩
  apply (served_in_turn (b := ()) (m := 0) (x := 0) (y := 1) ⟨callbackAndMsgqInit, callbackAndMsgq_init,
    Run.of_acts (K := KeepsLists) (step callbackAndMsgq) [.newMsg 0 3 0] rfl (by decide)⟩ rfl (by decide) ?_).1
  · exact Or.inr (Or.inl (by decide))
  · exact (Run.of_path (K := KeepsLists) (P := fun s => s.wants callbackAndMsgq 0 3) (step callbackAndMsgq)
      (List.replicate 6 (.work ())) rfl (by decide) (by decide)).mono fun _ _ h => ⟨h.1, fun _ => h.2⟩

end ZephyrPubSub
