import ZephyrPubSub.Order
import ZephyrPubSub.Schedule

/-!
# When the order is kept

A message can be overtaken on its way to a FIFO subscriber exactly where
somebody in front handles it and not the later one: while that subscriber is
late with the first message, the second one passes it by.
-/

namespace ZephyrPubSub

open Lists Function Runs

section
variable {B S : Type} [DecidableEq B] [DecidableEq S] {c : Cfg S} {s s₀ : Sys B S} {b : B} {x : S} {i j : MsgId}

/-- Every message `i` that was published before a message `j` has been handled before it. -/
def InTurn (s : Sys B S) (b : B) (x : S) (i j : MsgId) : Prop :=
  ∀ p q, List.Sublist [p, q] (pubSeq s.log b) → s.mem.idOf p.msg = i → s.mem.idOf q.msg = j →
    ∀ l₁ l₂, handedSeq s.log b x = l₁ ++ q :: l₂ → p ∈ l₁

/-! ## Whoever waits for the one waits for the other -/

theorem InOrder.in_turn (h : InOrder c s b x) (hw : s.wants c x i) (hab : Abreast c s b x i j) :
    InTurn s b x i j := by
  intro p q hsub hi hj l₁ l₂ hl
  subst hi hj
  have hlt : p.tag < q.tag := by
    have hp := h.sorted.sublist hsub
    exact (List.pairwise_cons.mp hp).1 q (List.mem_singleton_self q)
  have hq : q ∈ handedSeq s.log b x := by rw [hl]; simp
  have hp := h.handled_before (hsub.subset (List.mem_cons_self ..)) hw hq hlt hab
  have hline := h.order
  rw [line, arrived, List.append_assoc, hl] at hline
  rw [hl, List.mem_append, List.mem_cons] at hp
  rcases hp with hp | rfl | hp
  · exact hp
  · exact absurd hlt (Nat.lt_irrefl _)
  · -- behind `q`, the line would say that `q` is the older one
    have hqp := (List.pairwise_cons.mp (List.pairwise_append.mp (List.pairwise_append.mp hline).1).2.1).1 p hp
    have hps := (handed_of_mem (s := s) (b := b) (x := x) (p := p) (by rw [hl]; simp [hp])).2
    exact absurd (hqp.2 (handed_of_mem hq).2 hps hab) (Nat.lt_asymm hlt)

/-! ## The second message passes by -/

theorem ids_run {P : Sys B S → Act B S → Prop} (hr : Run (step c) P s₀ s) : Mem.IdsKept s₀.mem s.mem :=
  hr.invariant (I := fun s => Mem.IdsKept s₀.mem s.mem)
    (fun _ _ _ h _ hstep => h.trans (trans_ids (step_trans hstep)))
    (Mem.IdsKept.refl _)

theorem Movable.idOf_run {p : Pkt B} {P : Sys B S → Act B S → Prop} (h : Movable s₀ b p i)
    (hr : Run (step c) P s₀ s) :
    s.mem.idOf p.msg = i := by
  obtain ⟨_, _, hd, hlive, hi, _⟩ := h
  have hu : s₀.mem.used p.msg := by
    rw [Mem.used, hlive]
    exact Life.noConfusion
  rw [(ids_run hr p.msg hu).2, Mem.idOf, hlive]
  exact hi

/-- Handling by subscribers other than `x` leaves no trace at `x` or in what has been published. -/
theorem seqs_of_others {p : Pkt B} {ys : List S} {evs : List (Event B S)} (h : ∀ e ∈ evs, ∃ w ∈ ys, e = .handed w p)
    (hx : x ∉ ys) : pubSeq evs b = [] ∧ handedSeq evs b x = [] := by
  constructor
  · apply List.filterMap_eq_nil_iff.mpr
    intro e he
    obtain ⟨w, _, rfl⟩ := h e he
    rfl
  · apply List.filterMap_eq_nil_iff.mpr
    intro e he
    obtain ⟨w, hw, rfl⟩ := h e he
    have hwx : w ≠ x := fun e => hx (e ▸ hw)
    simp [Event.handedTo, hwx]

/-- A message `i` and a message `j` wait for the broker, whose work item runs. -/
structure TwoWaiting (s₀ s : Sys B S) (b : B) (p q : Pkt B) (i j : MsgId) : Prop where
  fst : Movable s b p i
  snd : Movable s b q j
  fifo : s.fifo b = [p, q]
  work : s.work b = .get
  subscribers : s.subscribers = s₀.subscribers
  subs : s.subs = s₀.subs
  svc : ∀ y, s.svc y = .idle
  queue : ∀ y, s.queue y = []
  log : s.log = [.published p, .published q]
  srcs : p.src = some b ∧ q.src = some b

theorem two_published (h₀ : Init c s₀) (b : B) (i j : MsgId) :
    ∃ s p q, Leads c s₀ s ∧ TwoWaiting s₀ s b p q i j := by
  have h₁ := publishes (c := c) b i (h₀.life 0) (h₀.owned 0)
  have hlife : (s₀.mem.setLife 0 (.live ⟨i, allocIdStaticMsg, 1⟩)).life 1 = .unused :=
    (Mem.setLife_ne _ _ (by decide)).trans (h₀.life 1)
  have h₂ := h₁.trans (publishes b j hlife (h₀.owned 1))
  simp only [update_idem, update_self, h₀.fifo, h₀.work, h₀.log, wake, List.nil_append, List.cons_append] at h₂
  have hlink := (wf_init h₀).linked
  refine ⟨_, ⟨0, s₀.nextTag, some b⟩, ⟨1, s₀.nextTag + 1, some b⟩, Leads.work h₂ (.workQueued (update_self ..)), ?_⟩
  constructor
  · exact ⟨⟨hlink.nodup, hlink.mem_iff⟩, h₀.mutex b, _,
      (Mem.setLife_ne _ _ Nat.zero_ne_one).trans (Mem.setLife_self ..), rfl,
      Nat.one_pos, show 1 < 255 by decide⟩
  · exact ⟨⟨hlink.nodup, hlink.mem_iff⟩, h₀.mutex b, _, Mem.setLife_self .., rfl, Nat.one_pos, show 1 < 255 by decide⟩
  · exact update_self ..
  · exact update_self ..
  · rfl
  · rfl
  · exact h₀.svc
  · exact h₀.queue
  · rfl
  · exact ⟨rfl, rfl⟩

/-- Subscriber `y` in front of `x` gets message `i` and is late; message `j` passes it
by, and `x` handles it. -/
theorem overtakes (h₀ : Init c s₀) (hfifo : ∀ y ∈ s₀.subscribers b, c.rxType y = .fifo) (hx : x ∈ s₀.subscribers b)
    (hj : s₀.wants c x j) {y : S} (hy : y ∈ inFront x (s₀.subscribers b)) (hyi : s₀.wants c y i)
    (hyj : ¬ s₀.wants c y j) : ∃ s p q, Leads c s₀ s ∧ pubSeq s.log b = [p, q] ∧ s.mem.idOf p.msg = i ∧
      s.mem.idOf q.msg = j ∧ handedSeq s.log b x = [q] := by
  obtain ⟨s, p, q, h₁, hs⟩ := two_published h₀ b i j
  have hsame : ∀ y k, s.wants c y k ↔ s₀.wants c y k := by
    intro y k
    rw [Sys.wants, Sys.wants, hs.subs]
  rw [← hsame] at hj hyi hyj
  rw [← hs.subscribers] at hfifo hx hy
  obtain ⟨pre, mid, hbefore⟩ := List.append_of_mem (List.mem_reverse.mp hy)
  have hl : s.subscribers b = (pre ++ y :: mid) ++ x :: after x (s.subscribers b) := by
    rw [← hbefore, before_append_after hx]
  have hl' : s.subscribers b = pre ++ y :: (mid ++ x :: after x (s.subscribers b)) := by
    rw [← List.cons_append, ← List.append_assoc, ← hl]
  have hxfront : x ∉ pre ++ y :: mid := by
    have hn := hs.fst.linked.nodup b
    rw [hl, List.nodup_append] at hn
    intro hm
    exact hn.2.2 x hm x (List.mem_cons_self ..) rfl
  have hxpre : x ∉ pre := fun hm => hxfront (List.mem_append_left _ hm)
  have hyx : x ≠ y := fun he => hxfront (by simp [he])
  -- `y` gets the first message and leaves it in its FIFO
  obtain ⟨evs, hevs, h₂⟩ := carries_to [] hs.fst hl' (fun _ h => absurd h List.not_mem_nil) hfifo hyi hs.work
    hs.fifo fun w _ _ => ⟨hs.svc w, hs.queue w⟩
  -- the second one is handled by the others up to `x`
  obtain ⟨evs', hevs', h₃⟩ := carries_to
    (s := { s with fifo := update s.fifo b [q], queue := update s.queue y (s.queue y ++ [p]), log := s.log ++ evs })
    [] (hs.snd.of_fields rfl rfl rfl rfl rfl) hl
    (fun _ h => absurd h List.not_mem_nil) hfifo hj hs.work (update_self ..) (by
      intro w _ hw
      have hwy : w ≠ y := fun he => hyj (he ▸ hw)
      exact ⟨hs.svc w, (update_of_ne hwy ..).trans (hs.queue w)⟩)
  obtain ⟨s', h₄, hlog⟩ := handles
    (s := { s with
      fifo := update (update s.fifo b [q]) b []
      queue := update (update s.queue y (s.queue y ++ [p])) x (update s.queue y (s.queue y ++ [p]) x ++ [q])
      log := s.log ++ evs ++ evs' })
    (hs.snd.of_fields rfl rfl rfl rfl rfl) hl hfifo hj.1 (hs.svc x)
    ((update_self ..).trans (by rw [update_of_ne hyx, hs.queue]; rfl))
  have hrun := (h₂.trans h₃).trans h₄
  refine ⟨s', p, q, h₁.trans hrun, ?_, ?_, ?_, ?_⟩
  · rw [hlog, hs.log]
    simp only [pubSeq_append, (seqs_of_others hevs hxpre).1, (seqs_of_others hevs' hxfront).1, List.append_nil]
    simp [pubSeq, Event.publishedTo, hs.srcs]
  · exact hs.fst.idOf_run hrun
  · exact hs.snd.idOf_run hrun
  · rw [hlog, hs.log]
    simp only [handedSeq_append, (seqs_of_others hevs hxpre).2, (seqs_of_others hevs' hxfront).2, List.append_nil]
    simp [handedSeq, Event.handedTo, hs.srcs]

/-- With FIFO subscribers only, messages `i` are handled by `x` in turn with messages
`j` in every run exactly when whoever stands in front of `x` and is subscribed to
`i` is also subscribed to `j`; messages of one id always are. -/
theorem in_turn_iff (h₀ : Init c s₀) (hfifo : ∀ y ∈ s₀.subscribers b, c.rxType y = .fifo) (hx : x ∈ s₀.subscribers b)
    (hi : s₀.wants c x i) (hj : s₀.wants c x j) :
    ((∀ s, Run (step c) (fun _ a => KeepsLists a ∧ KeepsSubs a) s₀ s → InTurn s b x i j) ↔
      ∀ y ∈ inFront x (s₀.subscribers b), s₀.wants c y i → s₀.wants c y j) ∧
    ∀ s, Run (step c) (fun _ a => KeepsLists a ∧ KeepsSubs a) s₀ s → InTurn s b x i i := by
  have kept : ∀ k, (∀ y ∈ inFront x (s₀.subscribers b), s₀.wants c y i → s₀.wants c y k) →
      ∀ s, Run (step c) (fun _ a => KeepsLists a ∧ KeepsSubs a) s₀ s → InTurn s b x i k := by
    intro k hk s hr
    obtain ⟨hl, hw⟩ := fixed_run hr
    rw [← hl] at hx hk
    obtain ⟨_, hin⟩ := inOrder_run ⟨s₀, h₀, hr⟩ hx (hfifo x (hl ▸ hx))
    exact hin.in_turn ((hw x i).mpr hi) fun y hy _ hyi => (hw y k).mpr (hk y hy ((hw y i).mp hyi))
  refine ⟨⟨fun h y hy hyi => ?_, kept j⟩, kept i fun _ _ hy => hy⟩
  apply Decidable.byContradiction
  intro hyj
  obtain ⟨s, p, q, hr, hpub, hpi, hqj, hhand⟩ := overtakes h₀ hfifo hx hj hy hyi hyj
  have hturn := h s (hr.mono fun _ _ hp => ⟨hp.1, hp.2.1⟩) p q (by rw [hpub]) hpi hqj [] [] hhand
  exact absurd hturn List.not_mem_nil

end

/-- The subscriber in front wants messages 3 and not 4, so 4 can overtake 3 and not the other way round. -/
theorem in_turn_frontWantsThree :
    (¬ ∀ s, Run (step twoFifos) (fun _ a => KeepsLists a ∧ KeepsSubs a) frontWantsThree s → InTurn s () 1 3 4) ∧
    ∀ s, Run (step twoFifos) (fun _ a => KeepsLists a ∧ KeepsSubs a) frontWantsThree s → InTurn s () 1 4 3 := by
  constructor
  · rw [(in_turn_iff frontWantsThree_init (fun _ _ => rfl) (by decide) (by decide) (by decide)).1]
    decide
  · exact (in_turn_iff frontWantsThree_init (fun _ _ => rfl) (by decide) (by decide) (by decide)).1.mpr (by decide)

end ZephyrPubSub
