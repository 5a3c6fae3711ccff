import ZephyrPubSub.Sequence
import ZephyrPubSub.Line

/-!
# The order at a FIFO subscriber

The messages a FIFO subscriber `x` has been handed and those on their way to it
stand in one line: its handler, its FIFO, the FIFO subscribers in front of it
from the nearest one on, the dispatch, the publish FIFO. A message that is
passed on overtakes what waits at the subscribers that do not want it. So the
line keeps the published order as far as nobody in front of `x` holds up one
message and not the other.
-/

namespace ZephyrPubSub

open Lists Function Runs

section
variable {B S : Type} [DecidableEq B] [DecidableEq S] {c : Cfg S} {s s' : Sys B S}

/-! ## What is passed over does not want the message -/

/-- With fixed lists and subscriptions, messages are only at FIFO subscribers that
want them, and both loops leave only subscribers behind that do not. -/
structure Relayed (c : Cfg S) (s : Sys B S) : Prop where
  hold : ∀ x p, Has Svc.toHandle c s x p → p.src ≠ none → s.wants c x (s.mem.idOf p.msg)
  log : ∀ x p, .handed x p ∈ s.log → c.rxType x = .fifo → p.src ≠ none → s.wants c x (s.mem.idOf p.msg)
  scan : ∀ b p, (s.work b).current = some p → ∀ w ∈ s.subscribers b, c.rxType w = .fifo →
    w ∉ (s.work b).ahead (s.subscribers b) → ¬ s.wants c w (s.mem.idOf p.msg)
  walk : ∀ x p id b n, s.svc x = .walk p id b n → x ∈ s.subscribers b ∧
    (∀ y, n = some y → y ∈ after x (s.subscribers b)) ∧
    ∀ w ∈ after x (s.subscribers b), w ∉ fromPtr (s.subscribers b) n → ¬ s.wants c w id

omit [DecidableEq B] in
theorem relayed_init (h : Init c s) : Relayed c s := by
  refine ⟨?_, ?_, ?_, ?_⟩
  · rintro x p ⟨_, hp | hp⟩
    · rw [h.queue] at hp; cases hp
    · rw [h.svc] at hp; cases hp
  · intro x p hp; rw [h.log] at hp; cases hp
  · intro b p hp; rw [h.work] at hp; cases hp
  · intro x p id b n hv; rw [h.svc] at hv; cases hv

omit [DecidableEq B] [DecidableEq S] in
theorem has_known (hc : Carried c s) {x : S} {p : Pkt B} (h : Has Svc.toHandle c s x p) : Known s p := by
  rcases h.2 with hp | hp
  · exact (hc.queue x p hp).1
  · have hv := hc.svc x
    cases hvx : s.svc x with
    | got => rw [hvx] at hp hv; cases hp; exact hv.1.1
    | lock => rw [hvx] at hp hv; cases hp; exact hv.1.1
    | walk => rw [hvx] at hp hv; cases hp; exact hv.1.1
    | ready => rw [hvx] at hp hv; cases hp; exact hv.1.1
    | _ => rw [hvx] at hp; cases hp

omit [DecidableEq B] [DecidableEq S] in
theorem current_known (hc : Carried c s) {b : B} {p : Pkt B} (h : (s.work b).current = some p) : FifoOk s b p := by
  have hw := hc.work b
  cases hwb : s.work b with
  | lock => rw [hwb] at h hw; cases h; exact hw.1
  | scan => rw [hwb] at h hw; cases h; exact hw.1
  | put => rw [hwb] at h hw; cases h; exact hw.1
  | _ => rw [hwb] at h; cases h

theorem Relayed.hold_trans {a : Act B S} (h : Relayed c s) (hs : Sound c s) (ht : Trans c s a s') (hk : KeepsSubs a)
    {x : S} {p : Pkt B} (hx : Has Svc.toHandle c s' x p) (hp : p.src ≠ none) :
    s'.wants c x (s'.mem.idOf p.msg) := by
  rw [wants_same ht hk]
  rcases has_trans (Or.inr (Or.inr rfl)) hs.carried hs.placed.walk ht hx with hx | hx | ⟨b, hb, _, hx⟩
  · rw [(trans_later ht).id (has_known hs.carried hx)]
    exact h.hold x p hx hp
  · exact absurd hx hp
  · rwa [(trans_later ht).id hb.1]

theorem Relayed.log_trans {a : Act B S} (h : Relayed c s) (hs : Sound c s) (ht : Trans c s a s') (hk : KeepsSubs a)
    {x : S} {p : Pkt B} (hx : .handed x p ∈ s'.log) (hrx : c.rxType x = .fifo) (hp : p.src ≠ none) :
    s'.wants c x (s'.mem.idOf p.msg) := by
  rw [wants_same ht hk]
  have old : .handed x p ∈ s.log → s.wants c x (s'.mem.idOf p.msg) := by
    intro hx
    rw [(trans_later ht).id (p := p) (hs.carried.log _ hx)]
    exact h.log x p hx hrx hp
  cases ht with
  | @scanCallback b q id y tmp _ _ hcb =>
    rcases List.mem_append.mp hx with hx | hx
    · exact old hx
    · obtain ⟨rfl, rfl⟩ := Event.handed.injEq .. ▸ List.mem_singleton.mp hx
      rw [hcb] at hrx; cases hrx
  | @handle y q id hv =>
    rcases List.mem_append.mp hx with hx | hx
    · exact old hx
    · obtain ⟨rfl, rfl⟩ := Event.handed.injEq .. ▸ List.mem_singleton.mp hx
      exact h.hold x p ⟨hrx, Or.inr (by rw [hv]; rfl)⟩ hp
  | publish _ =>
    rcases List.mem_append.mp hx with hx | hx
    · exact old hx
    · cases List.mem_singleton.mp hx
  | publishToCallback _ _ _ hcb =>
    simp only [List.mem_append, List.mem_cons, List.not_mem_nil, or_false, Event.handed.injEq, reduceCtorEq,
      false_or] at hx
    rcases hx with hx | ⟨rfl, rfl⟩
    · exact old hx
    · exact absurd rfl hp
  | publishToQueue _ _ _ _ _ =>
    rcases List.mem_append.mp hx with hx | hx
    · exact old hx
    · cases List.mem_singleton.mp hx
  | _ => exact old hx

theorem Relayed.scan_trans {a : Act B S} (h : Relayed c s) (hs : Sound c s) (ht : Trans c s a s') (hl : KeepsLists a)
    (hk : KeepsSubs a) {b : B} {p : Pkt B} (hp : (s'.work b).current = some p) {w : S} (hw : w ∈ s'.subscribers b)
    (hrx : c.rxType w = .fifo) (hn : w ∉ (s'.work b).ahead (s'.subscribers b)) :
    ¬ s'.wants c w (s'.mem.idOf p.msg) := by
  rw [wants_same ht hk]
  rw [(lists_kept ht hl).1] at hw hn
  have hnd := hs.wf.linked.nodup b
  have old : (s.work b).current = some p → w ∉ (s.work b).ahead (s.subscribers b) →
      ¬ s.wants c w (s'.mem.idOf p.msg) := by
    intro hp hn
    rw [(trans_later ht).id (current_known hs.carried hp).1]
    exact h.scan b p hp w hw hrx hn
  -- the work item drops the message, or leaves nobody behind who wants it
  have move : ∀ {b₁ v}, s'.work = update s.work b₁ v → (v.current = none ∨ v.current = (s.work b₁).current ∧
      ∀ z ∈ (s.work b₁).ahead (s.subscribers b₁), z ∈ v.ahead (s.subscribers b₁) ∨ c.rxType z ≠ .fifo ∨
        ∀ q, (s.work b₁).current = some q → ¬ s.wants c z (s.mem.idOf q.msg)) →
      ¬ s.wants c w (s'.mem.idOf p.msg) := by
    intro b₁ v he hv
    rw [he] at hp hn
    by_cases hb : b = b₁
    · subst hb
      rw [update_self] at hp hn
      rcases hv with hv | ⟨hv, hz⟩
      · rw [hv] at hp; cases hp
      · rw [hv] at hp
        by_cases ha : w ∈ (s.work b).ahead (s.subscribers b)
        · rcases hz w ha with h' | h' | h'
          · exact absurd h' hn
          · exact absurd hrx h'
          · rw [(trans_later ht).id (current_known hs.carried hp).1]
            exact h' p hp
        · exact old hp ha
    · rw [update_of_ne hb] at hp hn
      exact old hp hn
  cases ht with
  | workQueued | workGetNone | workReset | workRelease | scanEnd | scanFifo => exact move rfl (Or.inl rfl)
  | workSubmit => exact move rfl (Or.inl (by split <;> rfl))
  | @workGet b₁ q ps id hwk _ _ =>
    by_cases hb : b = b₁
    · subst hb; simp only [update_self, Work.ahead] at hn; exact absurd hw hn
    · simp only [update_of_ne hb] at hp hn; exact old hp hn
  | @workLock b₁ q id hwk _ =>
    refine move rfl (Or.inr ⟨by rw [hwk]; rfl, fun z hz => Or.inl ?_⟩)
    rw [hwk] at hz
    simpa only [Work.ahead, fromPtr_head_self] using hz
  | @scanSkip b₁ q id y call hwk hy =>
    obtain ⟨_, hid⟩ := hs.carried.work_at hwk
    refine move rfl (Or.inr ⟨by rw [hwk]; rfl, fun z hz => ?_⟩)
    rw [hwk] at hz ⊢
    simp only [Work.ahead, hs.placed.scan_next hs.wf hwk, fromPtr_head _ (hs.wf.linked.nodup b₁), mem_fromPtr_some,
      Work.current, Option.some.injEq] at hz ⊢
    rcases hz with rfl | hz
    · exact Or.inr (Or.inr fun q' hq => hq ▸ hid ▸ hy)
    · exact Or.inl hz
  | @scanCallback b₁ q id y call hwk _ hcb =>
    refine move rfl (Or.inr ⟨by rw [hwk]; rfl, fun z hz => ?_⟩)
    rw [hwk] at hz
    simp only [Work.ahead, hs.placed.scan_next hs.wf hwk, fromPtr_head _ (hs.wf.linked.nodup b₁),
      mem_fromPtr_some] at hz ⊢
    rcases hz with rfl | hz
    · exact Or.inr (Or.inl (by simp [hcb]))
    · exact Or.inl hz
  | @scanMsgq b₁ q id y call μ hwk _ hmq _ =>
    refine move rfl (Or.inr ⟨by rw [hwk]; rfl, fun z hz => ?_⟩)
    rw [hwk] at hz
    simp only [Work.ahead, mem_fromPtr_some] at hz ⊢
    rcases hz with rfl | hz
    · exact Or.inr (Or.inl (by simp [hmq]))
    · exact Or.inl hz
  | @put b₁ q id y tmp hwk _ =>
    refine move rfl (Or.inr ⟨by rw [hwk]; rfl, fun z hz => Or.inl ?_⟩)
    rw [hwk] at hz
    simpa only [Work.ahead, hs.placed.put b₁ q id y tmp hwk, fromPtr_head _ (hs.wf.linked.nodup b₁)] using hz
  | @publish b₁ m _ =>
    refine move rfl (Or.inr ⟨wake_current _, fun z hz => Or.inl ?_⟩)
    rwa [wake_ahead]
  | _ => exact old hp hn

theorem Relayed.walk_trans {a : Act B S} (h : Relayed c s) (hs : Sound c s) (hset : Settled s) (ht : Trans c s a s')
    (hl : KeepsLists a) (hk : KeepsSubs a) {x : S} {p : Pkt B} {i : MsgId} {b : B} {n : Option S}
    (hv : s'.svc x = .walk p i b n) : x ∈ s'.subscribers b ∧
      (∀ y, n = some y → y ∈ after x (s'.subscribers b)) ∧
      ∀ w ∈ after x (s'.subscribers b), w ∉ fromPtr (s'.subscribers b) n → ¬ s'.wants c w i := by
  simp only [wants_same ht hk]
  rw [(lists_kept ht hl).1]
  have hn := hs.wf.linked.nodup b
  by_cases ha : a = .svc x
  · subst ha
    cases ht with
    | svcLock hx _ =>
      simp only [update_self, Svc.walk.injEq] at hv
      obtain ⟨rfl, rfl, rfl, rfl⟩ := hv
      have hmem := hset.lock x _ _ _ hx
      rw [hs.wf.linked.nextSub hmem, fromPtr_head _ hn]
      exact ⟨hmem, fun y hy => List.mem_of_mem_head? hy, fun w hw hnw => absurd hw hnw⟩
    | @walkSkip _ q id b₁ m hx hm =>
      simp only [update_self, Svc.walk.injEq] at hv
      obtain ⟨rfl, rfl, rfl, rfl⟩ := hv
      obtain ⟨hmem, hbehind, hskip⟩ := h.walk x q id b₁ _ hx
      have hmx := hbehind m rfl
      rw [hs.wf.linked.nextSub (mem_of_mem_after hmx), fromPtr_head _ hn]
      refine ⟨hmem, fun y hy => after_trans hn hmx (List.mem_of_mem_head? hy), fun w hw hnw => ?_⟩
      by_cases hwm : w = m
      · subst hwm; exact hm
      · refine hskip w hw ?_
        rw [mem_fromPtr_some, not_or]
        exact ⟨hwm, hnw⟩
    | mem => exact h.walk x p i b n hv
    | _ => simp at hv
  · rw [svc_frame ht ha] at hv
    exact h.walk x p i b n hv

theorem Relayed.trans {a : Act B S} (h : Relayed c s) (hs : Sound c s) (hset : Settled s) (ht : Trans c s a s')
    (hl : KeepsLists a) (hk : KeepsSubs a) : Relayed c s' :=
  ⟨fun _ _ hx hp => h.hold_trans hs ht hk hx hp, fun _ _ hx hrx hp => h.log_trans hs ht hk hx hrx hp,
    fun _ _ hp _ hw hrx hn => h.scan_trans hs ht hl hk hp hw hrx hn,
    fun _ _ _ _ _ hv => h.walk_trans hs hset ht hl hk hv⟩

/-! ## The line in front of a FIFO subscriber -/

/-- What a FIFO subscriber has still to pass on, oldest first. -/
def toPass (c : Cfg S) (s : Sys B S) (y : S) : List (Pkt B) :=
  if c.rxType y = .fifo then (s.svc y).unsent.toList ++ s.queue y else []

def arrived (s : Sys B S) (b : B) (x : S) : List (Pkt B) :=
  handedSeq s.log b x ++ ((s.svc x).toHandle.toList ++ s.queue x)

def toCome (s : Sys B S) (b : B) : List (Pkt B) := (s.work b).current.toList ++ s.fifo b

def line (c : Cfg S) (s : Sys B S) (b : B) (x : S) : List (Pkt B) :=
  arrived s b x ++ ((inFront x (s.subscribers b)).flatMap (toPass c s) ++ toCome s b)

/-- Nobody in front of `x` holds up messages `i` and not messages `j`. -/
def Abreast (c : Cfg S) (s : Sys B S) (b : B) (x : S) (i j : MsgId) : Prop :=
  ∀ y ∈ inFront x (s.subscribers b), c.rxType y = .fifo → s.wants c y i → s.wants c y j

/-- `p` may stand in front of `q`: it was published earlier, or `q` can be overtaken. -/
def Precedes (c : Cfg S) (s : Sys B S) (b : B) (x : S) (p q : Pkt B) : Prop :=
  p.tag ≠ q.tag ∧ (p.src = some b → q.src = some b →
    Abreast c s b x (s.mem.idOf q.msg) (s.mem.idOf p.msg) → p.tag < q.tag)

def NotFor (c : Cfg S) (s : Sys B S) (b : B) (x : S) (p : Pkt B) : Prop :=
  p.src = some b → ¬ s.wants c x (s.mem.idOf p.msg)

def Fresh (s s' : Sys B S) (p : Pkt B) : Prop :=
  p.tag = s.nextTag ∧ s.mem.used p.msg ∧ .published p ∈ s'.log

abbrev LineStep (c : Cfg S) (s s' : Sys B S) (b : B) (x : S) : Prop :=
  Line.Step (Precedes c s b x) (NotFor c s b x) (Fresh s s') (line c s b x) (line c s' b x)

variable {b : B} {x : S}

section
omit [DecidableEq B] [DecidableEq S]

theorem toPass_ne {y : S} (h : c.rxType y ≠ .fifo) : toPass c s y = [] := if_neg h

theorem toPass_fifo {y : S} {p : Pkt B} (h : p ∈ toPass c s y) : c.rxType y = .fifo := by
  by_contra hn
  rw [toPass_ne hn] at h
  cases h

theorem toPass_has {y : S} {p : Pkt B} (h : p ∈ toPass c s y) : Has Svc.toHandle c s y p := by
  have hrx := toPass_fifo h
  refine ⟨hrx, ?_⟩
  rw [toPass, if_pos hrx, List.mem_append, Option.mem_toList] at h
  rcases h with h | h
  · exact Or.inr (Svc.unsent_toHandle h)
  · exact Or.inl h

theorem toPass_congr (hv : s'.svc = s.svc) (hq : s'.queue = s.queue) : toPass c s' = toPass c s := by
  unfold toPass
  rw [hv, hq]

end

section
omit [DecidableEq B]

theorem toPass_keep {y : S} {v : Svc B S} {q : List (Pkt B)} (hv : s'.svc = update s.svc y v)
    (hq : s'.queue = update s.queue y q)
    (hu : c.rxType y = .fifo → v.unsent.toList ++ q = (s.svc y).unsent.toList ++ s.queue y) :
    toPass c s' = toPass c s := by
  funext z
  unfold toPass
  rw [hv, hq]
  by_cases hzy : z = y
  · subst hzy
    rw [update_self, update_self]
    split
    · exact hu ‹_›
    · rfl
  · rw [update_of_ne hzy, update_of_ne hzy]

theorem toPass_sent {y : S} {v : Svc B S} (hrx : c.rxType y = .fifo) (hv : s'.svc = update s.svc y v)
    (hq : s'.queue = s.queue) (hu : v.unsent = none) : toPass c s' = update (toPass c s) y (s.queue y) := by
  funext z
  by_cases hzy : z = y
  · subst hzy
    rw [update_self, toPass, if_pos hrx, hv, update_self, hu, hq]
    rfl
  · rw [update_of_ne hzy]
    unfold toPass
    rw [hv, hq, update_of_ne hzy]

theorem toPass_push {y : S} {p : Pkt B} (hrx : c.rxType y = .fifo) (hv : s'.svc = s.svc)
    (hq : s'.queue = update s.queue y (s.queue y ++ [p])) :
    toPass c s' = update (toPass c s) y (toPass c s y ++ [p]) := by
  funext z
  by_cases hzy : z = y
  · subst hzy
    rw [update_self, toPass, toPass, if_pos hrx, if_pos hrx, hv, hq, update_self, List.append_assoc]
  · rw [update_of_ne hzy]
    unfold toPass
    rw [hv, hq, update_of_ne hzy]

end

omit [DecidableEq B] in
theorem toPass_other {y : S} {q : List (Pkt B)} (hrx : c.rxType y ≠ .fifo) (hv : s'.svc = s.svc)
    (hq : s'.queue = update s.queue y q) : toPass c s' = toPass c s := by
  funext z
  by_cases hzy : z = y
  · subst hzy; rw [toPass_ne hrx, toPass_ne hrx]
  · unfold toPass
    rw [hv, hq, update_of_ne hzy]

omit [DecidableEq B] in
theorem may_pass (hr : Relayed c s) {y : S} (hy : y ∈ inFront x (s.subscribers b)) {p q : Pkt B}
    (hp : ¬ s.wants c y (s.mem.idOf p.msg)) (hq : q ∈ toPass c s y) (h : Precedes c s b x q p) :
    Precedes c s b x p q := by
  refine ⟨Ne.symm h.1, fun _ hsrc hab => ?_⟩
  have hwant := hr.hold y q (toPass_has hq) (by rw [hsrc]; simp)
  exact absurd (hab y hy (toPass_fifo hq) hwant) hp

theorem line_stay (hl : s'.subscribers = s.subscribers) (ha : arrived s' b x = arrived s b x)
    (hc : toPass c s' = toPass c s) (ht : toCome s' b = toCome s b) : LineStep c s s' b x := by
  have : line c s' b x = line c s b x := by rw [line, hl, ha, hc, ht]; rfl
  show Line.Step _ _ _ (line c s b x) (line c s' b x)
  rw [this]
  exact .stay

theorem arrived_svc {y : S} {v : Svc B S} (hlog : s'.log = s.log) (hv : s'.svc = update s.svc y v)
    (hq : s'.queue x = s.queue x) (hh : v.toHandle = (s.svc y).toHandle) : arrived s' b x = arrived s b x := by
  unfold arrived
  rw [hlog, hq, hv, update_view (f := Svc.toHandle) hh]

omit [DecidableEq S] in
theorem toCome_work {b₁ : B} {w : Work B S} (hf : s'.fifo = s.fifo) (hw : s'.work = update s.work b₁ w)
    (hc : w.current = (s.work b₁).current) : toCome s' b = toCome s b := by
  unfold toCome
  rw [hf, hw, update_view (f := Work.current) hc]

/-! ## One step of the line -/

theorem line_leave {y : S} {v : Svc B S} {p : Pkt B} (hn : (s.subscribers b).Nodup) (hx : x ∈ s.subscribers b)
    (hl : s'.subscribers = s.subscribers) (hlog : s'.log = s.log) (ht : toCome s' b = toCome s b)
    (hv : s'.svc = update s.svc y v) (hq : s'.queue = s.queue) (hrx : c.rxType y = .fifo)
    (hu : (s.svc y).unsent = some p) (hvu : v.unsent = none) (hvh : v.toHandle = some p)
    (hgone : x ∈ after y (s.subscribers b) → NotFor c s b x p) : LineStep c s s' b x := by
  have ha : arrived s' b x = arrived s b x :=
    arrived_svc hlog hv (by rw [hq]) (by rw [hvh, Svc.unsent_toHandle hu])
  show Line.Step _ _ _ (line c s b x) (line c s' b x)
  rw [line, line, hl, ha, ht, toPass_sent hrx hv hq hvu]
  by_cases hy : y ∈ inFront x (s.subscribers b)
  · have hc : toPass c s y = p :: s.queue y := by rw [toPass, if_pos hrx, hu]; rfl
    exact .leave_station (inFront_nodup hn hx) hy hc (hgone ((mem_inFront hn hx).mp hy))
  · rw [Line.cells_update hy]
    exact .stay

theorem line_give {y n : S} {p : Pkt B} {i : MsgId} {b₁ : B} (hs : Sound c s) (hr : Relayed c s)
    (hx : x ∈ s.subscribers b) (hvy : s.svc y = .walk p i b₁ (some n)) (hrn : c.rxType n = .fifo)
    (hl : s'.subscribers = s.subscribers) (hlog : s'.log = s.log) (ht : toCome s' b = toCome s b)
    (hv : s'.svc = update s.svc y (.ready p i)) (hq : s'.queue = update s.queue n (s.queue n ++ [p])) :
    LineStep c s s' b x := by
  have hn := hs.wf.linked.nodup b
  obtain ⟨_, hid, hry, _⟩ := hs.carried.svc_at hvy
  obtain ⟨_, hbehind, hskip⟩ := hr.walk y p i b₁ _ hvy
  have hny := hbehind n rfl
  have hne : n ≠ y := ne_of_mem_after (hs.wf.linked.nodup b₁) hny
  have hcy : toPass c s y = p :: s.queue y := by rw [toPass, if_pos hry, hvy]; rfl
  have hcell : toPass c s' = update (update (toPass c s) y (s.queue y)) n (toPass c s n ++ [p]) := by
    have h₁ : toPass c { s with svc := update s.svc y (.ready p i) } = update (toPass c s) y (s.queue y) :=
      toPass_sent (v := .ready p i) hry rfl rfl rfl
    have h₂ : toPass c s' = update (toPass c { s with svc := update s.svc y (.ready p i) }) n
        (toPass c { s with svc := update s.svc y (.ready p i) } n ++ [p]) :=
      toPass_push (s := { s with svc := update s.svc y (.ready p i) }) hrn hv hq
    rw [h₂, h₁, update_of_ne hne]
  have harr : n ≠ x → arrived s' b x = arrived s b x := fun hnx =>
    arrived_svc hlog hv (by rw [hq, update_of_ne (Ne.symm hnx)]) (by rw [hvy]; rfl)
  show Line.Step _ _ _ (line c s b x) (line c s' b x)
  rw [line, line, hl, ht, hcell]
  by_cases hxy : x ∈ after y (s.subscribers b)
  · obtain rfl := hs.wf.linked.one_list (left_mem_of_after hny) (left_mem_of_after hxy)
    have hy := (mem_inFront hn hx).mpr hxy
    -- who stands between `y` and `n` does not want the message
    have hpass : ∀ w ∈ inFront x (s.subscribers b₁), w ∈ after y (s.subscribers b₁) → n ∈ after w (s.subscribers b₁) →
        ∀ v ∈ toPass c s w, Precedes c s b₁ x v p → Precedes c s b₁ x p v := by
      intro w hw hwy hnw v hvw
      refine may_pass hr hw ?_ hvw
      rw [← hid]
      refine hskip w hwy ?_
      rw [mem_fromPtr_some, not_or]
      exact ⟨(ne_of_mem_after hn hnw).symm, after_asymm hn hnw⟩
    by_cases hnx : n = x
    · subst hnx
      have hni : n ∉ inFront n (s.subscribers b₁) := fun h => not_mem_after_self hn ((mem_inFront hn hx).mp h)
      obtain ⟨near, far, he, hnear, _⟩ := inFront_split hn hx hy
      have ha : arrived s' b₁ n = arrived s b₁ n ++ [p] := by
        unfold arrived
        rw [hlog, hv, hq, update_of_ne hne, update_self, List.append_assoc, List.append_assoc]
      have hnd := inFront_nodup hn hx
      rw [Line.cells_update hni, ha]
      rw [he] at hnd hpass ⊢
      apply Line.Step.arrive hnd hcy
      intro w hw
      have hw' : w ∈ near ++ y :: far := List.mem_append_left _ hw
      exact hpass w hw' (hnear w hw) ((mem_inFront hn hx).mp (he ▸ hw'))
    · rw [harr hnx]
      by_cases hni : n ∈ inFront x (s.subscribers b₁)
      · obtain ⟨near, mid, far, he, _, hmid, _⟩ := inFront_between hn hx hy hni hny
        have hnd := inFront_nodup hn hx
        rw [he] at hnd hpass ⊢
        apply Line.Step.hand_over hnd hcy
        intro w hw
        exact hpass w (by simp [hw]) (hmid w hw).1 (hmid w hw).2
      · rw [Line.cells_update hni]
        refine .leave_station (inFront_nodup hn hx) hy hcy fun _ => ?_
        rw [← hid]
        refine hskip x hxy ?_
        rw [mem_fromPtr_some, not_or]
        exact ⟨Ne.symm hnx, fun h => hni ((mem_inFront hn hx).mpr h)⟩
  · have hy : y ∉ inFront x (s.subscribers b) := fun h => hxy ((mem_inFront hn hx).mp h)
    have hbn : ∀ {z}, n = z ∨ z ∈ after n (s.subscribers b) → z ∈ s.subscribers b →
        z ∈ after y (s.subscribers b) := by
      intro z hz hzb
      have hnb : n ∈ s.subscribers b := hz.elim (fun h => h ▸ hzb) left_mem_of_after
      obtain rfl := hs.wf.linked.one_list (mem_of_mem_after hny) hnb
      rcases hz with rfl | hz
      · exact hny
      · exact after_trans hn hny hz
    have hni : n ∉ inFront x (s.subscribers b) := fun h => hxy (hbn (Or.inr ((mem_inFront hn hx).mp h)) hx)
    rw [harr fun h => hxy (hbn (Or.inl h) hx), Line.cells_update hni, Line.cells_update hy]
    exact .stay

theorem line_dispatch {y : S} {p : Pkt B} {i : MsgId} {b₁ : B} {call : Option S} (hs : Sound c s) (hset : Settled s)
    (hr : Relayed c s) (hx : x ∈ s.subscribers b) (hrx : c.rxType x = .fifo) (hwk : s.work b₁ = .scan p i (some y) call)
    (hry : c.rxType y = .fifo) (hl : s'.subscribers = s.subscribers) (hlog : s'.log = s.log) (hv : s'.svc = s.svc)
    (hq : s'.queue = update s.queue y (s.queue y ++ [p])) (hf : s'.fifo = s.fifo)
    (hw : s'.work = update s.work b₁ (.release p)) : LineStep c s s' b x := by
  have hn := hs.wf.linked.nodup b
  have hym := hset.scan b₁ p i y call hwk
  have harr : y ≠ x → arrived s' b x = arrived s b x := by
    intro hyx
    unfold arrived
    rw [hlog, hv, hq, update_of_ne (Ne.symm hyx)]
  have hcell := toPass_push hry hv hq
  show Line.Step _ _ _ (line c s b x) (line c s' b x)
  rw [line, line, hl, hcell]
  by_cases hb : b₁ = b
  · subst hb
    have hcome : toCome s b₁ = p :: s.fifo b₁ := by rw [toCome, hwk]; rfl
    have hcome' : toCome s' b₁ = s.fifo b₁ := by rw [toCome, hw, hf, update_self]; rfl
    -- the loop has left nobody in front of `y` who wants the message
    have hleft : ∀ w ∈ s.subscribers b₁, c.rxType w = .fifo → w ≠ y → w ∉ after y (s.subscribers b₁) →
        ¬ s.wants c w (s.mem.idOf p.msg) := by
      intro w hwm hrw hwy hwa
      refine hr.scan b₁ p (by rw [hwk]; rfl) w hwm hrw ?_
      rw [hwk, Work.ahead, mem_fromPtr_some, not_or]
      exact ⟨hwy, hwa⟩
    have hpass : ∀ w ∈ inFront x (s.subscribers b₁), y ∈ after w (s.subscribers b₁) →
        ∀ v ∈ toPass c s w, Precedes c s b₁ x v p → Precedes c s b₁ x p v := by
      intro w hwf hyw v hvw
      have hwy := (ne_of_mem_after hn hyw).symm
      exact may_pass hr hwf (hleft w (left_mem_of_after hyw) (toPass_fifo hvw) hwy (after_asymm hn hyw)) hvw
    rw [hcome, hcome']
    by_cases hyx : y = x
    · subst hyx
      have hyi : y ∉ inFront y (s.subscribers b₁) := fun h => not_mem_after_self hn ((mem_inFront hn hx).mp h)
      have ha : arrived s' b₁ y = arrived s b₁ y ++ [p] := by
        unfold arrived
        rw [hlog, hv, hq, update_self, List.append_assoc, List.append_assoc]
      rw [Line.cells_update hyi, ha, List.append_assoc]
      apply Line.Step.overtake
      intro v hvm
      obtain ⟨w, hwm, hvw⟩ := List.mem_flatMap.mp hvm
      exact hpass w hwm ((mem_inFront hn hx).mp hwm) v hvw
    · rw [harr hyx]
      by_cases hyi : y ∈ inFront x (s.subscribers b₁)
      · obtain ⟨near, far, he, _, hfar⟩ := inFront_split hn hx hyi
        have hnd := inFront_nodup hn hx
        rw [he] at hnd hpass ⊢
        apply Line.Step.enter hnd
        intro w hwm
        exact hpass w (by simp [hwm]) (hfar w hwm)
      · rw [Line.cells_update hyi, ← List.append_assoc, ← List.append_assoc]
        refine .leave _ _ _ fun _ => ?_
        exact hleft x hx hrx (Ne.symm hyx) fun h => hyi ((mem_inFront hn hx).mpr h)
  · have hyb : y ∉ s.subscribers b := fun hyb => hb (hs.wf.linked.one_list hym hyb)
    have hyx : y ≠ x := fun h => hyb (h ▸ hx)
    have hyi : y ∉ inFront x (s.subscribers b) := fun h => hyb (left_mem_of_after ((mem_inFront hn hx).mp h))
    have hcome : toCome s' b = toCome s b := by
      unfold toCome
      rw [hw, hf, update_of_ne (Ne.symm hb)]
    rw [harr hyx, hcome, Line.cells_update hyi]
    exact .stay

theorem handed_of_mem {p : Pkt B} (hp : p ∈ handedSeq s.log b x) :
    .handed x p ∈ s.log ∧ p.src = some b := by
  obtain ⟨e, he, hp⟩ := List.mem_filterMap.mp hp
  cases e with
  | published q => cases hp
  | handed y q =>
    simp only [Event.handedTo] at hp
    split at hp
    · rename_i h; cases hp; obtain ⟨rfl, h⟩ := h; exact ⟨he, h⟩
    · cases hp

theorem line_known (hc : Carried c s) (hrx : c.rxType x = .fifo) {p : Pkt B} (hp : p ∈ line c s b x) : Known s p := by
  simp only [line, arrived, toCome, List.mem_append, List.mem_flatMap, Option.mem_toList] at hp
  rcases hp with (hp | hp | hp) | ⟨y, _, hp⟩ | hp | hp
  · exact hc.log _ (handed_of_mem hp).1
  · exact has_known hc ⟨hrx, Or.inr hp⟩
  · exact (hc.queue x p hp).1
  · exact has_known hc (toPass_has hp)
  · exact (current_known hc hp).1
  · exact (hc.fifo b p hp).1

omit [DecidableEq B] in
/-- A new publication fits anywhere in the line as far as it is not the broker's. -/
theorem new_fits {p v : Pkt B} (hp : p.tag = s.nextTag) (hv : Known s v) :
    Precedes c s b x v p ∧ (p.src ≠ some b → Precedes c s b x p v) := by
  have hlt : v.tag < p.tag := by rw [hp]; exact hv.2
  exact ⟨⟨hlt.ne, fun _ _ _ => hlt⟩, fun hsrc => ⟨hlt.ne', fun h => absurd h hsrc⟩⟩

theorem line_end {p : Pkt B} {i : MsgId} {b₁ : B} {tmp : Option S} (hr : Relayed c s) (hx : x ∈ s.subscribers b)
    (hrx : c.rxType x = .fifo) (hwk : s.work b₁ = .scan p i none tmp) (hl : s'.subscribers = s.subscribers)
    (hlog : s'.log = s.log) (hv : s'.svc = s.svc) (hq : s'.queue = s.queue) (hf : s'.fifo = s.fifo)
    (hw : s'.work = update s.work b₁ (.release p)) : LineStep c s s' b x := by
  have harr : arrived s' b x = arrived s b x := by
    unfold arrived
    rw [hlog, hv, hq]
  by_cases hb : b = b₁
  · subst hb
    have hcome : toCome s b = p :: s.fifo b := by rw [toCome, hwk]; rfl
    have hcome' : toCome s' b = s.fifo b := by rw [toCome, hw, hf, update_self]; rfl
    show Line.Step _ _ _ (line c s b x) (line c s' b x)
    rw [line, line, hl, harr, toPass_congr hv hq, hcome, hcome', ← List.append_assoc, ← List.append_assoc]
    refine .leave _ _ _ fun _ => hr.scan b p (by rw [hwk]; rfl) x hx hrx ?_
    rw [hwk]
    exact List.not_mem_nil
  · refine line_stay hl harr (toPass_congr hv hq) ?_
    rw [toCome, toCome, hw, hf, update_of_ne hb]

theorem line_publish {b₁ : B} {p : Pkt B} (hs : Sound c s) (hrx : c.rxType x = .fifo) (hp : Fresh s s' p)
    (hl : s'.subscribers = s.subscribers) (hlog : s'.log = s.log ++ [.published p]) (hv : s'.svc = s.svc)
    (hq : s'.queue = s.queue) (hf : s'.fifo = update s.fifo b₁ (s.fifo b₁ ++ [p]))
    (hw : s'.work = update s.work b₁ (wake (s.work b₁))) : LineStep c s s' b x := by
  have harr : arrived s' b x = arrived s b x := by
    unfold arrived
    rw [hlog, hv, hq, handedSeq_append, handedSeq_published, List.append_nil]
  have hwork : (s'.work b).current = (s.work b).current := by
    rw [hw, update_view (f := Work.current) (wake_current _)]
  by_cases hb : b = b₁
  · subst hb
    have hline : line c s' b x = line c s b x ++ p :: [] := by
      rw [line, line, hl, harr, toPass_congr hv hq, toCome, toCome, hwork, hf, update_self]
      simp only [List.append_assoc]
    have h : Line.Step (Precedes c s b x) (NotFor c s b x) (Fresh s s') _ _ := .join (line c s b x) p [] hp
      (fun v hv => (new_fits hp.1 (line_known hs.carried hrx hv)).1) fun v hv => absurd hv List.not_mem_nil
    rw [List.append_nil] at h
    show Line.Step _ _ _ (line c s b x) (line c s' b x)
    rwa [hline]
  · refine line_stay hl harr (toPass_congr hv hq) ?_
    rw [toCome, toCome, hwork, hf, update_of_ne hb]

theorem line_private {y : S} {p : Pkt B} (hs : Sound c s) (hx : x ∈ s.subscribers b) (hrx : c.rxType x = .fifo)
    (hp : Fresh s s' p) (hsrc : p.src = none) (hl : s'.subscribers = s.subscribers)
    (hlog : s'.log = s.log ++ [.published p]) (hv : s'.svc = s.svc)
    (hq : s'.queue = update s.queue y (s.queue y ++ [p])) (ht : toCome s' b = toCome s b) :
    LineStep c s s' b x := by
  have hn := hs.wf.linked.nodup b
  have hsrc' : p.src ≠ some b := by rw [hsrc]; simp
  have hfit : ∀ v, v ∈ line c s b x → Precedes c s b x v p ∧ Precedes c s b x p v := fun v hv =>
    ⟨(new_fits hp.1 (line_known hs.carried hrx hv)).1, (new_fits hp.1 (line_known hs.carried hrx hv)).2 hsrc'⟩
  have hhanded : handedSeq s'.log b x = handedSeq s.log b x := by
    rw [hlog, handedSeq_append, handedSeq_published, List.append_nil]
  by_cases hyx : y = x
  · subst hyx
    have hyi : y ∉ inFront y (s.subscribers b) := fun h => not_mem_after_self hn ((mem_inFront hn hx).mp h)
    have harr : arrived s' b y = arrived s b y ++ [p] := by
      unfold arrived
      rw [hhanded, hv, hq, update_self, List.append_assoc, List.append_assoc]
    show Line.Step _ _ _ (line c s b y) (line c s' b y)
    rw [line, line, hl, harr, ht, toPass_push hrx hv hq, Line.cells_update hyi, List.append_assoc]
    refine .join _ _ _ hp (fun v hv => (hfit v ?_).1) fun v hv => (hfit v ?_).2
    · exact List.mem_append_left _ hv
    · exact List.mem_append_right _ hv
  · have harr : arrived s' b x = arrived s b x := by
      unfold arrived
      rw [hhanded, hv, hq, update_of_ne (Ne.symm hyx)]
    by_cases hry : c.rxType y = .fifo
    · show Line.Step _ _ _ (line c s b x) (line c s' b x)
      rw [line, line, hl, harr, ht, toPass_push hry hv hq]
      by_cases hyi : y ∈ inFront x (s.subscribers b)
      · refine .join_station (inFront_nodup hn hx) hyi hp fun v hv => hfit v ?_
        simpa only [line, List.mem_append] using hv
      · rw [Line.cells_update hyi]
        exact .stay
    · exact line_stay hl harr (toPass_other hry hv hq) ht

theorem line_handle {y : S} {p : Pkt B} {i : MsgId} (hvy : s.svc y = .ready p i) (hl : s'.subscribers = s.subscribers)
    (hlog : s'.log = s.log ++ [.handed y p]) (hv : s'.svc = update s.svc y (.running p)) (hq : s'.queue = s.queue)
    (ht : toCome s' b = toCome s b) : LineStep c s s' b x := by
  have hcell : toPass c s' = toPass c s :=
    toPass_keep hv (q := s.queue y) (by rw [hq, update_eq_self]) fun _ => by rw [hvy]; rfl
  by_cases hyx : x = y
  · subst hyx
    by_cases hsrc : p.src = some b
    · refine line_stay hl ?_ hcell ht
      unfold arrived
      rw [hlog, hv, hq, handedSeq_append, handedSeq_self hsrc, update_self, hvy, List.append_assoc]
      rfl
    · -- a private message leaves the broker's line
      have harr : arrived s' b x = handedSeq s.log b x ++ s.queue x := by
        unfold arrived
        rw [hlog, hv, hq, handedSeq_append, handedSeq_ne (Or.inr hsrc), update_self, List.append_nil]
        rfl
      have harr₀ : arrived s b x = handedSeq s.log b x ++ p :: s.queue x := by
        unfold arrived
        rw [hvy]
        rfl
      show Line.Step _ _ _ (line c s b x) (line c s' b x)
      rw [line, line, hl, harr, harr₀, hcell, ht, List.append_assoc, List.append_assoc]
      exact .leave _ _ _ fun h => absurd h hsrc
  · refine line_stay hl ?_ hcell ht
    unfold arrived
    rw [hlog, hv, hq, handed_push (Or.inl (Ne.symm hyx)), update_of_ne hyx]

theorem line_step {a : Act B S} (hs : Sound c s) (hset : Settled s) (hr : Relayed c s) (hx : x ∈ s.subscribers b)
    (hrx : c.rxType x = .fifo) (ht : Trans c s a s') (hl : KeepsLists a) :
    LineStep c s s' b x := by
  have hc := hs.carried
  have hn := hs.wf.linked.nodup b
  have hsame : ∀ {y}, update s.queue y (s.queue y) = s.queue := update_eq_self ..
  cases ht with
  | workQueued hw | workGetNone hw _ | workLock hw _ | scanSkip hw _ | scanMsgq hw _ _ _ | workRelease hw _
  | workReset hw =>
    exact line_stay rfl rfl (toPass_congr rfl rfl) (toCome_work rfl rfl (by rw [hw]; rfl))
  | workSubmit hw =>
    exact line_stay rfl rfl (toPass_congr rfl rfl) (toCome_work rfl rfl (by rw [hw]; split <;> rfl))
  | @workGet b₁ p ps id hw hf _ =>
    refine line_stay rfl rfl (toPass_congr rfl rfl) ?_
    unfold toCome
    by_cases hb : b = b₁
    · subst hb; simp only [update_self, hw, hf]; rfl
    · simp only [update_of_ne hb]
  | scanEnd hw => exact line_end hr hx hrx hw rfl rfl rfl rfl rfl rfl
  | @scanCallback b₁ p id y call hw _ hcb =>
    have hyx : y ≠ x := fun e => by rw [e, hrx] at hcb; cases hcb
    refine line_stay rfl ?_ (toPass_congr rfl rfl) (toCome_work rfl rfl (by rw [hw]; rfl))
    simp only [arrived, handed_push (Or.inl hyx)]
  | scanFifo hw _ hry _ => exact line_dispatch hs hset hr hx hrx hw hry rfl rfl rfl rfl rfl rfl
  | @put b₁ p id y tmp hw _ =>
    have hry := (hc.work_at hw).2.2.2
    have hyx : x ≠ y := fun e => by rw [← e, hrx] at hry; cases hry
    refine line_stay rfl ?_ (toPass_other (y := y) (by rw [hry]; simp) rfl rfl)
      (toCome_work rfl rfl (by rw [hw]; rfl))
    simp only [arrived, update_of_ne hyx]
  | @takeMsgq y p ps id hv hry hq _ =>
    have hyx : x ≠ y := fun e => by rw [← e, hrx] at hry; cases hry
    refine line_stay rfl ?_ (toPass_keep rfl rfl fun h => by rw [hry] at h; cases h) rfl
    simp only [arrived, update_of_ne hyx]
  | @takeFifo y p ps id hv hry hq _ =>
    refine line_stay rfl ?_ (toPass_keep rfl rfl fun _ => by rw [hv, hq]; rfl) rfl
    unfold arrived
    by_cases hyx : x = y
    · subst hyx; simp only [update_self, hv, hq]; rfl
    · simp only [update_of_ne hyx]
  | @gotPublic y p id b₁ hv _ _ | @svcLock y p id b₁ hv _ | @walkSkip y p id b₁ n hv _
  | @svcRelease y p μ hv _ =>
    exact line_stay rfl (arrived_svc rfl rfl rfl (by rw [hv]; rfl))
      (toPass_keep rfl hsame.symm fun _ => by rw [hv]; rfl) rfl
  | @gotPrivate y p id hv hle =>
    obtain ⟨hq, hid, hry⟩ := hc.svc_at hv
    refine line_leave hn hx rfl rfl rfl rfl rfl hry (by rw [hv]; rfl) rfl rfl fun _ hsrc => ?_
    exact absurd (hid ▸ hq.2.1.mpr (by rw [hsrc]; simp)) hle
  | @walkEnd y p id b₁ hv =>
    obtain ⟨_, hid, hry, _⟩ := hc.svc_at hv
    obtain ⟨hyb, _, hskip⟩ := hr.walk y p id b₁ none hv
    refine line_leave hn hx rfl rfl rfl rfl rfl hry (by rw [hv]; rfl) rfl rfl fun hxy _ => ?_
    obtain rfl := hs.wf.linked.one_list hyb (left_mem_of_after hxy)
    rw [← hid]
    exact hskip x hxy List.not_mem_nil
  | walkGive hv _ hrn _ => exact line_give hs hr hx hv hrn rfl rfl rfl rfl rfl
  | handle hv => exact line_handle hv rfl rfl rfl rfl rfl
  | @publish b₁ m ho =>
    exact line_publish hs hrx ⟨rfl, hc.owned m ho, List.mem_append_right _ (List.mem_singleton_self _)⟩
      rfl rfl rfl rfl rfl rfl
  | @publishToCallback y m id _ _ _ hcb =>
    have hyx : y ≠ x := fun e => by rw [e, hrx] at hcb; cases hcb
    refine line_stay rfl ?_ (toPass_congr rfl rfl) rfl
    simp [arrived, handedSeq, Event.handedTo]
  | @publishToQueue y m id ho _ _ _ _ =>
    exact line_private hs hx hrx ⟨rfl, hc.owned m ho, List.mem_append_right _ (List.mem_singleton_self _)⟩
      rfl rfl rfl rfl rfl rfl
  | addStart | addLink | removeUnlink | removeClear => exact absurd hl Bool.false_ne_true
  | _ => exact line_stay rfl rfl (toPass_congr rfl rfl) rfl

/-! ## Every run -/

structure InOrder (c : Cfg S) (s : Sys B S) (b : B) (x : S) : Prop where
  order : (line c s b x).Pairwise (Precedes c s b x)
  all : ∀ p ∈ pubSeq s.log b, s.wants c x (s.mem.idOf p.msg) → p ∈ line c s b x
  published : ∀ p ∈ line c s b x, p.src = some b → p ∈ pubSeq s.log b
  sorted : (pubSeq s.log b).Pairwise fun p q => p.tag < q.tag

theorem pubSeq_trans {a : Act B S} (ht : Trans c s a s') (b : B) : pubSeq s'.log b = pubSeq s.log b ∨
    ∃ p, pubSeq s'.log b = pubSeq s.log b ++ [p] ∧ p.tag = s.nextTag ∧ p ∈ s'.fifo b := by
  cases ht with
  | @publish b₁ m _ =>
    by_cases hb : b = b₁
    · subst hb
      refine Or.inr ⟨⟨m, s.nextTag, some b⟩, ?_, rfl, by simp⟩
      simp [pubSeq, Event.publishedTo]
    · exact Or.inl (by simp [pubSeq, Event.publishedTo, Ne.symm hb])
  | scanCallback => exact Or.inl (pub_handed _)
  | handle => exact Or.inl (pub_handed _)
  | publishToCallback => exact Or.inl (by simp [pubSeq, Event.publishedTo])
  | publishToQueue => exact Or.inl (by simp [pubSeq, Event.publishedTo])
  | _ => exact Or.inl rfl

theorem Precedes.later {a : Act B S} {p q : Pkt B} (ht : Trans c s a s') (hl : KeepsLists a) (hk : KeepsSubs a)
    (hp : s.mem.used p.msg) (hq : s.mem.used q.msg) (h : Precedes c s b x p q) : Precedes c s' b x p q := by
  refine ⟨h.1, fun hps hqs hab => h.2 hps hqs ?_⟩
  have hids := (trans_later ht).1
  unfold Abreast at hab ⊢
  simpa only [wants_same ht hk, (lists_kept ht hl).1, (hids _ hp).2, (hids _ hq).2] using hab

theorem InOrder.trans {a : Act B S} (h : InOrder c s b x) (hs : Sound c s) (hset : Settled s) (hr : Relayed c s)
    (hx : x ∈ s.subscribers b) (hrx : c.rxType x = .fifo) (ht : Trans c s a s') (hl : KeepsLists a)
    (hk : KeepsSubs a) : InOrder c s' b x := by
  have hstep := line_step hs hset hr hx hrx ht hl
  have hpub := pubSeq_trans ht b
  have hkeep : ∀ p ∈ pubSeq s.log b, p ∈ pubSeq s'.log b := by
    intro p hp
    rcases hpub with he | ⟨q, he, _⟩
    · rwa [he]
    · rw [he]; exact List.mem_append_left _ hp
  have hknown : ∀ p ∈ pubSeq s.log b, Known s p := fun p hp => hs.carried.log _ (published_of_mem hp).1
  have hused : ∀ p ∈ line c s' b x, s.mem.used p.msg := by
    intro p hp
    rcases hstep.of_mem hp with hp | hp
    · exact (line_known hs.carried hrx hp).1
    · exact hp.2.1
  constructor
  · refine (hstep.pairwise h.order).imp_of_mem ?_
    intro p q hp hq hpq
    exact hpq.later ht hl hk (hused p hp) (hused q hq)
  · intro p hp hw
    have old : p ∈ pubSeq s.log b → p ∈ line c s' b x := by
      intro hp
      have hw' : s.wants c x (s.mem.idOf p.msg) := by
        rwa [wants_same ht hk, (trans_later ht).id (hknown p hp)] at hw
      rcases hstep.mem (h.all p hp hw') with hm | hm
      · exact hm
      · exact absurd hw' (hm (published_of_mem hp).2)
    rcases hpub with he | ⟨q, he, _, hq⟩
    · exact old (he ▸ hp)
    · rw [he] at hp
      rcases List.mem_append.mp hp with hp | hp
      · exact old hp
      · obtain rfl := List.mem_singleton.mp hp
        simp [line, toCome, hq]
  · intro p hp hsrc
    rcases hstep.of_mem hp with hp | hp
    · exact hkeep p (h.published p hp hsrc)
    · exact List.mem_filterMap.mpr ⟨_, hp.2.2, by simp [Event.publishedTo, hsrc]⟩
  · rcases hpub with he | ⟨q, he, htag, _⟩
    · rw [he]; exact h.sorted
    · rw [he, List.pairwise_append]
      refine ⟨h.sorted, List.pairwise_singleton .., fun p hp r hr => ?_⟩
      obtain rfl := List.mem_singleton.mp hr
      rw [htag]
      exact (hknown p hp).2

theorem inOrder_init (h : Init c s) : InOrder c s b x := by
  have hline : line c s b x = [] := by
    have hcell : ∀ y ∈ inFront x (s.subscribers b), toPass c s y = [] := by
      intro y _
      rw [toPass, h.svc, h.queue]
      simp [Svc.unsent]
    rw [line, List.flatMap_eq_nil_iff.mpr hcell, arrived, toCome, h.log, h.svc, h.queue, h.work, h.fifo]
    rfl
  have hpub : pubSeq s.log b = [] := by rw [h.log]; rfl
  constructor <;> simp [hline, hpub]

theorem inOrder_run (h : Reachable (step c) (Init c) (fun _ a => KeepsLists a ∧ KeepsSubs a) s)
    (hx : x ∈ s.subscribers b) (hrx : c.rxType x = .fifo) : Relayed c s ∧ InOrder c s b x := by
  have key : Routed c s ∧ Settled s ∧ Relayed c s ∧ (x ∈ s.subscribers b → InOrder c s b x) := by
    apply h.invariant (I := fun s => Routed c s ∧ Settled s ∧ Relayed c s ∧ (x ∈ s.subscribers b → InOrder c s b x))
    · intro s hi
      exact ⟨routed_init hi, settled_init hi, relayed_init hi, fun _ => inOrder_init hi⟩
    · intro s a s' ⟨hrt, hset, hr, hin⟩ ⟨hl, hk⟩ hstep
      have ht := step_trans hstep
      refine ⟨hrt.trans ht (hset.removal hl), hset.trans hrt.sound ht hl, hr.trans hrt.sound hset ht hl hk,
        fun hx => ?_⟩
      rw [(lists_kept ht hl).1] at hx
      exact (hin hx).trans hrt.sound hset hr hx hrx ht hl hk
  exact ⟨key.2.2.1, key.2.2.2 hx⟩

/-- A message that is held up wherever a later one is, is handled before it. -/
theorem InOrder.handled_before {p q : Pkt B} (h : InOrder c s b x) (hp : p ∈ pubSeq s.log b)
    (hw : s.wants c x (s.mem.idOf p.msg)) (hq : q ∈ handedSeq s.log b x) (hlt : p.tag < q.tag)
    (hab : Abreast c s b x (s.mem.idOf p.msg) (s.mem.idOf q.msg)) : p ∈ handedSeq s.log b x := by
  have hline := h.order
  have hmem := h.all p hp hw
  rw [line, arrived, List.append_assoc] at hline hmem
  apply Line.mem_front hline hq hmem
  intro hr
  have hqp := hr.2 (handed_of_mem hq).2 (published_of_mem hp).2 hab
  exact absurd hlt (Nat.lt_asymm hqp)

/-- Every FIFO subscriber in front of `x` is subscribed to all or none of what `x` is subscribed to. -/
def AllOrNone (c : Cfg S) (s : Sys B S) (b : B) (x : S) : Prop :=
  ∀ y ∈ inFront x (s.subscribers b), c.rxType y = .fifo →
    ∀ i j, s.wants c x i → s.wants c x j → s.wants c y i → s.wants c y j

/-- What a FIFO subscriber has been handed is the beginning of what was
published for it, as long as those in front of it do not hold up one of its
messages and let another pass. -/
theorem handled_in_order (h : Reachable (step c) (Init c) (fun _ a => KeepsLists a ∧ KeepsSubs a) s)
    (hx : x ∈ s.subscribers b) (hrx : c.rxType x = .fifo) (hall : AllOrNone c s b x) :
    handedSeq s.log b x <+: (pubSeq s.log b).filter (takes c s x) := by
  obtain ⟨hr, hin⟩ := inOrder_run h hx hrx
  have hwants : ∀ p ∈ handedSeq s.log b x, s.wants c x (s.mem.idOf p.msg) := by
    intro p hp
    obtain ⟨hlog, hsrc⟩ := handed_of_mem hp
    exact hr.log x p hlog hrx (by rw [hsrc]; simp)
  have hab : ∀ {p q : Pkt B}, s.wants c x (s.mem.idOf p.msg) → s.wants c x (s.mem.idOf q.msg) →
      Abreast c s b x (s.mem.idOf p.msg) (s.mem.idOf q.msg) := fun hp hq y hy hry hw => hall y hy hry _ _ hp hq hw
  have hline := hin.order
  rw [line, arrived, List.append_assoc] at hline
  have hlt : ∀ p q : Pkt B, p.tag < q.tag → ¬ q.tag < p.tag := fun _ _ => Nat.lt_asymm
  apply Line.prefix_of_sorted hlt
  · refine (List.pairwise_append.mp hline).1.imp_of_mem ?_
    intro p q hp hq hpq
    exact hpq.2 (handed_of_mem hp).2 (handed_of_mem hq).2 (hab (hwants q hq) (hwants p hp))
  · exact hin.sorted.sublist List.filter_sublist
  · intro p hp
    refine List.mem_filter.mpr ⟨hin.published p ?_ (handed_of_mem hp).2, decide_eq_true (hwants p hp)⟩
    simp [line, arrived, hp]
  · intro p hp q hq hlt
    obtain ⟨hpub, htk⟩ := List.mem_filter.mp hp
    have hw := of_decide_eq_true htk
    exact hin.handled_before hpub hw hq hlt (hab hw (hwants q hq))

end

/-- Two messages go through subscriber 0; subscriber 1 has handled the first one. -/
theorem handled_in_order_twoFifos : ∃ s, Runs.exec (step twoFifos) twoFifosInit
      ([.newMsg 0 3 0, .newMsg 1 4 0, .publish () 0, .publish () 1] ++ List.replicate 9 (.work ()) ++
        List.replicate 10 (.svc 0) ++ List.replicate 5 (.svc 1)) = .ok s ∧
    handedSeq s.log () 1 = [⟨0, 0, some ()⟩] ∧
    handedSeq s.log () 1 <+: (pubSeq s.log ()).filter (takes twoFifos s 1) :=
  ⟨_, rfl, by decide, handled_in_order ⟨twoFifosInit, twoFifos_init, Run.of_acts
    (K := fun a => KeepsLists a ∧ KeepsSubs a) (step twoFifos)
    ([.newMsg 0 3 0, .newMsg 1 4 0, .publish () 0, .publish () 1] ++ List.replicate 9 (.work ()) ++
      List.replicate 10 (.svc 0) ++ List.replicate 5 (.svc 1)) rfl (by decide)⟩ (by decide) rfl
    fun _ _ _ _ _ _ hj _ => hj⟩

def frontWantsThree : Sys Unit (Fin 2) :=
  Sys.init (fun _ => [0, 1]) (fun _ => some ()) (fun x i => x = 1 || i = 3) fun x => x.val

theorem frontWantsThree_init : Init twoFifos frontWantsThree :=
  init_of_lists _ _ (by decide) (by decide) (by unfold FifoLast; decide)

/-- Messages 3 and 4 are published and dispatched, and subscriber 1 handles what it has got. -/
def threeThenFour : List (Act Unit (Fin 2)) :=
  [.newMsg 0 3 0, .newMsg 1 4 0, .publish () 0, .publish () 1] ++ List.replicate 9 (.work ()) ++
    List.replicate 5 (.svc 1)

theorem overtaken_at_front : ¬ ∀ s : Sys Unit (Fin 2),
    Reachable (step twoFifos) (Init twoFifos) (fun _ a => KeepsLists a ∧ KeepsSubs a) s →
      ∀ x ∈ s.subscribers (), handedSeq s.log () x <+: (pubSeq s.log ()).filter (takes twoFifos s x) := by
  intro h
  have := h _ ⟨frontWantsThree, frontWantsThree_init, Run.of_acts (K := fun a => KeepsLists a ∧ KeepsSubs a)
    (step twoFifos) threeThenFour rfl (by decide)⟩ 1 (by decide)
  revert this
  decide

end ZephyrPubSub
