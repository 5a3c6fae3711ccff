import ZephyrPubSub.Trans
import Mathlib.Data.List.Nodup

/-!
# Removal from inside a handler

`process_msg` over a subscriber list that the handlers of its callback
subscribers change. The loop reads `tmp` before it looks at `sub`, so a handler
that unlinks the node in `tmp` leaves the loop with a node outside the list.
Putting the message into a msgq or a fifo is one step here.
-/

namespace ZephyrPubSub

open Lists Outcome

inductive TraversalEvent (S : Type) where
  | delivered (x : S)
  | removed (x : S)
  deriving DecidableEq, Repr

/-- What the handlers of callback subscribers do to the lists: `removes r x` is what
the handler of `x` removes when it finds them as in `r`. -/
structure Handlers (B S : Type) where
  removes : Registry B S → S → List S
  nodup : ∀ r x, (removes r x).Nodup
  attached : ∀ r x, ∀ y ∈ removes r x, r.broker y ≠ none

structure Traversal (B S : Type) where
  reg : Registry B S
  sub : Option S
  tmp : Option S
  log : List (TraversalEvent S)

def Cfg.subscribed {S : Type} (c : Cfg S) (subs : S → MsgId → Bool) (id : MsgId) (x : S) : Prop :=
  id ≤ c.maxPubMsgId x ∧ subs x id = true

instance {S : Type} (c : Cfg S) (subs : S → MsgId → Bool) (id : MsgId) (x : S) :
    Decidable (c.subscribed subs id x) :=
  inferInstanceAs (Decidable (_ ∧ _))

section
variable {B S : Type} [DecidableEq B] [DecidableEq S]

/-- `SYS_SLIST_PEEK_NEXT_CONTAINER`; the pointer of an unlinked node is NULL. -/
def nextNode (r : Registry B S) (x : S) : Option S :=
  match r.broker x with
  | some b => (after x (r.subscribers b)).head?
  | none => none

def removeAll (r : Registry B S) (xs : List S) : Except Stop (Registry B S) :=
  Runs.exec subscriberRemoveBroker r xs

variable (c : Cfg S) (subs : S → MsgId → Bool) (id : MsgId) (h : Handlers B S) (b : B)

/-- The loop body at `x`, and the step to `tmp`. -/
def turn (t : Traversal B S) (x : S) : Except Stop (Traversal B S) :=
  if c.subscribed subs id x then
    match c.rxType x with
    | .callback => do
      let reg ← removeAll t.reg (h.removes t.reg x)
      .ok ⟨reg, t.tmp, t.tmp.bind (nextNode reg),
        t.log ++ .delivered x :: (h.removes t.reg x).map .removed⟩
    | .msgq => .ok ⟨t.reg, t.tmp, t.tmp.bind (nextNode t.reg), t.log ++ [.delivered x]⟩
    -- `fifo_sub_handled` is set and the loop is left
    | .fifo => .ok ⟨t.reg, none, none, t.log ++ [.delivered x]⟩
  else .ok ⟨t.reg, t.tmp, t.tmp.bind (nextNode t.reg), t.log⟩

def loop : Nat → Traversal B S → Except Stop (Option (Traversal B S))
  | 0, _ => .ok none
  | fuel + 1, t =>
    match t.sub with
    | none => .ok (some t)
    | some x => do
      let t' ← turn c subs id h t x
      loop fuel t'

def processMsg (fuel : Nat) (r : Registry B S) : Except Stop (Option (Traversal B S)) :=
  let sub := (r.subscribers b).head?
  loop c subs id h fuel ⟨r, sub, sub.bind (nextNode r), []⟩

def NoneLate {S : Type} (log : List (TraversalEvent S)) : Prop :=
  log.Pairwise fun e f => ∀ x, e = .removed x → f ≠ .delivered x

/-- Each subscribed one that is attached at the end, up to the first FIFO one of
them, got the message once, and none got it after its removal. -/
structure RemovalSafe (t : Traversal B S) : Prop where
  once : ∀ front x back, t.reg.subscribers b = front ++ x :: back → c.subscribed subs id x →
    (∀ y ∈ front, c.subscribed subs id y → c.rxType y ≠ .fifo) → t.log.count (.delivered x) = 1
  gone : NoneLate t.log

def linked (r : Registry B S) (l : List S) : List S := l.filter fun x => r.broker x = some b

/-- From the nodes `l` on, no handler removes the subscriber directly behind its own,
unless neither that one nor any that stays behind it is subscribed. -/
def NextKept : Registry B S → List S → Prop
  | _, [] => True
  | r, x :: l =>
    if r.broker x = some b ∧ c.subscribed subs id x then
      match c.rxType x with
      | .callback =>
        match removeAll r (h.removes r x), (linked b r l).head? with
        | .ok r', some next =>
          if next ∈ h.removes r x then ∀ y ∈ next :: linked b r' l, ¬ c.subscribed subs id y
          else NextKept r' l
        | _, _ => True
      | .msgq => NextKept r l
      | .fifo => True
    else NextKept r l

/-! ## Removing several -/

theorem removeAll_ok : ∀ {xs : List S} {r : Registry B S}, r.Wf → xs.Nodup →
    (∀ y ∈ xs, r.broker y ≠ none) → ∃ r', removeAll r xs = .ok r' ∧ r'.Wf ∧
      (∀ y, r'.broker y = if y ∈ xs then none else r.broker y) ∧
      ∀ b, r'.subscribers b = (r.subscribers b).filter fun y => y ∉ xs
  | [], r, hw, _, _ => ⟨r, rfl, hw, by simp, by simp⟩
  | x :: xs, r, hw, hn, ha => by
    obtain ⟨hx, hn'⟩ := List.nodup_cons.mp hn
    obtain ⟨b, hb⟩ := Option.ne_none_iff_exists'.mp (ha x (List.mem_cons_self ..))
    have hs : ∃ u, subscriberRemoveBroker r x = .ok u ∧ u.broker = Function.update r.broker x none ∧
        u.subscribers = Function.update r.subscribers b ((r.subscribers b).erase x) := by
      simp only [subscriberRemoveBroker, hb]
      exact ⟨_, rfl, rfl, rfl⟩
    obtain ⟨u, hu, hub, hus⟩ := hs
    have hstep : listStep (fun _ => .callback) r (.remove x) = .ok u := hu
    have huw := hw.step _ hstep
    have hua : ∀ y ∈ xs, u.broker y ≠ none := by
      intro y hy
      have hne : y ≠ x := fun e => hx (e ▸ hy)
      rw [hub, Function.update_of_ne hne]
      exact ha y (List.mem_cons_of_mem _ hy)
    obtain ⟨r', hr', hw', hbr, hsub⟩ := removeAll_ok huw hn' hua
    refine ⟨r', ?_, hw', ?_, ?_⟩
    · unfold removeAll at hr' ⊢
      rw [Runs.exec, hu]
      exact hr'
    · intro y
      rw [hbr, hub]
      by_cases hy : y = x
      · simp [hy]
      · simp [hy]
    · intro b'
      rw [hsub, hus]
      by_cases hbb : b' = b
      · subst hbb
        rw [Function.update_self, (hw.nodup b').erase_eq_filter, List.filter_filter]
        apply List.filter_congr
        intro y _
        by_cases hy : y = x
        · simp [hy]
        · simp [hy, bne]
      · have hxb : x ∉ r.subscribers b' := by
          intro hm
          rw [(hw.mem_iff b' x).mp hm] at hb
          exact hbb (Option.some.inj hb)
        rw [Function.update_of_ne hbb]
        apply List.filter_congr
        intro y hy
        have hne : y ≠ x := fun e => hxb (e ▸ hy)
        simp [hne]

/-! ## The loop invariant -/

omit [DecidableEq S] in
theorem linked_append (r : Registry B S) (l l' : List S) : linked b r (l ++ l') = linked b r l ++ linked b r l' :=
  List.filter_append ..

omit [DecidableEq S] in
theorem mem_linked {r : Registry B S} {l : List S} {x : S} :
    x ∈ linked b r l ↔ x ∈ l ∧ r.broker x = some b := by
  simp [linked]

theorem linked_remove {r r' : Registry B S} {l xs : List S}
    (hb : ∀ y, r'.broker y = if y ∈ xs then none else r.broker y) :
    linked b r' l = (linked b r l).filter fun y => y ∉ xs := by
  rw [linked, linked, List.filter_filter]
  apply List.filter_congr
  intro y _
  rw [hb]
  by_cases hy : y ∈ xs
  · simp [hy]
  · simp [hy]

/-- The traversal is past the nodes `pre` and has the nodes `l` before it. -/
structure SoFar (r : Registry B S) (pre l : List S) (log : List (TraversalEvent S)) : Prop where
  wf : r.Wf
  nodup : (pre ++ l).Nodup
  list_eq : r.subscribers b = linked b r (pre ++ l)
  once : ∀ x ∈ pre, r.broker x = some b → c.subscribed subs id x →
    log.count (.delivered x) = 1 ∧ c.rxType x ≠ .fifo
  fresh : ∀ x ∈ l, .delivered x ∉ log
  removed : ∀ x, .removed x ∈ log → r.broker x = none
  gone : NoneLate log

section
variable {r : Registry B S} {pre l : List S} {x : S} {log : List (TraversalEvent S)}

theorem SoFar.pass (hs : SoFar c subs id b r pre (x :: l) log)
    (hx : ¬ (r.broker x = some b ∧ c.subscribed subs id x)) : SoFar c subs id b r (pre ++ [x]) l log := by
  refine ⟨hs.wf, ?_, ?_, ?_, fun y hy => hs.fresh y (List.mem_cons_of_mem _ hy), hs.removed, hs.gone⟩
  · simpa using hs.nodup
  · simpa using hs.list_eq
  · intro y hy hb hw
    rcases List.mem_append.mp hy with hy | hy
    · exact hs.once y hy hb hw
    · cases List.mem_singleton.mp hy
      exact absurd ⟨hb, hw⟩ hx

theorem SoFar.count_self (hs : SoFar c subs id b r pre (x :: l) log) :
    (log ++ [TraversalEvent.delivered x]).count (.delivered x) = 1 := by
  rw [List.count_append, List.count_eq_zero.mpr (hs.fresh x (List.mem_cons_self ..)), List.count_singleton_self]

theorem SoFar.count_passed (hs : SoFar c subs id b r pre (x :: l) log) {y : S} (hy : y ∈ pre) :
    (log ++ [TraversalEvent.delivered x]).count (.delivered y) = log.count (.delivered y) := by
  have hne : y ≠ x := (List.nodup_append.mp hs.nodup).2.2 y hy x (List.mem_cons_self ..)
  have hc : List.count (TraversalEvent.delivered y) [.delivered x] = 0 :=
    List.count_eq_zero.mpr (by simpa using hne)
  rw [List.count_append, hc, Nat.add_zero]

theorem SoFar.gone_deliver (hs : SoFar c subs id b r pre (x :: l) log) (hb : r.broker x = some b) :
    NoneLate (log ++ [.delivered x]) := by
  refine List.pairwise_append.mpr ⟨hs.gone, List.pairwise_singleton .., ?_⟩
  intro e he f hf y hy hfy
  cases List.mem_singleton.mp hf
  cases hfy
  rw [hs.removed x (hy ▸ he)] at hb
  cases hb

theorem SoFar.deliver (hs : SoFar c subs id b r pre (x :: l) log) (hb : r.broker x = some b)
    (hf : c.rxType x ≠ .fifo) : SoFar c subs id b r (pre ++ [x]) l (log ++ [.delivered x]) := by
  refine ⟨hs.wf, ?_, ?_, ?_, ?_, ?_, hs.gone_deliver c subs id b hb⟩
  · simpa using hs.nodup
  · simpa using hs.list_eq
  · intro y hy hyb hw
    rcases List.mem_append.mp hy with hy | hy
    · rw [hs.count_passed c subs id b hy]
      exact hs.once y hy hyb hw
    · cases List.mem_singleton.mp hy
      exact ⟨hs.count_self, hf⟩
  · intro y hy
    have hxl : x ∉ l := (List.nodup_cons.mp (List.nodup_append.mp hs.nodup).2.1).1
    have hne : y ≠ x := fun e => hxl (e ▸ hy)
    simp [hs.fresh y (List.mem_cons_of_mem _ hy), hne]
  · intro y hy
    exact hs.removed y (by simpa using hy)

theorem SoFar.remove {r' : Registry B S} {xs : List S} (hs : SoFar c subs id b r pre l log) (hw : r'.Wf)
    (hb : ∀ y, r'.broker y = if y ∈ xs then none else r.broker y)
    (hl : r'.subscribers b = (r.subscribers b).filter fun y => y ∉ xs) :
    SoFar c subs id b r' pre l (log ++ xs.map .removed) := by
  refine ⟨hw, hs.nodup, ?_, ?_, ?_, ?_, ?_⟩
  · rw [hl, hs.list_eq, linked_remove b hb]
  · intro y hy hyb hyw
    rw [hb] at hyb
    have hc : (xs.map TraversalEvent.removed).count (.delivered y) = 0 := List.count_eq_zero.mpr (by simp)
    rw [List.count_append, hc]
    exact hs.once y hy (by split at hyb; cases hyb; exact hyb) hyw
  · intro y hy
    simpa using hs.fresh y hy
  · intro y hy
    rw [hb]
    split
    · rfl
    · rename_i hyx
      apply hs.removed y
      simpa [hyx] using hy
  · refine List.pairwise_append.mpr ⟨hs.gone, ?_, ?_⟩
    · refine List.pairwise_map.mpr (List.pairwise_of_forall ?_)
      intro e f y _ hfy
      cases hfy
    · intro e _ f hf y _ hfy
      simp [hfy] at hf

/-! ## The end of the loop -/

theorem SoFar.mem_or (hs : SoFar c subs id b r pre l log) (hx : x ∈ r.subscribers b) :
    r.broker x = some b ∧ (x ∈ pre ∨ x ∈ l) := by
  rw [hs.list_eq, mem_linked, List.mem_append] at hx
  exact ⟨hx.2, hx.1⟩

theorem SoFar.safe (hs : SoFar c subs id b r pre l log) (hq : ∀ y ∈ linked b r l, ¬ c.subscribed subs id y)
    (sub tmp : Option S) : RemovalSafe c subs id b ⟨r, sub, tmp, log⟩ := by
  refine ⟨?_, hs.gone⟩
  intro front x back he hw _
  obtain ⟨hb, hx | hx⟩ := hs.mem_or c subs id b (x := x) (by rw [show r.subscribers b = _ from he]; simp)
  · exact (hs.once x hx hb hw).1
  · exact absurd hw (hq x (mem_linked b |>.mpr ⟨hx, hb⟩))

theorem SoFar.missed (hs : SoFar c subs id b r pre l log) (hm : ∃ y ∈ linked b r l, c.subscribed subs id y)
    (sub tmp : Option S) : ¬ RemovalSafe c subs id b ⟨r, sub, tmp, log⟩ := by
  intro ⟨honce, _⟩
  obtain ⟨z, hz⟩ : ∃ z, (linked b r l).find? (fun y => c.subscribed subs id y) = some z := by
    rw [← Option.isSome_iff_exists, List.find?_isSome]
    simpa using hm
  obtain ⟨hw, front, back, he, hfront⟩ := List.find?_eq_some_iff_append.mp hz
  have hlist : r.subscribers b = (linked b r pre ++ front) ++ z :: back := by
    rw [hs.list_eq, linked_append, he, List.append_assoc]
  have hzl : z ∈ l := (mem_linked b |>.mp (he ▸ List.mem_append_right _ (List.mem_cons_self ..))).1
  have hcount := honce _ z back hlist (by simpa using hw) ?_
  · rw [List.count_eq_zero.mpr (hs.fresh z hzl)] at hcount
    cases hcount
  · intro y hy hyw
    rcases List.mem_append.mp hy with hy | hy
    · obtain ⟨hyp, hyb⟩ := mem_linked b |>.mp hy
      exact (hs.once y hyp hyb hyw).2
    · simpa [hyw] using hfront y hy

theorem SoFar.fifo (hs : SoFar c subs id b r pre (x :: l) log) (hb : r.broker x = some b)
    (hw : c.subscribed subs id x) (hf : c.rxType x = .fifo) (sub tmp : Option S) :
    RemovalSafe c subs id b ⟨r, sub, tmp, log ++ [.delivered x]⟩ := by
  refine ⟨?_, hs.gone_deliver c subs id b hb⟩
  intro front y back he hyw hfront
  have hlist : r.subscribers b = linked b r pre ++ x :: linked b r l := by
    rw [hs.list_eq, linked_append, linked, linked, linked, List.filter_cons_of_pos (by simpa using hb)]
  have hn := hs.wf.nodup b
  have hy : y ∈ linked b r pre ++ x :: linked b r l := by
    rw [← hlist, show r.subscribers b = _ from he]
    simp
  rcases List.mem_append.mp hy with hy | hy
  · obtain ⟨hyp, hyb⟩ := mem_linked b |>.mp hy
    rw [hs.count_passed c subs id b hyp]
    exact (hs.once y hyp hyb hyw).1
  · rcases List.mem_cons.mp hy with rfl | hy
    · exact hs.count_self
    -- `y` is behind `x`, so `x` is a subscribed FIFO subscriber in front of it
    · have hxp : x ∉ linked b r pre := by
        intro hx
        rw [hlist] at hn
        exact (List.nodup_append.mp hn).2.2 x hx x (List.mem_cons_self ..) rfl
      have hxf : x ∈ front := by
        have hyx : y ∈ after x (r.subscribers b) := by rw [hlist, after_append _ hxp]; exact hy
        have hyf : y ∉ front := by
          intro hyf
          rw [show r.subscribers b = _ from he] at hn
          exact (List.nodup_append.mp hn).2.2 y hyf y (List.mem_cons_self ..) rfl
        have hxy := after_asymm hn hyx
        have hx : x ∈ front ++ y :: back := by rw [← show r.subscribers b = _ from he, hlist]; simp
        rw [show r.subscribers b = _ from he, after_append _ hyf] at hxy
        rcases List.mem_append.mp hx with hx | hx
        · exact hx
        · rcases List.mem_cons.mp hx with rfl | hx
          · exact absurd rfl (ne_of_mem_after hn hyx)
          · exact absurd hx hxy
      exact absurd hf (hfront x hxf hw)

end

/-! ## One turn -/

def scanAt (r : Registry B S) (l : List S) (log : List (TraversalEvent S)) : Traversal B S :=
  ⟨r, (linked b r l).head?, (linked b r l).head?.bind (nextNode r), log⟩

section
variable {r : Registry B S} {pre l : List S} {x : S} {log : List (TraversalEvent S)}

theorem SoFar.next {rest : List S} (hs : SoFar c subs id b r pre l log) (hl : linked b r l = x :: rest) :
    nextNode r x = rest.head? := by
  have hlist : r.subscribers b = linked b r pre ++ x :: rest := by rw [hs.list_eq, linked_append, hl]
  have hb : r.broker x = some b := (mem_linked b |>.mp (hl ▸ List.mem_cons_self ..)).2
  have hn := hs.wf.nodup b
  rw [hlist] at hn
  have hx : x ∉ linked b r pre := fun hx => (List.nodup_append.mp hn).2.2 x hx x (List.mem_cons_self ..) rfl
  simp only [nextNode, hb, hlist, after_append _ hx]

omit [DecidableEq S] in
theorem linked_cons_of_pos (hb : r.broker x = some b) : linked b r (x :: l) = x :: linked b r l :=
  List.filter_cons_of_pos (by simpa using hb)

omit [DecidableEq S] in
theorem linked_cons_of_neg (hb : r.broker x ≠ some b) : linked b r (x :: l) = linked b r l :=
  List.filter_cons_of_neg (by simpa using hb)

theorem SoFar.scanAt_cons (hs : SoFar c subs id b r pre (x :: l) log) (hb : r.broker x = some b) :
    scanAt b r (x :: l) log = ⟨r, some x, (linked b r l).head?, log⟩ := by
  have hl := linked_cons_of_pos b (l := l) hb
  rw [scanAt, hl, List.head?_cons, Option.bind_some, hs.next c subs id b hl]

/-- The turn at a node that `tmp` held and that a handler unlinked: it is the last one. -/
theorem turn_last (hw : r.Wf) (x : S) (log : List (TraversalEvent S)) :
    ∃ t, turn c subs id h ⟨r, some x, none, log⟩ x = .ok t ∧ t.sub = none ∧
    (c.subscribed subs id x → ∃ more, t.log = log ++ .delivered x :: more) ∧
    (¬ c.subscribed subs id x → t = ⟨r, none, none, log⟩) := by
  by_cases hx : c.subscribed subs id x
  · simp only [turn, hx, if_true, not_true, false_implies, and_true, forall_const]
    cases c.rxType x with
    | callback =>
      obtain ⟨r', hr', -⟩ := removeAll_ok hw (h.nodup r x) (h.attached r x)
      simp only [hr']
      exact ⟨_, rfl, rfl, _, rfl⟩
    | msgq => exact ⟨_, rfl, rfl, [], rfl⟩
    | fifo => exact ⟨_, rfl, rfl, [], rfl⟩
  · simp only [turn, hx, if_false, false_implies, true_and, not_false_iff, forall_const]
    exact ⟨_, rfl, rfl, rfl⟩

theorem loop_turn {t t' : Traversal B S} (fuel : Nat) (hx : t.sub = some x) (ht : turn c subs id h t x = .ok t') :
    loop c subs id h (fuel + 1) t = loop c subs id h fuel t' := by
  rw [loop, hx]
  simp only [ht]
  rfl

theorem loop_done {t : Traversal B S} {fuel : Nat} (hfuel : 0 < fuel) (hx : t.sub = none) :
    loop c subs id h fuel t = .ok (some t) := by
  obtain ⟨k, rfl⟩ := Nat.exists_eq_succ_of_ne_zero (Nat.ne_of_gt hfuel)
  rw [loop, hx]

/-- The handler of `x` unlinks `next`, which `tmp` holds. -/
theorem SoFar.unlinked {next : S} (hs : SoFar c subs id b r pre l log) (hgone : .removed next ∈ log) :
    ∃ t, (∀ fuel, 1 < fuel → loop c subs id h fuel ⟨r, some next, none, log⟩ = .ok (some t)) ∧
      (RemovalSafe c subs id b t ↔ ∀ y ∈ next :: linked b r l, ¬ c.subscribed subs id y) := by
  obtain ⟨t, ht, hsub, hpos, hneg⟩ := turn_last c subs id h hs.wf next log
  refine ⟨t, ?_, ?_⟩
  · intro fuel hfuel
    obtain ⟨k, rfl⟩ : ∃ k, fuel = k + 2 := ⟨fuel - 2, by omega⟩
    rw [loop_turn c subs id h _ rfl ht, loop_done c subs id h (Nat.succ_pos k) hsub]
  by_cases hw : c.subscribed subs id next
  · obtain ⟨more, hlog⟩ := hpos hw
    refine ⟨fun hsafe => ?_, fun hq => absurd hw (hq next (List.mem_cons_self ..))⟩
    have hlate := hsafe.gone
    rw [hlog] at hlate
    exact absurd rfl ((List.pairwise_append.mp hlate).2.2 _ hgone _ (List.mem_cons_self ..) next rfl)
  · rw [hneg hw]
    by_cases hm : ∃ y ∈ linked b r l, c.subscribed subs id y
    · refine ⟨fun hsafe => absurd hsafe (hs.missed c subs id b hm _ _), fun hq => ?_⟩
      obtain ⟨y, hy, hyw⟩ := hm
      exact absurd hyw (hq y (List.mem_cons_of_mem _ hy))
    · have hq : ∀ y ∈ linked b r l, ¬ c.subscribed subs id y := fun y hy hyw => hm ⟨y, hy, hyw⟩
      exact iff_of_true (hs.safe c subs id b hq _ _) (List.forall_mem_cons.mpr ⟨hw, hq⟩)

theorem SoFar.call (hs : SoFar c subs id b r pre (x :: l) log) (hb : r.broker x = some b)
    (hw : c.subscribed subs id x) (hf : c.rxType x = .callback) (tmp : Option S) :
    ∃ r' log', removeAll r (h.removes r x) = .ok r' ∧
      turn c subs id h ⟨r, some x, tmp, log⟩ x = .ok ⟨r', tmp, tmp.bind (nextNode r'), log'⟩ ∧
      SoFar c subs id b r' (pre ++ [x]) l log' ∧
      linked b r' l = (linked b r l).filter (fun y => y ∉ h.removes r x) ∧
      ∀ y ∈ h.removes r x, r'.broker y = none ∧ .removed y ∈ log' := by
  obtain ⟨r', hr', hw', hbr, hsub⟩ := removeAll_ok hs.wf (h.nodup r x) (h.attached r x)
  have hd := (hs.deliver c subs id b hb (by simp [hf])).remove c subs id b hw' hbr (hsub b)
  rw [List.append_assoc, List.singleton_append] at hd
  refine ⟨r', _, hr', ?_, hd, linked_remove b hbr, ?_⟩
  · simp only [turn, hw, hf, if_true, hr']
    rfl
  · intro y hy
    refine ⟨by rw [hbr, if_pos hy], ?_⟩
    simp [hy]

theorem SoFar.first {u t : Traversal B S} (hs : SoFar c subs id b r pre (x :: l) log) (hb : r.broker x = some b)
    (ht : turn c subs id h ⟨r, some x, (linked b r l).head?, log⟩ x = .ok u)
    (hu : ∀ fuel, l.length < fuel → loop c subs id h fuel u = .ok (some t)) (fuel : Nat)
    (hfuel : (x :: l).length < fuel) : loop c subs id h fuel (scanAt b r (x :: l) log) = .ok (some t) := by
  obtain ⟨k, rfl⟩ : ∃ k, fuel = k + 1 := ⟨fuel - 1, by omega⟩
  rw [hs.scanAt_cons c subs id b hb, loop_turn c subs id h k rfl ht]
  exact hu k (by simpa using hfuel)

theorem loop_spec : ∀ (l pre : List S) (r : Registry B S) (log : List (TraversalEvent S)),
    SoFar c subs id b r pre l log →
    ∃ t, (∀ fuel, l.length < fuel → loop c subs id h fuel (scanAt b r l log) = .ok (some t)) ∧
      (RemovalSafe c subs id b t ↔ NextKept c subs id h b r l)
  | [], pre, r, log, hs => by
    refine ⟨⟨r, none, none, log⟩, ?_, iff_of_true (hs.safe c subs id b (by simp [linked]) _ _) trivial⟩
    intro fuel hfuel
    exact loop_done c subs id h hfuel rfl
  | x :: l, pre, r, log, hs => by
    by_cases hb : r.broker x = some b
    · by_cases hw : c.subscribed subs id x
      · cases hf : c.rxType x with
        | callback =>
          obtain ⟨r', log', hr', ht, hs', hl', hgone⟩ := hs.call c subs id h b hb hw hf (linked b r l).head?
          simp only [NextKept, hb, hw, hf, hr', and_self, if_true]
          cases hn : linked b r l with
          | nil =>
            refine ⟨⟨r', none, none, log'⟩, ?_, ?_⟩
            · refine hs.first c subs id h b hb (u := ⟨r', none, none, log'⟩) (by rw [ht, hn]; rfl) ?_
              intro fuel hfuel
              exact loop_done c subs id h (Nat.zero_lt_of_lt hfuel) rfl
            · exact iff_of_true (hs'.safe c subs id b (by simp [hl', hn]) _ _) trivial
          | cons next rest =>
            have hnext : next ∈ l := (mem_linked b |>.mp (hn ▸ List.mem_cons_self ..)).1
            by_cases hmem : next ∈ h.removes r x
            -- `next` is in `tmp` and not in the list any more
            · obtain ⟨t, hl, hiff⟩ := hs'.unlinked c subs id h b (hgone next hmem).2
              refine ⟨t, hs.first c subs id h b hb (u := ⟨r', some next, none, log'⟩) ?_ ?_, ?_⟩
              · rw [ht, hn, List.head?_cons, Option.bind_some, nextNode, (hgone next hmem).1]
              · intro fuel hfuel
                have := List.length_pos_of_mem hnext
                exact hl fuel (by omega)
              · simpa only [List.head?_cons, hmem, if_true] using hiff
            · obtain ⟨t, hl, hiff⟩ := loop_spec l (pre ++ [x]) r' log' hs'
              refine ⟨t, hs.first c subs id h b hb (u := scanAt b r' l log') ?_ hl, ?_⟩
              · rw [ht, scanAt, hl', hn, List.filter_cons_of_pos (by simpa using hmem)]
                rfl
              · simpa only [List.head?_cons, hmem, if_false] using hiff
        | msgq =>
          obtain ⟨t, hl, hiff⟩ := loop_spec l (pre ++ [x]) r _ (hs.deliver c subs id b hb (by simp [hf]))
          refine ⟨t, hs.first c subs id h b hb (by simp only [turn, hw, hf, if_true]; rfl) hl, ?_⟩
          simpa [NextKept, hb, hw, hf] using hiff
        | fifo =>
          refine ⟨⟨r, none, none, log ++ [.delivered x]⟩, ?_, ?_⟩
          · refine hs.first c subs id h b hb (by simp only [turn, hw, hf, if_true]; rfl) ?_
            intro fuel hfuel
            exact loop_done c subs id h (Nat.zero_lt_of_lt hfuel) rfl
          · exact iff_of_true (hs.fifo c subs id b hb hw hf _ _) (by simp [NextKept, hb, hw, hf])
      · obtain ⟨t, hl, hiff⟩ := loop_spec l (pre ++ [x]) r log (hs.pass c subs id b fun hx => hw hx.2)
        refine ⟨t, hs.first c subs id h b hb (by simp only [turn, hw, if_false]; rfl) hl, ?_⟩
        simpa [NextKept, hw] using hiff
    · obtain ⟨t, hl, hiff⟩ := loop_spec l (pre ++ [x]) r log (hs.pass c subs id b fun hx => hb hx.1)
      refine ⟨t, ?_, by simpa [NextKept, hb] using hiff⟩
      intro fuel hfuel
      rw [scanAt, linked_cons_of_neg b hb]
      exact hl fuel (Nat.lt_of_succ_lt hfuel)

end

omit [DecidableEq S] in
theorem linked_all {r : Registry B S} (hw : r.Wf) : linked b r (r.subscribers b) = r.subscribers b := by
  refine List.filter_eq_self.mpr ?_
  intro x hx
  simpa using (hw.mem_iff b x).mp hx

theorem SoFar.start {r : Registry B S} (hw : r.Wf) : SoFar c subs id b r [] (r.subscribers b) [] := by
  refine ⟨hw, hw.nodup b, (linked_all b hw).symm, ?_, ?_, ?_, .nil⟩
  · intro x hx
    cases hx
  · intro x _ hx
    cases hx
  · intro x hx
    cases hx

theorem processMsg_eq {r : Registry B S} (hw : r.Wf) (fuel : Nat) :
    processMsg c subs id h b fuel r = loop c subs id h fuel (scanAt b r (r.subscribers b) []) := by
  rw [scanAt, linked_all b hw]
  rfl

/-- The loop ends within a turn for each node and one more, and handlers that remove
attached subscribers cost nobody the message and give it to none too late exactly
when the `NextKept` condition holds of the list it starts with. -/
theorem handler_removal_iff {r : Registry B S} (hw : r.Wf) :
    ∃ t, (∀ fuel, (r.subscribers b).length < fuel → processMsg c subs id h b fuel r = .ok (some t)) ∧
      (RemovalSafe c subs id b t ↔ NextKept c subs id h b r (r.subscribers b)) := by
  obtain ⟨t, hl, hiff⟩ := loop_spec c subs id h b (r.subscribers b) [] r [] (.start c subs id b hw)
  refine ⟨t, ?_, hiff⟩
  intro fuel hfuel
  rw [processMsg_eq c subs id h b hw]
  exact hl fuel hfuel

end

def threeCallbacks : Registry Unit (Fin 3) := ⟨fun _ => [0, 1, 2], fun _ => some (), fun _ => 0⟩

def threeCallbacksCfg : Cfg (Fin 3) := ⟨fun _ => .callback, fun _ => 10, fun _ => 0, 0⟩

theorem threeCallbacks_wf : threeCallbacks.Wf := by
  refine ⟨fun _ => ?_, fun _ => ?_⟩
  · change [0, 1, 2].Nodup
    decide
  · change ∀ x : Fin 3, x ∈ [0, 1, 2] ↔ some () = some ()
    decide

def removesOne (gone : Fin 3) : Handlers Unit (Fin 3) where
  removes r x := if x = 0 ∧ r.broker gone ≠ none then [gone] else []
  nodup := by
    intro r x
    split
    · exact List.nodup_singleton _
    · exact List.nodup_nil
  attached := by
    intro r x y hy
    split at hy
    · cases List.mem_singleton.mp hy
      exact ‹_ ∧ _›.2
    · cases hy

theorem handler_removal_last : threeCallbacks.Wf ∧ ∃ t,
    (∀ fuel, 3 < fuel → processMsg threeCallbacksCfg (fun _ _ => true) 5 (removesOne 2) () fuel threeCallbacks =
      .ok (some t)) ∧ RemovalSafe threeCallbacksCfg (fun _ _ => true) 5 () t := by
  obtain ⟨t, ht, hiff⟩ :=
    handler_removal_iff threeCallbacksCfg (fun _ _ => true) 5 (removesOne 2) () threeCallbacks_wf
  refine ⟨threeCallbacks_wf, t, ht, hiff.mpr ?_⟩
  simp [NextKept, threeCallbacks, threeCallbacksCfg, removesOne, removeAll, Runs.exec,
    subscriberRemoveBroker, linked, Cfg.subscribed]

/-- The one behind goes: it gets the message after its removal, and 2 never gets it. -/
theorem next_removed : threeCallbacks.Wf ∧ ∃ t,
    processMsg threeCallbacksCfg (fun _ _ => true) 5 (removesOne 1) () 4 threeCallbacks = .ok (some t) ∧
      t.log = [.delivered 0, .removed 1, .delivered 1] ∧ t.reg.subscribers () = [0, 2] ∧
      ¬ RemovalSafe threeCallbacksCfg (fun _ _ => true) 5 () t := by
  refine ⟨threeCallbacks_wf, _, rfl, rfl, rfl, ?_⟩
  intro hsafe
  have hlate := (List.pairwise_cons.mp (List.pairwise_cons.mp hsafe.gone).2).1
  exact hlate (.delivered 1) (List.mem_singleton_self _) 1 rfl rfl

end ZephyrPubSub
