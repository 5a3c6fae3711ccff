import ZephyrPubSub.SubList
import ZephyrPubSub.Sweep

/-!
# The way of one message

`Track` is what the system's state says about one publication on one broker:
where the right to offer it to further subscribers is, and how often each
subscriber was given it. That right is in one place at a time (the publish
FIFO, the dispatch, or one FIFO subscriber), so a message's way is a sweep
down the list.
-/

namespace ZephyrPubSub

open Lists Function

inductive WorkPos (S : Type) where
  | lock
  | scan (sub : Option S)
  | put (x : S)

inductive SvcPos (S : Type) where
  /-- Dequeued by a FIFO subscriber and not yet passed on. -/
  | hold
  | walk (nextSub : Option S)
  | ready

structure Track (S : Type) where
  list : List S
  pub : Nat
  work : Option (WorkPos S)
  queue : S → Nat
  svc : S → Option (SvcPos S)
  handed : S → Nat

/-- Who is to offer the message to the next subscriber. -/
inductive Site (S : Type) where
  | pub
  | work
  | sub (x : S)

def SvcPos.relays {S : Type} : Option (SvcPos S) → Nat
  | some .hold | some (.walk _) => 1
  | _ => 0

section
variable {S : Type} [DecidableEq S]

def WorkPos.putting (x : S) : Option (WorkPos S) → Nat
  | some (.put y) => if y = x then 1 else 0
  | _ => 0

namespace Track

def workRest (list : List S) : Option (WorkPos S) → List S
  | some .lock => list
  | some (.scan sub) => fromPtr list sub
  | some (.put x) => after x list
  | none => []

def subRest (list : List S) (x : S) : Option (SvcPos S) → List S
  | some (.walk n) => fromPtr list n
  | _ => after x list

/-- The part of the list a site has not offered the message to. -/
def todo (t : Track S) : Option (Site S) → List S
  | none => []
  | some .pub => t.list
  | some .work => workRest t.list t.work
  | some (.sub x) => subRest t.list x (t.svc x)

/-- Deliveries to `x`, finished or not. -/
def got (t : Track S) (x : S) : Nat :=
  t.handed x + t.queue x + (if (t.svc x).isSome then 1 else 0) + WorkPos.putting x t.work

def view (t : Track S) (o : Option (Site S)) : Sweep.State S := ⟨t.todo o, t.got⟩

/-- The only site is `o`. -/
structure At (rx : S → RxType) (t : Track S) (o : Option (Site S)) : Prop where
  pub : o = some .pub ∧ t.pub = 1 ∨ o ≠ some .pub ∧ t.pub = 0
  work : o = some .work ∧ t.work ≠ none ∨ o ≠ some .work ∧ t.work = none
  sub : ∀ x, rx x = .fifo → o = some (.sub x) ∧ t.queue x + SvcPos.relays (t.svc x) = 1 ∨
    o ≠ some (.sub x) ∧ t.queue x + SvcPos.relays (t.svc x) = 0
  fifo : ∀ x, o = some (.sub x) → rx x = .fifo

def Resting (t : Track S) : Prop :=
  (∀ x, t.work ≠ some (.put x)) ∧ ∀ x n, t.svc x = some (.walk n) → n = none

def holders (t : Track S) (x : S) : Nat := t.queue x + SvcPos.relays (t.svc x)

/-- Holders that have not looked for the next subscriber yet. -/
def waiting (t : Track S) (x : S) : Prop := 0 < t.queue x ∨ t.svc x = some .hold

/-- In the new list nobody stands behind a waiting holder, or behind the dispatch,
who has got the message, and who is in `stay` stays behind the two. -/
structure RelistOk (rx : S → RxType) (stay : S → Prop) (t : Track S) (l : List S) : Prop where
  kept : ∀ x ∈ t.list, stay x → x ∈ l
  scanGot : ∀ y, t.work = some (.scan (some y)) → ∀ x ∈ after y l, t.got x = 0
  scanBehind : ∀ y, t.work = some (.scan (some y)) → ∀ x ∈ after y t.list, stay x → x ∈ after y l
  got : ∀ z, rx z = .fifo → t.waiting z → ∀ x ∈ after z l, t.got x = 0
  behind : ∀ z, rx z = .fifo → t.waiting z → ∀ x ∈ after z t.list, stay x → x ∈ after z l

inductive Step (rx : S → RxType) (want stay : S → Prop) (t : Track S) : Track S → Prop
  | stutter : Step rx want stay t t
  | take {n} : t.pub = n + 1 → t.work = none → Step rx want stay t { t with pub := n, work := some .lock }
  | lock : t.work = some .lock → Step rx want stay t { t with work := some (.scan t.list.head?) }
  | scanEnd : t.work = some (.scan none) → Step rx want stay t { t with work := none }
  | scanSkip {x} : t.work = some (.scan (some x)) → ¬ want x →
      Step rx want stay t { t with work := some (.scan (after x t.list).head?) }
  | scanCallback {x} : t.work = some (.scan (some x)) → want x →
      Step rx want stay t
        { t with
          work := some (.scan (after x t.list).head?)
          handed := update t.handed x (t.handed x + 1) }
  | scanMsgq {x} : t.work = some (.scan (some x)) → want x →
      Step rx want stay t { t with work := some (.put x) }
  | scanFifo {x} : t.work = some (.scan (some x)) → want x → rx x = .fifo →
      Step rx want stay t { t with work := none, queue := update t.queue x (t.queue x + 1) }
  | put {x} : t.work = some (.put x) → rx x = .msgq →
      Step rx want stay t
        { t with
          work := some (.scan (after x t.list).head?)
          queue := update t.queue x (t.queue x + 1) }
  | takeMsgq {x n} : rx x = .msgq → t.queue x = n + 1 → t.svc x = none →
      Step rx want stay t { t with queue := update t.queue x n, svc := update t.svc x (some .ready) }
  | takeFifo {x n} : rx x = .fifo → t.queue x = n + 1 → t.svc x = none →
      Step rx want stay t { t with queue := update t.queue x n, svc := update t.svc x (some .hold) }
  | startWalk {x} : rx x = .fifo → t.svc x = some .hold →
      Step rx want stay t { t with svc := update t.svc x (some (.walk (after x t.list).head?)) }
  | walkEnd {x} : rx x = .fifo → t.svc x = some (.walk none) →
      Step rx want stay t { t with svc := update t.svc x (some .ready) }
  | walkSkip {x n} : rx x = .fifo → t.svc x = some (.walk (some n)) → ¬ want n →
      Step rx want stay t { t with svc := update t.svc x (some (.walk (after n t.list).head?)) }
  | walkGive {x n} : rx x = .fifo → t.svc x = some (.walk (some n)) → want n → rx n = .fifo →
      Step rx want stay t
        { t with
          queue := update t.queue n (t.queue n + 1)
          svc := update t.svc x (some .ready) }
  | handle {x} : t.svc x = some .ready →
      Step rx want stay t
        { t with svc := update t.svc x none, handed := update t.handed x (t.handed x + 1) }
  | relist {l} : l.Nodup → t.Resting → RelistOk rx stay t l → Step rx want stay t { t with list := l }

def Unstarted (t : Track S) (o : Option (Site S)) : Prop := o = some .pub ∨ t.work = some .lock

structure Inv (rx : S → RxType) (t : Track S) (o : Option (Site S)) : Prop where
  at_ : At rx t o
  nodup : t.list.Nodup
  unstarted : t.Unstarted o → ∀ x, t.got x = 0
  fresh : Sweep.Fresh (t.view o)

variable {rx : S → RxType} {want stay : S → Prop} {t t' : Track S} {o o' : Option (Site S)}

/-! ## The site -/

section
omit [DecidableEq S]

theorem At.of_pub (h : At rx t o) {n : Nat} (hp : t.pub = n + 1) : o = some .pub ∧ n = 0 := by
  rcases h.pub with ⟨ho, h1⟩ | ⟨_, h0⟩
  · exact ⟨ho, by omega⟩
  · omega

theorem At.of_work (h : At rx t o) {w : WorkPos S} (hw : t.work = some w) : o = some .work := by
  rcases h.work with ⟨ho, _⟩ | ⟨_, h0⟩
  · exact ho
  · rw [hw] at h0; cases h0

theorem At.of_holder (h : At rx t o) {x : S} (hx : rx x = .fifo) (hp : 0 < t.holders x) :
    o = some (.sub x) := by
  rcases h.sub x hx with ⟨ho, _⟩ | ⟨_, h0⟩
  · exact ho
  · simp only [holders] at hp; omega

theorem At.holder_one (h : At rx t o) {x : S} (hx : rx x = .fifo) (ho : o = some (.sub x)) :
    t.queue x + SvcPos.relays (t.svc x) = 1 := by
  rcases h.sub x hx with ⟨_, h1⟩ | ⟨hn, _⟩
  · exact h1
  · exact absurd ho hn

theorem At.keep (h : At rx t o) (hp : t'.pub = t.pub) (hw : t'.work = none ↔ t.work = none)
    (hs : ∀ x, rx x = .fifo → t'.queue x + SvcPos.relays (t'.svc x) = t.queue x + SvcPos.relays (t.svc x)) :
    At rx t' o := by
  refine ⟨hp ▸ h.pub, ?_, fun x hx => ?_, h.fifo⟩
  · rcases h.work with ⟨ho, hn⟩ | ⟨ho, hn⟩
    · exact Or.inl ⟨ho, fun e => hn (hw.mp e)⟩
    · exact Or.inr ⟨ho, hw.mpr hn⟩
  · rw [hs x hx]; exact h.sub x hx

end

/-- Only the part of `x` is changed. -/
structure Only (x : S) (t t' : Track S) : Prop where
  queue : ∀ y, y ≠ x → t'.queue y = t.queue y
  svc : ∀ y, y ≠ x → t'.svc y = t.svc y
  handed : ∀ y, y ≠ x → t'.handed y = t.handed y

theorem only_svc (t : Track S) (x : S) (v : Option (SvcPos S)) : Only x t { t with svc := update t.svc x v } :=
  ⟨fun _ _ => rfl, fun _ hy => update_of_ne hy .., fun _ _ => rfl⟩

theorem At.keep_only {x : S} (h : At rx t o) (hx : Only x t t') (hp : t'.pub = t.pub)
    (hw : t'.work = none ↔ t.work = none)
    (hs : rx x = .fifo → t'.queue x + SvcPos.relays (t'.svc x) = t.queue x + SvcPos.relays (t.svc x)) :
    At rx t' o := by
  refine h.keep hp hw fun y hy => ?_
  by_cases hyx : y = x
  · subst hyx; exact hs hy
  · rw [hx.queue y hyx, hx.svc y hyx]

theorem Only.got {x : S} (h : Only x t t') (hw : t'.work = t.work) (hx : t'.got x = t.got x) (y : S) :
    t'.got y = t.got y := by
  by_cases hy : y = x
  · subst hy; exact hx
  · rw [Track.got, Track.got, h.queue y hy, h.svc y hy, h.handed y hy, hw]

theorem Only.todo {x : S} (h : Only x t t') (hl : t'.list = t.list) (hw : t'.work = t.work)
    (hx : subRest t.list x (t'.svc x) = subRest t.list x (t.svc x)) : t'.todo o = t.todo o := by
  cases o with
  | none => rfl
  | some u =>
    cases u with
    | pub => exact hl
    | work => simp only [Track.todo, hl, hw]
    | sub z =>
      simp only [Track.todo, hl]
      by_cases hz : z = x
      · subst hz; exact hx
      · rw [h.svc z hz]

theorem subRest_of_relays {v : Option (SvcPos S)} (h : SvcPos.relays v = 0) (l : List S) (x : S) :
    subRest l x v = after x l := by
  cases v with
  | none => rfl
  | some v =>
    cases v with
    | walk n => cases h
    | _ => rfl

/-! ## Counting deliveries -/

theorem keep_of (htodo : t'.todo o' = t.todo o) (hgot : ∀ y, t'.got y = t.got y) :
    Sweep.Step want stay (t.view o) (t'.view o') := by
  rw [view, view, htodo, funext hgot]
  exact .keep

theorem skip_of {x : S} (hx : ¬ want x) (htodo : t.todo o = x :: t'.todo o')
    (hgot : ∀ y, t'.got y = t.got y) : Sweep.Step want stay (t.view o) (t'.view o') := by
  rw [view, view, htodo, funext hgot]
  exact .skip hx

theorem give_of {x : S} (hx : want x) (htodo : t.todo o = x :: t'.todo o')
    (hgot : ∀ y, t'.got y = t.got y + if y = x then 1 else 0) :
    Sweep.Step want stay (t.view o) (t'.view o') := by
  have he : t'.got = update t.got x (t.got x + 1) := by
    funext y
    rw [hgot]
    by_cases hy : y = x
    · subst hy; simp
    · simp [hy]
  rw [view, view, htodo, he]
  exact .give hx

theorem Inv.of (hi : Inv rx t o) (o' : Option (Site S)) (hs : Sweep.Step want stay (t.view o) (t'.view o'))
    (ha : At rx t' o')
    (hn : t'.list.Nodup) (hu : t'.Unstarted o' → ∀ x, t'.got x = 0) :
    ∃ o', Inv rx t' o' ∧ Sweep.Step want stay (t.view o) (t'.view o') :=
  ⟨o', ⟨ha, hn, hu, hs.fresh hi.fresh⟩, hs⟩

section
omit [DecidableEq S]

theorem not_unstarted {P : Prop} (ho : o ≠ some .pub) (hw : t.work ≠ some .lock) : t.Unstarted o → P := by
  rintro (h | h)
  · exact absurd h ho
  · exact absurd h hw

theorem At.not_lock (h : At rx t o) (ho : o ≠ some .work) : t.work ≠ some .lock := by
  rcases h.work with ⟨h1, _⟩ | ⟨_, h0⟩
  · exact absurd h1 ho
  · rw [h0]; simp

theorem at_work (hp : t.pub = 0) (hw : t.work ≠ none)
    (hs : ∀ x, rx x = .fifo → t.queue x + SvcPos.relays (t.svc x) = 0) : At rx t (some .work) :=
  ⟨Or.inr ⟨by simp, hp⟩, Or.inl ⟨rfl, hw⟩, fun x hx => Or.inr ⟨by simp, hs x hx⟩, by simp⟩

theorem at_none (hp : t.pub = 0) (hw : t.work = none)
    (hs : ∀ x, rx x = .fifo → t.queue x + SvcPos.relays (t.svc x) = 0) : At rx t none :=
  ⟨Or.inr ⟨by simp, hp⟩, Or.inr ⟨by simp, hw⟩, fun x hx => Or.inr ⟨by simp, hs x hx⟩, by simp⟩

end

theorem at_sub {x : S} (hrx : rx x = .fifo) (hp : t.pub = 0) (hw : t.work = none)
    (hx : t.queue x + SvcPos.relays (t.svc x) = 1)
    (hs : ∀ y, rx y = .fifo → y ≠ x → t.queue y + SvcPos.relays (t.svc y) = 0) : At rx t (some (.sub x)) := by
  refine ⟨Or.inr ⟨by simp, hp⟩, Or.inr ⟨by simp, hw⟩, fun y hy => ?_, ?_⟩
  · by_cases hyx : y = x
    · subst hyx; exact Or.inl ⟨rfl, hx⟩
    · exact Or.inr ⟨by simpa using Ne.symm hyx, hs y hy hyx⟩
  · rintro y ⟨⟩
    exact hrx

section
omit [DecidableEq S]

theorem At.pub_zero (h : At rx t o) (ho : o ≠ some .pub) : t.pub = 0 := by
  rcases h.pub with ⟨h1, _⟩ | ⟨_, h0⟩
  · exact absurd h1 ho
  · exact h0

theorem At.sub_zero (h : At rx t o) {x : S} (hx : rx x = .fifo) (ho : o ≠ some (.sub x)) :
    t.queue x + SvcPos.relays (t.svc x) = 0 := by
  rcases h.sub x hx with ⟨h1, _⟩ | ⟨_, h0⟩
  · exact absurd h1 ho
  · exact h0

theorem At.work_none (h : At rx t o) (ho : o ≠ some .work) : t.work = none := by
  rcases h.work with ⟨h1, _⟩ | ⟨_, h0⟩
  · exact absurd h1 ho
  · exact h0

end

/-- A resting site that has more to offer is waiting. -/
theorem Resting.waiting {z : S} (h : t.Resting) (ha : At rx t (some (.sub z))) (hv : t.svc z ≠ some (.walk none)) :
    t.waiting z ∧ ∀ l, subRest l z (t.svc z) = after z l := by
  have h1 := ha.holder_one (ha.fifo z rfl) rfl
  rw [Track.waiting]
  cases hz : t.svc z with
  | none =>
    simp only [hz, SvcPos.relays] at h1
    exact ⟨Or.inl (by omega), fun _ => rfl⟩
  | some v =>
    cases v with
    | hold => exact ⟨Or.inr rfl, fun _ => rfl⟩
    | walk n =>
      rw [hz, h.2 z n hz] at hv
      exact absurd rfl hv
    | ready =>
      simp only [hz, SvcPos.relays] at h1
      exact ⟨Or.inl (by omega), fun _ => rfl⟩

theorem Inv.scanning {y : S} (h : Inv rx t o) (hw : t.work = some (.scan (some y))) :
    o = some .work ∧ t.todo o = fromPtr t.list (some y) := by
  obtain rfl := h.at_.of_work hw
  exact ⟨rfl, by simp only [todo, workRest, hw]⟩

/-- The handler that a dispatch has called changes the list behind the dispatch's next subscriber. -/
theorem relist_scan {y : S} {l : List S} (hi : Inv rx t (some .work)) (hw : t.work = some (.scan (some y)))
    (hl : l.Nodup) (hok : RelistOk rx stay t l) :
    Sweep.Step want stay ⟨fromPtr t.list (some y), t.got⟩ ⟨fromPtr l (some y), t.got⟩ := by
  have hy : t.got y = 0 := hi.fresh.zero y (by rw [view, (hi.scanning hw).2, fromPtr]; exact List.mem_cons_self ..)
  apply Sweep.Step.relist
  · exact List.nodup_cons.mpr ⟨not_mem_after_self hl, hl.sublist (after_sublist y l)⟩
  · intro x hx
    rcases mem_fromPtr_some.mp hx with rfl | hx
    · exact hy
    · exact hok.scanGot y hw x hx
  · intro x hx hs
    rcases mem_fromPtr_some.mp hx with rfl | hx
    · exact mem_fromPtr_some.mpr (Or.inl rfl)
    · exact mem_fromPtr_some.mpr (Or.inr (hok.scanBehind y hw x hx hs))

/-! ## One step -/

/-- What a step of the track comes to: a step of the sweep, with the right to offer
the message in one place again. -/
abbrev Sweeps (rx : S → RxType) (want stay : S → Prop) (t : Track S) (o : Option (Site S)) (t' : Track S) : Prop :=
  ∃ o', Inv rx t' o' ∧ Sweep.Step want stay (t.view o) (t'.view o')

theorem Inv.take {n : Nat} (hi : Inv rx t o) (hp : t.pub = n + 1) (hw : t.work = none) :
    Sweeps rx want stay t o { t with pub := n, work := some .lock } := by
  have ha := hi.at_
  have hn := hi.nodup
  obtain ⟨rfl, rfl⟩ := ha.of_pub hp
  refine hi.of (some .work) (keep_of rfl fun y => by simp [got, WorkPos.putting, hw]) ?_ hn ?_
  · exact at_work rfl (by simp) fun x hx => ha.sub_zero hx (by simp)
  · intro _ x
    have := hi.unstarted (Or.inl rfl) x
    simpa [got, WorkPos.putting, hw] using this

theorem Inv.lock (hi : Inv rx t o) (hw : t.work = some .lock) :
    Sweeps rx want stay t o { t with work := some (.scan t.list.head?) } := by
  have ha := hi.at_
  have hn := hi.nodup
  obtain rfl := ha.of_work hw
  refine hi.of (some .work) (keep_of ?_ fun y => by simp [got, WorkPos.putting, hw])
    (ha.keep rfl (by simp [hw]) fun _ _ => rfl) hn (not_unstarted (by simp) (by simp))
  simp only [todo, workRest, hw]
  exact fromPtr_head_self t.list

theorem Inv.scanEnd (hi : Inv rx t o) (hw : t.work = some (.scan none)) :
    Sweeps rx want stay t o { t with work := none } := by
  have ha := hi.at_
  have hn := hi.nodup
  obtain rfl := ha.of_work hw
  refine hi.of none (keep_of (by simp [todo, workRest, hw, fromPtr])
    fun y => by simp [got, WorkPos.putting, hw]) ?_ hn (not_unstarted (by simp) (by simp))
  exact at_none (ha.pub_zero (by simp)) rfl fun x hx => ha.sub_zero hx (by simp)

theorem Inv.scanSkip {x : S} (hi : Inv rx t o) (hw : t.work = some (.scan (some x))) (hx : ¬ want x) :
    Sweeps rx want stay t o { t with work := some (.scan (after x t.list).head?) } := by
  have ha := hi.at_
  have hn := hi.nodup
  obtain rfl := ha.of_work hw
  refine hi.of (some .work) (skip_of hx ?_ fun y => by simp [got, WorkPos.putting, hw])
    (ha.keep rfl (by simp [hw]) fun _ _ => rfl) hn (not_unstarted (by simp) (by simp))
  simp only [todo, workRest, hw, fromPtr_head t.list hn x]
  rfl

theorem Inv.scanCallback {x : S} (hi : Inv rx t o) (hw : t.work = some (.scan (some x))) (hx : want x) :
    Sweeps rx want stay t o { t with
      work := some (.scan (after x t.list).head?)
      handed := update t.handed x (t.handed x + 1) } := by
  have ha := hi.at_
  have hn := hi.nodup
  obtain rfl := ha.of_work hw
  refine hi.of (some .work) (give_of hx ?_ fun y => ?_)
    (ha.keep rfl (by simp [hw]) fun _ _ => rfl) hn (not_unstarted (by simp) (by simp))
  · simp only [todo, workRest, hw, fromPtr_head t.list hn x]
    rfl
  · simp only [got, WorkPos.putting, hw]
    by_cases hy : y = x
    · subst hy; simp; omega
    · simp [hy]

theorem Inv.scanMsgq {x : S} (hi : Inv rx t o) (hw : t.work = some (.scan (some x))) (hx : want x) :
    Sweeps rx want stay t o { t with work := some (.put x) } := by
  have ha := hi.at_
  have hn := hi.nodup
  obtain rfl := ha.of_work hw
  refine hi.of (some .work) (give_of hx ?_ fun y => ?_)
    (ha.keep rfl (by simp [hw]) fun _ _ => rfl) hn (not_unstarted (by simp) (by simp))
  · simp only [todo, workRest, hw]
    rfl
  · simp only [got, WorkPos.putting, hw]
    by_cases hy : y = x
    · subst hy; simp
    · simp [hy, Ne.symm hy]

theorem Inv.scanFifo {x : S} (hi : Inv rx t o) (hw : t.work = some (.scan (some x))) (hx : want x)
    (hrx : rx x = .fifo) :
    Sweeps rx want stay t o { t with work := none, queue := update t.queue x (t.queue x + 1) } := by
  have ha := hi.at_
  have hn := hi.nodup
  obtain rfl := ha.of_work hw
  have h0 := ha.sub_zero hrx (by simp)
  refine hi.of (some (.sub x)) (give_of hx ?_ fun y => ?_) ?_ hn (not_unstarted (by simp) (by simp))
  · simp only [todo, workRest, hw, subRest_of_relays (Nat.eq_zero_of_add_eq_zero_left h0)]
    rfl
  · simp only [got, WorkPos.putting, hw]
    by_cases hy : y = x
    · subst hy; simp; omega
    · simp [hy]
  · refine at_sub hrx (ha.pub_zero (by simp)) rfl ?_ fun y hy hyx => ?_
    · simp only [update_self]
      omega
    · simpa [hyx] using ha.sub_zero hy (by simp)

theorem Inv.put {x : S} (hi : Inv rx t o) (hw : t.work = some (.put x)) (hrx : rx x = .msgq) :
    Sweeps rx want stay t o { t with
      work := some (.scan (after x t.list).head?)
      queue := update t.queue x (t.queue x + 1) } := by
  have ha := hi.at_
  have hn := hi.nodup
  obtain rfl := ha.of_work hw
  refine hi.of (some .work) (keep_of ?_ fun y => ?_) ?_ hn (not_unstarted (by simp) (by simp))
  · simp only [todo, workRest, hw, fromPtr_head t.list hn x]
  · simp only [got, WorkPos.putting, hw]
    by_cases hy : y = x
    · subst hy; simp; omega
    · simp [hy, Ne.symm hy]
  · refine ha.keep rfl (by simp [hw]) fun y hy => ?_
    have hyx : y ≠ x := fun e => by rw [e, hrx] at hy; cases hy
    simp [hyx]

theorem Inv.takeMsgq {x : S} {n : Nat} (hi : Inv rx t o) (hrx : rx x = .msgq) (hq : t.queue x = n + 1)
    (hv : t.svc x = none) :
    Sweeps rx want stay t o { t with
      queue := update t.queue x n
      svc := update t.svc x (some .ready) } := by
  have ha := hi.at_
  have hn := hi.nodup
  have hx : Only x t { t with queue := update t.queue x n, svc := update t.svc x (some .ready) } :=
    ⟨fun y hy => update_of_ne hy .., fun y hy => update_of_ne hy .., fun _ _ => rfl⟩
  have hgot := hx.got rfl (by simp [got, hq, hv]; omega)
  have htodo := hx.todo (o := o) rfl rfl (by simp [subRest, hv])
  refine hi.of o (keep_of htodo hgot) (ha.keep_only hx rfl Iff.rfl fun hf => ?_) hn ?_
  · rw [hrx] at hf; cases hf
  · intro hu y
    rw [hgot]
    exact hi.unstarted hu y

theorem Inv.takeFifo {x : S} {n : Nat} (hi : Inv rx t o) (hrx : rx x = .fifo) (hq : t.queue x = n + 1)
    (hv : t.svc x = none) :
    Sweeps rx want stay t o { t with
      queue := update t.queue x n
      svc := update t.svc x (some .hold) } := by
  have ha := hi.at_
  have hn := hi.nodup
  have ho := ha.of_holder hrx (by simp only [holders]; omega)
  subst ho
  have hx : Only x t { t with queue := update t.queue x n, svc := update t.svc x (some .hold) } :=
    ⟨fun y hy => update_of_ne hy .., fun y hy => update_of_ne hy .., fun _ _ => rfl⟩
  refine hi.of (some (.sub x)) (keep_of ?_ (hx.got rfl ?_)) (ha.keep_only hx rfl Iff.rfl fun _ => ?_) hn
    (not_unstarted (by simp) (ha.not_lock (by simp)))
  · simp [todo, subRest, hv]
  · simp [got, hq, hv]; omega
  · simp [hq, hv, SvcPos.relays]

theorem Inv.startWalk {x : S} (hi : Inv rx t o) (hrx : rx x = .fifo) (hv : t.svc x = some .hold) :
    Sweeps rx want stay t o { t with svc := update t.svc x (some (.walk (after x t.list).head?)) } := by
  have ha := hi.at_
  have hn := hi.nodup
  have ho := ha.of_holder hrx (by simp only [holders, hv, SvcPos.relays]; omega)
  subst ho
  have hx := only_svc t x (some (.walk (after x t.list).head?))
  refine hi.of (some (.sub x)) (keep_of ?_ (hx.got rfl (by simp [got, hv])))
    (ha.keep_only hx rfl Iff.rfl fun _ => by simp [hv, SvcPos.relays]) hn
    (not_unstarted (by simp) (ha.not_lock (by simp)))
  simp [todo, subRest, hv, fromPtr_head t.list hn x]

theorem Inv.walkEnd {x : S} (hi : Inv rx t o) (hrx : rx x = .fifo) (hv : t.svc x = some (.walk none)) :
    Sweeps rx want stay t o { t with svc := update t.svc x (some .ready) } := by
  have ha := hi.at_
  have hn := hi.nodup
  have ho := ha.of_holder hrx (by simp only [holders, hv, SvcPos.relays]; omega)
  subst ho
  have h1 := ha.holder_one hrx rfl
  rw [hv] at h1
  refine hi.of none (keep_of ?_ ((only_svc t x _).got rfl (by simp [got, hv]))) ?_ hn
    (not_unstarted (by simp) (ha.not_lock (by simp)))
  · simp [todo, subRest, hv, fromPtr]
  · refine at_none (ha.pub_zero (by simp)) (ha.work_none (by simp)) fun y hy => ?_
    by_cases hyx : y = x
    · subst hyx; simpa [SvcPos.relays] using h1
    · have := ha.sub_zero hy (by simpa using Ne.symm hyx)
      simpa [hyx] using this

theorem Inv.walkSkip {x n : S} (hi : Inv rx t o) (hrx : rx x = .fifo) (hv : t.svc x = some (.walk (some n)))
    (hw : ¬ want n) :
    Sweeps rx want stay t o { t with svc := update t.svc x (some (.walk (after n t.list).head?)) } := by
  have ha := hi.at_
  have hn := hi.nodup
  have ho := ha.of_holder hrx (by simp only [holders, hv, SvcPos.relays]; omega)
  subst ho
  have hx := only_svc t x (some (.walk (after n t.list).head?))
  refine hi.of (some (.sub x)) (skip_of hw ?_ (hx.got rfl (by simp [got, hv])))
    (ha.keep_only hx rfl Iff.rfl fun _ => by simp [hv, SvcPos.relays]) hn
    (not_unstarted (by simp) (ha.not_lock (by simp)))
  simp only [todo, subRest, hv, update_self, fromPtr_head t.list hn n]
  rfl

theorem Inv.walkGive {x n : S} (hi : Inv rx t o) (hrx : rx x = .fifo) (hv : t.svc x = some (.walk (some n)))
    (hw : want n) (hrn : rx n = .fifo) :
    Sweeps rx want stay t o { t with
      queue := update t.queue n (t.queue n + 1)
      svc := update t.svc x (some .ready) } := by
  have ha := hi.at_
  have hn := hi.nodup
  have ho := ha.of_holder hrx (by simp only [holders, hv, SvcPos.relays]; omega)
  subst ho
  have h1 := ha.holder_one hrx rfl
  rw [hv] at h1
  -- whoever has the message is not in the rest of the list
  have hnx : n ≠ x := by
    rintro rfl
    have := hi.fresh.zero n (by simp [view, todo, subRest, hv, fromPtr])
    simp [view, got, hv] at this
  have h0 := ha.sub_zero hrn (by simpa using Ne.symm hnx)
  refine hi.of (some (.sub n)) (give_of hw ?_ fun y => ?_) ?_ hn
    (not_unstarted (by simp) (ha.not_lock (by simp)))
  · simp only [todo, update_of_ne hnx, subRest_of_relays (Nat.eq_zero_of_add_eq_zero_left h0)]
    simp only [subRest, hv]
    rfl
  · simp only [got]
    by_cases hy : y = x
    · subst hy; simp [hv, Ne.symm hnx]
    · by_cases hyn : y = n
      · subst hyn; simp [hy]; omega
      · simp [hy, hyn]
  · refine at_sub hrn (ha.pub_zero (by simp)) (ha.work_none (by simp)) ?_ fun y hy hyn => ?_
    · simp only [update_self, update_of_ne hnx]
      omega
    · by_cases hyx : y = x
      · subst hyx
        simp only [update_of_ne hyn, update_self, SvcPos.relays] at h1 ⊢
        omega
      · have := ha.sub_zero hy (by simpa using Ne.symm hyx)
        simpa [hyx, hyn] using this

theorem Inv.handle {x : S} (hi : Inv rx t o) (hv : t.svc x = some .ready) :
    Sweeps rx want stay t o { t with
      svc := update t.svc x none
      handed := update t.handed x (t.handed x + 1) } := by
  have ha := hi.at_
  have hn := hi.nodup
  have hx : Only x t { t with svc := update t.svc x none, handed := update t.handed x (t.handed x + 1) } :=
    ⟨fun _ _ => rfl, fun y hy => update_of_ne hy .., fun y hy => update_of_ne hy ..⟩
  refine hi.of o (keep_of (hx.todo rfl rfl ?_) (hx.got rfl ?_)) (ha.keep_only hx rfl Iff.rfl fun _ => ?_) hn ?_
  · simp [subRest, hv]
  · simp [got, hv]; omega
  · simp [hv, SvcPos.relays]
  · intro hu
    have h0 := hi.unstarted hu x
    simp [got, hv] at h0

theorem Inv.relist {l : List S} (hi : Inv rx t o) (hl : l.Nodup) (hr : t.Resting) (hok : RelistOk rx stay t l) :
    Sweeps rx want stay t o { t with list := l } := by
  have ha := hi.at_
  refine hi.of o ?_ (ha.keep rfl Iff.rfl fun _ _ => rfl) hl hi.unstarted
  cases o with
  | none => exact keep_of rfl fun _ => rfl
  | some u =>
    cases u with
    | pub => exact .relist hl (fun x _ => hi.unstarted (Or.inl rfl) x) hok.kept
    | work =>
      change Sweep.Step want stay ⟨workRest t.list t.work, t.got⟩ ⟨workRest l t.work, t.got⟩
      cases hw : t.work with
      | none => exact .keep
      | some w =>
        cases w with
        | lock => exact .relist hl (fun x _ => hi.unstarted (Or.inr hw) x) hok.kept
        | scan sub =>
          cases sub with
          | none => exact .keep
          | some y => exact relist_scan hi hw hl hok
        | put x => exact absurd hw (hr.1 x)
    | sub z =>
      have hz := ha.fifo z rfl
      by_cases hv : t.svc z = some (.walk none)
      · exact keep_of (by simp [todo, subRest, hv, fromPtr]) fun _ => rfl
      · obtain ⟨hp, hrest⟩ := hr.waiting ha hv
        simp only [view, todo, hrest]
        exact .relist (hl.sublist (after_sublist z l)) (hok.got z hz hp) (hok.behind z hz hp)

theorem Step.sweep (h : Step rx want stay t t') (hi : Inv rx t o) : Sweeps rx want stay t o t' := by
  cases h with
  | stutter => exact ⟨o, hi, .keep⟩
  | take hp hw => exact hi.take hp hw
  | lock hw => exact hi.lock hw
  | scanEnd hw => exact hi.scanEnd hw
  | scanSkip hw hx => exact hi.scanSkip hw hx
  | scanCallback hw hx => exact hi.scanCallback hw hx
  | scanMsgq hw hx => exact hi.scanMsgq hw hx
  | scanFifo hw hx hrx => exact hi.scanFifo hw hx hrx
  | put hw hrx => exact hi.put hw hrx
  | takeMsgq hrx hq hv => exact hi.takeMsgq hrx hq hv
  | takeFifo hrx hq hv => exact hi.takeFifo hrx hq hv
  | startWalk hrx hv => exact hi.startWalk hrx hv
  | walkEnd hrx hv => exact hi.walkEnd hrx hv
  | walkSkip hrx hv hw => exact hi.walkSkip hrx hv hw
  | walkGive hrx hv hw hrn => exact hi.walkGive hrx hv hw hrn
  | handle hv => exact hi.handle hv
  | relist hl hr hok => exact hi.relist hl hr hok

theorem Inv.waiting (h : Inv rx t o) {z : S} (hz : rx z = .fifo) (hw : t.waiting z) :
    o = some (.sub z) ∧ t.todo o = after z t.list := by
  have hp : 0 < t.holders z := by
    rcases hw with hq | hv
    · simp only [holders]; omega
    · simp only [holders, hv, SvcPos.relays]; omega
  obtain rfl := h.at_.of_holder hz hp
  refine ⟨rfl, ?_⟩
  have h1 := h.at_.holder_one hz rfl
  simp only [todo]
  cases hv : t.svc z with
  | none => rfl
  | some v =>
    cases v with
    | walk n =>
      rcases hw with hq | hv'
      · rw [hv] at h1; simp only [SvcPos.relays] at h1; omega
      · rw [hv] at hv'; cases hv'
    | _ => rfl

end Track

end

end ZephyrPubSub
