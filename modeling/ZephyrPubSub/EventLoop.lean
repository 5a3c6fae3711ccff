import ZephyrPubSub.Polling
import ZephyrPubSub.Drain
import ZephyrPubSub.Schedule

/-!
# Threads that poll

One thread can service several subscribers: it fills in a poll event for each,
waits in `k_poll` for one of them to have a message, and then lets every
subscriber whose event is ready handle one message, without waiting for it.
-/

namespace ZephyrPubSub

open Function Runs Outcome

inductive PollType where
  | msgqDataAvailable
  | fifoDataAvailable
  deriving DecidableEq, Repr

structure PollEvent (S : Type) where
  type : PollType
  obj : S
  ready : Bool
  deriving DecidableEq, Repr

def populatePollEvt {S : Type} (c : Cfg S) (x : S) : Except Int (PollEvent S) :=
  match c.rxType x with
  | .callback => .error (-eperm)
  | .msgq => .ok ⟨.msgqDataAvailable, x, false⟩
  | .fifo => .ok ⟨.fifoDataAvailable, x, false⟩

inductive LoopAt (S : Type) where
  /-- Before `k_poll`, with the events reset. -/
  | polling
  | waiting
  | serving (evts : List (PollEvent S))
  | handling (x : S) (evts : List (PollEvent S))
  deriving DecidableEq, Repr

structure Loops (B S T : Type) where
  sys : Sys B S
  place : T → LoopAt S
  /-- What the calls of `pub_sub_handle_queued_msg` returned. -/
  returned : List (S × Int)

inductive LoopAct (B S T : Type) where
  | poll (t : T)
  /-- The kernel has signalled the events of these subscribers. -/
  | wake (t : T) (xs : List S)
  | expire (t : T)
  | serve (t : T)
  /-- Nobody else services a subscriber. -/
  | other (a : Act B S)

section
variable {B S T : Type} [DecidableEq S] [DecidableEq B] [DecidableEq T] (c : Cfg S) (subs : T → List S)

/-- The events that could be populated for the subscribers of a thread. -/
def pollEvents (t : T) : List (PollEvent S) := (subs t).filterMap fun x => (populatePollEvt c x).toOption

/-- `k_poll` looks at the number of messages. -/
def PollEvent.check (s : Sys B S) (e : PollEvent S) : PollEvent S := { e with ready := !(s.queue e.obj).isEmpty }

variable (l : Loops B S T) (t : T)

def Loops.to (p : LoopAt S) : Loops B S T := { l with place := update l.place t p }

def loopPoll : Except Stop (Loops B S T) :=
  match l.place t with
  | .polling =>
    let evts := (pollEvents c subs t).map (·.check l.sys)
    if evts.any (·.ready) then .ok (l.to t (.serving evts)) else .ok (l.to t .waiting)
  | _ => .error .misuse

def loopWake (xs : List S) : Except Stop (Loops B S T) :=
  match l.place t with
  | .waiting =>
    let evts := (pollEvents c subs t).map fun e =>
      if e.obj ∈ xs then e.check l.sys else e
    if evts.any (·.ready) then .ok (l.to t (.serving evts)) else .error .blocked
  | _ => .error .misuse

def loopExpire : Except Stop (Loops B S T) :=
  match l.place t with
  | .waiting => .ok (l.to t .polling)
  | _ => .error .misuse

/-- `pub_sub_handle_queued_msg` without waiting. -/
def handleNoWait (x : S) (evts : List (PollEvent S)) : Except Stop (Loops B S T) :=
  if (l.sys.svc x).isIdle then
    match c.rxType x with
    | .callback => .ok { l.to t (.serving evts) with returned := l.returned ++ [(x, -eperm)] }
    | rxType =>
      if l.sys.queue x = [] then
        .ok { l.to t (.serving evts) with returned := l.returned ++ [(x, notReceived rxType false)] }
      else do
        let sys ← svcStep c l.sys x
        .ok { l.to t (.handling x evts) with sys := sys }
  else .error .misuse

def loopServe : Except Stop (Loops B S T) :=
  match l.place t with
  | .serving [] => .ok (l.to t .polling)
  | .serving (e :: evts) => if e.ready then handleNoWait c l t e.obj evts else .ok (l.to t (.serving evts))
  | .handling x evts => do
    let sys ← svcStep c l.sys x
    if (sys.svc x).isIdle then
      .ok { l.to t (.serving evts) with sys := sys, returned := l.returned ++ [(x, 0)] }
    else .ok { l with sys := sys }
  | _ => .error .misuse

def loopStep : LoopAct B S T → Except Stop (Loops B S T)
  | .poll t => loopPoll c subs l t
  | .wake t xs => loopWake c subs l t xs
  | .expire t => loopExpire l t
  | .serve t => loopServe c l t
  | .other (.svc _) => .error .misuse
  | .other a => do
    let sys ← step c l.sys a
    .ok { l with sys := sys }

end

section
variable {B S T : Type} [DecidableEq S] [DecidableEq B] [DecidableEq T] {c : Cfg S} {subs : T → List S}

def LoopAt.evts : LoopAt S → List (PollEvent S)
  | .serving evts | .handling _ evts => evts
  | _ => []

def LoopAt.ahead : LoopAt S → List S
  | .serving evts => evts.map (·.obj)
  | .handling x evts => x :: evts.map (·.obj)
  | _ => []

def LoopAt.calls : LoopAt S → Option S
  | .handling x _ => some x
  | _ => none

omit [DecidableEq B] [DecidableEq S] in
@[simp] theorem Loops.to_place (l : Loops B S T) (t : T) (p : LoopAt S) : (l.to t p).place = update l.place t p := rfl

omit [DecidableEq B] [DecidableEq S] in
theorem check_ready {s : Sys B S} {e : PollEvent S} : (e.check s).ready = true ↔ s.queue e.obj ≠ [] := by
  simp [PollEvent.check]

/-! ## The events of a thread -/

omit [DecidableEq S] in
theorem populatePollEvt_ok {x : S} {e : PollEvent S} :
    (populatePollEvt c x).toOption = some e → e.obj = x ∧ c.rxType x ≠ .callback ∧ e.ready = false := by
  unfold populatePollEvt
  cases c.rxType x with
  | callback => simp [Except.toOption]
  | msgq | fifo =>
    intro h
    cases h
    simp

omit [DecidableEq S] [DecidableEq T] in
theorem mem_pollEvents {t : T} {e : PollEvent S} (h : e ∈ pollEvents c subs t) :
    e.obj ∈ subs t ∧ c.rxType e.obj ≠ .callback ∧ e.ready = false := by
  obtain ⟨x, hx, he⟩ := List.mem_filterMap.mp h
  obtain ⟨rfl, hrx, hr⟩ := populatePollEvt_ok he
  exact ⟨hx, hrx, hr⟩

omit [DecidableEq S] [DecidableEq T] in
theorem pollEvents_obj (t : T) :
    (pollEvents c subs t).map (·.obj) = (subs t).filter fun x => c.rxType x ≠ .callback := by
  unfold pollEvents
  induction subs t with
  | nil => rfl
  | cons x xs ih =>
    rw [List.filterMap_cons, List.filter_cons, ← ih, populatePollEvt]
    cases c.rxType x <;> simp [Except.toOption]

/-! ## One step -/

/-- What a step of the loops does. -/
inductive LoopTrans (c : Cfg S) (subs : T → List S) (l : Loops B S T) : LoopAct B S T → Loops B S T → Prop
  | pollReady {t} : l.place t = .polling →
      LoopTrans c subs l (.poll t) (l.to t (.serving ((pollEvents c subs t).map (·.check l.sys))))
  | pollWaits {t} : l.place t = .polling → (∀ e ∈ pollEvents c subs t, l.sys.queue e.obj = []) →
      LoopTrans c subs l (.poll t) (l.to t .waiting)
  | wakes {t xs evts} : l.place t = .waiting → evts.map (·.obj) = (pollEvents c subs t).map (·.obj) →
      (∀ e ∈ evts, e.ready = true → l.sys.queue e.obj ≠ []) →
      LoopTrans c subs l (.wake t xs) (l.to t (.serving evts))
  | expires {t} : l.place t = .waiting → LoopTrans c subs l (.expire t) (l.to t .polling)
  | roundEnds {t} : l.place t = .serving [] → LoopTrans c subs l (.serve t) (l.to t .polling)
  | passes {t e evts} : l.place t = .serving (e :: evts) → e.ready = false →
      LoopTrans c subs l (.serve t) (l.to t (.serving evts))
  | inVain {t e evts r} : l.place t = .serving (e :: evts) → e.ready = true →
      c.rxType e.obj = .callback ∨ l.sys.queue e.obj = [] →
      LoopTrans c subs l (.serve t) { l.to t (.serving evts) with returned := l.returned ++ [(e.obj, r)] }
  | takes {t e evts sys} : l.place t = .serving (e :: evts) → (l.sys.svc e.obj).isIdle = true →
      step c l.sys (.svc e.obj) = .ok sys →
      LoopTrans c subs l (.serve t) { l.to t (.handling e.obj evts) with sys := sys }
  | goesOn {t x evts sys} : l.place t = .handling x evts → step c l.sys (.svc x) = .ok sys →
      (sys.svc x).isIdle = false → LoopTrans c subs l (.serve t) { l with sys := sys }
  | returns {t x evts sys} : l.place t = .handling x evts → step c l.sys (.svc x) = .ok sys →
      (sys.svc x).isIdle = true →
      LoopTrans c subs l (.serve t)
        { l.to t (.serving evts) with sys := sys, returned := l.returned ++ [(x, 0)] }
  | other {a sys} : (∀ x, a ≠ .svc x) → step c l.sys a = .ok sys →
      LoopTrans c subs l (.other a) { l with sys := sys }

variable {l l' : Loops B S T}

theorem loopStep_other {a : Act B S} (ha : ∀ x, a ≠ .svc x) :
    loopStep c subs l (.other a) = (step c l.sys a).map fun sys => { l with sys := sys } := by
  cases a with
  | svc x => exact absurd rfl (ha x)
  | _ =>
    simp only [loopStep]
    cases step c l.sys _ <;> rfl

theorem handleNoWait_trans {t : T} {e : PollEvent S} {evts : List (PollEvent S)} (hp : l.place t = .serving (e :: evts))
    (hr : e.ready = true) (h : handleNoWait c l t e.obj evts = .ok l') : LoopTrans c subs l (.serve t) l' := by
  unfold handleNoWait at h
  split at h
  · rename_i hidle
    split at h
    · rename_i hrx
      cases h
      exact .inVain hp hr (Or.inl hrx)
    · split at h
      · rename_i hq
        cases h
        exact .inVain hp hr (Or.inr hq)
      · obtain ⟨sys, hs, h⟩ := bind_ok h
        cases h
        exact .takes hp hidle hs
  · cases h

theorem loopStep_trans {a : LoopAct B S T} (h : loopStep c subs l a = .ok l') : LoopTrans c subs l a l' := by
  cases a with
  | poll t =>
    simp only [loopStep, loopPoll] at h
    split at h
    · rename_i hp
      split at h
      · cases h
        exact .pollReady hp
      · rename_i hany
        cases h
        apply LoopTrans.pollWaits hp
        intro e he
        by_contra hq
        apply hany
        rw [List.any_map, List.any_eq_true]
        exact ⟨e, he, check_ready.mpr hq⟩
    · cases h
  | wake t xs =>
    simp only [loopStep, loopWake] at h
    split at h
    · rename_i hp
      split at h
      · cases h
        apply LoopTrans.wakes hp
        · rw [List.map_map]
          apply List.map_congr_left
          intro e _
          simp only [comp_apply]
          split <;> rfl
        · intro e he hr
          obtain ⟨e, hev, rfl⟩ := List.mem_map.mp he
          by_cases hx : e.obj ∈ xs
          · simp only [if_pos hx] at hr ⊢
            exact check_ready.mp hr
          · rw [if_neg hx, (mem_pollEvents hev).2.2] at hr
            cases hr
      · cases h
    · cases h
  | expire t =>
    simp only [loopStep, loopExpire] at h
    split at h
    · cases h
      exact .expires ‹_›
    · cases h
  | serve t =>
    simp only [loopStep, loopServe] at h
    split at h
    · cases h
      exact .roundEnds ‹_›
    · rename_i e evts hp
      split at h
      · exact handleNoWait_trans hp ‹_› h
      · cases h
        exact .passes hp (Bool.eq_false_iff.mpr ‹_›)
    · rename_i x evts hp
      obtain ⟨sys, hs, h⟩ := bind_ok h
      split at h
      · cases h
        exact .returns hp hs ‹_›
      · cases h
        exact .goesOn hp hs (Bool.eq_false_iff.mpr ‹_›)
    · cases h
  | other a =>
    by_cases ha : ∃ x, a = .svc x
    · obtain ⟨x, rfl⟩ := ha
      cases h
    · have ha : ∀ x, a ≠ .svc x := fun x hx => ha ⟨x, hx⟩
      rw [loopStep_other ha] at h
      cases hs : step c l.sys a with
      | error e => rw [hs] at h; cases h
      | ok sys =>
        rw [hs] at h
        cases h
        exact .other ha hs

/-! ## Messages stay until they are taken -/

section
variable {s s' : Sys B S} {a : Act B S} {x : S}

/-- Only a thread that has no message takes one out of the queue. -/
theorem queue_grows (ht : Trans c s a s') (h : a = .svc x → (s.svc x).isIdle = false) :
    ∃ ps, s'.queue x = s.queue x ++ ps := by
  have hpush : ∀ (y : S) (q : Pkt B), ∃ ps, update s.queue y (s.queue y ++ [q]) x = s.queue x ++ ps := by
    intro y q
    by_cases hx : x = y
    · subst hx
      exact ⟨[q], update_self ..⟩
    · exact ⟨[], by rw [update_of_ne hx, List.append_nil]⟩
  have hpop : ∀ (y : S) (qs : List (Pkt B)), a = .svc y → s.svc y = .idle →
      ∃ ps, update s.queue y qs x = s.queue x ++ ps := by
    intro y qs ha hv
    have hx : x ≠ y := by
      rintro rfl
      have := h ha
      rw [hv] at this
      cases this
    exact ⟨[], by rw [update_of_ne hx, List.append_nil]⟩
  cases ht with
  | takeMsgq hv | takeFifo hv => exact hpop _ _ rfl hv
  | scanFifo | put | walkGive | publishToQueue => exact hpush _ _
  | _ => exact ⟨[], (List.append_nil _).symm⟩

theorem svc_takes (ht : Trans c s (.svc x) s') (hi : (s.svc x).isIdle = true) :
    ∃ p ps, s.queue x = p :: ps ∧ s'.queue x = ps ∧ (s'.svc x).pkt = some p ∧ (s'.svc x).isIdle = false := by
  cases ht with
  | takeMsgq _ _ hq | takeFifo _ _ hq =>
    refine ⟨_, _, hq, update_self .., ?_, ?_⟩ <;> simp only [update_self] <;> rfl
  | gotPublic hv | gotPrivate hv | svcLock hv | walkEnd hv | walkSkip hv | walkGive hv | handle hv | svcRelease hv =>
    rw [hv] at hi
    cases hi
  | mem hm => cases hm

end

/-! ## Whom a thread attends to -/

/-- Every subscriber with a queue is serviced by one thread, with one event. -/
structure Assigned (c : Cfg S) (thread : S → T) (subs : T → List S) : Prop where
  nodup : ∀ t, (subs t).Nodup
  owner : ∀ t, ∀ x ∈ subs t, thread x = t
  all : ∀ x, c.rxType x ≠ .callback → x ∈ subs (thread x)

def Loops.Init (c : Cfg S) (l : Loops B S T) : Prop :=
  ZephyrPubSub.Init c l.sys ∧ (∀ t, l.place t = .polling) ∧ l.returned = []

/-- What is known of a thread at `p`: an event that is ready stays so until its subscriber is attended to. -/
structure PlaceOk (c : Cfg S) (thread : S → T) (subs : T → List S) (s : Sys B S) (t : T) (p : LoopAt S) : Prop where
  ahead : p.ahead.Sublist ((pollEvents c subs t).map (·.obj))
  data : ∀ e ∈ p.evts, e.ready = true → s.queue e.obj ≠ []
  calls : ∀ x, p.calls = some x ↔ thread x = t ∧ (s.svc x).isIdle = false

structure Attended (c : Cfg S) (thread : S → T) (subs : T → List S) (l : Loops B S T) : Prop where
  place : ∀ t, PlaceOk c thread subs l.sys t (l.place t)
  returned : ∀ r ∈ l.returned, r.2 = 0

variable {thread : S → T} {l l' : Loops B S T} {t : T}

section
omit [DecidableEq S] [DecidableEq T]

theorem Assigned.of_event (ha : Assigned c thread subs) {x : S} (hx : x ∈ (pollEvents c subs t).map (·.obj)) :
    thread x = t ∧ c.rxType x ≠ .callback := by
  obtain ⟨e, he, rfl⟩ := List.mem_map.mp hx
  obtain ⟨hs, hrx, -⟩ := mem_pollEvents he
  exact ⟨ha.owner t _ hs, hrx⟩

theorem Assigned.mem_pollEvents (ha : Assigned c thread subs) {x : S} (hx : c.rxType x ≠ .callback) :
    x ∈ (pollEvents c subs (thread x)).map (·.obj) := by
  rw [pollEvents_obj, List.mem_filter]
  exact ⟨ha.all x hx, by simpa using hx⟩

theorem Assigned.nodup_pollEvents (ha : Assigned c thread subs) (t : T) :
    ((pollEvents c subs t).map (·.obj)).Nodup := by
  rw [pollEvents_obj]
  exact (ha.nodup t).filter _

end

omit [DecidableEq S] in
theorem evts_ahead {p : LoopAt S} {e : PollEvent S} (h : e ∈ p.evts) : e.obj ∈ p.ahead := by
  cases p with
  | polling | waiting => cases h
  | serving evts => exact List.mem_map_of_mem h
  | handling x evts => exact List.mem_cons_of_mem x (List.mem_map_of_mem h)

omit [DecidableEq S] in
theorem ahead_rest (x : S) (evts : List (PollEvent S)) :
    (LoopAt.serving evts).ahead.Sublist (LoopAt.handling x evts).ahead :=
  List.sublist_cons_self ..

section
variable {s s' : Sys B S} {p : LoopAt S} {x : S}

section
omit [DecidableEq B] [DecidableEq S] [DecidableEq T]

theorem PlaceOk.evts_at (h : PlaceOk c thread subs s t p) (ha : Assigned c thread subs) {e : PollEvent S}
    (he : e ∈ p.evts) : thread e.obj = t ∧ c.rxType e.obj ≠ .callback :=
  ha.of_event (h.ahead.subset (evts_ahead he))

theorem PlaceOk.frame (h : PlaceOk c thread subs s t p) (ha : Assigned c thread subs)
    (hq : ∀ x, thread x = t → s.queue x ≠ [] → s'.queue x ≠ [])
    (hv : ∀ x, thread x = t → (s'.svc x).isIdle = (s.svc x).isIdle) : PlaceOk c thread subs s' t p := by
  refine ⟨h.ahead, fun e he hr => hq _ (h.evts_at ha he).1 (h.data e he hr), fun x => (h.calls x).trans ?_⟩
  apply and_congr_right
  intro hx
  rw [hv x hx]

/-- The thread is in no call before and after. -/
theorem PlaceOk.moves (h : PlaceOk c thread subs s t p) {q : LoopAt S} (hc : p.calls = none) (hc' : q.calls = none)
    (hq : q.ahead.Sublist ((pollEvents c subs t).map (·.obj)))
    (hd : ∀ e ∈ q.evts, e.ready = true → s.queue e.obj ≠ []) : PlaceOk c thread subs s t q := by
  refine ⟨hq, hd, fun x => ?_⟩
  rw [hc', ← hc]
  exact h.calls x

end

omit [DecidableEq B] [DecidableEq S] in
theorem kept_of_grows (h : ∃ ps, s'.queue x = s.queue x ++ ps) (hq : s.queue x ≠ []) : s'.queue x ≠ [] := by
  obtain ⟨ps, hps⟩ := h
  rw [hps]
  exact List.append_ne_nil_of_left_ne_nil hq ps

omit [DecidableEq T] in
theorem PlaceOk.takes {e : PollEvent S} {evts : List (PollEvent S)}
    (h : PlaceOk c thread subs s t (.serving (e :: evts))) (ha : Assigned c thread subs)
    (hi : (s.svc e.obj).isIdle = true) (ht : Trans c s (.svc e.obj) s') :
    PlaceOk c thread subs s' t (.handling e.obj evts) := by
  have hown := (h.evts_at ha (List.mem_cons_self ..)).1
  have hnotin : e.obj ∉ evts.map (·.obj) := (List.nodup_cons.mp ((ha.nodup_pollEvents t).sublist h.ahead)).1
  obtain ⟨_, _, _, _, _, hbusy⟩ := svc_takes ht hi
  refine ⟨h.ahead, fun e' he' hr => ?_, fun x => ?_⟩
  · have hne : e'.obj ≠ e.obj := fun hx => hnotin (hx ▸ List.mem_map_of_mem he')
    apply kept_of_grows (queue_grows ht fun he => absurd (Act.svc.inj he).symm hne)
    exact h.data e' (List.mem_cons_of_mem e he') hr
  · by_cases hx : x = e.obj
    · subst hx
      exact iff_of_true rfl ⟨hown, hbusy⟩
    · rw [svc_frame ht fun he => hx (Act.svc.inj he).symm]
      exact iff_of_false (fun hc => hx (by cases hc; rfl)) fun hc => by cases (h.calls x).mpr hc

omit [DecidableEq T] in
theorem PlaceOk.returns {evts : List (PollEvent S)} (h : PlaceOk c thread subs s t (.handling x evts))
    (ht : Trans c s (.svc x) s') (hi : (s'.svc x).isIdle = true) : PlaceOk c thread subs s' t (.serving evts) := by
  have hbusy := ((h.calls x).mp rfl).2
  refine ⟨(ahead_rest x evts).trans h.ahead, fun e he hr => ?_, fun y => ?_⟩
  · apply kept_of_grows (queue_grows ht fun hx => by cases hx; exact hbusy)
    exact h.data e he hr
  · apply iff_of_false (by simp [LoopAt.calls])
    intro hc
    by_cases hy : y = x
    · subst hy
      rw [hi] at hc
      cases hc.2
    · rw [svc_frame ht fun he => hy (Act.svc.inj he).symm] at hc
      cases (h.calls y).mpr hc
      exact hy rfl

end

omit [DecidableEq B] [DecidableEq S] [DecidableEq T] in
theorem attended_init (h : l.Init c) : Attended c thread subs l := by
  obtain ⟨hi, hp, hr⟩ := h
  refine ⟨fun t => ?_, fun r hr' => ?_⟩
  · rw [hp t]
    refine ⟨List.nil_sublist _, fun e he => (by cases he), fun x => ?_⟩
    rw [hi.svc x]
    exact iff_of_false (by simp [LoopAt.calls]) (by simp [Svc.isIdle])
  · rw [hr] at hr'
    cases hr'

omit [DecidableEq B] [DecidableEq S] in
theorem places_update {p : LoopAt S} {s : Sys B S}
    (hu : ∀ u, u ≠ t → PlaceOk c thread subs s u (l.place u)) (hp : PlaceOk c thread subs s t p) (u : T) :
    PlaceOk c thread subs s u (update l.place t p u) := by
  by_cases he : u = t
  · subst he
    rw [update_self]
    exact hp
  · rw [update_of_ne he]
    exact hu u he

omit [DecidableEq B] [DecidableEq S] in
/-- The step does nothing but move a thread that is in no call. -/
theorem Attended.moves (h : Attended c thread subs l) {p : LoopAt S} (hc : (l.place t).calls = none)
    (hc' : p.calls = none) (hp : p.ahead.Sublist ((pollEvents c subs t).map (·.obj)))
    (hd : ∀ e ∈ p.evts, e.ready = true → l.sys.queue e.obj ≠ []) : Attended c thread subs (l.to t p) :=
  ⟨places_update (fun u _ => h.place u) ((h.place t).moves hc hc' hp hd), h.returned⟩

omit [DecidableEq T] in
/-- A call of `x` goes on, or somebody else does something. -/
theorem Attended.stays (h : Attended c thread subs l) (ha : Assigned c thread subs) {a : Act B S} {sys : Sys B S}
    (ht : Trans c l.sys a sys)
    (hv : ∀ x, a = .svc x → (l.sys.svc x).isIdle = false ∧ (sys.svc x).isIdle = false) :
    Attended c thread subs { l with sys := sys } := by
  refine ⟨fun t => (h.place t).frame ha (fun x _ => ?_) fun x _ => ?_, h.returned⟩
  · exact kept_of_grows (queue_grows ht fun hx => (hv x hx).1)
  · by_cases hx : a = .svc x
    · rw [(hv x hx).1, (hv x hx).2]
    · rw [svc_frame ht hx]

omit [DecidableEq T] in
/-- What a step of `x` does to the other threads. -/
theorem Attended.others (h : Attended c thread subs l) (ha : Assigned c thread subs) {x : S} {sys : Sys B S}
    (ht : Trans c l.sys (.svc x) sys) (hx : thread x = t) (u : T) (hu : u ≠ t) :
    PlaceOk c thread subs sys u (l.place u) := by
  have hne : ∀ y, thread y = u → Act.svc x ≠ (.svc y : Act B S) := by
    intro y hy he
    cases he
    exact hu (hy.symm.trans hx)
  refine (h.place u).frame ha (fun y hy => ?_) fun y hy => ?_
  · exact kept_of_grows (queue_grows ht fun he => absurd he (hne y hy))
  · rw [svc_frame ht (hne y hy)]

omit [DecidableEq B] [DecidableEq S] [DecidableEq T] in
/-- The call has a message to handle. -/
theorem Attended.ready (h : Attended c thread subs l) (ha : Assigned c thread subs) {e : PollEvent S}
    {evts : List (PollEvent S)} (hp : l.place t = .serving (e :: evts)) (hr : e.ready = true) :
    c.rxType e.obj ≠ .callback ∧ l.sys.queue e.obj ≠ [] := by
  have hpl := hp ▸ h.place t
  exact ⟨(hpl.evts_at ha (List.mem_cons_self ..)).2, hpl.data e (List.mem_cons_self ..) hr⟩

theorem Attended.trans (h : Attended c thread subs l) (ha : Assigned c thread subs) {a : LoopAct B S T}
    (ht : LoopTrans c subs l a l') : Attended c thread subs l' := by
  cases ht with
  | @pollReady t hp =>
    apply h.moves (by rw [hp]; rfl) rfl
    · rw [LoopAt.ahead, List.map_map]
      exact List.Sublist.refl _
    · intro e he hr
      obtain ⟨e, -, rfl⟩ := List.mem_map.mp he
      exact check_ready.mp hr
  | pollWaits hp | expires hp =>
    exact h.moves (by rw [hp]; rfl) rfl (List.nil_sublist _) fun e he => by cases he
  | wakes hp hobj hd => exact h.moves (by rw [hp]; rfl) rfl (by rw [LoopAt.ahead, hobj]) hd
  | roundEnds hp => exact h.moves (by rw [hp]; rfl) rfl (List.nil_sublist _) fun e he => by cases he
  | @passes t e evts hp hr =>
    have hpl := hp ▸ h.place t
    apply h.moves (by rw [hp]; rfl) rfl ((ahead_rest e.obj evts).trans hpl.ahead)
    exact fun e' he' => hpl.data e' (List.mem_cons_of_mem e he')
  | inVain hp hr hv =>
    obtain ⟨hrx, hq⟩ := h.ready ha hp hr
    exact absurd hv (by simp [hrx, hq])
  | @takes t e evts sys hp hi hs =>
    have hpl := hp ▸ h.place t
    have ht := step_trans hs
    have hown := (hpl.evts_at ha (List.mem_cons_self ..)).1
    exact ⟨places_update (h.others ha ht hown) (hpl.takes ha hi ht), h.returned⟩
  | @goesOn t x evts sys hp hs hi =>
    have hpl := hp ▸ h.place t
    exact h.stays ha (step_trans hs) fun y hy => by cases hy; exact ⟨((hpl.calls x).mp rfl).2, hi⟩
  | @returns t x evts sys hp hs hi =>
    have hpl := hp ▸ h.place t
    have ht := step_trans hs
    refine ⟨places_update (h.others ha ht ((hpl.calls x).mp rfl).1) (hpl.returns ht hi), ?_⟩
    intro r hr
    rcases List.mem_append.mp hr with hr | hr
    · exact h.returned r hr
    · cases List.mem_singleton.mp hr
      rfl
  | other hne hs => exact h.stays ha (step_trans hs) fun x hx => absurd hx (hne x)

/-! ## The loops and the system -/

def LoopAct.Keeps (K : Act B S → Prop) : LoopAct B S T → Prop
  | .other a => K a
  | _ => True

/-- A step of the loops is a step of the system, with a thread in one call at a time, or none. -/
theorem Attended.simulates (h : Attended c thread subs l) (ha : Assigned c thread subs) {K : Act B S → Prop}
    (hK : ∀ x, K (.svc x)) {a : LoopAct B S T} (ht : LoopTrans c subs l a l') (hk : a.Keeps K) :
    l'.sys = l.sys ∨ ∃ b, (K b ∧ OneAtATime thread l.sys b) ∧ step c l.sys b = .ok l'.sys := by
  cases ht with
  | @takes t e evts sys hp hi hs =>
    refine Or.inr ⟨.svc e.obj, ⟨hK _, .serves fun _ y hy => ?_⟩, hs⟩
    have hpl := hp ▸ h.place t
    have hown := (hpl.evts_at ha (List.mem_cons_self ..)).1
    by_contra hb
    cases (hpl.calls y).mpr ⟨hy.trans hown, Bool.eq_false_iff.mpr hb⟩
  | @goesOn t x evts sys hp hs _ | @returns t x evts sys hp hs _ =>
    refine Or.inr ⟨.svc x, ⟨hK _, .serves fun hi => ?_⟩, hs⟩
    rw [((h.place t).calls x |>.mp (by rw [hp]; rfl)).2] at hi
    cases hi
  | @other a sys hne hs =>
    refine Or.inr ⟨a, ⟨hk, ?_⟩, hs⟩
    cases a with
    | svc x => exact absurd rfl (hne x)
    | _ => exact .other rfl
  | _ => exact Or.inl rfl

theorem loops_run (ha : Assigned c thread subs) {K : Act B S → Prop} (hK : ∀ x, K (.svc x))
    (h : Reachable (loopStep c subs) (Loops.Init c) (fun _ a => a.Keeps K) l) :
    Attended c thread subs l ∧ Reachable (step c) (Init c) (fun s a => K a ∧ OneAtATime thread s a) l.sys := by
  apply h.invariant
    (I := fun l => Attended c thread subs l ∧
      Reachable (step c) (Init c) (fun s a => K a ∧ OneAtATime thread s a) l.sys)
  · intro l hl
    exact ⟨attended_init hl, l.sys, hl.1, .refl _⟩
  · intro l a l' ⟨hl, hr⟩ hk hs
    have ht := loopStep_trans hs
    refine ⟨hl.trans ha ht, ?_⟩
    rcases hl.simulates ha hK ht hk with he | ⟨b, hb, hs⟩
    · rw [he]
      exact hr
    · exact hr.tail hb hs

/-! ## What stops the loops -/

/-- A step of the framework or of a loop. That a timeout ends is up to the kernel. -/
def LoopAct.ofFramework : LoopAct B S T → Bool
  | .poll _ | .wake .. | .serve _ => true
  | .expire _ => false
  | .other a => a.ofFramework

def LoopGoes (c : Cfg S) (subs : T → List S) (l : Loops B S T) (a : LoopAct B S T) : Prop :=
  (∃ l', loopStep c subs l a = .ok l') ∨ loopStep c subs l a = .error .refOverflow

/-- Nobody can make a step. -/
def Loops.Stopped (c : Cfg S) (subs : T → List S) (l : Loops B S T) : Prop :=
  ∀ a : LoopAct B S T, a.ofFramework = true → ¬ LoopGoes c subs l a

omit [DecidableEq T] in
/-- A step of `x` goes on, and nothing else can fail. -/
theorem goes_bind {x : S} (hg : Goes c l.sys (.svc x)) {f : Sys B S → Except Stop (Loops B S T)}
    (hf : ∀ sys, ∃ l', f sys = .ok l') :
    (∃ l', (svcStep c l.sys x >>= f) = .ok l') ∨ (svcStep c l.sys x >>= f) = .error .refOverflow := by
  rcases hg with ⟨sys, hs⟩ | hs
  · have hs : svcStep c l.sys x = .ok sys := hs
    rw [hs]
    exact Or.inl (hf sys)
  · have hs : svcStep c l.sys x = .error .refOverflow := hs
    rw [hs]
    exact Or.inr rfl

theorem goes_handling {x : S} {evts : List (PollEvent S)} (hp : l.place t = .handling x evts)
    (hg : Goes c l.sys (.svc x)) : LoopGoes c subs l (.serve t) := by
  unfold LoopGoes
  simp only [loopStep, loopServe, hp]
  apply goes_bind hg
  intro sys
  split <;> exact ⟨_, rfl⟩

theorem goes_ready {e : PollEvent S} {evts : List (PollEvent S)} (hp : l.place t = .serving (e :: evts))
    (hr : e.ready = true) (hi : (l.sys.svc e.obj).isIdle = true) (hg : Goes c l.sys (.svc e.obj)) :
    LoopGoes c subs l (.serve t) := by
  unfold LoopGoes
  simp only [loopStep, loopServe, hp, if_pos hr, handleNoWait, if_pos hi]
  split
  · exact Or.inl ⟨_, rfl⟩
  · split
    · exact Or.inl ⟨_, rfl⟩
    · apply goes_bind hg
      exact fun sys => ⟨_, rfl⟩

theorem goes_other {a : Act B S} (ha : ∀ x, a ≠ .svc x) : LoopGoes c subs l (.other a) ↔ Goes c l.sys a := by
  unfold LoopGoes Goes
  rw [loopStep_other ha]
  cases step c l.sys a <;> simp [Except.map]

/-- Without a message a thread that is in no call waits. -/
theorem idle_goes {s : Sys B S} {x : S} (hi : (s.svc x).isIdle = true) (hg : Goes c s (.svc x)) :
    c.rxType x ≠ .callback ∧ s.queue x ≠ [] := by
  have hv : s.svc x = .idle := by
    cases hv : s.svc x with
    | idle => rfl
    | _ => rw [hv] at hi; cases hi
  unfold Goes at hg
  simp only [step, svcStep, hv] at hg
  constructor
  · intro hrx
    simp [hrx] at hg
  · intro hq
    rw [hq] at hg
    cases hrx : c.rxType x <;> simp [hrx] at hg

theorem wake_goes (hp : l.place t = .waiting) {x : S} (hx : x ∈ (pollEvents c subs t).map (·.obj))
    (hq : l.sys.queue x ≠ []) : LoopGoes c subs l (.wake t [x]) := by
  obtain ⟨e, he, rfl⟩ := List.mem_map.mp hx
  have hany : ((pollEvents c subs t).map fun e' => if e'.obj ∈ [e.obj] then e'.check l.sys else e').any
      (·.ready) = true := by
    rw [List.any_map, List.any_eq_true]
    exact ⟨e, he, by simpa using check_ready.mpr hq⟩
  unfold LoopGoes
  simp only [loopStep, loopWake, hp]
  rw [if_pos hany]
  exact Or.inl ⟨_, rfl⟩

variable [Fintype B] [Fintype S] {order : B → Nat}

/-- A thread that cannot go on is in `k_poll` or in a call. -/
theorem Attended.place_of_stopped (h : Attended c thread subs l) (ha : Assigned c thread subs) (hs : Steady c l.sys)
    (hstop : l.Stopped c subs) (t : T) : l.place t = .waiting ∨ ∃ x evts, l.place t = .handling x evts := by
  cases hp : l.place t with
  | waiting => exact Or.inl rfl
  | handling x evts => exact Or.inr ⟨x, evts, rfl⟩
  | polling =>
    refine absurd (Or.inl ?_) (hstop (.poll t) rfl)
    simp only [loopStep, loopPoll, hp]
    split <;> exact ⟨_, rfl⟩
  | serving evts =>
    cases evts with
    | nil =>
      refine absurd (Or.inl ⟨l.to t .polling, ?_⟩) (hstop (.serve t) rfl)
      simp only [loopStep, loopServe, hp]
    | cons e evts =>
      cases hr : e.ready with
      | false =>
        refine absurd (Or.inl ⟨l.to t (.serving evts), ?_⟩) (hstop (.serve t) rfl)
        simp only [loopStep, loopServe, hp, hr, Bool.false_eq_true, if_false]
      | true =>
        have hpl := hp ▸ h.place t
        obtain ⟨hrx, hq⟩ := h.ready ha hp hr
        have hi : (l.sys.svc e.obj).isIdle = true := by
          by_contra hb
          cases (hpl.calls e.obj).mpr ⟨(hpl.evts_at ha (List.mem_cons_self ..)).1, Bool.eq_false_iff.mpr hb⟩
        refine absurd (goes_ready hp hr hi (svc_goes hs.accounted hs.routed fun hw => ?_)) (hstop (.serve t) rfl)
        unfold SvcWaits at hw
        cases hv : l.sys.svc e.obj with
        | idle =>
          rw [hv] at hw
          exact hw.elim hrx hq
        | _ => rw [hv] at hi; cases hi

theorem Attended.stopped_sys (h : Attended c thread subs l) (ha : Assigned c thread subs) (hs : Steady c l.sys)
    (hstop : l.Stopped c subs) : ZephyrPubSub.Stopped c thread l.sys := by
  intro a hf hone hgo
  cases a with
  | svc x =>
    cases hi : (l.sys.svc x).isIdle with
    | true =>
      rcases h.place_of_stopped ha hs hstop (thread x) with hp | ⟨y, evts, hp⟩
      · obtain ⟨hrx, hq⟩ := idle_goes hi hgo
        exact hstop _ rfl (wake_goes hp (ha.mem_pollEvents hrx) hq)
      · obtain ⟨hy, hb⟩ := ((h.place (thread x)).calls y).mp (by rw [hp]; rfl)
        rw [hone _ rfl hi y hy] at hb
        cases hb
    | false =>
      have hc := ((h.place (thread x)).calls x).mpr ⟨rfl, hi⟩
      rcases h.place_of_stopped ha hs hstop (thread x) with hp | ⟨y, evts, hp⟩
      · rw [hp] at hc
        cases hc
      · rw [hp] at hc
        cases hc
        exact hstop _ rfl (goes_handling hp hgo)
  | work b => exact hstop (.other (.work b)) rfl ((goes_other fun x hx => by cases hx).mpr hgo)
  | callReturn x p => exact hstop (.other (.callReturn x p)) rfl ((goes_other fun y hy => by cases hy).mpr hgo)
  | _ => cases hf

omit [Fintype B] in
theorem AtRest.loops_stopped (h : AtRest l.sys) (hw : ∀ t, l.place t = .waiting) : l.Stopped c subs := by
  intro a hf hgo
  cases a with
  | poll t => simp [LoopGoes, loopStep, loopPoll, hw t] at hgo
  | wake t xs =>
    have hany : ((pollEvents c subs t).map fun e => if e.obj ∈ xs then e.check l.sys else e).any
        (·.ready) = false := by
      rw [List.any_map, List.any_eq_false]
      intro e he
      simp only [comp_apply]
      split
      · rw [check_ready]
        exact absurd (h.queue e.obj)
      · simp [(mem_pollEvents he).2.2]
    simp [LoopGoes, loopStep, loopWake, hw t, hany] at hgo
  | expire t => cases hf
  | serve t => simp [LoopGoes, loopStep, loopServe, hw t] at hgo
  | other a =>
    by_cases hx : ∃ x, a = .svc x
    · obtain ⟨x, rfl⟩ := hx
      simp [LoopGoes, loopStep] at hgo
    · have hne : ∀ x, a ≠ .svc x := fun x hx' => hx ⟨x, hx'⟩
      have hone : OneAtATime (fun _ : S => ()) l.sys a := by
        cases a with
        | svc x => exact absurd rfl (hne x)
        | _ => exact .other rfl
      exact h.stopped a hf hone ((goes_other hne).mp hgo)

/-- No call of a thread that polls is in vain: each returns 0. With fixed lists,
the framework and the threads can do nothing exactly when nothing published is left
and every thread waits in `k_poll`. -/
theorem loops_stop_at_rest (ha : Assigned c thread subs)
    (h : Reachable (loopStep c subs) (Loops.Init c) (fun _ a => a.Keeps KeepsLists) l)
    (hcap : ∀ x, c.rxType x = .msgq → 0 < c.maxMsgs x) (hord : Ordered c thread order l.sys) :
    (∀ r ∈ l.returned, r.2 = 0) ∧ (l.Stopped c subs ↔ AtRest l.sys ∧ ∀ t, l.place t = .waiting) := by
  obtain ⟨hl, hr⟩ := loops_run ha (fun _ => rfl) h
  have hs := steady_run (hr.mono fun _ _ hk => hk.1)
  refine ⟨hl.returned, fun hstop => ?_, fun ⟨hrest, hw⟩ => hrest.loops_stopped hw⟩
  have hrest := hs.stopped_rest hcap hord (hl.stopped_sys ha hs hstop)
  refine ⟨hrest, fun t => ?_⟩
  rcases hl.place_of_stopped ha hs hstop t with hp | ⟨x, evts, hp⟩
  · exact hp
  · have hb := (((hl.place t).calls x).mp (by rw [hp]; rfl)).2
    rw [hrest.svc x] at hb
    cases hb

/-! ## Nobody waits for ever -/

section
variable {s s' : Sys B S} {x : S} {p : Pkt B}

def InHand (s : Sys B S) (x : S) (p : Pkt B) : Prop := (s.svc x).pkt = some p ∧ s.svc x ≠ .running p

omit [Fintype B] [Fintype S] in
theorem inHand_taken (ht : Trans c s (.svc x) s') (hi : (s.svc x).isIdle = true) (hp : (s'.svc x).pkt = some p) :
    InHand s' x p := by
  refine ⟨hp, ?_⟩
  cases ht with
  | takeMsgq | takeFifo =>
    simp only [update_self]
    intro hv
    cases hv
  | gotPublic hv | gotPrivate hv | svcLock hv | walkEnd hv | walkSkip hv | walkGive hv | handle hv | svcRelease hv =>
    rw [hv] at hi
    cases hi
  | mem hm => cases hm

omit [Fintype B] [Fintype S] in
theorem InHand.trans {a : Act B S} (h : InHand s x p) (ht : Trans c s a s') :
    .handed x p ∈ s'.log ∨ InHand s' x p := by
  unfold InHand at h ⊢
  by_cases ha : a = .svc x
  · subst ha
    cases ht with
    | takeMsgq hv | takeFifo hv =>
      rw [hv] at h
      cases h.1
    | gotPublic hv | gotPrivate hv | svcLock hv | walkEnd hv | walkSkip hv | walkGive hv =>
      rw [hv] at h
      simp only [update_self]
      exact Or.inr ⟨h.1, by simp⟩
    | handle hv =>
      rw [hv] at h
      cases h.1
      exact Or.inl (List.mem_append_right _ (List.mem_singleton.mpr rfl))
    | svcRelease hv =>
      rw [hv] at h
      cases h.1
      exact absurd rfl h.2
    | mem hm => cases hm
  · rw [svc_frame ht ha]
    exact Or.inr h

end

/-- The event of `x` is ready and has not been looked at. -/
def LoopAt.marked (p : LoopAt S) (x : S) : Prop := ∃ e ∈ p.evts, e.obj = x ∧ e.ready = true

/-- Where a message of `x` is that had `n` others in front of it, after `r` more calls of `k_poll`. -/
inductive InTime (l : Loops B S T) (t : T) (x : S) (p : Pkt B) (n r : Nat) : Prop
  | queued {ps qs : List (Pkt B)} (hq : l.sys.queue x = ps ++ p :: qs)
    (hr : r + ps.length ≤ n ∨ (l.place t).marked x ∧ r + ps.length ≤ n + 1)
  | taken (hp : InHand l.sys x p) (hr : r ≤ n + 1)
  | handed (hp : .handed x p ∈ l.sys.log)

def LoopAct.polls (t : T) : LoopAct B S T → Bool
  | .poll u => u = t
  | _ => false

section
variable {x : S} {p : Pkt B} {n r : Nat}

omit [DecidableEq B] [DecidableEq S] [DecidableEq T] [Fintype B] [Fintype S] in
/-- The queue grows, and the event is as ready as before. -/
theorem InTime.stays (h : InTime l t x p n r) (hl : ∀ e, e ∈ l.sys.log → e ∈ l'.sys.log)
    (hg : ∃ qs, l'.sys.queue x = l.sys.queue x ++ qs) (hm : (l.place t).marked x → (l'.place t).marked x)
    (hh : InHand l.sys x p → .handed x p ∈ l'.sys.log ∨ InHand l'.sys x p) : InTime l' t x p n r := by
  cases h with
  | @queued ps qs hq hr =>
    obtain ⟨qs', hg⟩ := hg
    have hq' : l'.sys.queue x = ps ++ p :: (qs ++ qs') := by
      rw [hg, hq, List.append_assoc, List.cons_append]
    exact .queued hq' (hr.imp_right fun hr => ⟨hm hr.1, hr.2⟩)
  | taken hp hr =>
    rcases hh hp with hp | hp
    · exact .handed hp
    · exact .taken hp hr
  | handed hp => exact .handed (hl _ hp)

omit [DecidableEq B] [DecidableEq S] [Fintype B] [Fintype S] in
/-- A thread moves, in no call before and after, and looks at no event that is ready. -/
theorem InTime.moves (h : InTime l t x p n r) {u : T} {q : LoopAt S}
    (hm : (l.place u).marked x → q.marked x) : InTime (l.to u q) t x p n r := by
  refine h.stays (fun _ he => he) ⟨[], (List.append_nil _).symm⟩ (fun hmk => ?_) Or.inr
  rw [Loops.to_place]
  by_cases hu : t = u
  · subst hu
    rw [update_self]
    exact hm hmk
  · rw [update_of_ne hu]
    exact hmk

omit [DecidableEq S] [Fintype S] in
theorem not_marked_nil {q : LoopAt S} (hq : q.evts = []) : ¬ q.marked x := by
  rintro ⟨e, he, -⟩
  rw [hq] at he
  cases he

section
omit [Fintype B] [Fintype S]

/-- The thread calls `k_poll` again. -/
theorem InTime.polls (h : InTime l (thread x) x p n r) (hl : Attended c thread subs l) (ha : Assigned c thread subs)
    (hrx : c.rxType x ≠ .callback) (ht : LoopTrans c subs l (.poll (thread x)) l') :
    InTime l' (thread x) x p n (r + 1) := by
  have hp : l.place (thread x) = .polling := by
    cases ht with
    | pollReady hp | pollWaits hp _ => exact hp
  cases h with
  | @queued ps qs hq hr =>
    have hr : r + ps.length ≤ n := hr.resolve_right fun hm => not_marked_nil (by rw [hp]; rfl) hm.1
    have hne : l.sys.queue x ≠ [] := by
      rw [hq]
      simp
    obtain ⟨e, he, hx⟩ := List.mem_map.mp (ha.mem_pollEvents hrx)
    cases ht with
    | pollReady _ =>
      refine .queued hq (Or.inr ⟨?_, by omega⟩)
      rw [Loops.to_place, update_self]
      exact ⟨e.check l.sys, List.mem_map_of_mem he, hx, check_ready.mpr (hx ▸ hne)⟩
    | pollWaits _ hnone => exact absurd (hnone e he) (hx ▸ hne)
  | taken hh _ =>
    have hi : (l.sys.svc x).isIdle = false := by
      cases hv : l.sys.svc x with
      | idle => rw [InHand, hv] at hh; cases hh.1
      | _ => rfl
    have hc := ((hl.place (thread x)).calls x).mpr ⟨rfl, hi⟩
    rw [hp] at hc
    cases hc
  | handed hh =>
    refine .handed ?_
    cases ht with
    | pollReady _ | pollWaits _ _ => exact hh

theorem InTime.takes (h : InTime l t x p n r) {e : PollEvent S} {evts : List (PollEvent S)} {u : T} {sys : Sys B S}
    (hp : l.place u = .serving (e :: evts)) (hi : (l.sys.svc e.obj).isIdle = true)
    (ht : Trans c l.sys (.svc e.obj) sys) :
    InTime { l.to u (.handling e.obj evts) with sys := sys } t x p n r := by
  by_cases hx : e.obj = x
  · subst hx
    cases h with
    | @queued ps qs hq hr =>
      obtain ⟨q, rest, hq', hrest, hpkt, -⟩ := svc_takes ht hi
      rw [hq] at hq'
      cases ps with
      | nil =>
        cases hq'
        exact .taken (inHand_taken ht hi hpkt) (by simp only [List.length_nil] at hr; omega)
      | cons q' ps =>
        cases hq'
        exact .queued hrest (Or.inl (by simp only [List.length_cons] at hr; omega))
    | taken hh _ =>
      unfold InHand at hh
      cases hv : l.sys.svc e.obj with
      | idle => rw [hv] at hh; cases hh.1
      | _ => rw [hv] at hi; cases hi
    | handed hh => exact .handed (log_kept ht hh)
  · refine h.stays (fun _ he => log_kept ht he) (queue_grows ht fun he => absurd (Act.svc.inj he) hx) ?_
      fun hh => hh.trans ht
    rintro ⟨e', he', hobj, hr⟩
    show (update l.place u _ t).marked x
    by_cases hut : t = u
    · subst hut
      rw [update_self]
      rw [hp] at he'
      rcases List.mem_cons.mp he' with rfl | he'
      · exact absurd hobj hx
      · exact ⟨e', he', hobj, hr⟩
    · rw [update_of_ne hut]
      exact ⟨e', he', hobj, hr⟩

theorem InTime.trans (h : InTime l (thread x) x p n r) (hl : Attended c thread subs l) (ha : Assigned c thread subs)
    (hrx : c.rxType x ≠ .callback) {a : LoopAct B S T} (ht : LoopTrans c subs l a l') :
    InTime l' (thread x) x p n (r + (a.polls (thread x)).toNat) := by
  by_cases hpoll : a = .poll (thread x)
  · subst hpoll
    simp only [LoopAct.polls, decide_true, Bool.toNat_true]
    exact h.polls hl ha hrx ht
  have hnot : a.polls (thread x) = false := by
    cases a with
    | poll u => simpa [LoopAct.polls] using fun hu => hpoll (congrArg _ hu)
    | _ => rfl
  rw [hnot, Bool.toNat_false, Nat.add_zero]
  cases ht with
  | pollReady hp | pollWaits hp _ | wakes hp | expires hp | roundEnds hp =>
    apply h.moves
    exact fun hm => absurd hm (not_marked_nil (by rw [hp]; rfl))
  | @passes u e evts hp hr =>
    apply h.moves
    rintro ⟨e', he', hobj, hr'⟩
    rw [hp] at he'
    rcases List.mem_cons.mp he' with rfl | he'
    · rw [hr] at hr'
      cases hr'
    · exact ⟨e', he', hobj, hr'⟩
  | inVain hp hr hv =>
    obtain ⟨hrx, hq⟩ := hl.ready ha hp hr
    exact absurd hv (by simp [hrx, hq])
  | @takes u e evts sys hp hi hs =>
    exact h.takes hp hi (step_trans hs)
  | @goesOn u y evts sys hp hs hi =>
    have hpl := hp ▸ hl.place u
    have ht := step_trans hs
    exact h.stays (fun _ he => log_kept ht he)
      (queue_grows ht fun he => by cases he; exact ((hpl.calls _).mp rfl).2) id fun hh => hh.trans ht
  | @returns u y evts sys hp hs hi =>
    have hpl := hp ▸ hl.place u
    have ht := step_trans hs
    refine h.stays (fun _ he => log_kept ht he)
      (queue_grows ht fun he => by cases he; exact ((hpl.calls _).mp rfl).2) ?_ fun hh => hh.trans ht
    intro hm
    show (update l.place u _ (thread x)).marked x
    by_cases hu : thread x = u
    · rw [hu, update_self]
      rw [hu, hp] at hm
      exact hm
    · rw [update_of_ne hu]
      exact hm
  | other hne hs =>
    have ht := step_trans hs
    exact h.stays (fun _ he => log_kept ht he) (queue_grows ht fun he => absurd he (hne x)) id fun hh => hh.trans ht

theorem InTime.exec (ha : Assigned c thread subs) (hrx : c.rxType x ≠ .callback) : ∀ (as : List (LoopAct B S T))
    (l l' : Loops B S T) (r : Nat), Attended c thread subs l → InTime l (thread x) x p n r →
      Runs.exec (loopStep c subs) l as = .ok l' →
      InTime l' (thread x) x p n (r + as.countP (LoopAct.polls (thread x)))
  | [], l, l', r, _, h, he => by
    cases he
    exact h
  | a :: as, l, l', r, hl, h, he => by
    obtain ⟨l₁, hs, he⟩ := exec_cons _ he
    have ht := loopStep_trans hs
    have hsum : (a.polls (thread x)).toNat = if a.polls (thread x) = true then 1 else 0 := by
      cases a.polls (thread x) <;> rfl
    rw [List.countP_cons, ← hsum, Nat.add_comm (as.countP _), ← Nat.add_assoc]
    exact InTime.exec ha hrx as l₁ l' _ (hl.trans ha ht) (h.trans hl ha hrx ht) he

end

end

omit [Fintype B] [Fintype S] in
/-- However many subscribers its thread services and whatever is published to them, a message
with `n` others in front of it has been handled when the thread has called `k_poll` `n + 2` times. -/
theorem served_in_time (ha : Assigned c thread subs)
    (h : Reachable (loopStep c subs) (Loops.Init c) (fun _ _ => True) l) {as : List (LoopAct B S T)}
    (he : exec (loopStep c subs) l as = .ok l') {x : S} {p : Pkt B} {ps qs : List (Pkt B)}
    (hq : l.sys.queue x = ps ++ p :: qs) (hn : ps.length + 2 ≤ as.countP (LoopAct.polls (thread x))) :
    .handed x p ∈ l'.sys.log := by
  obtain ⟨hl, hr⟩ := loops_run (K := fun _ => True) ha (fun _ => trivial)
    (h.mono fun _ a _ => by cases a <;> trivial)
  have hp : p ∈ l.sys.queue x := by rw [hq]; exact List.mem_append_right ps (List.mem_cons_self ..)
  have hrx := ((carried_reachable hr).queue x p hp).2.2
  have hin : InTime l (thread x) x p ps.length 0 := .queued hq (Or.inl (Nat.le_of_eq (Nat.zero_add _)))
  have hin := hin.exec ha hrx as l l' 0 hl he
  rw [Nat.zero_add] at hin
  cases hin with
  | queued _ hr => omega
  | taken _ hr => omega
  | handed hh => exact hh

end

section
variable {B S T : Type}

def Loops.start (sys : Sys B S) : Loops B S T := ⟨sys, fun _ => .polling, []⟩

/-- Each subscriber has a thread of its own. -/
theorem assigned_own [DecidableEq S] (c : Cfg S) : Assigned c id fun x : S => [x] :=
  ⟨fun _ => by simp, fun _ _ hx => by simpa using hx, fun _ _ => by simp⟩

instance (K : Act B S → Prop) [DecidablePred K] (a : LoopAct B S T) : Decidable (a.Keeps K) :=
  match a with
  | .other a => inferInstanceAs (Decidable (K a))
  | .poll _ | .wake .. | .expire _ | .serve _ => isTrue trivial

end

def queuedOnce : List (LoopAct Unit (Fin 2) (Fin 2)) :=
  [.other (.newMsg 0 3 0), .poll 1, .other (.publish () 0)] ++ List.replicate 7 (.other (.work ()))

def polledOnce : List (LoopAct Unit (Fin 2) (Fin 2)) := .poll 0 :: List.replicate 4 (.serve 0) ++ [.poll 0]

def pollingInit : Loops Unit (Fin 2) (Fin 2) := .start msgqAndFifoInit

theorem pollingInit_init : pollingInit.Init msgqAndFifo := ⟨msgqAndFifo_init, fun _ => rfl, rfl⟩

theorem loops_stop_at_rest_once : ∃ l, exec (loopStep msgqAndFifo fun x => [x]) pollingInit
      (queuedOnce ++ polledOnce ++ .wake 1 [1] :: List.replicate 7 (.serve 1) ++
        .poll 1 :: List.replicate 3 (.other (.work ()))) = .ok l ∧
    l.returned = [(0, 0), (1, 0)] ∧ l.Stopped msgqAndFifo fun x => [x] := by
  have hx : ∃ l, exec (loopStep msgqAndFifo fun x => [x]) pollingInit
      (queuedOnce ++ polledOnce ++ .wake 1 [1] :: List.replicate 7 (.serve 1) ++
        .poll 1 :: List.replicate 3 (.other (.work ()))) = .ok l ∧
    l.returned = [(0, 0), (1, 0)] ∧ AtRest l.sys ∧ ∀ t, l.place t = .waiting := by
    refine ⟨_, rfl, rfl, ⟨fun _ => rfl, fun _ => rfl, fun x => ?_, fun x => ?_, rfl⟩, fun x => ?_⟩
    all_goals
      match x with
      | 0 => rfl
      | 1 => rfl
  obtain ⟨l, hl, hret, hrest⟩ := hx
  have hord : Ordered msgqAndFifo id (fun _ => 0) l.sys := by
    rintro x y b b' (rfl : x = y) hf hq
    rw [hf] at hq
    cases hq
  have hr := Run.of_acts (K := fun a => a.Keeps KeepsLists) (loopStep msgqAndFifo fun x => [x]) _ hl (by decide)
  have h := loops_stop_at_rest (assigned_own msgqAndFifo) ⟨_, pollingInit_init, hr⟩ (by decide) hord
  exact ⟨l, hl, hret, h.2.mpr hrest⟩

theorem served_in_time_once : ∃ l l', exec (loopStep msgqAndFifo fun x => [x]) pollingInit queuedOnce = .ok l ∧
    exec (loopStep msgqAndFifo fun x => [x]) l polledOnce = .ok l' ∧ l.sys.queue 0 = [⟨0, 0, some ()⟩] ∧
    .handed 0 ⟨0, 0, some ()⟩ ∈ l'.sys.log := by
  have hx : ∃ l l', exec (loopStep msgqAndFifo fun x => [x]) pollingInit queuedOnce = .ok l ∧
    exec (loopStep msgqAndFifo fun x => [x]) l polledOnce = .ok l' ∧ l.sys.queue 0 = [⟨0, 0, some ()⟩] :=
    ⟨_, _, rfl, rfl, rfl⟩
  obtain ⟨l, l', hl, hl', hq⟩ := hx
  have hr := Run.of_acts (K := fun _ => True) _ queuedOnce hl fun _ _ => trivial
  exact ⟨l, l', hl, hl', hq,
    served_in_time (assigned_own msgqAndFifo) ⟨_, pollingInit_init, hr⟩ hl'
      (show _ = [] ++ _ :: [] from hq) (by decide)⟩

end ZephyrPubSub
