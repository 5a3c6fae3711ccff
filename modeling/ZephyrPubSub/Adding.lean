import ZephyrPubSub.Allocators
import ZephyrPubSub.Trans
import ZephyrPubSub.Runs
import Mathlib.Data.Fintype.Basic

/-!
# Adding allocators while messages are released

`pub_sub_add_runtime_allocator` changes the table under a mutex, in four stores.
`pub_sub_release_msg` reads it without the mutex, in two loads. Here every load,
store and mutex call is a step, and any number of threads take turns.
-/

namespace ZephyrPubSub

open Function Runs

inductive AddCall (A : Type) where
  | idle
  | lock (a : A)
  | check (a : A)
  /-- About to store `allocator->allocator_id`. -/
  | setId (a : A) (allocatorId : BitVec 8)
  /-- About to store the entry of the table. -/
  | setEntry (a : A) (allocatorId : BitVec 8)
  | increment (a : A)
  | unlock (a : A) (ret : Int)
  /-- About to compare with `num_allocators`, for the last reference to a message of `a`. -/
  | lookup (a : A) (allocatorId : AllocId)
  /-- About to load the entry of the table. -/
  | load (a : A) (runtimeId : Nat)
  deriving DecidableEq

def AddCall.adds {A : Type} : AddCall A → Option A
  | .lock a | .check a | .setId a _ | .setEntry a _ | .increment a | .unlock a _ => some a
  | .idle | .lookup .. | .load .. => none

def AddCall.holds {A : Type} : AddCall A → Bool
  | .check _ | .setId .. | .setEntry .. | .increment _ | .unlock .. => true
  | .idle | .lock _ | .lookup .. | .load .. => false

structure Adding (A T : Type) where
  table : RuntimeAllocators A
  mutex : Option T
  call : T → AddCall A
  /-- What the calls that add an allocator have returned. -/
  returned : List (A × Int)
  /-- Messages in use, each with the allocator it came from. -/
  msgs : List (A × AllocId)
  /-- Last releases: the allocator the message came from, and the one whose `free` was called. -/
  freed : List (A × Option A)

inductive AddAct (A T : Type) where
  | add (t : T) (a : A)
  | newMsg (a : A)
  | release (t : T) (a : A) (allocatorId : AllocId)
  | run (t : T)

section
variable {A T : Type} [DecidableEq A] [DecidableEq T]

def Adding.goto (s : Adding A T) (t : T) (v : AddCall A) : Adding A T := { s with call := update s.call t v }

def callStep (max : Nat) (s : Adding A T) (t : T) : Except Stop (Adding A T) :=
  match s.call t with
  | .idle => .error .misuse
  | .lock a => if s.mutex = none then .ok { s.goto t (.check a) with mutex := some t } else .error .blocked
  | .check a =>
    if s.table.numAllocators < max then .ok (s.goto t (.setId a (BitVec.ofNat 8 s.table.numAllocators)))
    else .ok (s.goto t (.unlock a (-enomem)))
  | .setId a id =>
    .ok { s.goto t (.setEntry a id) with
      table := { s.table with allocatorId := update s.table.allocatorId a (id + allocIdRuntimeOffset) } }
  | .setEntry a id =>
    .ok { s.goto t (.increment a) with
      table := { s.table with allocators := update s.table.allocators id.toNat (some a) } }
  | .increment a =>
    .ok { s.goto t (.unlock a 0) with table := { s.table with numAllocators := s.table.numAllocators + 1 } }
  | .unlock a ret => .ok { s.goto t .idle with mutex := none, returned := s.returned ++ [(a, ret)] }
  | .lookup a id =>
    if ¬ id ≤ allocIdLinkSectionMaxId ∧ id.toNat - allocIdRuntimeOffset.toNat < s.table.numAllocators then
      .ok (s.goto t (.load a (id.toNat - allocIdRuntimeOffset.toNat)))
    else .ok { s.goto t .idle with freed := s.freed ++ [(a, none)] }
  | .load a i => .ok { s.goto t .idle with freed := s.freed ++ [(a, s.table.allocators i)] }

/-- The allocator has been added and is not being added again. -/
def Adding.Ready (s : Adding A T) (a : A) : Prop := (a, 0) ∈ s.returned ∧ ∀ t, (s.call t).adds ≠ some a

instance Adding.decidableReady [Fintype T] (s : Adding A T) (a : A) : Decidable (s.Ready a) :=
  inferInstanceAs (Decidable (_ ∧ ∀ t, (s.call t).adds ≠ some a))

variable [Fintype T]

def addingStep (max : Nat) (s : Adding A T) : AddAct A T → Except Stop (Adding A T)
  | .add t a => if s.call t = .idle then .ok (s.goto t (.lock a)) else .error .misuse
  | .newMsg a =>
    -- `pub_sub_new_msg` may be called once the allocator has been added
    if s.Ready a then .ok { s with msgs := s.msgs ++ [(a, s.table.allocatorId a)] } else .error .misuse
  | .release t a id =>
    if s.call t = .idle ∧ (a, id) ∈ s.msgs then .ok { s.goto t (.lookup a id) with msgs := s.msgs.erase (a, id) }
    else .error .misuse
  | .run t => callStep max s t

structure Adding.Init (s : Adding A T) : Prop where
  table : s.table.Init
  mutex : s.mutex = none
  call : ∀ t, s.call t = .idle
  returned : s.returned = []
  msgs : s.msgs = []
  freed : s.freed = []

def answers (max : Nat) : RuntimeAllocators A → List A → List Int
  | _, [] => []
  | t, a :: as => (addRuntimeAllocator max t a).1 :: answers max (addRuntimeAllocator max t a).2 as

/-! ## What has been added stays -/

variable {max : Nat} {t₀ base table : RuntimeAllocators A} {s s' : Adding A T}

theorem answers_concat (as : List A) (a : A) (t : RuntimeAllocators A) :
    answers max t (as ++ [a]) = answers max t as ++ [(addRuntimeAllocator max (addAll max t as) a).1] := by
  induction as generalizing t with
  | nil => rfl
  | cons b as ih => exact congrArg (_ :: ·) (ih _)

theorem addAll_concat (as : List A) (a : A) (t : RuntimeAllocators A) :
    addAll max t (as ++ [a]) = (addRuntimeAllocator max (addAll max t as) a).2 := by
  rw [addAll, List.foldl_append]
  rfl

/-- The id leads to the allocator. -/
def Listed (base : RuntimeAllocators A) (a : A) (id : AllocId) : Prop :=
  ∃ k < base.numAllocators, id = runtimeId k ∧ base.allocators k = some a

theorem Listed.add (hmax : max ≤ 128) {a b : A} {id : AllocId} (h : Listed base a id) :
    Listed (addRuntimeAllocator max base b).2 a id := by
  obtain ⟨k, hk, rfl, ha⟩ := h
  by_cases hlt : base.numAllocators < max
  · rw [add_ok hlt]
    refine ⟨k, Nat.lt_succ_of_lt hk, rfl, ?_⟩
    rw [← ha]
    apply update_of_ne
    omega
  · rw [add_full hlt]
    exact ⟨k, hk, rfl, ha⟩

theorem listed_new (hmax : max ≤ 128) {a : A} (h : (addRuntimeAllocator max base a).1 = 0) :
    Listed (addRuntimeAllocator max base a).2 a ((addRuntimeAllocator max base a).2.allocatorId a) := by
  have hlt := lt_of_add_ok h
  rw [add_ok hlt]
  refine ⟨base.numAllocators, Nat.lt_succ_self _, update_self .., ?_⟩
  rw [Nat.mod_eq_of_lt (by omega)]
  exact update_self ..

/-- What the call has changed of the table so far. -/
def Midway (max : Nat) (base table : RuntimeAllocators A) : AddCall A → Prop
  | .setId _ id => base.numAllocators < max ∧ id = BitVec.ofNat 8 base.numAllocators ∧ table = base
  | .setEntry a id => base.numAllocators < max ∧ id = BitVec.ofNat 8 base.numAllocators ∧
    table = { base with allocatorId := update base.allocatorId a (runtimeId base.numAllocators) }
  | .increment a => base.numAllocators < max ∧
    table = { base with
      allocators := update base.allocators (base.numAllocators % 256) (some a)
      allocatorId := update base.allocatorId a (runtimeId base.numAllocators) }
  | .unlock a ret => addRuntimeAllocator max base a = (ret, table)
  | _ => table = base

/-- The entries of the table are not touched again. -/
theorem Midway.entries {v : AddCall A} (h : Midway max base table v) (hmax : max ≤ 128) :
    base.numAllocators ≤ table.numAllocators ∧
      ∀ k < base.numAllocators, table.allocators k = base.allocators k := by
  have hmod : ∀ k < base.numAllocators, base.numAllocators < max → k ≠ base.numAllocators % 256 := by
    intro k hk hlt
    omega
  have same : table = base → base.numAllocators ≤ table.numAllocators ∧
      ∀ k < base.numAllocators, table.allocators k = base.allocators k := by
    rintro rfl
    exact ⟨Nat.le_refl _, fun _ _ => rfl⟩
  cases v with
  | setId a id => exact same h.2.2
  | setEntry a id =>
    obtain ⟨-, -, rfl⟩ := h
    exact ⟨Nat.le_refl _, fun _ _ => rfl⟩
  | increment a =>
    obtain ⟨hlt, rfl⟩ := h
    exact ⟨Nat.le_refl _, fun k hk => update_of_ne (hmod k hk hlt) _ _⟩
  | unlock a ret =>
    have ht : table = (addRuntimeAllocator max base a).2 := by rw [show _ = (ret, table) from h]
    by_cases hlt : base.numAllocators < max
    · rw [ht, add_ok hlt]
      exact ⟨Nat.le_succ _, fun k hk => update_of_ne (hmod k hk hlt) _ _⟩
    · exact same (by rw [ht, add_full hlt])
  | _ => exact same h

theorem Midway.allocatorId {v : AddCall A} (h : Midway max base table v) {a : A} (ha : v.adds ≠ some a) :
    table.allocatorId a = base.allocatorId a := by
  have hne : ∀ {b : A}, some b ≠ some a → a ≠ b := fun h hb => h (by rw [hb])
  cases v with
  | setId b id =>
    obtain ⟨-, -, rfl⟩ := h
    rfl
  | setEntry b id =>
    obtain ⟨-, -, rfl⟩ := h
    exact update_of_ne (hne ha) _ _
  | increment b =>
    obtain ⟨-, rfl⟩ := h
    exact update_of_ne (hne ha) _ _
  | unlock b ret =>
    have ht : table = (addRuntimeAllocator max base b).2 := by rw [show _ = (ret, table) from h]
    by_cases hlt : base.numAllocators < max
    · rw [ht, add_ok hlt]
      exact update_of_ne (hne ha) _ _
    · rw [ht, add_full hlt]
  | idle | lock b | check b | lookup b id | load b i => rw [show table = base from h]

/-! ## Every access -/

/-- The table as the calls that have returned leave it. -/
def Adding.before (max : Nat) (t₀ : RuntimeAllocators A) (s : Adding A T) : RuntimeAllocators A :=
  addAll max t₀ (s.returned.map Prod.fst)

/-- What a release has loaded leads to the allocator of the message. -/
def AddCall.Reads (base : RuntimeAllocators A) : AddCall A → Prop
  | .lookup a id => Listed base a id
  | .load a i => i < base.numAllocators ∧ base.allocators i = some a
  | _ => True

structure AddingInv (max : Nat) (t₀ : RuntimeAllocators A) (s : Adding A T) : Prop where
  locked : ∀ t, s.mutex = some t ↔ (s.call t).holds = true
  midway : ∀ t, s.mutex = some t → Midway max (s.before max t₀) s.table (s.call t)
  free : s.mutex = none → s.table = s.before max t₀
  answers : s.returned.map Prod.snd = answers max t₀ (s.returned.map Prod.fst)

omit [DecidableEq T] [Fintype T] in
theorem before_init (h : s.Init) : s.before max s.table = s.table := by
  unfold Adding.before
  rw [h.returned]
  rfl

omit [DecidableEq T] [Fintype T] in
theorem addingInv_init (h : s.Init) : AddingInv max s.table s := by
  constructor
  · intro t
    rw [h.mutex, h.call]
    constructor
    · intro he
      cases he
    · intro he
      cases he
  · intro t hm
    rw [h.mutex] at hm
    cases hm
  · exact fun _ => (before_init h).symm
  · rw [h.returned]
    rfl

section
omit [Fintype T]

/-- A thread goes on without a mutex call. -/
theorem AddingInv.goto (h : AddingInv max t₀ s) {t : T} {v : AddCall A} {table : RuntimeAllocators A}
    (hold : v.holds = (s.call t).holds) (hmid : v.holds = true → Midway max (s.before max t₀) table v)
    (hsame : v.holds = false → table = s.table) : AddingInv max t₀ { s.goto t v with table := table } := by
  have hcall : ∀ {u : T}, u ≠ t → update s.call t v u = s.call u := fun hu => update_of_ne hu _ _
  have other : s.mutex ≠ some t → table = s.table := by
    intro hm
    apply hsame
    rw [hold, Bool.eq_false_iff]
    exact fun hh => hm ((h.locked t).mpr hh)
  constructor
  · intro u
    show s.mutex = some u ↔ (update s.call t v u).holds = true
    by_cases hu : u = t
    · subst hu
      rw [update_self, hold]
      exact h.locked u
    · rw [hcall hu]
      exact h.locked u
  · intro u hm
    show Midway max (s.before max t₀) table (update s.call t v u)
    by_cases hu : u = t
    · subst hu
      rw [update_self]
      exact hmid (hold.trans ((h.locked u).mp hm))
    · rw [hcall hu, other]
      · exact h.midway u hm
      · intro ht
        cases hm.symm.trans ht
        exact hu rfl
  · intro hm
    refine (other ?_).trans (h.free hm)
    rw [show s.mutex = none from hm]
    exact fun he => by cases he
  · exact h.answers

/-- The thread goes on without a change to the table. -/
theorem AddingInv.read (h : AddingInv max t₀ s) {t : T} {v : AddCall A} (hold : (s.call t).holds = false)
    (hv : v.holds = false) : AddingInv max t₀ (s.goto t v) :=
  h.goto (hv.trans hold.symm) (fun he => by rw [hv] at he; cases he) fun _ => rfl

theorem AddingInv.lock (h : AddingInv max t₀ s) {t : T} {a : A} (hm : s.mutex = none) :
    AddingInv max t₀ { s.goto t (.check a) with mutex := some t } := by
  have hcall : ∀ {u : T}, u ≠ t → update s.call t (.check a) u = s.call u := fun hu => update_of_ne hu _ _
  have hself : update s.call t (.check a) t = .check a := update_self ..
  constructor
  · intro u
    show some t = some u ↔ (update s.call t (.check a) u).holds = true
    by_cases hu : u = t
    · subst hu
      rw [hself]
      exact ⟨fun _ => rfl, fun _ => rfl⟩
    · rw [hcall hu, ← h.locked u, hm]
      constructor
      · intro he
        exact absurd (Option.some.inj he).symm hu
      · intro he
        cases he
  · intro u hu
    cases (show some t = some u from hu)
    show Midway max (s.before max t₀) s.table (update s.call t (.check a) t)
    rw [hself]
    exact h.free hm
  · exact fun he => by cases he
  · exact h.answers

end

omit [DecidableEq T] [Fintype T] in
/-- The call that returns has done what `addRuntimeAllocator` does. -/
theorem AddingInv.done (h : AddingInv max t₀ s) {t : T} {a : A} {ret : Int} (ht : s.call t = .unlock a ret) :
    addRuntimeAllocator max (s.before max t₀) a = (ret, s.table) := by
  have := h.midway t ((h.locked t).mpr (by rw [ht]; rfl))
  rwa [ht] at this

omit [DecidableEq T] [Fintype T] in
theorem AddingInv.before_done (h : AddingInv max t₀ s) {t : T} {a : A} {ret : Int} (ht : s.call t = .unlock a ret)
    (hs : s'.returned = s.returned ++ [(a, ret)]) : s'.before max t₀ = s.table := by
  unfold Adding.before
  rw [hs, List.map_append, List.map_singleton, addAll_concat]
  exact congrArg Prod.snd (h.done ht)

omit [Fintype T] in
theorem AddingInv.unlock (h : AddingInv max t₀ s) {t : T} {a : A} {ret : Int} (ht : s.call t = .unlock a ret) :
    AddingInv max t₀ { s.goto t .idle with mutex := none, returned := s.returned ++ [(a, ret)] } := by
  have hm : s.mutex = some t := (h.locked t).mpr (by rw [ht]; rfl)
  constructor
  · intro u
    show none = some u ↔ (update s.call t .idle u).holds = true
    refine ⟨(fun he => by cases he), fun he => ?_⟩
    by_cases hu : u = t
    · subst hu
      rw [update_self] at he
      cases he
    · rw [update_of_ne hu] at he
      cases hm.symm.trans ((h.locked u).mpr he)
      exact absurd rfl hu
  · exact fun u he => by cases he
  · exact fun _ => (h.before_done ht rfl).symm
  · show (s.returned ++ [(a, ret)]).map Prod.snd = _
    rw [List.map_append, List.map_append, List.map_singleton, List.map_singleton, answers_concat, h.answers]
    exact congrArg (_ ++ [·]) (congrArg Prod.fst (h.done ht)).symm

omit [DecidableEq T] [Fintype T] in
/-- The thread that holds the mutex finds the table as it left it. -/
theorem AddingInv.at (h : AddingInv max t₀ s) {t : T} {v : AddCall A} (hc : s.call t = v) (hv : v.holds = true) :
    Midway max (s.before max t₀) s.table v := by
  subst hc
  exact h.midway t ((h.locked t).mpr hv)

omit [Fintype T] in
theorem AddingInv.callStep (h : AddingInv max t₀ s) {t : T} (hs : callStep max s t = .ok s') :
    AddingInv max t₀ s' := by
  unfold ZephyrPubSub.callStep at hs
  cases hc : s.call t with
  | idle =>
    rw [hc] at hs
    cases hs
  | lock a =>
    rw [hc] at hs
    simp only at hs
    split at hs
    · rename_i hm
      cases hs
      exact h.lock hm
    · cases hs
  | check a =>
    have htab : s.table = s.before max t₀ := h.at hc rfl
    rw [hc] at hs
    simp only at hs
    split at hs
    · rename_i hlt
      cases hs
      refine h.goto (v := .setId a _) (by rw [hc]; rfl) (fun _ => ?_) (fun he => by cases he)
      exact ⟨htab ▸ hlt, by rw [htab], htab⟩
    · rename_i hlt
      cases hs
      refine h.goto (v := .unlock a (-enomem)) (by rw [hc]; rfl) (fun _ => ?_) (fun he => by cases he)
      rw [htab] at hlt ⊢
      exact add_full hlt _
  | setId a id =>
    obtain ⟨hlt, rfl, htab⟩ := h.at hc rfl
    rw [hc] at hs
    cases hs
    refine h.goto (v := .setEntry a _) (by rw [hc]; rfl) (fun _ => ?_) (fun he => by cases he)
    exact ⟨hlt, rfl, by rw [htab]; rfl⟩
  | setEntry a id =>
    obtain ⟨hlt, rfl, htab⟩ := h.at hc rfl
    rw [hc] at hs
    cases hs
    refine h.goto (v := .increment a) (by rw [hc]; rfl) (fun _ => ?_) (fun he => by cases he)
    refine ⟨hlt, ?_⟩
    rw [htab, BitVec.toNat_ofNat]
  | increment a =>
    obtain ⟨hlt, htab⟩ := h.at hc rfl
    rw [hc] at hs
    cases hs
    refine h.goto (v := .unlock a 0) (by rw [hc]; rfl) (fun _ => ?_) (fun he => by cases he)
    rw [htab]
    exact add_ok hlt a
  | unlock a ret =>
    rw [hc] at hs
    cases hs
    exact h.unlock hc
  | lookup a id =>
    rw [hc] at hs
    simp only at hs
    split at hs
    · cases hs
      exact h.read (by rw [hc]; rfl) rfl
    · cases hs
      have hg := h.read (t := t) (v := .idle) (by rw [hc]; rfl) rfl
      exact ⟨hg.locked, hg.midway, hg.free, hg.answers⟩
  | load a i =>
    rw [hc] at hs
    cases hs
    have hg := h.read (t := t) (v := .idle) (by rw [hc]; rfl) rfl
    exact ⟨hg.locked, hg.midway, hg.free, hg.answers⟩

theorem AddingInv.step (h : AddingInv max t₀ s) {a : AddAct A T} (hs : addingStep max s a = .ok s') :
    AddingInv max t₀ s' := by
  cases a with
  | add t a =>
    simp only [addingStep] at hs
    split at hs
    · rename_i hc
      cases hs
      exact h.read (by rw [hc]; rfl) rfl
    · cases hs
  | newMsg a =>
    simp only [addingStep] at hs
    split at hs
    · cases hs
      exact ⟨h.locked, h.midway, h.free, h.answers⟩
    · cases hs
  | release t a id =>
    simp only [addingStep] at hs
    split at hs
    · rename_i hr
      cases hs
      have hg := h.read (t := t) (v := .lookup a id) (by rw [hr.1]; rfl) rfl
      exact ⟨hg.locked, hg.midway, hg.free, hg.answers⟩
    · cases hs
  | run t => exact h.callStep hs

/-! ## Lookups without the mutex -/

structure Found (max : Nat) (t₀ : RuntimeAllocators A) (s : Adding A T) : Prop where
  ids : ∀ a, (a, 0) ∈ s.returned → Listed (s.before max t₀) a ((s.before max t₀).allocatorId a)
  msgs : ∀ a id, (a, id) ∈ s.msgs → Listed (s.before max t₀) a id
  reads : ∀ t, (s.call t).Reads (s.before max t₀)
  freed : ∀ e ∈ s.freed, e.2 = some e.1

section
omit [DecidableEq T] [Fintype T]

theorem found_init (h : s.Init) : Found max s.table s := by
  constructor
  · intro a ha
    rw [h.returned] at ha
    cases ha
  · intro a id ha
    rw [h.msgs] at ha
    cases ha
  · intro t
    rw [h.call]
    trivial
  · intro e he
    rw [h.freed] at he
    cases he

/-- The table at any time, for who reads it without the mutex. -/
theorem AddingInv.entries (h : AddingInv max t₀ s) (hmax : max ≤ 128) :
    (s.before max t₀).numAllocators ≤ s.table.numAllocators ∧
      ∀ k < (s.before max t₀).numAllocators, s.table.allocators k = (s.before max t₀).allocators k := by
  cases hm : s.mutex with
  | none =>
    rw [h.free hm]
    exact ⟨Nat.le_refl _, fun _ _ => rfl⟩
  | some t => exact (h.midway t hm).entries hmax

theorem AddingInv.allocatorId (h : AddingInv max t₀ s) {a : A} (ha : ∀ t, (s.call t).adds ≠ some a) :
    s.table.allocatorId a = (s.before max t₀).allocatorId a := by
  cases hm : s.mutex with
  | none => rw [h.free hm]
  | some t => exact (h.midway t hm).allocatorId (ha t)

end

omit [DecidableEq T] [Fintype T] in
theorem AddingInv.finds (h : AddingInv max t₀ s) (h₀ : t₀.Init) (hmax : max ≤ 128) {a : A} {id : AllocId}
    (hl : Listed (s.before max t₀) a id) :
    ¬ id ≤ allocIdLinkSectionMaxId ∧ id.toNat - allocIdRuntimeOffset.toNat < s.table.numAllocators ∧
      (AddCall.load a (id.toNat - allocIdRuntimeOffset.toNat)).Reads (s.before max t₀) := by
  obtain ⟨k, hk, rfl, ha⟩ := hl
  have hcount : (s.before max t₀).numAllocators = min _ max := (added_all max h₀ _).count
  have hn := runtimeId_toNat (k := k) (by omega)
  have hsub : (runtimeId k).toNat - allocIdRuntimeOffset.toNat = k := by
    rw [hn]
    exact Nat.add_sub_cancel ..
  refine ⟨?_, ?_, ?_⟩
  · rw [BitVec.le_def, hn]
    show ¬ k + 128 ≤ 127
    omega
  · rw [hsub]
    exact Nat.lt_of_lt_of_le hk (h.entries hmax).1
  · rw [hsub]
    exact ⟨hk, ha⟩

omit [Fintype T] in
theorem Found.goto (h : Found max t₀ s) {t : T} {v : AddCall A} (hv : v.Reads (s.before max t₀)) :
    Found max t₀ (s.goto t v) := by
  refine ⟨h.ids, h.msgs, fun u => ?_, h.freed⟩
  show (update s.call t v u).Reads (s.before max t₀)
  by_cases hu : u = t
  · subst hu
    rw [update_self]
    exact hv
  · rw [update_of_ne hu]
    exact h.reads u

omit [DecidableEq T] [Fintype T] in
theorem Found.record (h : Found max t₀ s) {e : A × Option A} (he : e.2 = some e.1) :
    Found max t₀ { s with freed := s.freed ++ [e] } := by
  refine ⟨h.ids, h.msgs, h.reads, ?_⟩
  intro f hf
  rcases List.mem_append.mp hf with hf | hf
  · exact h.freed f hf
  · rw [List.mem_singleton.mp hf]
    exact he

omit [Fintype T] in
theorem Found.unlock (h : Found max t₀ s) (hinv : AddingInv max t₀ s) (hmax : max ≤ 128) {t : T} {a : A} {ret : Int}
    (ht : s.call t = .unlock a ret) :
    Found max t₀ { s.goto t .idle with mutex := none, returned := s.returned ++ [(a, ret)] } := by
  have hadd := hinv.done ht
  have htable : (addRuntimeAllocator max (s.before max t₀) a).2 = s.table := by rw [hadd]
  have grow : ∀ {b id}, Listed (s.before max t₀) b id → Listed s.table b id := by
    intro b id hl
    rw [← htable]
    exact hl.add hmax
  constructor
  · intro b hb
    rw [hinv.before_done ht rfl]
    by_cases hok : b = a ∧ ret = 0
    · obtain ⟨rfl, rfl⟩ := hok
      rw [← htable]
      exact listed_new hmax (by rw [hadd])
    · have hold : (b, 0) ∈ s.returned := by
        rcases List.mem_append.mp hb with hb | hb
        · exact hb
        · cases List.mem_singleton.mp hb
          exact absurd ⟨rfl, rfl⟩ hok
      have hid : s.table.allocatorId b = (s.before max t₀).allocatorId b := by
        by_cases hlt : (s.before max t₀).numAllocators < max
        · have hret : ret = 0 := by
            rw [add_ok hlt] at hadd
            exact (congrArg Prod.fst hadd).symm
          rw [← htable, add_ok hlt]
          exact update_of_ne (fun he => hok ⟨he, hret⟩) _ _
        · rw [← htable, add_full hlt]
      rw [hid]
      exact grow (h.ids b hold)
  · intro b id hb
    rw [hinv.before_done ht rfl]
    exact grow (h.msgs b id hb)
  · intro u
    rw [hinv.before_done ht rfl]
    show (update s.call t .idle u).Reads s.table
    by_cases hu : u = t
    · subst hu
      rw [update_self]
      trivial
    · rw [update_of_ne hu]
      have hr := h.reads u
      cases hc : s.call u with
      | lookup b id =>
        rw [hc] at hr
        exact grow hr
      | load b i =>
        rw [hc] at hr
        obtain ⟨hle, hent⟩ := hinv.entries hmax
        exact ⟨Nat.lt_of_lt_of_le hr.1 hle, (hent i hr.1).trans hr.2⟩
      | _ => trivial
  · exact h.freed

omit [Fintype T] in
theorem Found.callStep (h : Found max t₀ s) (hinv : AddingInv max t₀ s) (h₀ : t₀.Init) (hmax : max ≤ 128) {t : T}
    (hs : callStep max s t = .ok s') : Found max t₀ s' := by
  -- a store to the table is not seen by `before`
  have move : ∀ (v : AddCall A) (table : RuntimeAllocators A) (mutex : Option T), v.Reads (s.before max t₀) →
      Found max t₀ { s.goto t v with table := table, mutex := mutex } := by
    intro v table mutex hv
    have hg := h.goto (t := t) hv
    exact ⟨hg.ids, hg.msgs, hg.reads, hg.freed⟩
  unfold ZephyrPubSub.callStep at hs
  cases hc : s.call t with
  | idle =>
    rw [hc] at hs
    cases hs
  | lock a =>
    rw [hc] at hs
    simp only at hs
    split at hs
    · cases hs
      exact move (.check a) s.table (some t) trivial
    · cases hs
  | check a =>
    rw [hc] at hs
    simp only at hs
    split at hs
    · cases hs
      exact h.goto trivial
    · cases hs
      exact h.goto trivial
  | setId a id =>
    rw [hc] at hs
    cases hs
    exact move (.setEntry a id) _ s.mutex trivial
  | setEntry a id =>
    rw [hc] at hs
    cases hs
    exact move (.increment a) _ s.mutex trivial
  | increment a =>
    rw [hc] at hs
    cases hs
    exact move (.unlock a 0) _ s.mutex trivial
  | unlock a ret =>
    rw [hc] at hs
    cases hs
    exact h.unlock hinv hmax hc
  | lookup a id =>
    have hl := h.reads t
    rw [hc] at hl hs
    obtain ⟨hid, hlt, hread⟩ := hinv.finds h₀ hmax hl
    simp only [if_pos (And.intro hid hlt)] at hs
    cases hs
    exact h.goto hread
  | load a i =>
    have hl := h.reads t
    rw [hc] at hl hs
    cases hs
    have hg : Found max t₀ (s.goto t .idle) := h.goto trivial
    exact hg.record (((hinv.entries hmax).2 i hl.1).trans hl.2)

theorem Found.step (h : Found max t₀ s) (hinv : AddingInv max t₀ s) (h₀ : t₀.Init) (hmax : max ≤ 128)
    {a : AddAct A T} (hs : addingStep max s a = .ok s') : Found max t₀ s' := by
  cases a with
  | add t a =>
    simp only [addingStep] at hs
    split at hs
    · cases hs
      exact h.goto trivial
    · cases hs
  | newMsg a =>
    simp only [addingStep] at hs
    split at hs
    · rename_i hr
      cases hs
      refine ⟨h.ids, ?_, h.reads, h.freed⟩
      intro b id hb
      rcases List.mem_append.mp hb with hb | hb
      · exact h.msgs b id hb
      · cases List.mem_singleton.mp hb
        rw [hinv.allocatorId hr.2]
        exact h.ids a hr.1
    · cases hs
  | release t a id =>
    simp only [addingStep] at hs
    split at hs
    · rename_i hr
      cases hs
      have hg : Found max t₀ (s.goto t (.lookup a id)) := h.goto (h.msgs a id hr.2)
      exact ⟨hg.ids, fun b i hb => h.msgs b i (List.mem_of_mem_erase hb), hg.reads, hg.freed⟩
    · cases hs
  | run t => exact h.callStep hinv h₀ hmax hs

/-- Whatever the calls that add allocators are in the middle of, the last
release of a message calls the `free` of the allocator it came from, and the
calls leave the table and return what they would one after the other. -/
theorem releases_find {s₀ : Adding A T} (h₀ : s₀.Init) (hr : Run (addingStep max) (fun _ _ => True) s₀ s) :
    (max ≤ 128 → ∀ e ∈ s.freed, e.2 = some e.1) ∧
    s.returned.map Prod.snd = answers max s₀.table (s.returned.map Prod.fst) ∧
    (s.mutex = none → s.table = addAll max s₀.table (s.returned.map Prod.fst)) := by
  have h := hr.invariant (I := AddingInv max s₀.table) (fun _ _ _ h _ hs => h.step hs) (addingInv_init h₀)
  refine ⟨fun hmax => ?_, h.answers, h.free⟩
  have hf := hr.invariant (I := fun s => AddingInv max s₀.table s ∧ Found max s₀.table s)
    (fun _ _ _ h _ hs => ⟨h.1.step hs, h.2.step h.1 h₀.table hmax hs⟩) ⟨addingInv_init h₀, found_init h₀⟩
  exact hf.2.freed

end

def noAllocators : Adding Nat (Fin 2) := ⟨⟨fun _ => none, 0, fun _ => 0xFF⟩, none, fun _ => .idle, [], [], []⟩

/-- Thread 0 releases a message while thread 1 is between the stores that add another allocator. -/
def releaseWhileAdding : List (AddAct Nat (Fin 2)) :=
  .add 0 10 :: List.replicate 6 (.run 0) ++ [.newMsg 10, .add 1 11] ++ List.replicate 4 (.run 1) ++
    [.release 0 10 0x80, .run 0, .run 1, .run 0, .run 1]

theorem releases_find_whileAdding :
    ∃ s, exec (addingStep 8) noAllocators releaseWhileAdding = .ok s ∧ s.freed = [(10, some 10)] ∧
      (∀ e ∈ s.freed, e.2 = some e.1) ∧
      s.returned.map Prod.snd = answers 8 noAllocators.table (s.returned.map Prod.fst) ∧
      (s.mutex = none → s.table = addAll 8 noAllocators.table (s.returned.map Prod.fst)) := by
  have hinit : noAllocators.Init := ⟨⟨fun _ => rfl, rfl⟩, rfl, fun _ => rfl, rfl, rfl, rfl⟩
  have hx : ∃ s, exec (addingStep 8) noAllocators releaseWhileAdding = .ok s ∧ s.freed = [(10, some 10)] :=
    ⟨_, rfl, rfl⟩
  obtain ⟨s, hs, hf⟩ := hx
  obtain ⟨hfound, hrest⟩ := releases_find hinit (Run.of_exec _ releaseWhileAdding _ _ hs fun _ _ => trivial)
  exact ⟨s, hs, hf, hfound (by decide), hrest⟩

end ZephyrPubSub
