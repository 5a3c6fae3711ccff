import Mathlib.Algebra.GroupWithZero.Nat
import Mathlib.Data.List.Basic
import Mathlib.Tactic.Cases

/-!
# Runs of a machine with failing steps

A machine is a step function `σ → α → Except ε σ`. `Run step P s t` says that
a sequence of actions leads from `s` to `t`, each action `a` taken in a state
`u` with `P u a`. `path` lists the states and actions a sequence goes through.
-/

namespace Runs

variable {σ α ε : Type*}

inductive Run (step : σ → α → Except ε σ) (P : σ → α → Prop) : σ → σ → Prop
  | refl (s : σ) : Run step P s s
  | tail {s t u : σ} (a : α) : Run step P s t → P t a → step t a = .ok u → Run step P s u

def Reachable (step : σ → α → Except ε σ) (Init : σ → Prop) (P : σ → α → Prop) (t : σ) : Prop :=
  ∃ s, Init s ∧ Run step P s t

section
variable {step : σ → α → Except ε σ} {P Q : σ → α → Prop} {s t u : σ}

theorem Run.single (a : α) (h : P s a) (hs : step s a = .ok t) : Run step P s t :=
  .tail a (.refl s) h hs

theorem Run.trans (h₁ : Run step P s t) (h₂ : Run step P t u) : Run step P s u := by
  induction h₂ with
  | refl => exact h₁
  | tail a _ hP hs ih => exact .tail a ih hP hs

theorem Run.mono (hPQ : ∀ s a, P s a → Q s a) (h : Run step P s t) : Run step Q s t := by
  induction h with
  | refl => exact .refl _
  | tail a _ hP hs ih => exact .tail a ih (hPQ _ _ hP) hs

theorem Run.invariant {I : σ → Prop} (hI : ∀ s a t, I s → P s a → step s a = .ok t → I t)
    (h : Run step P s t) (h₀ : I s) : I t := by
  induction h with
  | refl => exact h₀
  | tail a _ hP hs ih => exact hI _ _ _ ih hP hs

theorem Run.strengthen {I : σ → Prop} (hI : ∀ s a t, I s → P s a → step s a = .ok t → I t)
    (h : Run step P s t) (h₀ : I s) : Run step (fun s a => P s a ∧ I s) s t := by
  induction h with
  | refl => exact .refl _
  | tail a hr hP hs ih => exact .tail a ih ⟨hP, hr.invariant hI h₀⟩ hs

theorem Reachable.invariant {Init I : σ → Prop} (h₀ : ∀ s, Init s → I s)
    (hI : ∀ s a t, I s → P s a → step s a = .ok t → I t) (h : Reachable step Init P t) : I t := by
  obtain ⟨s, hs, hr⟩ := h
  exact hr.invariant hI (h₀ s hs)

theorem Reachable.tail {Init : σ → Prop} {a : α} (h : Reachable step Init P s) (hP : P s a)
    (hs : step s a = .ok t) : Reachable step Init P t := by
  obtain ⟨s₀, h₀, hr⟩ := h
  exact ⟨s₀, h₀, .tail a hr hP hs⟩

theorem Reachable.run {Init : σ → Prop} (h : Reachable step Init P s) (hr : Run step P s t) :
    Reachable step Init P t := by
  obtain ⟨s₀, h₀, hr₀⟩ := h
  exact ⟨s₀, h₀, hr₀.trans hr⟩

theorem Reachable.mono {Init : σ → Prop} (hPQ : ∀ s a, P s a → Q s a)
    (h : Reachable step Init P s) : Reachable step Init Q s := by
  obtain ⟨s₀, h₀, hr⟩ := h
  exact ⟨s₀, h₀, hr.mono hPQ⟩

end

/-! ## Sequences of actions -/

section
variable (step : σ → α → Except ε σ)

def exec : σ → List α → Except ε σ
  | s, [] => .ok s
  | s, a :: as =>
    match step s a with
    | .ok t => exec t as
    | .error e => .error e

/-- Each state an executed action was taken in, with the action. -/
def path : σ → List α → List (σ × α)
  | _, [] => []
  | s, a :: as =>
    (s, a) ::
      match step s a with
      | .ok t => path t as
      | .error _ => []

theorem exec_cons {s t : σ} {a : α} {as : List α} (h : exec step s (a :: as) = .ok t) :
    ∃ u, step s a = .ok u ∧ exec step u as = .ok t := by
  simp only [exec] at h
  split at h
  · exact ⟨_, ‹_›, h⟩
  · cases h

theorem path_cons {s u : σ} {a : α} (as : List α) (h : step s a = .ok u) :
    path step s (a :: as) = (s, a) :: path step u as := by
  rw [path, h]

theorem exec_concat : ∀ {as : List α} {a : α} {s u : σ}, exec step s (as ++ [a]) = .ok u →
    ∃ t, exec step s as = .ok t ∧ step t a = .ok u
  | [], _, s, _, h => by
    obtain ⟨v, hv, hu⟩ := exec_cons step h
    cases hu
    exact ⟨s, rfl, hv⟩
  | b :: as, _, _, _, h => by
    obtain ⟨v, hv, hu⟩ := exec_cons step h
    obtain ⟨t, ht, ha⟩ := exec_concat hu
    exact ⟨t, by rw [exec, hv]; exact ht, ha⟩

theorem exec_append : ∀ {as bs : List α} {s t : σ}, exec step s as = .ok t →
    exec step s (as ++ bs) = exec step t bs
  | [], _, _, _, h => by cases h; rfl
  | a :: as, bs, s, t, h => by
    obtain ⟨u, hu, h'⟩ := exec_cons step h
    rw [List.cons_append, exec, hu]
    exact exec_append h'

theorem path_concat : ∀ {as : List α} {a : α} {s t : σ}, exec step s as = .ok t →
    path step s (as ++ [a]) = path step s as ++ [(t, a)]
  | [], a, s, _, h => by
    cases h
    cases hs : step s a <;> simp [path, hs]
  | b :: as, a, s, t, h => by
    obtain ⟨u, hu, h'⟩ := exec_cons step h
    rw [List.cons_append, path_cons step _ hu, path_cons step _ hu, path_concat h', List.cons_append]

theorem exec_mapError {ε' : Type*} (f : ε → ε') : ∀ (as : List α) (s : σ),
    exec (fun s a => (step s a).mapError f) s as = (exec step s as).mapError f
  | [], _ => rfl
  | a :: as, s => by
    rw [exec, exec]
    cases step s a with
    | ok t => exact exec_mapError f as t
    | error e => rfl

theorem Run.of_exec {P : σ → α → Prop} : ∀ (as : List α) (s t : σ), exec step s as = .ok t →
    (∀ p ∈ path step s as, P p.1 p.2) → Run step P s t
  | [], s, t, h, _ => by cases h; exact .refl s
  | a :: as, s, t, h, hP => by
    obtain ⟨u, hu, h'⟩ := exec_cons step h
    rw [path_cons step as hu] at hP
    have hr := Run.of_exec as u t h' fun p hp => hP p (List.mem_cons_of_mem _ hp)
    exact (Run.single a (hP (s, a) (List.mem_cons_self ..)) hu).trans hr

theorem mem_of_mem_path : ∀ (as : List α) (s : σ) {p : σ × α}, p ∈ path step s as → p.2 ∈ as
  | [], _, _, hp => absurd hp List.not_mem_nil
  | a :: as, s, p, hp => by
    rw [path] at hp
    rcases List.mem_cons.mp hp with rfl | hp
    · exact List.mem_cons_self ..
    · cases hs : step s a with
      | ok t => rw [hs] at hp; exact List.mem_cons_of_mem a (mem_of_mem_path as t hp)
      | error e => rw [hs] at hp; exact absurd hp List.not_mem_nil

theorem Run.of_path {K : α → Prop} {P : σ → Prop} (as : List α) {s t : σ} (h : exec step s as = .ok t)
    (hK : ∀ a ∈ as, K a) (hP : ∀ p ∈ path step s as, P p.1) : Run step (fun s a => K a ∧ P s) s t :=
  Run.of_exec step as s t h fun p hp => ⟨hK _ (mem_of_mem_path step as s hp), hP p hp⟩

theorem Run.of_acts {K : α → Prop} (as : List α) {s t : σ} (h : exec step s as = .ok t) (hK : ∀ a ∈ as, K a) :
    Run step (fun _ a => K a) s t :=
  (Run.of_path step (P := fun _ => True) as h hK fun _ _ => trivial).mono fun _ _ h => h.1

/-- Where every step keeps `I` exactly under the condition `C`, a sequence of
actions keeps it throughout exactly when all its steps meet the condition. -/
theorem path_iff {J I : σ → Prop} {C : σ → α → Prop} (hJ : ∀ s a t, J s → step s a = .ok t → J t)
    (hI : ∀ s a t, J s → I s → step s a = .ok t → (I t ↔ C s a)) :
    ∀ (as : List α) (s t : σ), J s → I s → exec step s as = .ok t →
      ((∀ p ∈ path step s as, I p.1) ∧ I t ↔ ∀ p ∈ path step s as, C p.1 p.2)
  | [], s, t, _, h₀, h => by
    cases h
    exact ⟨fun _ p hp => absurd hp List.not_mem_nil, fun _ => ⟨fun p hp => absurd hp List.not_mem_nil, h₀⟩⟩
  | a :: as, s, t, hj, h₀, h => by
    obtain ⟨u, hu, h'⟩ := exec_cons step h
    have ih := path_iff hJ hI as u t (hJ s a u hj hu)
    rw [path_cons step as hu]
    constructor
    · rintro ⟨hs, ht⟩ p hp
      have hu' : I u := by
        cases as with
        | nil => cases h'; exact ht
        | cons b bs => exact hs (u, b) (List.mem_cons_of_mem _ (by rw [path]; exact List.mem_cons_self ..))
      rcases List.mem_cons.mp hp with rfl | hp
      · exact (hI _ _ u hj h₀ hu).mp hu'
      · exact (ih hu' h').mp ⟨fun q hq => hs q (List.mem_cons_of_mem _ hq), ht⟩ p hp
    · intro hc
      have hu' := (hI _ _ u hj h₀ hu).mpr (hc (s, a) (List.mem_cons_self ..))
      obtain ⟨hs, ht⟩ := (ih hu' h').mpr fun q hq => hc q (List.mem_cons_of_mem _ hq)
      refine ⟨fun p hp => ?_, ht⟩
      rcases List.mem_cons.mp hp with rfl | hp
      · exact h₀
      · exact hs p hp

/-- Where a step's work is paid for by its price and by the potential it uses
up, a run's work is. -/
theorem exec_amortized {I : σ → Prop} {K : α → Prop} {φ : σ → Nat} {work price : α → Nat}
    (hI : ∀ s a t, I s → K a → step s a = .ok t → I t ∧ φ t + work a ≤ φ s + price a) :
    ∀ (as : List α) (s t : σ), I s → (∀ a ∈ as, K a) → exec step s as = .ok t →
      φ t + (as.map work).sum ≤ φ s + (as.map price).sum
  | [], s, t, _, _, h => by cases h; exact Nat.le_refl _
  | a :: as, s, t, hs, hK, h => by
    obtain ⟨u, hu, h'⟩ := exec_cons step h
    obtain ⟨hiu, hle⟩ := hI s a u hs (hK a (List.mem_cons_self ..)) hu
    have ih := exec_amortized hI as u t hiu (fun a ha => hK a (List.mem_cons_of_mem _ ha)) h'
    simp only [List.map_cons, List.sum_cons]
    omega

end

/-! ## Two machines in lockstep -/

/-- Both results are states related by `R`, or both are the same error. -/
def Lockstep {τ : Type*} (R : σ → τ → Prop) : Except ε σ → Except ε τ → Prop
  | .ok s, .ok t => R s t
  | .error e, .error e' => e = e'
  | _, _ => False

section
variable {τ : Type*} {R : σ → τ → Prop}

theorem Lockstep.ok {x : Except ε σ} {y : Except ε τ} {s : σ} (h : Lockstep R x y) (hx : x = .ok s) :
    ∃ t, y = .ok t ∧ R s t := by
  subst hx
  cases y with
  | ok t => exact ⟨t, rfl, h⟩
  | error e => exact h.elim

theorem Lockstep.ok' {x : Except ε σ} {y : Except ε τ} {t : τ} (h : Lockstep R x y) (hy : y = .ok t) :
    ∃ s, x = .ok s ∧ R s t := by
  subst hy
  cases x with
  | ok s => exact ⟨s, rfl, h⟩
  | error e => exact h.elim

theorem Lockstep.bind.{u} {σ τ β : Type u} {R : σ → τ → Prop} {x : Except ε β} {f : β → Except ε σ}
    {g : β → Except ε τ} (h : ∀ b, Lockstep R (f b) (g b)) : Lockstep R (x >>= f) (x >>= g) := by
  cases x with
  | ok b => exact h b
  | error e => exact rfl

theorem Lockstep.ite {p : Prop} [Decidable p] {x x' : Except ε σ} {y y' : Except ε τ} (h : p → Lockstep R x y)
    (h' : ¬ p → Lockstep R x' y') : Lockstep R (if p then x else x') (if p then y else y') := by
  by_cases hp : p
  · rw [if_pos hp, if_pos hp]
    exact h hp
  · rw [if_neg hp, if_neg hp]
    exact h' hp

/-- Where the second machine can follow each step of the first, it can follow each run. -/
theorem exec_follows {step₁ : σ → α → Except ε σ} {step₂ : τ → α → Except ε τ}
    (hR : ∀ s t a s', R s t → step₁ s a = .ok s' → ∃ t', step₂ t a = .ok t' ∧ R s' t') :
    ∀ (as : List α) (s : σ) (t : τ) (s' : σ), R s t → exec step₁ s as = .ok s' →
      ∃ t', exec step₂ t as = .ok t' ∧ R s' t'
  | [], s, t, s', h, he => by cases he; exact ⟨t, rfl, h⟩
  | a :: as, s, t, s', h, he => by
    obtain ⟨s₁, h₁, he'⟩ := exec_cons step₁ he
    obtain ⟨t₁, h₂, h'⟩ := hR s t a s₁ h h₁
    rw [exec, h₂]
    exact exec_follows hR as s₁ t₁ s' h' he'

theorem exec_lockstep {step₁ : σ → α → Except ε σ} {step₂ : τ → α → Except ε τ}
    (hR : ∀ s t a, R s t → Lockstep R (step₁ s a) (step₂ t a)) :
    ∀ (as : List α) (s : σ) (t : τ), R s t → Lockstep R (exec step₁ s as) (exec step₂ t as)
  | [], _, _, h => h
  | a :: as, s, t, h => by
    have hb := hR s t a h
    rw [exec, exec]
    cases h₁ : step₁ s a with
    | ok s' =>
      obtain ⟨t', h₂, h'⟩ := hb.ok h₁
      rw [h₂]
      exact exec_lockstep hR as s' t' h'
    | error e =>
      rw [h₁] at hb
      cases h₂ : step₂ t a with
      | ok t' => rw [h₂] at hb; exact hb.elim
      | error e' => rw [h₂] at hb; exact hb

end

end Runs
