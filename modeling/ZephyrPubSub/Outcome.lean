/-!
# Both outcomes of a computation that may fail

`Both P E x`: a result of `x` satisfies `P`, an error of `x` satisfies `E`.
-/

namespace Outcome

variable {ε α β : Type} {P : α → Prop} {P' : β → Prop} {E : ε → Prop}

def Both (P : α → Prop) (E : ε → Prop) : Except ε α → Prop
  | .ok a => P a
  | .error e => E e

theorem Both.bind {x : Except ε α} {f : α → Except ε β} (hx : Both P E x) (hf : ∀ a, P a → Both P' E (f a)) :
    Both P' E (x >>= f) := by
  cases x with
  | ok a => exact hf a hx
  | error e => exact hx

theorem Both.ite {p : Prop} [Decidable p] {x y : Except ε α} (hx : p → Both P E x) (hy : ¬ p → Both P E y) :
    Both P E (if p then x else y) := by
  split
  · exact hx ‹_›
  · exact hy ‹_›

theorem Both.mono {Q : α → Prop} {F : ε → Prop} {x : Except ε α} (hx : Both P E x) (hP : ∀ a, P a → Q a)
    (hE : ∀ e, E e → F e) : Both Q F x := by
  cases x with
  | ok a => exact hP a hx
  | error e => exact hE e hx

theorem bind_ok {x : Except ε α} {f : α → Except ε β} {r : β} (h : x >>= f = .ok r) :
    ∃ a, x = .ok a ∧ f a = .ok r := by
  cases x with
  | ok a => exact ⟨a, rfl, h⟩
  | error e => cases h

theorem Both.of_ok {x : Except ε α} {a : α} (hx : Both P E x) (h : x = .ok a) : P a := by
  subst h
  exact hx

theorem Both.of_error {x : Except ε α} {e : ε} (hx : Both P E x) (h : x = .error e) : E e := by
  subst h
  exact hx

end Outcome
