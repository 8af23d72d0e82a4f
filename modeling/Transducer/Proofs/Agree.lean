import Transducer.Ensures

/-!
# Two computations side by side

`Agree R r r'` says that the results of two computations are related by `R`, if both have one. It is the relational
companion of `Ensures`: the rules take two computations apart that are put together in the same way.
-/

namespace Transducer

def Agree {ε α β : Type} (R : α → β → Prop) (r : Except ε α) (r' : Except ε β) : Prop :=
  ∀ a b, r = .ok a → r' = .ok b → R a b

namespace Agree

variable {ε α β γ δ : Type} {R R' : α → β → Prop} {S : γ → δ → Prop} {r : Except ε α} {r' : Except ε β}

theorem ok {a : α} {b : β} (h : R a b) : Agree R (.ok a : Except ε α) (.ok b) := by
  intro a' b' ha hb
  cases ha
  cases hb
  exact h

theorem mono (h : Agree R r r') (himp : ∀ a b, R a b → R' a b) : Agree R' r r' :=
  fun a b ha hb => himp a b (h a b ha hb)

theorem bind {f : α → Except ε γ} {f' : β → Except ε δ} (h : Agree R r r')
    (hf : ∀ a b, R a b → Agree S (f a) (f' b)) : Agree S (r >>= f) (r' >>= f') := by
  intro c d hc hd
  cases r with
  | error e => cases hc
  | ok a =>
      cases r' with
      | error e => cases hd
      | ok b => exact hf a b (h a b rfl rfl) c d hc hd

theorem map {f : α → γ} {f' : β → δ} (h : Agree R r r') (hf : ∀ a b, R a b → S (f a) (f' b)) :
    Agree S (r.map f) (r'.map f') := by
  intro c d hc hd
  cases r with
  | error e => cases hc
  | ok a =>
      cases r' with
      | error e => cases hd
      | ok b =>
          cases hc
          cases hd
          exact hf a b (h a b rfl rfl)

theorem and_ensures {p : α → Prop} (h : Agree R r r') (hp : Ensures r p) : Agree (fun a b => R a b ∧ p a) r r' :=
  fun a b ha hb => ⟨h a b ha hb, hp a ha⟩

theorem check {c c' : Except ε Unit} (h : Agree R r r') : Agree R (c >>= fun _ => r) (c' >>= fun _ => r') := by
  have hchecks : Agree (fun _ _ : Unit => True) c c' := fun _ _ _ _ => trivial
  exact hchecks.bind fun _ _ _ => h

theorem ite {p q : Prop} [Decidable p] [Decidable q] {x y : Except ε α} {x' y' : Except ε β} (hpq : p ↔ q)
    (h : Agree R x x') (h' : Agree R y y') : Agree R (if p then x else y) (if q then x' else y') := by
  by_cases hp : p
  · rw [if_pos hp, if_pos (hpq.mp hp)]
    exact h
  · rw [if_neg hp, if_neg (mt hpq.mpr hp)]
    exact h'

/-- The same for a condition that is computed; each branch may use that it was taken. -/
theorem branch {b b' : Bool} {x y : Except ε α} {x' y' : Except ε β} (hb : b = b') (h : b = true → Agree R x x')
    (h' : b = false → Agree R y y') : Agree R (if b then x else y) (if b' then x' else y') := by
  subst hb
  cases b with
  | true => exact h rfl
  | false => exact h' rfl

end Agree

end Transducer
