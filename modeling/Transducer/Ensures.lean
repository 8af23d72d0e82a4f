/-!
Partial correctness of computations that may fail: `Ensures r p` says that the result of `r`, if there is one,
satisfies `p`. The rules follow the way a computation is put together.
-/

namespace Transducer

def Ensures {ε α : Type} (r : Except ε α) (p : α → Prop) : Prop := ∀ a, r = .ok a → p a

namespace Ensures

variable {ε α β : Type} {p q : α → Prop} {o : β → Prop}

theorem ok {a : α} (h : p a) : Ensures (.ok a : Except ε α) p := by
  intro b hb
  cases hb
  exact h

theorem error {e : ε} : Ensures (.error e) p := by
  intro b hb
  cases hb

theorem mono {r : Except ε α} (h : Ensures r p) (himp : ∀ a, p a → q a) : Ensures r q :=
  fun a ha => himp a (h a ha)

theorem bind {r : Except ε α} {f : α → Except ε β} (h : Ensures r p)
    (hf : ∀ a, p a → Ensures (f a) o) : Ensures (r >>= f) o := by
  cases r with
  | error e => exact error
  | ok a => exact hf a (h a rfl)

theorem map {r : Except ε α} {f : α → β} (h : Ensures r p) (hf : ∀ a, p a → o (f a)) :
    Ensures (r.map f) o := by
  cases r with
  | error e => exact error
  | ok a => exact ok (hf a (h a rfl))

end Ensures

end Transducer
