import Transducer.Ensures

/-!
# Total correctness

`Returns r p` says that the computation `r` has a result and that the result satisfies `p`. It is the companion of
`Ensures`, which says nothing about computations that fail, and has the same rules.
-/

namespace Transducer

def Returns {ε α : Type} (r : Except ε α) (p : α → Prop) : Prop := ∃ a, r = .ok a ∧ p a

namespace Returns

variable {ε α β : Type} {p q : α → Prop} {o : β → Prop}

theorem ok {a : α} (h : p a) : Returns (.ok a : Except ε α) p := ⟨a, rfl, h⟩

theorem of_eq_ok {r : Except ε α} {a : α} (h : Returns r p) (ha : r = .ok a) : p a := by
  obtain ⟨a', ha', hp⟩ := h
  rw [ha] at ha'
  cases ha'
  exact hp

theorem mono {r : Except ε α} (h : Returns r p) (himp : ∀ a, p a → q a) : Returns r q := by
  obtain ⟨a, ha, hp⟩ := h
  exact ⟨a, ha, himp a hp⟩

theorem bind {r : Except ε α} {f : α → Except ε β} (h : Returns r p) (hf : ∀ a, p a → Returns (f a) o) :
    Returns (r >>= f) o := by
  obtain ⟨a, rfl, hp⟩ := h
  exact hf a hp

theorem map {r : Except ε α} {f : α → β} (h : Returns r p) (hf : ∀ a, p a → o (f a)) : Returns (r.map f) o := by
  obtain ⟨a, rfl, hp⟩ := h
  exact ⟨f a, rfl, hf a hp⟩

end Returns

/-- A computation in two parts has a result if both parts have one. -/
theorem bind_eq_ok {ε α β : Type} {r : Except ε α} {f : α → Except ε β} {b : β} (h : r >>= f = .ok b) :
    ∃ a, r = .ok a ∧ f a = .ok b := by
  cases r with
  | error e => cases h
  | ok a => exact ⟨a, rfl, h⟩

theorem eq_ok_of_toOption {ε α β : Type} {r : Except ε α} {f : α → β} {b : β} (h : r.toOption.map f = some b) :
    ∃ a, r = .ok a ∧ f a = b := by
  cases r with
  | error e => cases h
  | ok a => exact ⟨a, rfl, Option.some.inj h⟩

theorem Ensures.after {ε α β : Type} {p : β → Prop} {r : Except ε α} {f : α → Except ε β} (h : ∀ a, Ensures (f a) p) :
    Ensures (r >>= f) p :=
  Ensures.bind (p := fun _ => True) (fun _ _ => trivial) fun a _ => h a

theorem Ensures.check {ε α : Type} {p : α → Prop} {c : Except ε Unit} {r : Except ε α} (h : Ensures r p) :
    Ensures (c >>= fun _ => r) p :=
  .after fun _ => h

theorem Ensures.and {ε α : Type} {p q : α → Prop} {r : Except ε α} (hp : Ensures r p) (hq : Ensures r q) :
    Ensures r fun a => p a ∧ q a :=
  fun a ha => ⟨hp a ha, hq a ha⟩

end Transducer
