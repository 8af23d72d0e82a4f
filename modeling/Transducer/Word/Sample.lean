import Transducer.Word.Basic

/-!
Sampled words. The randomness is a stream of numbers given by the caller, so a sample is a function of it;
whatever the stream, lengths and code points stay inside the half-open ranges asked for.
-/

namespace Transducer.Word

/-- A half-open range `[low, high)`. -/
structure Bounds where
  low : Nat
  high : Nat
  deriving DecidableEq, Repr

namespace Bounds

def holds (r : Bounds) (n : Nat) : Bool := r.low ≤ n && n < r.high

/-- Takes a drawn number into the range. -/
def pick (r : Bounds) (drawn : Nat) : Nat := r.low + drawn % (r.high - r.low)

end Bounds

/-- A word of exactly `n` code points from `values`. -/
def sampleOfLength (n : Nat) (values : Bounds) (draw : Nat → Nat) : Except Error Word :=
  if values.low < values.high then .ok (ofList ((List.range n).map fun i => values.pick (draw i)))
  else .error (.noValue values.low values.high)

/-- A word whose length is drawn from `lengths` first. -/
def sample (lengths values : Bounds) (draw : Nat → Nat) : Except Error Word :=
  if lengths.low < lengths.high then
    sampleOfLength (lengths.pick (draw 0)) values fun i => draw (i + 1)
  else .error (.noLength lengths.low lengths.high)

end Transducer.Word
