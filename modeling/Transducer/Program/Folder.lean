import Transducer.Re.Basic

/-!
Folding a juxtaposition from the left. Two neighbours fold into one literal only if both are literals, so only
the leading run of literals ever folds; it is gathered and joined at once when the run ends.
-/

namespace Transducer

/-- The rule for two neighbours. -/
def Re.join (l r : Re) : Re :=
  match l.asStr?, r.asStr? with
  | some cs, some ds => .literal (cs ++ ds)
  | _, _ => .concat l r

structure Folder where
  folded : Option Re
  /-- The leading run of literals, last one first. -/
  leading : List Re

namespace Folder

def empty : Folder := ⟨none, []⟩

/-- Puts an expression behind what is folded. -/
def append (folded : Option Re) (re : Re) : Option Re :=
  match folded with
  | some acc => some (.concat acc re)
  | none => some re

/-- What is folded once the leading run is joined. -/
def finish (f : Folder) : Option Re :=
  match f.leading with
  | [] => f.folded
  | [single] => append f.folded single
  | leading => append f.folded (.literal (leading.reverse.flatMap fun re => re.asStr?.getD []))

def push (f : Folder) (re : Re) : Folder :=
  if f.folded.isNone && re.isStrLike then { f with leading := re :: f.leading }
  else ⟨append f.finish re, []⟩

/-- The juxtaposition of some expressions; there is none of no expressions. -/
def fold (res : List Re) : Option Re := (res.foldl push empty).finish

end Folder

end Transducer
