import Transducer.Word.Basic
import Transducer.Literal.Quoted

/-! The texts of a word, all of them functions of its content. -/

namespace Transducer.Word

def toUnicode (w : Word) : String := CodePoint.textOf w.toList

def listing (w : Word) : String := CodePoint.listing w.toList

def isPrintable (w : Word) : Bool := w.toList.all Literal.isPrintable

def literal (w : Word) : String := Literal.text w.toList

/-- The listing under the name of the type, for people who debug. -/
def debugText (w : Word) : String := "IntSeq" ++ w.listing

end Transducer.Word
