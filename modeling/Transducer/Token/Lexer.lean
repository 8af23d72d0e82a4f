import Transducer.Token.Basic
import Transducer.Token.Rule

/-!
From a source to its tokens. At every position the longest match becomes a token; characters that no rule
matches are gathered into one garbage token until the next match. A complete string becomes its two quotes
with the content between them, if there is any. The texts of the tokens put together are the source.
-/

namespace Transducer

namespace Token

/-- A string with both its quotes, as tokens. -/
def splitString : List Char → List Token
  | [] => []
  | q :: cs =>
      let quote : Token := ⟨if q = '\x22' then .doubleQuote else .singleQuote, String.singleton q⟩
      if cs.dropLast.isEmpty then [quote, quote]
      else [quote, ⟨.strVal, String.ofList cs.dropLast⟩, quote]

/-- The tokens of one match. -/
def ofMatch (kind : Kind) (text : List Char) : List Token :=
  if kind = .stringLiteral then splitString text else [⟨kind, String.ofList text⟩]

/-- The garbage gathered so far, last character first, as tokens. -/
def ofGarbage (chars : List Char) : List Token :=
  if chars.isEmpty then [] else [⟨.garbage, String.ofList chars.reverse⟩]

/-- Lexes on. The next `skip` characters belong to the token already emitted; `garbage` holds the unmatched
characters in progress and `done` the tokens emitted, both last one first. -/
def lexFrom (skip : Nat) (garbage : List Char) (done : List Token) : List Char → List Token
  | [] => (ofGarbage garbage ++ done).reverse
  | c :: cs =>
      match skip with
      | k + 1 => lexFrom k garbage done cs
      | 0 =>
          match Rule.best (c :: cs) with
          | some (kind, n) =>
              lexFrom (n - 1) []
                ((ofMatch kind ((c :: cs).take n)).reverse ++ (ofGarbage garbage ++ done)) cs
          | none => lexFrom 0 (c :: garbage) done cs

end Token

/-- All tokens of a source, trivia included. -/
def lex (source : String) : List Token := Token.lexFrom 0 [] [] source.toList

end Transducer
