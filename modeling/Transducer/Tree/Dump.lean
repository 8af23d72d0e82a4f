import Transducer.Tree.Hidden
import Transducer.Tree.Located

/-!
Text dumps of trees: one line for every node and token, indented by depth. Token text is quoted so that every
character in it can be told apart.
-/

namespace Transducer

namespace Tree

def quotedChar (c : Char) : List Char :=
  if c = '\x22' then ['\\', '\x22']
  else if c = '\\' then ['\\', '\\']
  else if c = '\n' then ['\\', 'n']
  else if c = '\r' then ['\\', 'r']
  else if c = '\t' then ['\\', 't']
  else if c = '\x00' then ['\\', '0']
  else if isHidden c then ['\\', 'u', '\x7b'] ++ Nat.toDigits 16 c.toNat ++ ['\x7d']
  else [c]

def quotedText (s : String) : String := String.ofList ('\x22' :: s.toList.flatMap quotedChar ++ ['\x22'])

/-- What a dump shows besides nodes and significant tokens. -/
structure DumpStyle where
  trivia : Bool
  spans : Bool

end Tree

namespace Located

def spanText (style : Tree.DumpStyle) (s : Span) : String := if style.spans then s!" [{s.text}]" else ""

mutual

/-- The lines of a tree in front of the lines `after`. -/
def dumpBefore (style : Tree.DumpStyle) (indent : String) : Located → List String → List String
  | .leaf t span, after =>
      if style.trivia || !t.isTrivia then
        (indent ++ t.kind.name ++ spanText style span ++ " " ++ Tree.quotedText t.text ++ "\n") :: after
      else after
  | .node kind span children, after =>
      (indent ++ kind.name ++ spanText style span ++ "\n") ::
        dumpAllBefore style (indent ++ "  ") children after

def dumpAllBefore (style : Tree.DumpStyle) (indent : String) : List Located → List String → List String
  | [], after => after
  | t :: ts, after => dumpBefore style indent t (dumpAllBefore style indent ts after)

end

/-- A tree, one line for every node and token. -/
def dump (style : Tree.DumpStyle) (t : Located) : String := String.join (dumpBefore style "" t [])

end Located

end Transducer
