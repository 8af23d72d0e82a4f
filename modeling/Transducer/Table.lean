/-!
Tables from names to values, in the order in which the names came first. Writing a name that is already there
changes its value and keeps its place.
-/

namespace Transducer

structure Table (α : Type) where
  entries : List (String × α)

namespace Table

variable {α : Type}

def empty : Table α := ⟨[]⟩

def names (t : Table α) : List String := t.entries.map Prod.fst

def length (t : Table α) : Nat := t.entries.length

def isEmpty (t : Table α) : Bool := t.entries.isEmpty

def find (name : String) : List (String × α) → Option α
  | [] => none
  | (n, a) :: rest => if n = name then some a else find name rest

def get? (t : Table α) (name : String) : Option α := find name t.entries

/-- Writes a value in the place of the name, or behind all others. -/
def write (name : String) (value : α) : List (String × α) → List (String × α)
  | [] => [(name, value)]
  | (n, a) :: rest => if n = name then (n, value) :: rest else (n, a) :: write name value rest

def insert (t : Table α) (name : String) (value : α) : Table α := ⟨write name value t.entries⟩

def ofList (entries : List (String × α)) : Table α :=
  entries.foldl (fun t e => t.insert e.1 e.2) empty

end Table

end Transducer
