/-!
# Tables

Finite maps from names, in the order in which the names were first entered.

## Main definitions

* `Table`: the entries.
* `Table.get?`, `Table.insert`, `Table.modify`: reading, writing and updating.

## Design notes

A name that is entered again keeps its place and changes its value.
-/

namespace Lox

/-- A finite map from names that remembers the order of first entry. -/
structure Table (α : Type) where
  entries : List (String × α)
deriving DecidableEq, Repr

namespace Table

variable {α β : Type}

def empty : Table α := ⟨[]⟩

instance : Inhabited (Table α) := ⟨empty⟩

def get? (t : Table α) (name : String) : Option α := t.entries.lookup name

def contains (t : Table α) (name : String) : Bool := (t.get? name).isSome

/-- The entries after a name was given a value. -/
def insertEntry (name : String) (a : α) : List (String × α) → List (String × α)
  | [] => [(name, a)]
  | (n, b) :: rest => if name = n then (n, a) :: rest else (n, b) :: insertEntry name a rest

def insert (t : Table α) (name : String) (a : α) : Table α := ⟨insertEntry name a t.entries⟩

def modify (t : Table α) (name : String) (f : α → α) : Table α :=
  match t.get? name with
  | some a => t.insert name (f a)
  | none => t

/-- The names in the order of first entry. -/
def names (t : Table α) : List String := t.entries.map (·.1)

/-- Gives each name of a list its value, in order. -/
def insertAll (t : Table α) (entries : List (String × α)) : Table α :=
  entries.foldl (fun t entry => t.insert entry.1 entry.2) t

/-- The entries whose values pass a test. -/
def filter (t : Table α) (p : α → Bool) : Table α := ⟨t.entries.filter fun entry => p entry.2⟩

end Table

end Lox
