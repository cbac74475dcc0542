import CardinalityClauses.Arithmetic.Checked

/-!
Stored values: the data that encoders, formulas and configurations are written to and read
back from.

A structure is a record with a field for every part. On reading, fields that a structure
does not have are passed over, and an optional part may be missing. A list with exactly one
item a part, in the order of the parts, is read as the structure too. A choice among
several forms is a record with the name of the form as its one field, or just the name if
the form has no content.
-/

namespace CardinalityClauses

/-- A stored value. -/
inductive Data
  | null
  | flag (b : Bool)
  /-- A whole number that is not negative. -/
  | count (n : Nat)
  /-- A number that is negative or not whole; nothing here is stored as one. -/
  | otherNumber
  | text (s : String)
  | list (items : List Data)
  | record (fields : List (String × Data))
  deriving Repr, Inhabited

namespace Data

/-! ### Writing -/

/-- An optional part. -/
def ofOption {α : Type} (write : α → Data) : Option α → Data
  | none => null
  | some a => write a

/-- A list of parts. -/
def ofList {α : Type} (write : α → Data) (items : List α) : Data :=
  list (items.map write)

/-! ### Reading -/

/-- A number below `range`. -/
def toNumber? (range : Nat) : Data → Option Nat
  | count n => if n < range then some n else none
  | _ => none

/-- A list of parts. -/
def toList? {α : Type} (read : Data → Option α) : Data → Option (List α)
  | list items => items.mapM read
  | _ => none

/-- A part that may be missing or null. -/
def toOption? {α : Type} (read : Data → Option α) : Option Data → Option (Option α)
  | none => some none
  | some null => some none
  | some d => (read d).map some

/-- A part that has to be there. -/
def required {α : Type} (read : Data → Option α) : Option Data → Option α
  | none => none
  | some d => read d

/-- The field of a record with a given name. -/
def field? (fields : List (String × Data)) (name : String) : Option Data :=
  (fields.find? fun (key, _) => key == name).map Prod.snd

/-- The parts of a structure by the names of its fields. -/
def parts? (names : List String) : Data → Option (List (Option Data))
  | record fields => some (names.map (field? fields))
  | list items =>
      if items.length = names.length then some (items.map some) else none
  | _ => none

/-- The parts of a structure that is stored as a record only. -/
def recordParts? (names : List String) : Data → Option (List (Option Data))
  | record fields => some (names.map (field? fields))
  | _ => none

/-- The name of a form and its content, if it has one. -/
def form? : Data → Option (String × Option Data)
  | text name => some (name, none)
  | record [(name, content)] => some (name, some content)
  | _ => none

/-- One of several forms without content. A null counts as no content. -/
def toName? {α : Type} (choices : List (String × α)) (d : Data) : Option α :=
  match d.form? with
  | some (name, none) => (choices.find? fun (key, _) => key == name).map Prod.snd
  | some (name, some null) => (choices.find? fun (key, _) => key == name).map Prod.snd
  | _ => none

end Data

end CardinalityClauses
