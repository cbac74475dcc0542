import CardinalityClauses.Configuration
import CardinalityClauses.Formula
import CardinalityClauses.Stored.Data

/-!
The stored forms of variables, literals, clauses, formulas and configurations.
-/

namespace CardinalityClauses

/-- The stored form of a variable. -/
def Variable.toData (v : Variable) : Data :=
  .record [("idx", .count v.index)]

namespace Literal

/-- The stored form of a literal. -/
def toData (l : Literal) : Data :=
  .record [("lidx", .count l.code)]

/-- Reads a literal. -/
def ofData? (d : Data) : Option Literal :=
  match d.parts? ["lidx"] with
  | some [code] => (Data.required (Data.toNumber? indexRange) code).map ofCode
  | _ => none

end Literal

namespace Clause

/-- The stored form of a clause. -/
def toData (c : Clause) : Data :=
  .record [("lits", .ofList Literal.toData c.literals)]

/-- Reads a clause. -/
def ofData? (d : Data) : Option Clause :=
  match d.parts? ["lits"] with
  | some [literals] => (Data.required (Data.toList? Literal.ofData?) literals).map Clause.mk
  | _ => none

end Clause

namespace Formula

/-- The stored form of a formula. -/
def toData (f : Formula) : Data :=
  .record [("clauses", .ofList Clause.toData f.toList)]

/-- Reads a formula. -/
def ofData? (d : Data) : Option Formula :=
  match d.parts? ["clauses"] with
  | some [clauses] => (Data.required (Data.toList? Clause.ofData?) clauses).map ofList
  | _ => none

end Formula

namespace Direction

/-- The stored form of a direction. -/
def toData : Direction → Data
  | .atMost => .text "Ub"
  | .atLeast => .text "Lb"

/-- Reads a direction. -/
def ofData? (d : Data) : Option Direction :=
  d.toName? [("Ub", .atMost), ("Lb", .atLeast)]

end Direction

namespace Family

/-- The stored form of a family. -/
def toData (f : Family) : Data :=
  .text f.name

/-- Reads a family. -/
def ofData? (d : Data) : Option Family :=
  d.toName? [(name .totalizer, .totalizer), (name .modular, .modular)]

end Family

namespace Configuration

/-- The stored form of a configuration. -/
def toData (c : Configuration) : Data :=
  .record [("amk", c.atMost.toData), ("alk", c.atLeast.toData),
    ("modulus", .ofOption .count c.modulus)]

/-- Reads a configuration. -/
def ofData? (d : Data) : Option Configuration :=
  match d.parts? ["amk", "alk", "modulus"] with
  | some [atMost, atLeast, modulus] => do
      let atMost ← Data.required Family.ofData? atMost
      let atLeast ← Data.required Family.ofData? atLeast
      let modulus ← Data.toOption? (Data.toNumber? sizeRange) modulus
      return ⟨atMost, atLeast, modulus⟩
  | _ => none

end Configuration

end CardinalityClauses
