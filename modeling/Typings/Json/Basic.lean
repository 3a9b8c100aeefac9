/-!
# JSON values

JSON values as far as this library can tell them apart. Natural numbers keep their value; other
numbers are read but never used, so nothing of them is kept. A string may spell half of a
surrogate pair alone and then stands for no text.
-/

namespace Typings

/-- A JSON value. The fields of an object keep their order and may repeat; a name that is no text
is `none`. -/
inductive Json where
  | null
  | bool (b : Bool)
  | nat (n : Nat)
  /-- A number that is negative, fractional or written with an exponent. -/
  | number
  | str (s : String)
  /-- A string with an unpaired surrogate. -/
  | brokenStr
  | arr (items : List Json)
  | obj (fields : List (Option String × Json))
deriving Inhabited

namespace Json

/-- An object with the given fields. -/
def object (fields : List (String × Json)) : Json :=
  .obj (fields.map fun (name, value) => (some name, value))

/-- The value of the first field with a name. -/
def field? (name : String) : Json → Option Json
  | .obj fields => (fields.find? fun entry => entry.1 == some name).map (·.2)
  | _ => none

end Json

end Typings
