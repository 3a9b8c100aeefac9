import Typings.Json.Basic

/-!
# Records in JSON

How values of this library are written as JSON values and read back. A record is an object, or an
array of the values of its fields in order. Unknown fields of an object are ignored; a field that
appears twice is an error. A decoder takes an allowance: how many arrays and objects may still be
opened inside one another. What is ignored does not count against it.
-/

namespace Typings.Json

/-- The allowance for reading a whole text. -/
def depthLimit : Nat := 127

/-- Reads a value of type `α` with an allowance. -/
abbrev Decoder (α : Type) := (allowance : Nat) → Json → Option α

-- ---------------------------------------------------------------------------
-- Plain values
-- ---------------------------------------------------------------------------

def decodeBool : Decoder Bool
  | _, .bool b => some b
  | _, _ => none

def decodeString : Decoder String
  | _, .str s => some s
  | _, _ => none

/-- A natural number below 2^64. -/
def decodeWord : Decoder UInt64
  | _, .nat n => if n < UInt64.size then some (UInt64.ofNat n) else none
  | _, _ => none

def encodeWord (n : UInt64) : Json := .nat n.toNat

/-- A value, or null for none. -/
def decodeNullable {α : Type} (d : Decoder α) : Decoder (Option α)
  | _, .null => some none
  | n, j => (d n j).map some

def encodeNullable {α : Type} (e : α → Json) : Option α → Json
  | none => .null
  | some a => e a

def decodeList {α : Type} (d : Decoder α) : Decoder (List α)
  | n + 1, .arr items => items.mapM (d n)
  | _, _ => none

def encodeList {α : Type} (e : α → Json) (items : List α) : Json := .arr (items.map e)

/-- An array of two values. -/
def decodePair {α β : Type} (d : Decoder α) (e : Decoder β) : Decoder (α × β)
  | n + 1, .arr [a, b] => do return (← d n a, ← e n b)
  | _, _ => none

def encodePair {α β : Type} (d : α → Json) (e : β → Json) (pair : α × β) : Json :=
  .arr [d pair.1, e pair.2]

theorem decodeWord_encodeWord (n : Nat) (w : UInt64) : decodeWord n (encodeWord w) = some w := by
  show (if w.toNat < UInt64.size then some (UInt64.ofNat w.toNat) else none) = some w
  rw [if_pos w.toNat_lt_size, UInt64.ofNat_toNat]

-- ---------------------------------------------------------------------------
-- Records
-- ---------------------------------------------------------------------------

/-- The value of the field with a name, `none` when it is missing. A name that appears twice is an
error. -/
def lookup? (fields : List (Option String × Json)) (name : String) : Option (Option Json) :=
  match fields.filter (fun entry => entry.1 == some name) with
  | [] => some none
  | [(_, value)] => some (some value)
  | _ => none

/-- The values of the named fields of an object, `none` for a missing one. -/
def objectFields? (names : List String) (fields : List (Option String × Json)) :
    Option (List (Option Json)) :=
  if fields.all (·.1.isSome) then names.mapM (lookup? fields) else none

/-- The values of the fields of a record. Its array form lists all of them. -/
def recordFields? (names : List String) : Json → Option (List (Option Json))
  | .obj fields => objectFields? names fields
  | .arr items => if items.length = names.length then some (items.map some) else none
  | _ => none

/-- The values of the fields of a record with defaults. Its array form may stop early. -/
def defaultedFields? (names : List String) : Json → Option (List (Option Json))
  | .obj fields => objectFields? names fields
  | .arr items =>
    if items.length ≤ names.length then
      some (items.map some ++ List.replicate (names.length - items.length) none)
    else none
  | _ => none

/-- A field that has to be there. -/
def required {α : Type} (d : Decoder α) (n : Nat) : Option Json → Option α
  | some j => d n j
  | none => none

/-- A field that may be missing or null. -/
def optional {α : Type} (d : Decoder α) (n : Nat) : Option Json → Option (Option α)
  | some j => decodeNullable d n j
  | none => some none

/-- A field with a default for when it is missing. -/
def withDefault {α : Type} (default : α) (d : Decoder α) (n : Nat) : Option Json → Option α
  | some j => d n j
  | none => some default

end Typings.Json
