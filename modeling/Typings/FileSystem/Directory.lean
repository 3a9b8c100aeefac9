import Typings.Text.Utf8

/-!
# Directories

The contents of files, and directories as trees. The entries of a directory are ordered by name
and no two have the same name, so equal trees hold equal files. There are no links, symbolic or
hard: an entry is a file or a directory, and what is at one location is at no other.
-/

namespace Typings

-- ---------------------------------------------------------------------------
-- Contents
-- ---------------------------------------------------------------------------

/-- What a file holds: a text, or bytes that are not UTF-8. -/
inductive Contents where
  | text (s : String)
  | bytes (raw : List UInt8)
deriving Repr, DecidableEq, Inhabited

namespace Contents

/-- The contents with given bytes. -/
def ofBytes (raw : List UInt8) : Contents :=
  match Utf8.decode? raw with
  | some s => .text (String.ofList s)
  | none => .bytes raw

/-- Number of bytes. -/
def size : Contents → Nat
  | .text s => s.utf8ByteSize
  | .bytes raw => raw.length

/-- The text, with U+FFFD where the bytes are not UTF-8. -/
def lossyText : Contents → String
  | .text s => s
  | .bytes raw => String.ofList (Utf8.decodeLossy raw)

end Contents

-- ---------------------------------------------------------------------------
-- Trees
-- ---------------------------------------------------------------------------

/-- A directory as a list of entries, each a file or a directory. -/
inductive Directory where
  | empty
  | file (name : String) (contents : Contents) (rest : Directory)
  | sub (name : String) (inside : Directory) (rest : Directory)
deriving Repr, DecidableEq, Inhabited

/-- An entry of a directory. -/
inductive Entry where
  | file (contents : Contents)
  | dir (inside : Directory)
deriving Repr, DecidableEq, Inhabited

namespace Directory

/-- The directory with an entry in front. -/
def cons (name : String) : Entry → Directory → Directory
  | .file contents, d => .file name contents d
  | .dir inside, d => .sub name inside d

/-- The entry with a name. -/
def get? (name : String) : Directory → Option Entry
  | .empty => none
  | .file n contents rest => if n = name then some (.file contents) else rest.get? name
  | .sub n inside rest => if n = name then some (.dir inside) else rest.get? name

/-- Sets the entry with a name. -/
def put (name : String) (entry : Entry) : Directory → Directory
  | .empty => cons name entry .empty
  | .file n contents rest =>
    if n = name then cons name entry rest
    else if name < n then cons name entry (.file n contents rest)
    else .file n contents (rest.put name entry)
  | .sub n inside rest =>
    if n = name then cons name entry rest
    else if name < n then cons name entry (.sub n inside rest)
    else .sub n inside (rest.put name entry)

/-- Removes the entry with a name. -/
def erase (name : String) : Directory → Directory
  | .empty => .empty
  | .file n contents rest => if n = name then rest else .file n contents (rest.erase name)
  | .sub n inside rest => if n = name then rest else .sub n inside (rest.erase name)

def isEmpty : Directory → Bool
  | .empty => true
  | _ => false

/-- The entries with their names. -/
def entries : Directory → List (String × Entry)
  | .empty => []
  | .file name contents rest => (name, .file contents) :: rest.entries
  | .sub name inside rest => (name, .dir inside) :: rest.entries

/-- All files below a directory: the names on the way to each, and its contents. -/
def files : Directory → List (List String × Contents)
  | .empty => []
  | .file name contents rest => ([name], contents) :: rest.files
  | .sub name inside rest =>
    inside.files.map (fun (path, contents) => (name :: path, contents)) ++ rest.files

/-- Everything below a directory: the path of each entry, that of a directory with a slash at its
end, and the contents of files. -/
def listing (above : String) : Directory → List (String × Option Contents)
  | .empty => []
  | .file name contents rest => (above ++ name, some contents) :: rest.listing above
  | .sub name inside rest =>
    let path := above ++ name ++ "/"
    (path, none) :: inside.listing path ++ rest.listing above

-- ---------------------------------------------------------------------------
-- Locations
-- ---------------------------------------------------------------------------

/-- The entry at a location: the names on the way to it. The directory itself is at the empty
location. -/
def find? (d : Directory) : List String → Option Entry
  | [] => some (.dir d)
  | [name] => d.get? name
  | name :: names =>
    match d.get? name with
    | some (.dir inside) => inside.find? names
    | _ => none

/-- Sets the entry at a location below a directory, if there is a directory to hold it. -/
def store (entry : Entry) : List String → Directory → Directory
  | [], d => d
  | [name], d => d.put name entry
  | name :: names, d =>
    match d.get? name with
    | some (.dir inside) => d.put name (.dir (inside.store entry names))
    | _ => d

/-- Removes the entry at a location below a directory. -/
def discard : List String → Directory → Directory
  | [], d => d
  | [name], d => d.erase name
  | name :: names, d =>
    match d.get? name with
    | some (.dir inside) => d.put name (.dir (inside.discard names))
    | _ => d

end Directory

/-- Whether an entry is a directory with nothing in it. -/
def Entry.isEmptyDir : Entry → Bool
  | .dir d => d.isEmpty
  | .file _ => false

end Typings
