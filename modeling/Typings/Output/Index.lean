import Typings.Model.Basic
import Typings.Output.ModulePath

/-!
# The index

Records of all types that were written, kept across files, and the index written from them at the
end. The index makes every outermost type known by its simple name.
-/

namespace Typings

-- ---------------------------------------------------------------------------
-- Records
-- ---------------------------------------------------------------------------

/-- A type that was written. The name of a nested type is dotted. -/
structure TypeRecord where
  name : String
  package : String
  filePath : String
  kind : TypeKind
  isNested : Bool
deriving Repr, DecidableEq, Inhabited

/-- The dotted path of a type inside the type with the path `outer`. -/
def dottedName (outer : Option String) (name : String) : String :=
  match outer with
  | some path => path ++ "." ++ name
  | none => name

mutual

/-- The records of a type and of those nested in it, outer before inner. -/
def TypeDecl.typeRecords (package filePath : String) (outer : Option String) :
    TypeDecl → List TypeRecord
  | ⟨o, nested⟩ =>
    let name := dottedName outer o.name
    { name, package, filePath, kind := o.kind, isNested := outer.isSome } ::
      TypeDecl.typeRecordsAll package filePath (some name) nested

def TypeDecl.typeRecordsAll (package filePath : String) (outer : Option String) :
    List TypeDecl → List TypeRecord
  | [] => []
  | d :: ds =>
    d.typeRecords package filePath outer ++ TypeDecl.typeRecordsAll package filePath outer ds

end

-- ---------------------------------------------------------------------------
-- Entries
-- ---------------------------------------------------------------------------

/-- Adds a type to an index that is ordered by name. Of several files for a name the smallest path
stays. -/
def addEntry (name path : String) : List (String × String) → List (String × String)
  | [] => [(name, path)]
  | (n, p) :: rest =>
    if name = n then (n, if path < p then path else p) :: rest
    else if name < n then (name, path) :: (n, p) :: rest
    else (n, p) :: addEntry name path rest

/-- The outermost types by name, each with its file. -/
def indexEntries (records : List TypeRecord) : List (String × String) :=
  (records.filter (!·.isNested)).foldl (fun entries r => addEntry r.name r.filePath entries) []

/-- The end of the index and of the hooks. -/
def globalEnd : String := "\x7d\n\nexport \x7b\x7d;\n"

/-- The line for a type in the index. -/
def indexLine (indexPath : String) (entry : String × String) : String :=
  "    type " ++ entry.1 ++ " = import(\"" ++ ModulePath.relative indexPath entry.2 ++ "\")." ++
    entry.1 ++ ";\n"

/-- The index, to be written at a path. -/
def renderIndex (indexPath : String) (records : List TypeRecord) : String :=
  "declare global \x7b\n" ++ String.join ((indexEntries records).map (indexLine indexPath)) ++
    globalEnd

end Typings
