import Typings.Order
import Typings.Output.Index
import Typings.Output.Reserved
import Typings.Text.Case

/-!
# Hooks

Records of all hooks, kept across files, and the hooks file written from them at the end. It
declares a function for each type nested in an event interface.
-/

namespace Typings

-- ---------------------------------------------------------------------------
-- Records
-- ---------------------------------------------------------------------------

/-- A hook: a function that takes an event. -/
structure HookRecord where
  hookName : String
  /-- The dotted path, in its file, of the event interface. -/
  eventName : String
  /-- The name of the nested type. -/
  subType : String
  /-- The dotted path of the nested type, its package included. -/
  reference : String
  package : String
  filePath : String
deriving Repr, DecidableEq, Inhabited

/-- The ending of the names of event interfaces. -/
def eventSuffix : String := "Event"

/-- The hook for a type nested in an event interface: its name without the ending `Event`, in
lower case at the start. A reserved word is avoided by an `on` in front of the name as it was. A
name that is nothing but the ending gives no hook. -/
def hookName? (subType : String) : Option String :=
  let stem := (Text.beforeSuffix? eventSuffix.toList subType.toList).getD subType.toList
  match stem with
  | [] => none
  | c :: cs =>
    let lowered := String.ofList (Text.lower c ++ cs)
    if isReserved lowered then some ("on" ++ String.ofList stem) else some lowered

/-- Whether the types nested in a type give hooks. -/
def TypeOutline.isEvent (o : TypeOutline) : Bool :=
  o.kind = .interface && Text.endsWith eventSuffix.toList o.name.toList

/-- The hook for a type nested in the event interface with a dotted path. -/
def hookRecord? (file : SourceFile) (filePath eventName : String) (sub : TypeDecl) :
    Option HookRecord :=
  (hookName? sub.name).map fun hookName =>
    { hookName, eventName, subType := sub.name
      reference := file.qualify (eventName ++ "." ++ sub.name)
      package := file.package, filePath }

mutual

/-- The hooks of a type and of those nested in it, outer before inner. -/
def TypeDecl.hookRecords (file : SourceFile) (filePath : String) (outer : Option String) :
    TypeDecl → List HookRecord
  | ⟨o, nested⟩ =>
    let name := dottedName outer o.name
    (if o.isEvent then nested.filterMap (hookRecord? file filePath name) else []) ++
      TypeDecl.hookRecordsAll file filePath (some name) nested

def TypeDecl.hookRecordsAll (file : SourceFile) (filePath : String) (outer : Option String) :
    List TypeDecl → List HookRecord
  | [] => []
  | d :: ds =>
    d.hookRecords file filePath outer ++ TypeDecl.hookRecordsAll file filePath outer ds

end

-- ---------------------------------------------------------------------------
-- The hooks file
-- ---------------------------------------------------------------------------

/-- Hooks by name. Those of one name stay in the order in which they were recorded. -/
def sortedHooks (records : List HookRecord) : List HookRecord :=
  Order.sort (fun a b => a.hookName < b.hookName) records

/-- The line that refers to another declaration file. -/
def referenceLine (hooksPath reference : String) : String :=
  "/// <reference path=\"" ++ ModulePath.relative hooksPath reference ++ ".d.ts\" />\n"

/-- The line that declares the function of a hook. -/
def hookLine (hooksPath : String) (r : HookRecord) : String :=
  "    function " ++ r.hookName ++ "(event: import(\"" ++
    ModulePath.relative hooksPath r.filePath ++ "\")." ++ r.eventName ++ "." ++ r.subType ++
    "): void;\n"

/-- The hooks, to be written at a path, with references to other files first. -/
def renderHooks (hooksPath : String) (references : List String) (records : List HookRecord) :
    String :=
  String.join (references.map (referenceLine hooksPath)) ++
    (if references.isEmpty then "" else "\n") ++ "declare global \x7b\n" ++
    String.join ((sortedHooks records).map (hookLine hooksPath)) ++ globalEnd

end Typings
