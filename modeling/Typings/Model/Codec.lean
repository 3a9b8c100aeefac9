import Typings.Json.Codec
import Typings.Model.Basic

/-!
# Declarations in JSON

The JSON form of the declarations of a Java file.
-/

namespace Typings

open Json

-- ---------------------------------------------------------------------------
-- Imports
-- ---------------------------------------------------------------------------

def Import.encode (i : Import) : Json :=
  .object [("path", .str i.path), ("is_static", .bool i.isStatic),
    ("is_wildcard", .bool i.isWildcard)]

def Import.decode? : Decoder Import
  | 0, _ => none
  | n + 1, j =>
    match recordFields? ["path", "is_static", "is_wildcard"] j with
    | some [path, isStatic, isWildcard] => do
      return {
        path := ← required decodeString n path
        isStatic := ← required decodeBool n isStatic
        isWildcard := ← required decodeBool n isWildcard }
    | _ => none

-- ---------------------------------------------------------------------------
-- Methods and fields
-- ---------------------------------------------------------------------------

def Parameter.encode (p : Parameter) : Json :=
  .object [("name", .str p.name), ("type_name", .str p.typeName),
    ("is_varargs", .bool p.isVarargs)]

def Parameter.decode? : Decoder Parameter
  | 0, _ => none
  | n + 1, j =>
    match recordFields? ["name", "type_name", "is_varargs"] j with
    | some [name, typeName, isVarargs] => do
      return {
        name := ← required decodeString n name
        typeName := ← required decodeString n typeName
        isVarargs := ← required decodeBool n isVarargs }
    | _ => none

def Method.encode (m : Method) : Json :=
  .object [("name", .str m.name), ("return_type", .str m.returnType),
    ("type_parameters", encodeNullable .str m.typeParameters),
    ("parameters", encodeList Parameter.encode m.parameters),
    ("doc_comment", encodeNullable .str m.doc)]

def Method.decode? : Decoder Method
  | 0, _ => none
  | n + 1, j =>
    match recordFields?
      ["name", "return_type", "type_parameters", "parameters", "doc_comment"] j with
    | some [name, returnType, typeParameters, parameters, doc] => do
      return {
        name := ← required decodeString n name
        returnType := ← required decodeString n returnType
        typeParameters := ← optional decodeString n typeParameters
        parameters := ← required (decodeList Parameter.decode?) n parameters
        doc := ← optional decodeString n doc }
    | _ => none

def Field.encode (f : Field) : Json :=
  .object [("name", .str f.name), ("type_name", .str f.typeName),
    ("doc_comment", encodeNullable .str f.doc)]

def Field.decode? : Decoder Field
  | 0, _ => none
  | n + 1, j =>
    match recordFields? ["name", "type_name", "doc_comment"] j with
    | some [name, typeName, doc] => do
      return {
        name := ← required decodeString n name
        typeName := ← required decodeString n typeName
        doc := ← optional decodeString n doc }
    | _ => none

-- ---------------------------------------------------------------------------
-- Types
-- ---------------------------------------------------------------------------

def TypeKind.encode (k : TypeKind) : Json := .str k.keyword

/-- A kind is its keyword, or an object with the keyword as the name of its one field, which is
null. -/
def TypeKind.decode? : Decoder TypeKind
  | _, .str word => TypeKind.ofKeyword? word
  | _ + 1, .obj [(some word, .null)] => TypeKind.ofKeyword? word
  | _, _ => none

/-- The names of the fields of a type declaration, in order. -/
def TypeDecl.fieldNames : List String :=
  ["name", "kind", "is_abstract", "type_parameters", "extends", "implements", "doc_comment",
    "methods", "fields", "nested"]

mutual

def TypeDecl.encode : TypeDecl → Json
  | ⟨o, nested⟩ =>
    .object [("name", .str o.name), ("kind", o.kind.encode), ("is_abstract", .bool o.isAbstract),
      ("type_parameters", encodeNullable .str o.typeParameters),
      ("extends", encodeNullable .str o.superTypes),
      ("implements", encodeNullable .str o.interfaces),
      ("doc_comment", encodeNullable .str o.doc),
      ("methods", encodeList Method.encode o.methods),
      ("fields", encodeList Field.encode o.fields),
      ("nested", .arr (TypeDecl.encodeAll nested))]

def TypeDecl.encodeAll : List TypeDecl → List Json
  | [] => []
  | d :: ds => d.encode :: TypeDecl.encodeAll ds

end

/-- The declaration with given values of its fields, the last of which is read by `nested?`. -/
def TypeDecl.ofFields? (nested? : Option Json → Option (List TypeDecl)) (n : Nat) :
    List (Option Json) → Option TypeDecl
  | [name, kind, isAbstract, typeParameters, superTypes, interfaces, doc, methods, fields,
      nested] => do
    return {
      name := ← required decodeString n name
      kind := ← required TypeKind.decode? n kind
      isAbstract := ← required decodeBool n isAbstract
      typeParameters := ← optional decodeString n typeParameters
      superTypes := ← optional decodeString n superTypes
      interfaces := ← optional decodeString n interfaces
      doc := ← optional decodeString n doc
      methods := ← required (decodeList Method.decode?) n methods
      fields := ← required (decodeList Field.decode?) n fields
      nested := ← nested? nested }
  | _ => none

mutual

def TypeDecl.decode? : Decoder TypeDecl
  | 0, _ => none
  | n + 1, j =>
    (recordFields? TypeDecl.fieldNames j).bind (TypeDecl.ofFields? (TypeDecl.decodeNested? n) n)

def TypeDecl.decodeNested? : Nat → Option Json → Option (List TypeDecl)
  | n + 1, some (.arr items) => items.mapM (TypeDecl.decode? n)
  | _, _ => none

end

-- ---------------------------------------------------------------------------
-- Files
-- ---------------------------------------------------------------------------

def SourceFile.encode (f : SourceFile) : Json :=
  .object [("package", .str f.package), ("imports", encodeList Import.encode f.imports),
    ("types", encodeList TypeDecl.encode f.types)]

def SourceFile.decode? : Decoder SourceFile
  | 0, _ => none
  | n + 1, j =>
    match recordFields? ["package", "imports", "types"] j with
    | some [package, imports, types] => do
      return {
        package := ← required decodeString n package
        imports := ← required (decodeList Import.decode?) n imports
        types := ← required (decodeList TypeDecl.decode?) n types }
    | _ => none

end Typings
