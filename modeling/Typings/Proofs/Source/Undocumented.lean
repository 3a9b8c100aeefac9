import Mathlib.Data.List.Basic
import Typings.Project.Reader
import Typings.Proofs.Source.Header

/-!
# Files without documentation

Documentation takes part in what is matched: a match starts at the comment before a declaration, and
a nested type is blanked from there on. Whether it is kept in the result decides nothing else. The
same matches and spans are found either way, and a file that is read without documentation is the
file that is read with it, less every comment at every depth. Main statement: `ofText_withoutDocs`.
-/

namespace Typings

-- ---------------------------------------------------------------------------
-- Leaving documentation out
-- ---------------------------------------------------------------------------

def Method.withoutDoc (m : Method) : Method := { m with doc := none }

def Field.withoutDoc (f : Field) : Field := { f with doc := none }

/-- An outline without its documentation and that of its methods and fields. -/
def TypeOutline.withoutDocs (o : TypeOutline) : TypeOutline :=
  { o with
    doc := none
    methods := o.methods.map Method.withoutDoc
    fields := o.fields.map Field.withoutDoc }

namespace TypeDecl

mutual

/-- A declaration without its documentation and that of all that is declared in it. -/
def withoutDocs : TypeDecl → TypeDecl
  | ⟨outline, nested⟩ => ⟨outline.withoutDocs, withoutDocsAll nested⟩

def withoutDocsAll : List TypeDecl → List TypeDecl
  | [] => []
  | d :: ds => d.withoutDocs :: withoutDocsAll ds

end

theorem withoutDocsAll_eq_map (ds : List TypeDecl) : withoutDocsAll ds = ds.map withoutDocs := by
  induction ds with
  | nil => rfl
  | cons d ds ih => rw [withoutDocsAll, ih, List.map_cons]

end TypeDecl

def SourceFile.withoutDocs (f : SourceFile) : SourceFile :=
  { f with types := f.types.map TypeDecl.withoutDocs }

def FileInfo.withoutDocs (i : FileInfo) : FileInfo := { i with source := i.source.withoutDocs }

namespace Source

open Declaration (Part)

variable (docs : Bool)

-- ---------------------------------------------------------------------------
-- Members
-- ---------------------------------------------------------------------------

theorem methodOf?_withoutDoc (members : Text) (m : Match Part) :
    methodOf? false members m = (methodOf? docs members m).map Method.withoutDoc := by
  simp only [methodOf?]
  split
  · rfl
  · split
    · rfl
    · rfl

theorem methods_withoutDoc (members : Text) :
    methods false members = (methods docs members).map Method.withoutDoc := by
  rw [methods, methods, List.map_filterMap]
  exact List.filterMap_congr fun m _ => methodOf?_withoutDoc docs members m

/-- All variables of a field declaration share its documentation. -/
theorem fieldsOf_withoutDoc (members : Text) (m : Match Part) :
    fieldsOf false members m = (fieldsOf docs members m).map Field.withoutDoc := by
  simp only [fieldsOf]
  split
  · rfl
  · rw [List.map_map]
    rfl

theorem fields_withoutDoc (members : Text) :
    fields false members = (fields docs members).map Field.withoutDoc := by
  rw [fields, fields, List.map_flatMap]
  exact List.flatMap_congr fun m _ => fieldsOf_withoutDoc docs members m

-- ---------------------------------------------------------------------------
-- Types
-- ---------------------------------------------------------------------------

/-- Which matches declare a type, and where their headers end, does not depend on documentation. -/
theorem headerOf?_withoutDocs (publicOnly : Bool) (masked : Masked) (m : Match Part) :
    headerOf? false publicOnly masked m =
      (headerOf? docs publicOnly masked m).map fun (outline, tail) =>
        (outline.withoutDocs, tail) := by
  refine Option.ext fun (outline, tail) => ?_
  rw [headerOf?_eq_some_iff, Option.map_eq_some_iff]
  constructor
  · rintro ⟨kind, name, hheader, rfl⟩
    exact ⟨_, headerOf?_eq_some_iff.mpr ⟨kind, name, hheader, rfl⟩, rfl⟩
  · rintro ⟨⟨documented, _⟩, hfound, hbare⟩
    obtain ⟨rfl, rfl⟩ := Prod.mk.inj hbare
    obtain ⟨kind, name, hheader, rfl⟩ := headerOf?_eq_some_iff.mp hfound
    exact ⟨kind, name, hheader, rfl⟩

/-- The nested types are blanked at the same spans, so the members are searched in the same text. -/
theorem withBody_withoutDocs (outline : TypeOutline) (body : Text)
    (nested : List (TypeDecl × Span)) :
    withBody false outline.withoutDocs body (nested.map fun (d, span) => (d.withoutDocs, span)) =
      (withBody docs outline body nested).withoutDocs := by
  have hspans : (nested.map fun (d, span) => (d.withoutDocs, span)).map (·.2) =
      nested.map (·.2) := by
    rw [List.map_map]
    rfl
  have htypes : (nested.map fun (d, span) => (d.withoutDocs, span)).map (·.1) =
      (nested.map (·.1)).map TypeDecl.withoutDocs := by
    rw [List.map_map, List.map_map]
    rfl
  rw [withBody, hspans, htypes, withBody, TypeDecl.withoutDocs, TypeDecl.withoutDocsAll_eq_map]
  simp only [TypeOutline.withoutDocs, ← methods_withoutDoc, TypeDecl.mk.injEq, TypeOutline.mk.injEq,
    and_true, true_and]
  cases outline.kind with
  | interface => rfl
  | class_ => exact fields_withoutDoc docs _

/-- The types of a level are the same, at the same spans, with documentation or without. -/
theorem typesIn_withoutDocs (fuel : Nat) (publicOnly : Bool) (text : Text) :
    typesIn false fuel publicOnly text =
      (typesIn docs fuel publicOnly text).map fun (d, span) => (d.withoutDocs, span) := by
  induction fuel generalizing publicOnly text with
  | zero => rfl
  | succ fuel ih =>
    rw [typesIn_succ, typesIn_succ, List.map_filterMap]
    refine List.filterMap_congr fun m _ => ?_
    rw [typeOf?, headerOf?_withoutDocs docs, typeOf?]
    cases headerOf? docs publicOnly (mask text) m with
    | none => rfl
    | some found =>
      obtain ⟨outline, tail⟩ := found
      simp only [Option.map_some]
      cases blockEnd? text tail.brace with
      | none => rfl
      | some close => simp only [ih, withBody_withoutDocs docs, Option.map_some]

theorem extract_withoutDocs (source : String) :
    extract false source = (extract docs source).withoutDocs := by
  simp only [extract, SourceFile.withoutDocs, typesIn_withoutDocs docs, List.map_map]
  rfl

end Source

-- ---------------------------------------------------------------------------
-- Files
-- ---------------------------------------------------------------------------

/-- Whatever else is configured, a file that is read without documentation is the file that is read
with it, less the documentation of every type, method and field. -/
theorem ofText_withoutDocs {bare : ReadingConfig} (hbare : bare.includeDocs = false)
    (config : ReadingConfig) (path source : String) :
    Source.extract bare.includeDocs source =
        (Source.extract config.includeDocs source).withoutDocs ∧
      FileInfo.ofText bare path source = (FileInfo.ofText config path source).withoutDocs := by
  have hextract : Source.extract bare.includeDocs source =
      (Source.extract config.includeDocs source).withoutDocs := by
    rw [hbare]
    exact Source.extract_withoutDocs config.includeDocs source
  exact ⟨hextract, by rw [FileInfo.ofText, hextract]; rfl⟩

/-- Documentation on a type, a method, a nested type and two fields. -/
def documentedFile : String :=
  "/** A. */\npublic class A \x7b\n    /** Runs. */\n    void run();\n" ++
    "    /** B. */\n    class B \x7b\n        /** Sides. */\n        public int x, y;\n    \x7d\n\x7d\n"

theorem ofText_withoutDocs_documentedFile :
    ReadingConfig.fast.includeDocs = false ∧
      FileInfo.ofText .fast "A.java" documentedFile =
        (FileInfo.ofText {} "A.java" documentedFile).withoutDocs ∧
      FileInfo.ofText .fast "A.java" documentedFile ≠ FileInfo.ofText {} "A.java" documentedFile :=
  ⟨rfl, (ofText_withoutDocs rfl {} "A.java" documentedFile).2, by decide +kernel⟩

end Typings
