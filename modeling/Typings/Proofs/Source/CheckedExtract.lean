import Typings.Proofs.Source.CheckedMembers
import Typings.Proofs.Source.Noninterference

/-!
# Files read with checks

Reads a file with the checks of `CheckedHeader` and `CheckedMembers` at every level of nesting,
where the offsets of a header are found in the masked text and cut the text itself. No check fails
on a file of less than 2 GiB, whatever its text: what is read is what `extract` gives. Main
statement: `extract_eq_ok`.
-/

namespace Typings.Source.Checked

open Text (bytes byteLength IsBoundary)
open Declaration (Part)

-- ---------------------------------------------------------------------------
-- Types
-- ---------------------------------------------------------------------------

/-- Reads the outline of the type that a header match declares and the rest of its header. -/
def headerOf (includeDocs publicOnly : Bool) (masked : Masked) (m : Match Part) :
    Except Fault (Option (TypeOutline × HeaderTail)) :=
  match m.get? .kind, m.get? .name with
  | some kindPart, some namePart => do
    let before ← cut masked.text 0 kindPart.start
    if masked.inDoc kindPart.start || before.getLast? = some '@' then return none
    else if publicOnly && !hasModifier (m.text .modifiers) "public" then return none
    else
      match TypeKind.ofKeyword? (String.ofList kindPart.text) with
      | none => return none
      | some kind =>
        let tail ← headerTail masked.text namePart.stop
        return tail.map fun tail => (outlineOf includeDocs m kind namePart tail, tail)
  | _, _ => return none

/-- Completes a type with the members in the text between its braces and its nested types. -/
def withBody (includeDocs : Bool) (outline : TypeOutline) (body : Text)
    (nested : List (TypeDecl × Span)) : Except Fault TypeDecl := do
  let members := Text.blank (mask body).text (nested.map (·.2))
  let methods ← methods includeDocs members
  let fields ←
    match outline.kind with
    | .interface => pure []
    | .class_ => fields includeDocs members
  return { outline with methods, fields, nested := nested.map (·.1) }

/-- Reads what a header match declares, given how the types of its body are read. -/
def typeOf (includeDocs publicOnly : Bool) (nestedIn : Text → Except Fault (List (TypeDecl × Span)))
    (text : Text) (m : Match Part) : Except Fault (Option (TypeDecl × Span)) := do
  match ← headerOf includeDocs publicOnly (mask text) m with
  | none => return none
  | some (outline, tail) =>
    match ← blockEnd (bytes text) tail.brace with
    | none => return some ({ outline with }, ⟨m.whole.start, byteLength text⟩)
    | some close =>
      let body ← cut text (tail.brace + 1) close
      let nested ← nestedIn body
      let type ← withBody includeDocs outline body nested
      return some (type, ⟨m.whole.start, close + 1⟩)

/-- Reads the types at the outer level of a text. -/
def typesIn (includeDocs : Bool) : (fuel : Nat) → (publicOnly : Bool) → Text →
    Except Fault (List (TypeDecl × Span))
  | 0, _, _ => .error .nesting
  | fuel + 1, publicOnly, text =>
    gather (typeOf includeDocs publicOnly (typesIn includeDocs fuel false) text)
      (Declaration.typeHeader.allMatches (mask text).text)

theorem exists_headerTail {s : Text} {start : Nat} (h : IsBoundary s start) :
    ∃ tail, headerTail s start = .ok tail ∧ Source.headerTail s start = .ok tail := by
  obtain ⟨u, t, rfl, rfl⟩ := Text.isBoundary_iff.mp h
  exact ⟨_, headerTail_append u t, by rw [Source.headerTail, Text.suffixAt?_append]⟩

theorem headerOf_eq {masked : Masked} {m : Match Part} (hm : m.IsOn masked.text)
    (includeDocs publicOnly : Bool) :
    headerOf includeDocs publicOnly masked m = .ok (headerOf? includeDocs publicOnly masked m) := by
  rw [headerOf, headerOf?]
  cases hkind : m.get? .kind with
  | none => rfl
  | some kindPart =>
    cases hname : m.get? .name with
    | none => rfl
    | some namePart =>
      obtain ⟨before, hbefore, hstart⟩ :=
        Text.suffixAt?_eq_some_iff.mp (hm.groups .kind kindPart hkind).1
      obtain ⟨tail, hchecked, htail⟩ := exists_headerTail (hm.groups .name namePart hname).2
      have hcut := cut_front before kindPart.tail
      have htake := Text.takeBytes_append before kindPart.tail
      rw [← hbefore, hstart] at hcut htake
      simp only [hcut, ok_bind, htake, hchecked, htail, Option.bind_eq_bind, Option.bind_some]
      split
      · rfl
      · split
        · rfl
        · cases TypeKind.ofKeyword? (String.ofList kindPart.text) with
          | none => rfl
          | some kind => cases tail <;> rfl

theorem byteLength_members (body : Text) (spans : List Span) :
    byteLength (Text.blank (mask body).text spans) = byteLength body := by
  rw [Text.blank_eq_blankWhere, Text.byteLength_blankWhere, mask_text_eq_shown, byteLength_shown,
    flatMap_text_tokens]

theorem withBody_eq {body : Text} (h : byteLength body < limit) (includeDocs : Bool)
    (outline : TypeOutline) (nested : List (TypeDecl × Span)) :
    withBody includeDocs outline body nested =
      .ok (Source.withBody includeDocs outline body nested) := by
  have hmembers := byteLength_members body (nested.map (·.2))
  rw [withBody, methods_eq (hmembers ▸ h), fields_eq (hmembers ▸ h), Source.withBody]
  cases outline.kind <;> rfl

/-- The text between the braces of a block is cut without a fault, and takes up less. -/
theorem cut_body {text : Text} {brace close : Nat} (h : blockEnd? text brace = some close) :
    cut text (brace + 1) close = .ok (Text.slice text (brace + 1) close) ∧
      byteLength (Text.slice text (brace + 1) close) ≤ byteLength text := by
  refine ⟨cut_block h, ?_⟩
  obtain ⟨before, block, after, rfl, rfl, rfl, -⟩ := blockEnd?_eq_some_iff.mp h
  rw [slice_block]
  simp only [Text.byteLength_append, Text.byteLength_cons]
  omega

theorem typesIn_eq {text : Text} (h : byteLength text < limit) {fuel : Nat}
    (hfuel : text.length < fuel)
    (includeDocs publicOnly : Bool) :
    typesIn includeDocs fuel publicOnly text = .ok
      (Source.typesIn includeDocs fuel publicOnly text) := by
  induction fuel generalizing text publicOnly with
  | zero => exact absurd hfuel (Nat.not_lt_zero _)
  | succ fuel ih =>
    rw [typesIn, typesIn_succ]
    refine gather_eq_ok fun m hm => ?_
    rw [typeOf, headerOf_eq (Pattern.isOn_of_mem_allMatches hm), typeOf?, ok_bind]
    cases headerOf? includeDocs publicOnly (mask text) m with
    | none => rfl
    | some found =>
      obtain ⟨outline, tail⟩ := found
      dsimp only
      rw [blockEnd_bytes, ok_bind]
      cases hclose : blockEnd? text tail.brace with
      | none => rfl
      | some close =>
        obtain ⟨hcut, hle⟩ := cut_body hclose
        have hlt := length_slice_lt hclose
        dsimp only
        rw [hcut, ok_bind, ih (Nat.lt_of_le_of_lt hle h) (by omega), ok_bind,
          withBody_eq (Nat.lt_of_le_of_lt hle h)]
        rfl

-- ---------------------------------------------------------------------------
-- Files
-- ---------------------------------------------------------------------------

/-- Reads the package that a masked file declares. -/
def packageOf (masked : Text) : Except Fault Text :=
  match Declaration.package.firstMatch? masked with
  | none => return []
  | some m => do
    let packagePart ← part m .package
    return packagePart.text

/-- Reads the import that a match declares. -/
def importOf (m : Match Part) : Except Fault Import := do
  let pathPart ← part m .path
  return {
    path := String.ofList pathPart.text
    isStatic := (m.get? .static).isSome
    isWildcard := (m.get? .wildcard).isSome }

/-- Reads the declarations of a Java file. -/
def extract (includeDocs : Bool) (source : String) : Except Fault SourceFile := do
  let text := source.toList
  let masked := (mask text).text
  let package ← packageOf masked
  let imports ← (Declaration.importLine.allMatches masked).mapM importOf
  let types ← typesIn includeDocs (text.length + 1) true text
  return { package := String.ofList package, imports, types := types.map (·.1) }

theorem packageOf_eq (masked : Text) : packageOf masked = .ok (Source.packageOf masked) := by
  rw [packageOf, Source.packageOf]
  cases hfirst : Declaration.package.firstMatch? masked with
  | none => rfl
  | some m =>
    obtain ⟨c, hc, htext, _⟩ := exists_part (g := .package) (List.mem_of_mem_head? hfirst) rfl
    dsimp only
    rw [hc, ← htext]
    rfl

theorem importOf_eq {masked : Text} {m : Match Part}
    (hm : m ∈ Declaration.importLine.allMatches masked) : importOf m = .ok (Source.importOf m) := by
  obtain ⟨c, hc, htext, _⟩ := exists_part (g := .path) hm rfl
  rw [importOf, hc, Source.importOf, ← htext]
  rfl

/-- Extraction fails no check on any file of less than 2 GiB: at every level of nesting each cut is
in order, within the text and at character boundaries of it, no brace or bracket is closed that is
not open, and no count of brackets leaves the range of 32-bit integers. -/
theorem extract_eq_ok (includeDocs : Bool) {source : String} (h : source.utf8ByteSize < 2 ^ 31) :
    extract includeDocs source = .ok (Source.extract includeDocs source) := by
  have hsize : byteLength source.toList < limit := Text.byteLength_toList source ▸ h
  rw [extract, packageOf_eq, mapM_eq_ok fun m hm => importOf_eq hm,
    typesIn_eq hsize (Nat.lt_succ_self _)]
  rfl

/-- A file with an escape before a character of two bytes in a literal that is not closed, a nested
type whose angle brackets are not closed, and a type whose block is not closed. -/
def brokenFile : String :=
  "public class A \x7b char c = '\\é;\n class B<T \x7b \x7d int f(É x); \x7d public class C \x7b \"é"

theorem extract_eq_ok_brokenFile : brokenFile.utf8ByteSize < 2 ^ 31 ∧
    extract true brokenFile = .ok (Source.extract true brokenFile) :=
  have hsize : brokenFile.utf8ByteSize < 2 ^ 31 := by decide
  ⟨hsize, extract_eq_ok true hsize⟩

end Typings.Source.Checked
