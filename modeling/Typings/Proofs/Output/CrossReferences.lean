import Typings.Proofs.JavaType.Conversion
import Typings.Proofs.Output.ModuleResolution
import Typings.Proofs.Text.Identifiers

/-!
# References to types of other files

A type is named by its packages, the outermost type, which names the file, and the types inside it.
Main statement: such a name becomes an import exactly when the type lies in an API package, and the
module path leads to the declaration file that is written for the Java file of the type. Where the
type is imported, its name without the packages becomes the same.
-/

namespace Typings

-- ---------------------------------------------------------------------------
-- Dotted names
-- ---------------------------------------------------------------------------

/-- Names with dots between them. -/
def dottedText (names : List String) : String := String.intercalate "." names

theorem toList_dottedText (names : List String) :
    (dottedText names).toList = ['.'].intercalate (names.map String.toList) := by
  have hdot : ".".toList = ['.'] := by decide
  rw [dottedText, String.toList_intercalate, hdot]

theorem dottedText_append {names more : List String} (hnames : names ≠ []) (hmore : more ≠ []) :
    dottedText (names ++ more) = dottedText names ++ "." ++ dottedText more :=
  String.intercalate_append_of_ne_nil hnames hmore

theorem isSegmentChar_of_isIdentifierChar {c : Char} (h : isIdentifierChar c = true) :
    isSegmentChar c = true := by
  by_cases hascii : c.toNat < 0x80
  · have hall : ∀ n < 0x80, isIdentifierChar (Char.ofNat n) = true →
        isSegmentChar (Char.ofNat n) = true := by decide
    have := hall c.toNat hascii
    rw [Char.ofNat_toNat] at this
    exact this h
  · -- Apart from white space, only ASCII characters are excluded.
    have hne : ∀ d : Char, d.toNat < 0x80 → c ≠ d := by
      rintro d hd rfl
      exact hascii hd
    simp only [isIdentifierChar, hascii, if_false, Bool.not_eq_true'] at h
    simp [isSegmentChar, Text.isOpening, Text.isClosing, h, hne _ (by decide : '<'.toNat < 0x80),
      hne _ (by decide : '('.toNat < 0x80), hne _ (by decide : '['.toNat < 0x80),
      hne _ (by decide : '>'.toNat < 0x80), hne _ (by decide : ')'.toNat < 0x80),
      hne _ (by decide : ']'.toNat < 0x80), hne _ (by decide : ','.toNat < 0x80),
      hne _ (by decide : '?'.toNat < 0x80), hne _ (by decide : '.'.toNat < 0x80)]

theorem Text.splitFirst?_eq_none {sep : Char} {s : Text} (h : sep ∉ s) :
    Text.splitFirst? sep s = none := by
  induction s with
  | nil => rfl
  | cons c cs ih =>
    obtain ⟨hc, hcs⟩ := not_or.1 (fun hmem => h (List.mem_cons.2 hmem))
    simp [Text.splitFirst?, Ne.symm hc, ih hcs]

section Names

variable {names : List String} (h : ∀ n ∈ names, IsIdentifier n)
include h

theorem splitOn_dottedText (hne : names ≠ []) :
    (dottedText names).toList.splitOn '.' = names.map String.toList := by
  rw [toList_dottedText]
  refine List.splitOn_intercalate _ (fun l hl => ?_) (by simpa using hne)
  obtain ⟨n, hn, rfl⟩ := List.mem_map.1 hl
  exact (h n hn).notMem (by decide)

theorem mem_dottedText {c : Char} (hc : c ∈ (dottedText names).toList) :
    isIdentifierChar c = true ∨ c = '.' := by
  rw [toList_dottedText] at hc
  rcases Text.mem_intercalate hc with ⟨l, hl, hcl⟩ | hc
  · obtain ⟨n, hn, rfl⟩ := List.mem_map.1 hl
    exact .inl ((h n hn).chars c hcl)
  · exact .inr (by simpa using hc)

/-- A dotted name is converted as a name. -/
theorem convert_dottedText (s : Scope) (hne : names ≠ []) :
    s.convert (dottedText names) = s.nameType (dottedText names) := by
  let name : JavaName :=
    { segments := names.map String.toList
      segments_ne_nil := by simpa using hne
      segment_ne_nil := by
        rintro l hl
        obtain ⟨n, hn, rfl⟩ := List.mem_map.1 hl
        exact (h n hn).ne_nil
      isSegmentChar_of_mem := by
        rintro l hl c hc
        obtain ⟨n, hn, rfl⟩ := List.mem_map.1 hl
        exact isSegmentChar_of_isIdentifierChar ((h n hn).chars c hc) }
  have hstring : (JavaType.name name).string = dottedText names := by
    rw [JavaType.string, JavaType.text, JavaName.text, ← toList_dottedText, String.ofList_toList]
  rw [Scope.convert, ← hstring, TypeExpr.ofText_string]
  rfl

theorem splitHead_dottedText {first : String} {rest : List String}
    (hnames : names = first :: rest) :
    splitHead (dottedText names) =
      (first, if rest.isEmpty then none else some (dottedText rest)) := by
  subst hnames
  have hfirst : '.' ∉ first.toList := (h first List.mem_cons_self).notMem (by decide)
  unfold splitHead
  cases rest with
  | nil =>
    have htext : dottedText [first] = first := String.intercalate_singleton
    rw [htext, Text.splitFirst?_eq_none hfirst]
    rfl
  | cons second rest =>
    have htext : (dottedText (first :: second :: rest)).toList =
        first.toList ++ '.' :: (dottedText (second :: rest)).toList := by
      rw [toList_dottedText, toList_dottedText, List.map_cons, List.map_cons,
        List.intercalate_cons_cons]
      simp
    rw [htext, Text.splitFirst?_append hfirst]
    simp only [String.ofList_toList]
    rfl

end Names

/-- No name of a primitive type is dotted. -/
theorem primitive?_dottedText {names : List String} (hlength : 1 < names.length) :
    primitive? (dottedText names) = none := by
  have hdot : '.' ∈ (dottedText names).toList := by
    match names, hlength with
    | first :: second :: rest, _ =>
      rw [toList_dottedText, List.map_cons, List.map_cons, List.intercalate_cons_cons]
      simp
  have hne : ∀ words : List String, (∀ w ∈ words, '.' ∉ w.toList) →
      dottedText names ∉ words := fun words hwords hmem => hwords _ hmem hdot
  have hnumbers := hne ["byte", "short", "int", "long", "float", "double", "Byte", "Short",
    "Integer", "Long", "Float", "Double"] (by decide)
  have hbooleans := hne ["boolean", "Boolean"] (by decide)
  have hstrings := hne ["char", "Character", "String"] (by decide)
  have hothers := hne ["Object", "void"] (by decide)
  rw [List.mem_cons, List.mem_singleton, not_or] at hothers
  simp only [primitive?, List.contains_iff_mem, hnumbers, hbooleans, hstrings, hothers, if_false]

-- ---------------------------------------------------------------------------
-- Qualified types
-- ---------------------------------------------------------------------------

/-- A type by its full name. Packages are told from types by their initials. -/
structure QualifiedType where
  packages : List String
  /-- The type that names the file. -/
  name : String
  /-- The types inside it that lead to the type, outermost first. -/
  inner : List String
  packages_ne_nil : packages ≠ []
  isIdentifier : ∀ n ∈ packages ++ name :: inner, IsIdentifier n
  packages_not_upper : ∀ p ∈ packages, p.toList.head?.any Text.isUpper = false
  first_lower : (packages.head packages_ne_nil).toList.head?.any Text.isLower = true
  name_upper : name.toList.head?.any Text.isUpper = true

namespace QualifiedType

variable (t : QualifiedType)

def segments : List String := t.packages ++ t.name :: t.inner

/-- The first segment of the package. -/
def root : String := t.packages.head t.packages_ne_nil

def dotted : String := dottedText t.segments

/-- The name of the type inside its package. -/
def typePath : String := dottedText (t.name :: t.inner)

/-- The path that an import of the outermost type has. -/
def importPath : String := dottedText (t.packages ++ [t.name])

/-- The segments of the path of the Java file, relative to its source directory. -/
def sourceSegments : List String := t.packages ++ [t.name ++ ".java"]

def sourcePath : String := String.intercalate "/" t.sourceSegments

/-- The reference to the type in a module. -/
def importFrom (module : String) : String := "import(\"" ++ module ++ "\")." ++ t.typePath

/-- Whether the segments of a package, without the dots at its end, lead to the type without being
its whole name. -/
def InPackages (packages : List String) : Prop :=
  ∃ package ∈ packages, Scope.trimDots package.toList ≠ [] ∧
    (Scope.trimDots package.toList).splitOn '.' <+: t.segments.map String.toList ∧
    (Scope.trimDots package.toList).splitOn '.' ≠ t.segments.map String.toList

/-- The segments of the path of the declaration file. -/
def fileSegments : List String := t.packages ++ [t.name]

/-- The declaration file of the type. -/
def declarationPath : String := String.intercalate "/" t.fileSegments ++ ModulePath.extension

theorem isIdentifier_of_mem_fileSegments {n : String} (hn : n ∈ t.fileSegments) :
    IsIdentifier n := by
  refine t.isIdentifier n ?_
  rcases List.mem_append.1 hn with hn | hn
  · exact List.mem_append_left _ hn
  · exact List.mem_append_right _ (by simp_all)

theorem fileSegments_ne_nil : t.fileSegments ≠ [] := by simp [fileSegments]

theorem segments_ne_nil : t.segments ≠ [] := by simp [segments]

theorem isIdentifier_of_mem_segments : ∀ n ∈ t.segments, IsIdentifier n := t.isIdentifier

theorem splitOn_dotted : t.dotted.toList.splitOn '.' = t.segments.map String.toList :=
  splitOn_dottedText t.isIdentifier t.segments_ne_nil

end QualifiedType

-- ---------------------------------------------------------------------------
-- API packages
-- ---------------------------------------------------------------------------

/-- A text goes on with a separator after another exactly when the parts of the other are the first
of its parts, but not all. -/
theorem Text.exists_eq_append_cons_iff {sep : Char} {e s : Text} :
    (∃ rest, s = e ++ sep :: rest) ↔
      e.splitOn sep <+: s.splitOn sep ∧ e.splitOn sep ≠ s.splitOn sep := by
  constructor
  · rintro ⟨rest, rfl⟩
    rw [List.splitOn_append_cons_self]
    exact ⟨List.prefix_append _ _, by simp [List.splitOn_ne_nil]⟩
  · rintro ⟨⟨parts, hparts⟩, hne⟩
    have hmore : parts ≠ [] := by
      rintro rfl
      exact hne (by simpa using hparts)
    refine ⟨[sep].intercalate parts, ?_⟩
    calc s = [sep].intercalate (e.splitOn sep ++ parts) := by
          rw [hparts, List.intercalate_splitOn]
      _ = e ++ [sep] ++ [sep].intercalate parts := by
          rw [Text.intercalate_append (List.splitOn_ne_nil _ _) hmore, List.intercalate_splitOn]
      _ = e ++ sep :: [sep].intercalate parts := by simp

theorem Scope.isApi_iff {s : Scope} {path : String} :
    s.isApi path = true ↔
      ∃ package ∈ s.apiPackages, ∃ rest, path.toList = trimDots package.toList ++ '.' :: rest := by
  rw [isApi, List.any_eq_true]
  refine exists_congr fun package => and_congr_right fun _ => ?_
  cases h : Text.afterPrefix? (trimDots package.toList) path.toList with
  | none =>
    refine ⟨fun hfalse => Bool.noConfusion hfalse, fun ⟨rest, hrest⟩ => ?_⟩
    rw [Text.afterPrefix?_eq_some_iff.2 hrest] at h
    simp at h
  | some after =>
    have hafter := Text.afterPrefix?_eq_some_iff.1 h
    constructor
    · intro hhead
      obtain ⟨rest, rfl⟩ : ∃ rest, after = '.' :: rest := by
        cases after with
        | nil => simp at hhead
        | cons c cs => exact ⟨cs, by simpa using hhead⟩
      exact ⟨rest, hafter⟩
    · rintro ⟨rest, hrest⟩
      rw [hafter] at hrest
      simp [List.append_cancel_left hrest]

/-- A qualified type lies in an API package when its segments say so. -/
theorem Scope.isApi_dotted {s : Scope} (t : QualifiedType) :
    s.isApi t.dotted = true ↔ t.InPackages s.apiPackages := by
  rw [isApi_iff]
  refine exists_congr fun package => and_congr_right fun _ => ?_
  rw [Text.exists_eq_append_cons_iff, t.splitOn_dotted]
  refine ⟨fun h => ⟨fun hempty => ?_, h⟩, fun h => h.2⟩
  -- Without any segment the name would have to start with a dot.
  rw [hempty, List.splitOn_nil] at h
  obtain ⟨first, rest, hfirst⟩ := List.exists_cons_of_ne_nil t.segments_ne_nil
  obtain ⟨parts, hparts⟩ := h.1
  rw [hfirst, List.map_cons, List.cons_append] at hparts
  have hid : IsIdentifier first := t.isIdentifier_of_mem_segments first (by simp [hfirst])
  exact hid.ne_nil (List.cons.inj hparts).1.symm

-- ---------------------------------------------------------------------------
-- Files
-- ---------------------------------------------------------------------------

theorem IsIdentifier.isPlainStep {name : String} (h : IsIdentifier name) :
    ModulePath.IsPlainStep name.toList := by
  have hdot : '.' ∉ name.toList := h.notMem (by decide)
  refine ⟨h.ne_nil, fun heq => hdot (by simp [heq]), fun heq => hdot (by simp [heq, ModulePath.up])⟩

/-- The segments of names with slashes between them. -/
theorem segments_intercalate {names : List String} (hne : names ≠ [])
    (h : ∀ n ∈ names, ModulePath.IsPlainStep n.toList ∧ '/' ∉ n.toList) :
    ModulePath.segments (String.intercalate "/" names).toList = names.map String.toList := by
  have hslash : "/".toList = ['/'] := by decide
  have hsplit : (String.intercalate "/" names).toList.splitOn '/' = names.map String.toList := by
    rw [String.toList_intercalate, hslash]
    refine List.splitOn_intercalate _ (fun l hl => ?_) (by simpa using hne)
    obtain ⟨n, hn, rfl⟩ := List.mem_map.1 hl
    exact (h n hn).2
  rw [ModulePath.segments, hsplit]
  refine List.filter_eq_self.2 fun l hl => ?_
  obtain ⟨n, hn, rfl⟩ := List.mem_map.1 hl
  obtain ⟨hempty, hdot, -⟩ := (h n hn).1
  simp [hempty, hdot]

theorem Text.map_intercalate_dots {pieces : List Text} (h : ∀ p ∈ pieces, '.' ∉ p) :
    (['.'].intercalate pieces).map (fun c => if c = '.' then '/' else c) =
      ['/'].intercalate pieces := by
  have hkeep : ∀ p : Text, '.' ∉ p → p.map (fun c => if c = '.' then '/' else c) = p := by
    intro p hp
    refine (List.map_congr_left fun c hc => if_neg ?_).trans (List.map_id p)
    rintro rfl
    exact hp hc
  induction pieces with
  | nil => rfl
  | cons p pieces ih =>
    have hp := hkeep p (h p List.mem_cons_self)
    cases pieces with
    | nil => simpa using hp
    | cons q pieces =>
      rw [List.intercalate_cons_cons, List.intercalate_cons_cons, List.map_append, List.map_append,
        hp, ih fun r hr => h r (List.mem_cons_of_mem _ hr)]
      rfl

namespace QualifiedType

variable (t : QualifiedType)

theorem segments_declarationPath :
    ModulePath.segments (ModulePath.withoutExtension t.declarationPath.toList) =
      t.fileSegments.map String.toList := by
  have hcut : ModulePath.withoutExtension t.declarationPath.toList =
      (String.intercalate "/" t.fileSegments).toList := by
    rw [ModulePath.withoutExtension, declarationPath, String.toList_append,
      Text.beforeSuffix?_eq_some_iff.2 rfl, Option.getD_some]
  rw [hcut]
  refine segments_intercalate t.fileSegments_ne_nil fun n hn => ?_
  have hid := t.isIdentifier_of_mem_fileSegments hn
  exact ⟨hid.isPlainStep, hid.notMem (by decide)⟩

theorem ofDotted_importPath : ModulePath.ofDotted t.importPath = t.declarationPath := by
  have hslash : "/".toList = ['/'] := by decide
  have hdots : ∀ p ∈ t.fileSegments.map String.toList, '.' ∉ p := by
    intro p hp
    obtain ⟨n, hn, rfl⟩ := List.mem_map.1 hp
    exact (t.isIdentifier_of_mem_fileSegments hn).notMem (by decide)
  rw [ModulePath.ofDotted, declarationPath]
  refine congrArg (· ++ ModulePath.extension) (String.toList_inj.1 ?_)
  rw [String.toList_ofList, importPath, toList_dottedText, String.toList_intercalate, hslash]
  exact Text.map_intercalate_dots hdots

theorem isPlainStep_of_mem_sourceSegments {n : String} (hn : n ∈ t.sourceSegments) :
    ModulePath.IsPlainStep n.toList ∧ '/' ∉ n.toList := by
  rcases List.mem_append.1 hn with hn | hn
  · have hid : IsIdentifier n := t.isIdentifier_of_mem_fileSegments (List.mem_append_left _ hn)
    exact ⟨hid.isPlainStep, hid.notMem (by decide)⟩
  · obtain rfl := List.mem_singleton.1 hn
    have hname : IsIdentifier t.name :=
      t.isIdentifier_of_mem_fileSegments (List.mem_append_right _ (by simp))
    have hletter : 'j' ∈ (t.name ++ ".java").toList := by
      rw [String.toList_append]
      exact List.mem_append_right _ (by decide)
    have hne : ∀ step : Text, 'j' ∉ step → (t.name ++ ".java").toList ≠ step := by
      rintro step hstep rfl
      exact hstep hletter
    refine ⟨⟨hne _ (by decide), hne _ (by decide), hne _ (by decide)⟩, ?_⟩
    rw [String.toList_append, List.mem_append, not_or]
    exact ⟨hname.notMem (by decide), by decide⟩

/-- The declaration file of a type is the one that is written for its Java file. -/
theorem ofSource_sourcePath : ModulePath.ofSource t.sourcePath = t.declarationPath := by
  have hslash : "/".toList = ['/'] := by decide
  have hpackages : t.packages.map String.toList ≠ [] := by simpa using t.packages_ne_nil
  have hsegments : ModulePath.segments t.sourcePath.toList = t.sourceSegments.map String.toList :=
    segments_intercalate (by simp [sourceSegments]) fun _ hn =>
      t.isPlainStep_of_mem_sourceSegments hn
  have hsteps : (t.sourceSegments.map String.toList).filter (· ≠ ['.', '.']) =
      t.sourceSegments.map String.toList := by
    refine List.filter_eq_self.2 fun p hp => ?_
    obtain ⟨n, hn, rfl⟩ := List.mem_map.1 hp
    exact decide_eq_true (t.isPlainStep_of_mem_sourceSegments hn).1.2.2
  have hjoined : ['/'].intercalate (t.sourceSegments.map String.toList) =
      (String.intercalate "/" t.fileSegments).toList ++ ".java".toList := by
    rw [String.toList_intercalate, hslash, sourceSegments, fileSegments, List.map_append,
      List.map_append, List.map_singleton, List.map_singleton, String.toList_append,
      Text.intercalate_append hpackages (by simp), Text.intercalate_append hpackages (by simp),
      List.intercalate_singleton, List.intercalate_singleton, List.append_assoc _ _ ".java".toList]
  rw [ModulePath.ofSource]
  simp only [hsegments, hsteps, hjoined]
  rw [Text.beforeSuffix?_eq_some_iff.2 rfl, Option.getD_some, String.ofList_toList, declarationPath]

end QualifiedType

-- ---------------------------------------------------------------------------
-- References
-- ---------------------------------------------------------------------------

namespace Scope

variable {s : Scope} {t : QualifiedType}

/-- The import of a qualified type is from its declaration file. -/
theorem importOf?_dotted (s : Scope) (t : QualifiedType) :
    s.importOf? t.dotted =
      some (t.importFrom (ModulePath.relative s.outputPath t.declarationPath)) := by
  have hlower : ∀ p ∈ t.packages.map String.toList, (!p.head?.any Text.isUpper) = true := by
    intro p hp
    obtain ⟨n, hn, rfl⟩ := List.mem_map.1 hp
    simp [t.packages_not_upper n hn]
  have hparts : t.dotted.toList.splitOn '.' =
      t.packages.map String.toList ++ t.name.toList :: t.inner.map String.toList := by
    rw [t.splitOn_dotted, QualifiedType.segments, List.map_append, List.map_cons]
  have hback : ∀ names : List String, (names.map String.toList).map String.ofList = names := by
    intro names
    simp
  have htake : (t.dotted.toList.splitOn '.').takeWhile (fun p => !p.head?.any Text.isUpper) =
      t.packages.map String.toList := by
    rw [hparts, List.takeWhile_append_of_pos hlower]
    simp [t.name_upper]
  have hdrop : (t.dotted.toList.splitOn '.').dropWhile (fun p => !p.head?.any Text.isUpper) =
      t.name.toList :: t.inner.map String.toList := by
    rw [hparts, List.dropWhile_append_of_pos hlower]
    simp [t.name_upper]
  have htarget : ModulePath.ofDotted (String.intercalate "." (t.packages ++ [t.name])) =
      t.declarationPath := t.ofDotted_importPath
  unfold importOf?
  simp only [htake, hdrop, List.map_cons, hback, String.ofList_toList, htarget]
  rfl

/-- A scope in which the root package of a type does not stand for anything else. -/
structure SeesPackages (s : Scope) (t : QualifiedType) : Prop where
  not_local : t.root ∉ s.localTypes.map Prod.fst
  not_imported : ∀ i ∈ s.file.imports, i.isStatic = false → i.isWildcard = false →
    i.simpleName ≠ t.root
  not_generic : t.dotted ∉ s.generics

/-- A scope in which the outermost type is imported and its name does not stand for anything
else. -/
structure SeesImport (s : Scope) (t : QualifiedType) : Prop where
  not_local : t.name ∉ s.localTypes.map Prod.fst
  /-- The last import of the name is that of the type. -/
  imported : ∃ before i after, s.file.imports = before ++ i :: after ∧
    i.isStatic = false ∧ i.isWildcard = false ∧ i.path = t.importPath ∧
    ∀ j ∈ after, j.isStatic = false → j.isWildcard = false → j.simpleName ≠ t.name
  not_generic : t.typePath ∉ s.generics
  not_primitive : primitive? t.name = none

theorem localType?_eq_none {name : String} (h : name ∉ s.localTypes.map Prod.fst) :
    s.localType? name = none := by
  rw [localType?, Option.map_eq_none_iff, List.find?_eq_none]
  intro entry hentry hname
  exact h (List.mem_map.2 ⟨entry, hentry, by simpa using hname⟩)

theorem SeesPackages.resolve_eq (h : s.SeesPackages t) :
    s.resolve t.dotted = s.foreignName t.dotted t.dotted := by
  obtain ⟨rest, hrest⟩ : ∃ rest, t.packages = t.root :: rest :=
    ⟨t.packages.tail, (List.cons_head_tail t.packages_ne_nil).symm⟩
  have hsegments : t.segments = t.root :: (rest ++ t.name :: t.inner) := by
    rw [QualifiedType.segments, hrest, List.cons_append]
  have hsplit : splitHead t.dotted = (t.root, some (dottedText (rest ++ t.name :: t.inner))) := by
    rw [QualifiedType.dotted, splitHead_dottedText t.isIdentifier_of_mem_segments hsegments]
    simp
  have himport : s.file.resolveImport? t.root = none := by
    rw [SourceFile.resolveImport?, Option.map_eq_none_iff, List.find?_eq_none]
    intro i hi hfound
    simp only [Bool.and_eq_true, Bool.not_eq_true', beq_iff_eq] at hfound
    exact h.not_imported i (List.mem_reverse.1 hi) hfound.1.1 hfound.1.2 hfound.2
  have hwhole : withRest t.root (some (dottedText (rest ++ t.name :: t.inner))) = t.dotted := by
    have happend : dottedText ([t.root] ++ (rest ++ t.name :: t.inner)) = _ :=
      dottedText_append (by simp) (by simp)
    rw [QualifiedType.dotted, hsegments]
    exact happend.symm
  have hlower : t.root.toList.head?.any Text.isLower = true := t.first_lower
  have hqualified : s.qualify t.root (some (dottedText (rest ++ t.name :: t.inner))) =
      t.dotted := by
    rw [qualify, himport]
    simp only [Option.isSome_some, hlower, Bool.and_self, if_true, hwhole]
  rw [resolve, if_neg (by simpa using h.not_generic), hsplit]
  simp only [localType?_eq_none h.not_local, hqualified]

theorem simpleName_eq {i : Import} (hpath : i.path = t.importPath) : i.simpleName = t.name := by
  have hname : '.' ∉ t.name.toList :=
    (t.isIdentifier_of_mem_fileSegments (List.mem_append_right _ (by simp))).notMem (by decide)
  have htext : i.path.toList = (dottedText t.packages).toList ++ '.' :: t.name.toList := by
    have hdot : ".".toList = ['.'] := by decide
    have happend : dottedText (t.packages ++ [t.name]) =
        dottedText t.packages ++ "." ++ dottedText [t.name] :=
      dottedText_append t.packages_ne_nil (by simp)
    rw [hpath, QualifiedType.importPath, happend, dottedText, dottedText,
      String.intercalate_singleton, String.toList_append, String.toList_append, hdot]
    simp
  have hlast : Text.splitLast? '.' i.path.toList =
      some ((dottedText t.packages).toList, t.name.toList) := by
    have hreverse : i.path.toList.reverse =
        t.name.toList.reverse ++ '.' :: (dottedText t.packages).toList.reverse := by
      rw [htext]
      simp
    rw [Text.splitLast?, hreverse, Text.splitFirst?_append (by simpa using hname)]
    simp
  rw [Import.simpleName, hlast]
  simp

theorem SeesImport.resolveImport?_eq (h : s.SeesImport t) :
    s.file.resolveImport? t.name = some t.importPath := by
  obtain ⟨before, i, after, himports, hstatic, hwildcard, hpath, hlast⟩ := h.imported
  have hlater : after.reverse.find? (fun j =>
      !j.isStatic && !j.isWildcard && j.simpleName == t.name) = none := by
    refine List.find?_eq_none.2 fun j hj hfound => ?_
    simp only [Bool.and_eq_true, Bool.not_eq_true', beq_iff_eq] at hfound
    exact hlast j (List.mem_reverse.1 hj) hfound.1.1 hfound.1.2 hfound.2
  rw [SourceFile.resolveImport?, himports, List.reverse_append, List.reverse_cons,
    List.append_assoc, List.find?_append, hlater]
  simp [hstatic, hwildcard, simpleName_eq hpath, hpath]

theorem SeesImport.resolve_eq (h : s.SeesImport t) :
    s.resolve t.typePath = s.foreignName t.typePath t.dotted := by
  have hnames : ∀ n ∈ t.name :: t.inner, IsIdentifier n := fun n hn =>
    t.isIdentifier n (List.mem_append_right _ hn)
  have hsplit : splitHead t.typePath =
      (t.name, if t.inner.isEmpty then none else some (dottedText t.inner)) :=
    splitHead_dottedText hnames rfl
  have hqualified : s.qualify t.name (if t.inner.isEmpty then none else some (dottedText t.inner)) =
      t.dotted := by
    rw [qualify, h.resolveImport?_eq]
    cases hinner : t.inner with
    | nil =>
      simp [withRest, QualifiedType.dotted, QualifiedType.segments,
        QualifiedType.importPath, hinner]
    | cons n inner =>
      have happend : dottedText ((t.packages ++ [t.name]) ++ n :: inner) = _ :=
        dottedText_append (by simp) (by simp)
      rw [QualifiedType.dotted, QualifiedType.segments, hinner]
      simpa [withRest, QualifiedType.importPath] using happend.symm
  rw [resolve, if_neg (by simpa using h.not_generic), hsplit]
  simp only [localType?_eq_none h.not_local, hqualified]

theorem foreignName_of_isApi (h : t.InPackages s.apiPackages) (name : String) :
    s.foreignName name t.dotted =
      t.importFrom (ModulePath.relative s.outputPath t.declarationPath) := by
  rw [foreignName, if_pos (isApi_dotted t |>.2 h), importOf?_dotted]

/-- Outside the API packages a dotted name stays a dotted name. -/
theorem foreignName_ne_importFrom (h : ¬ t.InPackages s.apiPackages) (module : String) :
    s.foreignName t.dotted t.dotted ≠ t.importFrom module := by
  have hparen : '(' ∈ (t.importFrom module).toList := by
    have hopen : '(' ∈ "import(\"".toList := by decide
    unfold QualifiedType.importFrom
    simp only [String.toList_append, List.mem_append]
    exact .inl (.inl (.inl hopen))
  have hdotted : '(' ∉ t.dotted.toList := fun hc =>
    (mem_dottedText t.isIdentifier hc).elim (absurd · (by decide)) (absurd · (by decide))
  have hnot : ¬ s.isApi t.dotted = true := fun hapi => h ((isApi_dotted t).1 hapi)
  intro heq
  rw [← heq, foreignName, if_neg hnot] at hparen
  simp only at hparen
  split at hparen
  · rw [String.toList_append, List.mem_append] at hparen
    exact hparen.elim (absurd · (by decide)) hdotted
  · exact hdotted hparen

theorem SeesPackages.convert_eq (h : s.SeesPackages t) :
    s.convert t.dotted = s.foreignName t.dotted t.dotted := by
  have hlength : 1 < t.segments.length := by
    have hpackages := List.length_pos_iff.2 t.packages_ne_nil
    simp only [QualifiedType.segments, List.length_append, List.length_cons]
    omega
  have hname : s.convert t.dotted = s.nameType t.dotted :=
    convert_dottedText t.isIdentifier_of_mem_segments s t.segments_ne_nil
  have hprimitive : primitive? t.dotted = none := primitive?_dottedText hlength
  rw [hname, nameType, hprimitive, Option.getD_none, h.resolve_eq]

theorem SeesImport.convert_eq (h : s.SeesImport t) :
    s.convert t.typePath = s.foreignName t.typePath t.dotted := by
  have hname : s.convert t.typePath = s.nameType t.typePath :=
    convert_dottedText (fun n hn => t.isIdentifier n (List.mem_append_right _ hn)) s (by simp)
  have hprimitive : primitive? t.typePath = none := by
    cases hinner : t.inner with
    | nil =>
      rw [QualifiedType.typePath, hinner, dottedText, String.intercalate_singleton]
      exact h.not_primitive
    | cons n inner => exact primitive?_dottedText (by simp [hinner])
  rw [hname, nameType, hprimitive, Option.getD_none, h.resolve_eq]

/-- The file that a module path leads to from the directory of another. -/
def fileOfModule? (origin module : String) : Option String :=
  (ModulePath.resolve origin module).map fun segments =>
    String.ofList (['/'].intercalate segments) ++ ".d.ts"

theorem fileOfModule?_relative {origin : String}
    (horigin : ∀ p ∈ origin.toList.splitOn '/', p ≠ ModulePath.up) (t : QualifiedType) :
    fileOfModule? origin (ModulePath.relative origin t.declarationPath) =
      some (ModulePath.ofSource t.sourcePath) := by
  have hsegments := t.segments_declarationPath
  have hresolve : ModulePath.resolve origin (ModulePath.relative origin t.declarationPath) =
      some (t.fileSegments.map String.toList) := by
    rw [← hsegments]
    refine ModulePath.resolve_relative (fun hup => horigin _ (List.mem_filter.1 hup).1 rfl) ?_ ?_
    · rw [hsegments]
      simpa using t.fileSegments_ne_nil
    · intro p hp
      rw [hsegments] at hp
      obtain ⟨n, hn, rfl⟩ := List.mem_map.1 hp
      exact (t.isIdentifier_of_mem_fileSegments hn).isPlainStep
  have hjoin : String.ofList (['/'].intercalate (t.fileSegments.map String.toList)) =
      String.intercalate "/" t.fileSegments := by
    have hslash : "/".toList = ['/'] := by decide
    rw [← String.toList_inj, String.toList_ofList, String.toList_intercalate, hslash]
  rw [fileOfModule?, hresolve, Option.map_some, hjoin, t.ofSource_sourcePath]
  rfl

/-- References across files. Where its packages can be named, a qualified type becomes an import
exactly when it lies in an API package. The module of that import leads from the directory of the
declaration file being written to the declaration file of the Java file of the type. Where the type
is imported, its name without the packages becomes the same import. -/
theorem convert_qualified (s : Scope) (t : QualifiedType)
    (houtput : ∀ p ∈ s.outputPath.toList.splitOn '/', p ≠ ModulePath.up) :
    (s.SeesPackages t →
      ((∃ module, s.convert t.dotted = t.importFrom module) ↔ t.InPackages s.apiPackages)) ∧
    (t.InPackages s.apiPackages → ∃ module,
      fileOfModule? s.outputPath module = some (ModulePath.ofSource t.sourcePath) ∧
      (s.SeesPackages t → s.convert t.dotted = t.importFrom module) ∧
      (s.SeesImport t → s.convert t.typePath = t.importFrom module)) := by
  refine ⟨fun hsees => ⟨fun ⟨module, hmodule⟩ => ?_, fun hapi => ?_⟩, fun hapi => ?_⟩
  · refine Classical.byContradiction fun hnot => ?_
    exact foreignName_ne_importFrom hnot module (hsees.convert_eq.symm.trans hmodule)
  · exact ⟨_, hsees.convert_eq.trans (foreignName_of_isApi hapi _)⟩
  · exact ⟨_, fileOfModule?_relative houtput t,
      fun hsees => hsees.convert_eq.trans (foreignName_of_isApi hapi _),
      fun hsees => hsees.convert_eq.trans (foreignName_of_isApi hapi _)⟩

/-- A type inside a type of another package. -/
def toolPart : QualifiedType where
  packages := ["com", "example", "util"]
  name := "Tool"
  inner := ["Part"]
  packages_ne_nil := by decide
  isIdentifier := by decide
  packages_not_upper := by decide
  first_lower := by decide
  name_upper := by decide

/-- A file that imports two types of the name and declares one of another name. -/
def toolScope : Scope :=
  { file := { package := "com.example.app"
              imports := [{ path := "org.other.Tool" }, { path := "com.example.util.Tool" },
                { path := "com.example.util.Tool", isStatic := true }] }
    outputPath := "com/example/app/Main.d.ts", apiPackages := ["org.", "com.example.."]
    localTypes := [("Main", "Main")], generics := ["T"] }

theorem convert_qualified_toolPart :
    (∀ p ∈ toolScope.outputPath.toList.splitOn '/', p ≠ ModulePath.up) ∧
    toolScope.SeesPackages toolPart ∧ toolScope.SeesImport toolPart ∧
    toolPart.InPackages toolScope.apiPackages ∧
    ∃ module, fileOfModule? "com/example/app/Main.d.ts" module = some "com/example/util/Tool.d.ts" ∧
      toolScope.convert "com.example.util.Tool.Part" = toolPart.importFrom module ∧
      toolScope.convert "Tool.Part" = toolPart.importFrom module := by
  have houtput : ∀ p ∈ toolScope.outputPath.toList.splitOn '/', p ≠ ModulePath.up := by decide
  have hpackages : toolScope.SeesPackages toolPart :=
    { not_local := by decide, not_imported := by decide, not_generic := by decide }
  have himport : toolScope.SeesImport toolPart :=
    { not_local := by decide
      imported := ⟨[{ path := "org.other.Tool" }], { path := "com.example.util.Tool" },
        [{ path := "com.example.util.Tool", isStatic := true }], rfl, rfl, rfl, by decide,
        by decide⟩
      not_generic := by decide
      not_primitive := by decide }
  have hapi : toolPart.InPackages toolScope.apiPackages :=
    ⟨"com.example..", by decide, by decide, by decide, by decide⟩
  obtain ⟨module, hfile, hdotted, htypePath⟩ :=
    (convert_qualified toolScope toolPart houtput).2 hapi
  have htarget : ModulePath.ofSource toolPart.sourcePath = "com/example/util/Tool.d.ts" := by decide
  exact ⟨houtput, hpackages, himport, hapi, module, htarget ▸ hfile, hdotted hpackages,
    htypePath himport⟩

end Scope

end Typings
