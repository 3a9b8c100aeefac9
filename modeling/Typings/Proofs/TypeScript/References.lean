import Typings.Proofs.Text.Splitting
import Typings.Proofs.TypeScript.Reading
import Typings.TypeExpr.Convert

/-!
# What names become

In a file whose package, imports and types have dotted names, every dotted name becomes a dotted
name or an import, so that it reads as one reference whatever stands around it.
-/

namespace Typings

open TsType (isNameChar IsWord IsReference)

/-- A text in which all characters belong to dotted names. -/
def IsPlain (s : String) : Prop := ∀ c ∈ s.toList, isNameChar c = true

instance (s : String) : Decidable (IsPlain s) := inferInstanceAs (Decidable (∀ c ∈ s.toList, _))

/-- A scope in which the package, the imports and the types of the file have dotted names. -/
structure Scope.HasDottedNames (s : Scope) : Prop where
  package : IsPlain s.file.package
  imports : ∀ i ∈ s.file.imports, IsPlain i.path
  locals : ∀ entry ∈ s.localTypes, IsWord entry.2.toList

-- ---------------------------------------------------------------------------
-- Module paths
-- ---------------------------------------------------------------------------

namespace ModulePath

theorem mem_of_mem_segments {path p : Text} (hp : p ∈ segments path) {c : Char} (hc : c ∈ p) :
    c ∈ path :=
  Text.mem_of_mem_splitOn (List.mem_filter.1 hp).1 hc

theorem mem_of_mem_withoutExtension {path : Text} {c : Char} (hc : c ∈ withoutExtension path) :
    c ∈ path := by
  unfold withoutExtension at hc
  cases h : Text.beforeSuffix? extension.toList path with
  | none => rwa [h] at hc
  | some s =>
    rw [h] at hc
    rw [Text.beforeSuffix?_eq_some_iff.1 h]
    exact List.mem_append_left _ hc

theorem mem_join_steps {n : Nat} {c : Char}
    (hc : c ∈ (String.join (List.replicate n "../")).toList) :
    c = '.' ∨ c = '/' := by
  rw [String.toList_join, List.mem_flatMap] at hc
  obtain ⟨step, hstep, hc⟩ := hc
  obtain ⟨-, rfl⟩ := List.mem_replicate.1 hstep
  have : ∀ d ∈ "../".toList, d = '.' ∨ d = '/' := by decide
  exact this c hc

/-- A module path holds characters of its target, dots and slashes only. -/
theorem mem_relative {origin target : String} {c : Char}
    (hc : c ∈ (relative origin target).toList) : c ∈ target.toList ∨ c = '.' ∨ c = '/' := by
  simp only [relative, String.toList_append, List.mem_append, String.toList_intercalate] at hc
  rcases hc with hc | hc
  · split at hc
    · have : ∀ d ∈ "./".toList, d = '.' ∨ d = '/' := by decide
      exact .inr (this c hc)
    · exact .inr (mem_join_steps hc)
  · rcases Text.mem_intercalate hc with ⟨p, hp, hcp⟩ | hslash
    · simp only [List.map_map, List.mem_map, Function.comp_apply] at hp
      obtain ⟨q, hq, rfl⟩ := hp
      rw [String.toList_ofList] at hcp
      exact .inl (mem_of_mem_withoutExtension
        (mem_of_mem_segments (List.mem_of_mem_drop hq) hcp))
    · have : ∀ d ∈ "/".toList, d = '.' ∨ d = '/' := by decide
      exact .inr (this c hslash)

theorem mem_ofDotted {dotted : String} {c : Char} (hc : c ∈ (ofDotted dotted).toList) :
    c ∈ dotted.toList ∨ c = '/' ∨ c ∈ extension.toList := by
  simp only [ofDotted, String.toList_append, String.toList_ofList, List.mem_append,
    List.mem_map] at hc
  rcases hc with ⟨d, hd, rfl⟩ | hc
  · split
    · exact .inr (.inl rfl)
    · exact .inl hd
  · exact .inr (.inr hc)

end ModulePath

-- ---------------------------------------------------------------------------
-- Characters of names
-- ---------------------------------------------------------------------------

/-- A text of which every character has a property. -/
def AllChars (P : Char → Prop) (s : String) : Prop := ∀ c ∈ s.toList, P c

section Characters

variable {P : Char → Prop} {s : Scope}

theorem AllChars.append {s t : String} (hs : AllChars P s) (ht : AllChars P t) :
    AllChars P (s ++ t) := by
  intro c hc
  rw [String.toList_append, List.mem_append] at hc
  exact hc.elim (hs c) (ht c)

theorem allChars_ofList {s : Text} (h : ∀ c ∈ s, P c) : AllChars P (String.ofList s) := by
  unfold AllChars
  rwa [String.toList_ofList]

theorem allChars_intercalate {sep : String} {pieces : List String} (hsep : AllChars P sep)
    (h : ∀ p ∈ pieces, AllChars P p) : AllChars P (String.intercalate sep pieces) := by
  intro c hc
  rw [String.toList_intercalate] at hc
  rcases Text.mem_intercalate hc with ⟨p, hp, hcp⟩ | hcsep
  · obtain ⟨q, hq, rfl⟩ := List.mem_map.1 hp
    exact h q hq c hcp
  · exact hsep c hcsep

theorem allChars_withRest (hdot : P '.') {path : String} {rest : Option String}
    (hpath : AllChars P path) (hrest : ∀ r ∈ rest, AllChars P r) :
    AllChars P (withRest path rest) := by
  have hsep : AllChars P "." := by simpa [AllChars] using hdot
  cases rest with
  | none => exact hpath
  | some r => exact (hpath.append hsep).append (hrest r rfl)

theorem allChars_splitHead {name : String} (h : AllChars P name) :
    AllChars P (splitHead name).1 ∧ ∀ r ∈ (splitHead name).2, AllChars P r := by
  unfold splitHead
  split
  · rename_i head rest hsplit
    have hname := Text.eq_append_of_splitFirst? hsplit
    refine ⟨allChars_ofList fun c hc => h c ?_, fun r hr => ?_⟩
    · rw [hname]
      exact List.mem_append_left _ hc
    · obtain rfl : String.ofList rest = r := by simpa using hr
      refine allChars_ofList fun c hc => h c ?_
      rw [hname]
      exact List.mem_append_right _ (List.mem_cons_of_mem _ hc)
  · exact ⟨h, by simp⟩

theorem Scope.allChars_qualify (hfixed : AllChars P "java.lang.")
    (hpackage : AllChars P s.file.package) (himports : ∀ i ∈ s.file.imports, AllChars P i.path)
    {head : String} (hhead : AllChars P head) {rest : Option String}
    (hrest : ∀ r ∈ rest, AllChars P r) : AllChars P (s.qualify head rest) := by
  have hdot : P '.' := hfixed '.' (by decide)
  unfold qualify
  split
  · rename_i path hpath
    unfold SourceFile.resolveImport? at hpath
    obtain ⟨i, hi, rfl⟩ := Option.map_eq_some_iff.1 hpath
    have hmem : i ∈ s.file.imports := by simpa using List.mem_of_find?_eq_some hi
    exact allChars_withRest hdot (himports i hmem) hrest
  · split
    · exact allChars_withRest hdot hhead hrest
    · split
      · exact hfixed.append hhead
      · refine allChars_withRest hdot ?_ hrest
        unfold SourceFile.qualify
        split
        · exact hhead
        · exact (hpackage.append (by simpa [AllChars] using hdot)).append hhead

/-- An import is written with the segments of a path and, in the module path, slashes. -/
theorem Scope.exists_of_importOf? {path reference : String}
    (hfixed : AllChars P ModulePath.extension) (hpath : AllChars P path)
    (h : s.importOf? path = some reference) :
    ∃ module types, reference = "import(\"" ++ module ++ "\")." ++ types ∧
      AllChars (fun c => P c ∨ c = '/') module ∧ AllChars P types := by
  have hsep : AllChars P "." := by
    simpa [AllChars] using hfixed '.' (by decide)
  have hpart : ∀ p ∈ path.toList.splitOn '.', AllChars P (String.ofList p) := fun p hp =>
    allChars_ofList fun c hc => hpath c (Text.mem_of_mem_splitOn hp hc)
  unfold importOf? at h
  simp only at h
  split at h
  · simp at h
  · rename_i type types htypes
    obtain rfl := Option.some.inj h
    have hnames : ∀ t ∈ type :: types, AllChars P t := by
      intro t ht
      rw [← htypes] at ht
      obtain ⟨p, hp, rfl⟩ := List.mem_map.1 ht
      exact hpart p ((List.dropWhile_sublist _).mem hp)
    refine ⟨_, _, rfl, fun c hc => ?_, allChars_intercalate hsep (by rwa [htypes])⟩
    -- What is not a slash or a dot is in the path of the target, and so in the path or the ending.
    rcases ModulePath.mem_relative hc with htarget | rfl | rfl
    · rcases ModulePath.mem_ofDotted htarget with hc | rfl | hc
      · refine .inl (allChars_intercalate hsep (fun t ht => ?_) c hc)
        rcases List.mem_append.1 ht with ht | ht
        · obtain ⟨p, hp, rfl⟩ := List.mem_map.1 ht
          exact hpart p ((List.takeWhile_sublist _).mem hp)
        · exact hnames t (List.mem_cons.2 (.inl (by simpa using ht)))
      · exact .inr rfl
      · exact .inl (hfixed c hc)
    · exact .inl (hfixed '.' (by decide))
    · exact .inr rfl

end Characters

-- ---------------------------------------------------------------------------
-- Resolution
-- ---------------------------------------------------------------------------

/-- The text of an import, taken apart. -/
theorem toList_import (module path : String) :
    ("import(\"" ++ module ++ "\")." ++ path).toList =
      TsType.importText module.toList ('.' :: path.toList) := by
  have hopen : "import(\"".toList = TsType.importWord ++ ['(', '"'] := by decide
  have hclose : "\").".toList = ['"', ')', '.'] := by decide
  simp only [String.toList_append, hopen, hclose, TsType.importText]
  simp

namespace Scope

variable {s : Scope}

/-- An import is written as one reference. -/
theorem isReference_importOf? {path reference : String} (hpath : IsPlain path)
    (h : s.importOf? path = some reference) : IsReference reference.toList := by
  have hfixed : IsPlain ModulePath.extension := by decide
  obtain ⟨module, types, rfl, hmodule, htypes⟩ := exists_of_importOf? hfixed hpath h
  rw [toList_import]
  refine .imported (fun hquote => ?_) ⟨by simp, List.forall_mem_cons.2 ⟨by decide, htypes⟩⟩
  rcases hmodule '"' hquote with hname | hslash
  · exact absurd hname (by decide)
  · simp at hslash

/-- A dotted name becomes one reference. -/
theorem isReference_resolve (hs : s.HasDottedNames) {name : String} (hname : IsWord name.toList) :
    IsReference (s.resolve name).toList := by
  have hplain : IsPlain name := hname.name_chars
  obtain ⟨hhead, hrest⟩ := allChars_splitHead hplain
  unfold resolve
  split
  · exact .word hname
  · simp only
    split
    · rename_i path hpath
      unfold localType? at hpath
      obtain ⟨entry, hentry, rfl⟩ := Option.map_eq_some_iff.1 hpath
      have hword := hs.locals entry (List.mem_of_find?_eq_some hentry)
      refine .word ⟨?_, allChars_withRest (by decide) hword.name_chars hrest⟩
      cases (splitHead name).2 with
      | none => exact hword.ne_nil
      | some r => simp [withRest, hword.ne_nil]
    · have hfixed : IsPlain "java.lang." := by decide
      have hqualified := allChars_qualify hfixed hs.package hs.imports hhead hrest
      unfold foreignName
      split
      · rename_i reference href
        split at href
        · exact isReference_importOf? hqualified href
        · simp at href
      · split
        · have hjava : IsPlain "Java." := by decide
          exact .word ⟨by simp, AllChars.append hjava hqualified⟩
        · exact .word hname

/-- What stands for a name is one reference. -/
theorem isReference_nameType (hs : s.HasDottedNames) {name : String} (hname : IsWord name.toList) :
    IsReference (s.nameType name).toList := by
  unfold nameType
  cases h : primitive? name with
  | none => exact isReference_resolve hs hname
  | some p =>
    have hp : p ∈ ["number", "boolean", "string", "any", "void"] := by
      unfold primitive? at h
      split at h
      · simp_all
      · split at h
        · simp_all
        · split at h
          · simp_all
          · split at h
            · simp_all
            · split at h
              · simp_all
              · simp at h
    have hwords : ∀ q ∈ ["number", "boolean", "string", "any", "void"],
        q.toList ≠ [] ∧ IsPlain q := by decide
    exact .word ⟨(hwords p hp).1, (hwords p hp).2⟩

end Scope

end Typings
