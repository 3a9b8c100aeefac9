import Typings.Output.DeclarationFile
import Typings.Proofs.TypeScript.References

/-!
# Converted types stay on one line

A declaration file is read line by line, so no part of a line may hold a line break. What is written
for a Java type is put together from the text of the type, the names that the scope knows and fixed
texts: in a scope whose names hold no line break, a text without one is converted to a text without
one.
-/

namespace Typings

/-- A text without a line break. -/
def OneLine (s : String) : Prop := '\n' ∉ s.toList

instance (s : String) : Decidable (OneLine s) := inferInstanceAs (Decidable ('\n' ∉ s.toList))

theorem oneLine_iff {s : String} : OneLine s ↔ AllChars (· ≠ '\n') s :=
  ⟨fun h _ hc heq => h (heq ▸ hc), fun h hc => h _ hc rfl⟩

theorem OneLine.append {s t : String} (hs : OneLine s) (ht : OneLine t) : OneLine (s ++ t) :=
  oneLine_iff.2 ((oneLine_iff.1 hs).append (oneLine_iff.1 ht))

theorem oneLine_ofList {s : Text} (h : '\n' ∉ s) : OneLine (String.ofList s) := by
  unfold OneLine
  rwa [String.toList_ofList]

theorem oneLine_intercalate {sep : String} {pieces : List String} (hsep : OneLine sep)
    (h : ∀ p ∈ pieces, OneLine p) : OneLine (String.intercalate sep pieces) := by
  simp only [oneLine_iff] at hsep h ⊢
  exact allChars_intercalate hsep h

theorem oneLine_withRest {path : String} {rest : Option String} (hpath : OneLine path)
    (hrest : ∀ r ∈ rest, OneLine r) : OneLine (withRest path rest) := by
  simp only [oneLine_iff] at hpath hrest ⊢
  exact allChars_withRest (by decide) hpath hrest

-- ---------------------------------------------------------------------------
-- Names
-- ---------------------------------------------------------------------------

/-- A scope whose names hold no line break. -/
structure Scope.IsOneLine (s : Scope) : Prop where
  package : OneLine s.file.package
  imports : ∀ i ∈ s.file.imports, OneLine i.path
  locals : ∀ entry ∈ s.localTypes, OneLine entry.2

theorem oneLine_splitHead {name : String} (h : OneLine name) :
    OneLine (splitHead name).1 ∧ ∀ r ∈ (splitHead name).2, OneLine r := by
  simp only [oneLine_iff] at h ⊢
  exact allChars_splitHead h

namespace Scope

variable {s : Scope}

theorem IsOneLine.withGenerics (hs : s.IsOneLine) (names : List String) :
    (s.withGenerics names).IsOneLine := ⟨hs.package, hs.imports, hs.locals⟩

theorem oneLine_qualify (hs : s.IsOneLine) {head : String} (hhead : OneLine head)
    {rest : Option String} (hrest : ∀ r ∈ rest, OneLine r) : OneLine (s.qualify head rest) := by
  have hfixed : OneLine "java.lang." := by decide
  obtain ⟨hpackage, himports, -⟩ := hs
  simp only [oneLine_iff] at hfixed hpackage himports hhead hrest ⊢
  exact allChars_qualify hfixed hpackage himports hhead hrest

/-- An import is written with the segments of a path, slashes and dots. -/
theorem oneLine_importOf? {path reference : String} (hpath : OneLine path)
    (h : s.importOf? path = some reference) : OneLine reference := by
  have hfixed : OneLine ModulePath.extension := by decide
  obtain ⟨module, types, rfl, hmodule, htypes⟩ :=
    exists_of_importOf? (oneLine_iff.1 hfixed) (oneLine_iff.1 hpath) h
  refine ((OneLine.append (by decide) fun hc => ?_).append (by decide)).append
    (oneLine_iff.2 htypes)
  rcases hmodule '\n' hc with hname | hslash
  · exact hname rfl
  · simp at hslash

theorem oneLine_resolve (hs : s.IsOneLine) {name : String} (hname : OneLine name) :
    OneLine (s.resolve name) := by
  obtain ⟨hhead, hrest⟩ := oneLine_splitHead hname
  unfold resolve
  split
  · exact hname
  · simp only
    split
    · rename_i path hpath
      obtain ⟨entry, hentry, rfl⟩ := Option.map_eq_some_iff.1 hpath
      exact oneLine_withRest (hs.locals entry (List.mem_of_find?_eq_some hentry)) hrest
    · have hqualified := oneLine_qualify hs hhead hrest
      unfold foreignName
      split
      · rename_i reference href
        split at href
        · exact oneLine_importOf? hqualified href
        · simp at href
      · split
        · exact OneLine.append (by decide) hqualified
        · exact hname

end Scope

-- ---------------------------------------------------------------------------
-- Types
-- ---------------------------------------------------------------------------

namespace TypeExpr

/-- A type expression whose names hold no line break. -/
inductive IsOneLine : TypeExpr → Prop where
  | anything : IsOneLine .anything
  | name {text : String} (h : OneLine text) : IsOneLine (.name text)
  | bounded {bound : TypeExpr} (h : IsOneLine bound) : IsOneLine (.bounded bound)
  | array {element : TypeExpr} (h : IsOneLine element) : IsOneLine (.array element)
  | generic {base : String} {arguments : List TypeExpr} (hbase : OneLine base)
      (harguments : ∀ a ∈ arguments, IsOneLine a) : IsOneLine (.generic base arguments)

theorem mem_of_boundText? {s bound : Text} (h : boundText? s = some bound) {c : Char}
    (hc : c ∈ bound) : c ∈ s := by
  unfold boundText? at h
  split at h
  · rename_i t ht
    obtain rfl := Option.some.inj h
    rw [Text.afterPrefix?_eq_some_iff.1 ht]
    exact List.mem_append_right _ hc
  · rw [Text.afterPrefix?_eq_some_iff.1 h]
    exact List.mem_append_right _ hc

theorem mem_of_elementText? {s element : Text} (h : elementText? s = some element) {c : Char}
    (hc : c ∈ element) : c ∈ s := by
  unfold elementText? at h
  split at h
  · rename_i t ht
    obtain rfl := Option.some.inj h
    rw [Text.beforeSuffix?_eq_some_iff.1 ht]
    exact List.mem_append_left _ hc
  · rw [Text.beforeSuffix?_eq_some_iff.1 h]
    exact List.mem_append_left _ hc

theorem mem_of_genericText? {s base : Text} {arguments : List Text}
    (h : genericText? s = some (base, arguments)) {c : Char}
    (hc : c ∈ base ∨ ∃ a ∈ arguments, c ∈ a) : c ∈ s := by
  unfold genericText? at h
  split at h
  · simp at h
  · rename_i opened hopened
    rw [Text.beforeSuffix?_eq_some_iff.1 hopened]
    refine List.mem_append_left _ ?_
    split at h
    · rename_i before inside hsplit
      obtain ⟨rfl, rfl⟩ := Prod.mk.inj (Option.some.inj h)
      rw [Text.eq_append_of_splitFirst? hsplit]
      rcases hc with hc | ⟨a, ha, hc⟩
      · exact List.mem_append_left _ (Text.mem_of_mem_trim hc)
      · exact List.mem_append_right _
          (List.mem_cons_of_mem _ ((Text.sublist_of_mem_splitTopLevel ha).subset hc))
    · simp at h

/-- Every name in a type expression is a part of its text. -/
theorem isOneLine_read (fuel : Nat) {s : Text} (h : '\n' ∉ s) : (read fuel s).IsOneLine := by
  induction fuel generalizing s with
  | zero => exact .anything
  | succ fuel ih =>
    have htrim : '\n' ∉ Text.trim s := fun hc => h (Text.mem_of_mem_trim hc)
    simp only [read]
    split
    · exact .anything
    · split
      · rename_i bound hbound
        exact .bounded (ih fun hc => htrim (mem_of_boundText? hbound hc))
      · split
        · rename_i element helement
          exact .array (ih fun hc => htrim (mem_of_elementText? helement hc))
        · split
          · rename_i base arguments hgeneric
            refine .generic (oneLine_ofList fun hc =>
              htrim (mem_of_genericText? hgeneric (.inl hc))) fun a ha => ?_
            obtain ⟨t, ht, rfl⟩ := List.mem_map.1 ha
            exact ih fun hc => htrim (mem_of_genericText? hgeneric (.inr ⟨t, ht, hc⟩))
          · exact .name (oneLine_ofList htrim)

end TypeExpr

theorem oneLine_arrayOf {element : String} (h : OneLine element) : OneLine (arrayOf element) := by
  unfold arrayOf
  split
  · exact (OneLine.append (by decide) h).append (by decide)
  · exact h.append (by decide)

theorem oneLine_primitive? {name type : String} (h : primitive? name = some type) :
    OneLine type := by
  have hall : ∀ t ∈ ["number", "boolean", "string", "any", "void"], OneLine t := by decide
  refine hall type ?_
  unfold primitive? at h
  grind

/-- A well-known type is written with its arguments between fixed texts. -/
theorem oneLine_render (w : WellKnown) {arguments : List String}
    (h : ∀ a ∈ arguments, OneLine a) : OneLine (w.render arguments) := by
  have hfirst : OneLine (arguments.headD "any") := by
    cases arguments with
    | nil => decide
    | cons a as => exact h a List.mem_cons_self
  cases w with
  | collection => exact oneLine_arrayOf hfirst
  | map =>
    unfold WellKnown.render
    simp only
    split
    · rename_i key value
      exact (((OneLine.append (by decide) (h key (by simp))).append (by decide)).append
        (h value (by simp))).append (by decide)
    · decide
  | optional => exact hfirst.append (by decide)
  | consumer => exact (OneLine.append (by decide) hfirst).append (by decide)
  | supplier => exact OneLine.append (by decide) hfirst
  | predicate => exact (OneLine.append (by decide) hfirst).append (by decide)
  | function =>
    unfold WellKnown.render
    simp only
    split
    · rename_i a b
      exact ((OneLine.append (by decide) (h a (by simp))).append (by decide)).append
        (h b (by simp))
    · decide
  | biConsumer =>
    unfold WellKnown.render
    simp only
    split
    · rename_i a b
      exact (((OneLine.append (by decide) (h a (by simp))).append (by decide)).append
        (h b (by simp))).append (by decide)
    · decide
  | biFunction =>
    unfold WellKnown.render
    simp only
    split
    · rename_i a b c
      exact ((((OneLine.append (by decide) (h a (by simp))).append (by decide)).append
        (h b (by simp))).append (by decide)).append (h c (by simp))
    · decide

namespace Scope

variable {s : Scope}

theorem oneLine_genericType (hs : s.IsOneLine) {base : String} (hbase : OneLine base)
    {arguments : List String} (h : ∀ a ∈ arguments, OneLine a) :
    OneLine (s.genericType base arguments) := by
  unfold genericType
  split
  · exact oneLine_render _ h
  · simp only
    split
    · exact oneLine_resolve hs hbase
    · exact (((oneLine_resolve hs hbase).append (by decide)).append
        (oneLine_intercalate (by decide) h)).append (by decide)

theorem oneLine_typeOf (hs : s.IsOneLine) {t : TypeExpr} (h : t.IsOneLine) :
    OneLine (s.typeOf t) := by
  induction h with
  | anything =>
    have hany : OneLine "any" := by decide
    exact hany
  | @name text h =>
    show OneLine ((primitive? text).getD (s.resolve text))
    cases hprimitive : primitive? text with
    | none => exact oneLine_resolve hs h
    | some type => exact oneLine_primitive? hprimitive
  | bounded h ih =>
    rw [typeOf]
    exact ih
  | array h ih =>
    rw [typeOf]
    exact oneLine_arrayOf ih
  | generic hbase harguments ih =>
    rw [typeOf, typesOf_eq_map]
    refine oneLine_genericType hs hbase fun a ha => ?_
    obtain ⟨t, ht, rfl⟩ := List.mem_map.1 ha
    exact ih t ht

/-- A type without a line break is converted to a type without one. -/
theorem oneLine_convert (hs : s.IsOneLine) {text : String} (h : OneLine text) :
    OneLine (s.convert text) :=
  oneLine_typeOf hs (TypeExpr.isOneLine_read _ h)

end Scope

end Typings
