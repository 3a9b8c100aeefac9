import Typings.Proofs.Source.ParameterParts

/-!
# Reading printed parameters

A printed parameter is read back, and so is a list of them: the last space outside angle brackets
stands before the name, and nothing in it is an annotation or the word `final`. Main statement:
`parameters_print`.
-/

namespace Typings.Source

open Declaration

/-- A compact text without annotations and the word `final` keeps all its words. -/
theorem parameterWords_eq {s : Text} (hshape : TypeShape Text.Tight s)
    (hcompact : Text.IsCompact s) :
    parameterWords s = s := by
  have hat : ∀ c ∈ s, c ≠ '@' := by
    rintro c hc rfl
    exact absurd (hshape.chars _ hc) (by decide)
  rw [parameterWords_eq_normalizeSpaces hat fun hw =>
    hshape.avoids _ (by decide) (Text.hasWord_of_mem_words hw)]
  exact hcompact.normalizeSpaces_eq

theorem isSimpleName_of_isName {n : Text} (hn : isName n = true) : IsSimpleName n where
  ne_nil := ne_nil_of_isName hn
  chars c hc := forall_isPlainChar (P := fun c => isSegmentChar c = true ∧ c ≠ '@') (by decide)
    (isPlainChar_of_isName hn c hc)
  ne_final := by
    rintro rfl
    exact absurd hn (by decide)
  ne_this := by
    rintro rfl
    exact absurd hn (by decide)

/-- What stands before the name of a printed parameter. -/
structure IsLead (s : Text) : Prop where
  shape : TypeShape Text.Tight s
  closed : Text.Closed ',' s
  head : ∀ c ∈ s.head?, isFirstChar c = true
  last : ∀ c ∈ s.getLast?, isLastChar c = true ∨ c = '.'
  ne_nil : s ≠ []

theorem IsTypeText.isLead {s : Text} (h : IsTypeText s) : IsLead s := by
  have hentry := h.entry
  obtain ⟨c, cs, hcs, _⟩ := hentry.head
  refine ⟨hentry.toTypeShape.imp fun _ _ h => h.1, ?_, hentry.isFirstChar_of_mem,
    fun c hc => .inl (hentry.isLastChar_of_mem c hc), by simp [hcs]⟩
  obtain ⟨t, _, rfl⟩ := h
  exact t.closed_text

/-- A type before the dots of a parameter with any number of arguments. -/
theorem isLead_dots {s : Text} (h : IsTypeText s) : IsLead (s ++ "...".toList) := by
  have hlead := IsTypeText.isLead h
  obtain ⟨c, cs, hcs, _⟩ := h.entry.head
  have hdots : TypeShape Text.Tight "...".toList :=
    .of_breaks (by decide) (by decide) (by decide) (by decide)
  refine ⟨hlead.shape.append hdots ?_ ?_, hlead.closed.append (by decide), ?_, ?_, by simp [hcs]⟩
  · exact avoids_append_cons (by decide) hlead.shape.avoids
      (avoids_cons (by decide) (avoids_cons (by decide) avoids_nil))
  · intro a ha b hb
    obtain rfl : '.' = b := by simpa using hb
    have hne : a ≠ ' ' := ne_of_isLastChar (h.entry.isLastChar_of_mem a ha) (by decide)
    simp [Text.Tight, hne]
  · intro d hd
    exact hlead.head d (by simpa [hcs] using hd)
  · intro d hd
    obtain rfl : '.' = d := by simpa [List.getLast?_append] using hd
    exact .inr rfl

namespace IsLead

variable {s n : Text}

theorem shape_append_name (h : IsLead s) (hn : isName n = true) :
    TypeShape Text.Tight (s ++ ' ' :: n) := by
  have hname := (isPath_of_isName hn).entry
  have hspace : TypeShape Text.Tight [' '] :=
    .of_breaks (by decide) (by decide) (by decide) (by decide)
  have htail : TypeShape Text.Tight (' ' :: n) := by
    refine hspace.append (hname.toTypeShape.imp fun _ _ h => h.1)
      (avoids_cons (by decide) hname.avoids) ?_
    intro a ha b hb
    obtain rfl : ' ' = a := by simpa using ha
    exact (follows_space (hname.isFirstChar_of_mem b hb)).1
  refine h.shape.append htail (avoids_append_cons (by decide) h.shape.avoids hname.avoids) ?_
  intro a ha b hb
  obtain rfl : ' ' = b := by simpa using hb
  rcases h.last a ha with ha | rfl
  · exact tight_space ha
  · decide

theorem trimmed_append_name (h : IsLead s) (hn : isName n = true) :
    Text.Trimmed (s ++ ' ' :: n) := by
  obtain ⟨c, cs, rfl⟩ := List.exists_cons_of_ne_nil h.ne_nil
  obtain ⟨ds, d, hds, hd⟩ := (isPath_of_isName hn).last
  refine ⟨⟨c, cs ++ ' ' :: n, rfl, ?_⟩, ⟨c :: cs ++ ' ' :: ds, d, by simp [hds], ?_⟩⟩
  · rcases Bool.or_eq_true_iff.mp (h.head c (by simp)) with hc | hc
    · exact isSpace_of_isPlainChar hc
    · obtain rfl : c = '?' := by simpa using hc
      decide
  · exact isSpace_of_isPlainChar hd

theorem isCompact_append_name (h : IsLead s) (hn : isName n = true) :
    Text.IsCompact (s ++ ' ' :: n) := by
  have htrimmed := h.trimmed_append_name hn
  refine (h.shape_append_name hn).isCompact ?_ ?_
  · obtain ⟨c, cs, hcs, hc⟩ := htrimmed.head
    rw [hcs]
    rintro d hd rfl
    obtain rfl : c = ' ' := by simpa using hd
    exact absurd hc (by decide)
  · obtain ⟨cs, c, hcs, hc⟩ := htrimmed.last
    rw [hcs]
    rintro d hd rfl
    obtain rfl : c = ' ' := by simpa using hd
    exact absurd hc (by decide)

theorem closed_append_name (h : IsLead s) (hn : isName n = true) :
    Text.Closed ',' (s ++ ' ' :: n) := by
  refine h.closed.append (Text.closed_of_forall fun c hc => ?_)
  rcases List.mem_cons.mp hc with rfl | hc
  · decide
  · exact forall_isPlainChar
      (P := fun c => Text.isOpening c = false ∧ Text.isClosing c = false ∧ c ≠ ',') (by decide)
      (isPlainChar_of_isName hn c hc)

theorem isCompact (h : IsLead s) : Text.IsCompact s := by
  refine h.shape.isCompact (fun c hc => ne_of_isFirstChar (h.head c hc) (by decide)) fun c hc => ?_
  rcases h.last c hc with hc | rfl
  · exact ne_of_isLastChar hc (by decide)
  · decide

/-- A parameter is read from its name and what stands before it. -/
theorem parameter?_append_name (h : IsLead s) (hn : isName n = true) :
    parameter? (s ++ ' ' :: n) =
      match Text.beforeSuffix? "...".toList s with
      | some element =>
        some { name := String.ofList n
               typeName := String.ofList (Text.trimEnd element ++ "[]".toList)
               isVarargs := true }
      | none => some { name := String.ofList n, typeName := String.ofList s } := by
  have hwords : parameterWords (s ++ ' ' :: n) =
      s ++ ' ' :: (attachedDots false ++ (n ++ pairs 0)) := by
    rw [parameterWords_eq (h.shape_append_name hn) (h.isCompact_append_name hn)]
    simp [attachedDots, pairs]
  have hcompact := h.isCompact.compact_eq
  have hdots : s ++ attachedDots false = s := by simp [attachedDots]
  have hpairs : pairs 0 = [] := rfl
  rw [parameter?_of_words hwords h.shape.balanced (by simpa [hcompact] using h.ne_nil)
    (isSimpleName_of_isName hn), hcompact, hdots, hpairs]
  cases Text.beforeSuffix? "...".toList s <;> simp only [List.append_nil]

end IsLead

/-- A printed parameter is read back. -/
theorem exists_lead_of_printable {p : Parameter} (hp : p.Printable) :
    ∃ lead, IsLead lead ∧ p.print = lead ++ ' ' :: p.name.toList ∧ parameter? p.print = some p := by
  obtain ⟨name, typeName, isVarargs⟩ := p
  have hname := hp.name
  cases isVarargs with
  | false =>
    have hlead := IsTypeText.isLead hp.type
    have hprint : Parameter.print ⟨name, typeName, false⟩ =
        typeName.toList ++ ' ' :: name.toList := by
      simp only [Parameter.print]
    have hdots : Text.beforeSuffix? "...".toList typeName.toList = none := by
      refine Option.eq_none_iff_forall_ne_some.mpr fun t ht => ?_
      rw [Text.beforeSuffix?_eq_some_iff] at ht
      have hlast := hp.type.entry.isLastChar_of_mem '.' (by simp [ht, List.getLast?_append])
      exact absurd hlast (by decide)
    refine ⟨_, hlead, hprint, ?_⟩
    rw [hprint, hlead.parameter?_append_name hname, hdots]
    simp
  | true =>
    obtain ⟨element, helement, htype⟩ := hp.varargs rfl
    have hlead := isLead_dots helement
    have hsuffix : Text.beforeSuffix? "[]".toList typeName.toList = some element :=
      Text.beforeSuffix?_eq_some_iff.mpr htype
    have hprint : Parameter.print ⟨name, typeName, true⟩ =
        element ++ "...".toList ++ ' ' :: name.toList := by
      simp only [Parameter.print, hsuffix]
    have hdots : Text.beforeSuffix? "...".toList (element ++ "...".toList) = some element :=
      Text.beforeSuffix?_eq_some_iff.mpr rfl
    have htrim : Text.trimEnd element = element := by
      obtain ⟨t, _, rfl⟩ := helement
      obtain ⟨cs, c, hcs, hc⟩ := t.trimmed_text.last
      simp [hcs, Text.trimEnd, hc]
    refine ⟨_, hlead, hprint, ?_⟩
    rw [hprint, hlead.parameter?_append_name hname, hdots]
    simp only [htrim, ← htype, String.ofList_toList]

/-- Printed parameters are read back. -/
theorem parameters_print {ps : List Parameter} (hps : ∀ p ∈ ps, p.Printable) :
    parameters ([',', ' '].intercalate (ps.map Parameter.print)) = ps := by
  have hpieces : ∀ s ∈ ps.map Parameter.print, Text.Trimmed s ∧ Text.Closed ',' s := by
    intro s hs
    obtain ⟨p, hp, rfl⟩ := List.mem_map.mp hs
    obtain ⟨lead, hlead, hprint, _⟩ := exists_lead_of_printable (hps p hp)
    rw [hprint]
    exact ⟨hlead.trimmed_append_name (hps p hp).name, hlead.closed_append_name (hps p hp).name⟩
  rw [parameters, Text.splitTopLevel_intercalate Text.isSeparator_comma hpieces, List.filterMap_map]
  refine (List.filterMap_congr fun p hp => ?_).trans List.filterMap_some
  obtain ⟨_, _, _, hread⟩ := exists_lead_of_printable (hps p hp)
  exact hread

/-- Printed parameters hold the characters of types only. -/
theorem isTypeChar_of_mem_parameters {ps : List Parameter} (hps : ∀ p ∈ ps, p.Printable) :
    ∀ c ∈ [',', ' '].intercalate (ps.map Parameter.print), isTypeChar c = true := by
  intro c hc
  rcases Text.mem_intercalate hc with ⟨s, hs, hc⟩ | hc
  · obtain ⟨p, hp, rfl⟩ := List.mem_map.mp hs
    obtain ⟨lead, hlead, hprint, _⟩ := exists_lead_of_printable (hps p hp)
    rw [hprint] at hc
    exact (hlead.shape_append_name (hps p hp).name).chars c hc
  · have : ∀ c ∈ [',', ' '], isTypeChar c = true := by decide
    exact this c hc

theorem avoids_parameters {ps : List Parameter} (hps : ∀ p ∈ ps, p.Printable) :
    Text.Avoids openingWords ([',', ' '].intercalate (ps.map Parameter.print)) := by
  refine avoids_intercalate (by simp) (by decide) fun s hs => ?_
  obtain ⟨p, hp, rfl⟩ := List.mem_map.mp hs
  obtain ⟨lead, hlead, hprint, _⟩ := exists_lead_of_printable (hps p hp)
  rw [hprint]
  exact (hlead.shape_append_name (hps p hp).name).avoids

end Typings.Source
