import Typings.Proofs.Text.Bytes
import Typings.Source.Extract

/-!
# Where a header ends

The rest of a type header is read up to a brace of the text, and the offset of that brace is the
one that the header reports. What follows the brace is not read.
-/

namespace Typings.Source

/-- Text in angle brackets is the front of what is read, whatever follows the brackets. -/
theorem eq_append_of_closeAngle? {depth : Nat} {s inside after : Text}
    (h : closeAngle? depth s = some (inside, after)) :
    s = inside ++ after ∧ ∀ other, closeAngle? depth (inside ++ other) = some (inside, other) := by
  fun_induction closeAngle? depth s generalizing inside with
  | case1 => simp at h
  | case2 depth cs ih =>
    obtain ⟨⟨text, rest⟩, htext, heq⟩ := Option.map_eq_some_iff.mp h
    obtain ⟨rfl, rfl⟩ := Prod.mk.inj heq
    obtain ⟨rfl, hother⟩ := ih htext
    exact ⟨rfl, fun other => by simp [closeAngle?, hother]⟩
  | case3 cs hne =>
    obtain ⟨rfl, rfl⟩ := Prod.mk.inj (Option.some.inj h)
    exact ⟨rfl, fun other => by simp [closeAngle?]⟩
  | case4 cs hne outer ih =>
    obtain ⟨⟨text, rest⟩, htext, heq⟩ := Option.map_eq_some_iff.mp h
    obtain ⟨rfl, rfl⟩ := Prod.mk.inj heq
    obtain ⟨rfl, hother⟩ := ih htext
    exact ⟨rfl, fun other => by simp [closeAngle?, hother]⟩
  | case5 depth c cs hopen hclose hstop => simp at h
  | case6 depth c cs hopen hclose hstop ih =>
    obtain ⟨⟨text, rest⟩, htext, heq⟩ := Option.map_eq_some_iff.mp h
    obtain ⟨rfl, rfl⟩ := Prod.mk.inj heq
    obtain ⟨rfl, hother⟩ := ih htext
    exact ⟨rfl, fun other => by
      simp only [List.cons_append, closeAngle?, if_neg hopen, if_neg hclose, if_neg hstop, hother,
        Option.map_some]⟩

/-- The text before a brace is the front of what is read, whatever follows the brace. -/
theorem exists_brace_of_beforeBrace? {depth : Nat} {s text : Text}
    (h : beforeBrace? depth s = some text) : (∃ rest, s = text ++ '{' :: rest) ∧
      ∀ other, beforeBrace? depth (text ++ '{' :: other) = some text := by
  fun_induction beforeBrace? depth s generalizing text with
  | case1 => simp at h
  | case2 depth cs ih =>
    obtain ⟨tail, htail, rfl⟩ := Option.map_eq_some_iff.mp h
    obtain ⟨⟨rest, rfl⟩, hother⟩ := ih htail
    exact ⟨⟨rest, rfl⟩, fun other => by simp [beforeBrace?, hother]⟩
  | case3 depth cs hne ih =>
    obtain ⟨tail, htail, rfl⟩ := Option.map_eq_some_iff.mp h
    obtain ⟨⟨rest, rfl⟩, hother⟩ := ih htail
    exact ⟨⟨rest, rfl⟩, fun other => by simp [beforeBrace?, hother]⟩
  | case4 depth c cs hopen hclose hbrace =>
    obtain rfl := Option.some.inj h
    simp only [Bool.and_eq_true, decide_eq_true_eq] at hbrace
    obtain ⟨rfl, rfl⟩ := hbrace
    exact ⟨⟨cs, rfl⟩, fun other => by simp [beforeBrace?]⟩
  | case5 depth c cs hopen hclose hbrace hstop => simp at h
  | case6 depth c cs hopen hclose hbrace hstop ih =>
    obtain ⟨tail, htail, rfl⟩ := Option.map_eq_some_iff.mp h
    obtain ⟨⟨rest, rfl⟩, hother⟩ := ih htail
    exact ⟨⟨rest, rfl⟩, fun other => by
      simp only [List.cons_append, beforeBrace?, if_neg hopen, if_neg hclose, if_neg hbrace,
        if_neg hstop, hother, Option.map_some]⟩

theorem exists_brace_of_clausesTail? {params : Option Text} {pos : Nat} {s : Text}
    {tail : HeaderTail} (h : clausesTail? params pos s = some tail) :
    ∃ text rest, s = text ++ '{' :: rest ∧ tail.brace = pos + Text.byteLength text ∧
      ∀ other, clausesTail? params pos (text ++ '{' :: other) = some tail := by
  obtain ⟨text, htext, rfl⟩ := Option.map_eq_some_iff.mp h
  obtain ⟨⟨rest, hrest⟩, hother⟩ := exists_brace_of_beforeBrace? htext
  exact ⟨text, rest, hrest, rfl, fun other => by rw [clausesTail?, hother, Option.map_some]⟩

/-- The rest of a type header after the blanks that follow the name. -/
def tailAfterBlanks? (pos : Nat) : Text → Option HeaderTail
  | '<' :: cs =>
    match closeAngle? 0 cs with
    | some (inside, after) =>
      clausesTail? (some (Text.compact ('<' :: inside)))
        (pos + Text.byteLength ('<' :: inside)) after
    | none => none
  | s => clausesTail? none pos s

theorem tailAfterName?_append {blanks s : Text} (hblanks : ∀ c ∈ blanks, Text.isBlank c = true)
    (hs : ∀ c ∈ s.head?, Text.isBlank c = false) (start : Nat) :
    tailAfterName? start (blanks ++ s) = tailAfterBlanks? (start + Text.byteLength blanks) s := by
  have htake : (blanks ++ s).takeWhile Text.isBlank = blanks := by
    rw [List.takeWhile_append_of_pos hblanks]
    cases s with
    | nil => simp
    | cons c cs => simp [hs c rfl]
  have hdrop : (blanks ++ s).dropWhile Text.isBlank = s := by
    rw [List.dropWhile_append_of_pos hblanks]
    cases s with
    | nil => rfl
    | cons c cs => simp [hs c rfl]
  rw [tailAfterName?, htake, hdrop]
  unfold tailAfterBlanks?
  split
  · rfl
  · rename_i hangle
    split
    · rename_i cs
      exact absurd rfl (hangle cs)
    · rfl

theorem exists_brace_of_tailAfterName? {start : Nat} {s : Text} {tail : HeaderTail}
    (h : tailAfterName? start s = some tail) :
    ∃ text rest, s = text ++ '{' :: rest ∧ tail.brace = start + Text.byteLength text ∧
      ∀ other, tailAfterName? start (text ++ '{' :: other) = some tail := by
  obtain ⟨blanks, after, rfl, hblanks, hafter⟩ : ∃ blanks after, s = blanks ++ after ∧
      (∀ c ∈ blanks, Text.isBlank c = true) ∧ ∀ c ∈ after.head?, Text.isBlank c = false := by
    refine ⟨s.takeWhile Text.isBlank, s.dropWhile Text.isBlank,
      List.takeWhile_append_dropWhile.symm, fun c hc => ?_, fun c hc => ?_⟩
    · exact List.all_eq_true.mp List.all_takeWhile c hc
    · have hnot := List.head?_dropWhile_not Text.isBlank s
      rw [hc] at hnot
      simpa using hnot
  rw [tailAfterName?_append hblanks hafter] at h
  unfold tailAfterBlanks? at h
  split at h
  · rename_i cs
    split at h
    · rename_i inside rest hangle
      obtain ⟨rfl, hinside⟩ := eq_append_of_closeAngle? hangle
      obtain ⟨text, rest, rfl, hbrace, hother⟩ := exists_brace_of_clausesTail? h
      refine ⟨blanks ++ '<' :: (inside ++ text), rest, by simp, ?_, fun other => ?_⟩
      · rw [hbrace]
        simp only [Text.byteLength_append, Text.byteLength_cons]
        omega
      · have hassoc : blanks ++ '<' :: (inside ++ text) ++ '{' :: other =
            blanks ++ '<' :: (inside ++ (text ++ '{' :: other)) := by simp
        rw [hassoc, tailAfterName?_append hblanks (by simpa using hafter)]
        simp only [tailAfterBlanks?, hinside, hother]
    · cases h
  · rename_i hangle
    obtain ⟨text, rest, rfl, hbrace, hother⟩ := exists_brace_of_clausesTail? h
    refine ⟨blanks ++ text, rest, by simp, ?_, fun other => ?_⟩
    · rw [hbrace, Text.byteLength_append, Nat.add_assoc]
    · have hhead : (text ++ '{' :: other).head? = (text ++ '{' :: rest).head? := by
        cases text <;> rfl
      rw [List.append_assoc, tailAfterName?_append hblanks (hhead ▸ hafter)]
      unfold tailAfterBlanks?
      split
      · rename_i cs hcs
        rw [hcs] at hhead
        obtain ⟨ds, hds⟩ := List.head?_eq_some_iff.mp hhead.symm
        exact absurd hds (hangle ds)
      · exact hother other

/-- A header that can be read ends at a brace of the text, and what follows the brace is of no
account. -/
theorem exists_append_of_headerTail {s : Text} {start : Nat} {tail : HeaderTail}
    (h : headerTail s start = .ok (some tail)) :
    ∃ front text rest, s = front ++ (text ++ '{' :: rest) ∧ start = Text.byteLength front ∧
      tail.brace = start + Text.byteLength text ∧
      ∀ other, headerTail (front ++ (text ++ '{' :: other)) start = .ok (some tail) := by
  unfold headerTail at h
  split at h
  · rename_i rest hsuffix
    obtain ⟨front, rfl, rfl⟩ := Text.suffixAt?_eq_some_iff.mp hsuffix
    simp only [Except.ok.injEq] at h
    obtain ⟨text, rest, rfl, hbrace, hother⟩ := exists_brace_of_tailAfterName? h
    refine ⟨front, text, rest, rfl, rfl, hbrace, fun other => ?_⟩
    rw [headerTail, Text.suffixAt?_append]
    exact congrArg _ (hother other)
  · split at h <;> simp at h

theorem exists_brace_of_headerTail {s : Text} {start : Nat} {tail : HeaderTail}
    (h : headerTail s start = .ok (some tail)) :
    ∃ before rest, s = before ++ '{' :: rest ∧ tail.brace = Text.byteLength before := by
  obtain ⟨front, text, rest, rfl, rfl, hbrace, _⟩ := exists_append_of_headerTail h
  exact ⟨front ++ text, rest, by simp, by simpa using hbrace⟩

/-- The outline that the parts of a header give. -/
def outlineOf (includeDocs : Bool) (m : Match Declaration.Part) (kind : TypeKind) (name : Capture)
    (tail : HeaderTail) : TypeOutline :=
  { name := String.ofList name.text
    kind
    isAbstract := hasModifier (m.text .modifiers) "abstract"
    typeParameters := tail.typeParameters.map String.ofList
    superTypes := tail.superTypes.map String.ofList
    interfaces := tail.interfaces.map String.ofList
    doc := docOf includeDocs m }

/-- Whether a header match declares a type: it has a kind and a name, is no prose and no
annotation type, is public where that is asked for, and a body follows. -/
structure IsHeader (publicOnly : Bool) (masked : Masked) (m : Match Declaration.Part)
    (kind : TypeKind) (name : Capture) (tail : HeaderTail) : Prop where
  hasKind : ∃ part, m.get? .kind = some part ∧ masked.inDoc part.start = false ∧
    (Text.takeBytes part.start masked.text).getLast? ≠ some '@' ∧
    TypeKind.ofKeyword? (String.ofList part.text) = some kind
  hasName : m.get? .name = some name
  visible : publicOnly = true → hasModifier (m.text .modifiers) "public" = true
  hasBody : headerTail masked.text name.stop = .ok (some tail)

theorem headerOf?_eq_some_iff {includeDocs publicOnly : Bool} {masked : Masked}
    {m : Match Declaration.Part} {outline : TypeOutline} {tail : HeaderTail} :
    headerOf? includeDocs publicOnly masked m = some (outline, tail) ↔
      ∃ kind name, IsHeader publicOnly masked m kind name tail ∧
        outline = outlineOf includeDocs m kind name tail := by
  constructor
  · intro h
    simp only [headerOf?, Option.bind_eq_bind, Option.bind_eq_some_iff] at h
    obtain ⟨part, hpart, name, hname, h⟩ := h
    split at h
    · simp at h
    · rename_i hprose
      split at h
      · simp at h
      · rename_i hpublic
        obtain ⟨kind, hkind, h⟩ := Option.bind_eq_some_iff.mp h
        split at h
        · rename_i found htail
          obtain ⟨tail', rfl, h⟩ := Option.bind_eq_some_iff.mp h
          obtain ⟨rfl, rfl⟩ := Prod.mk.inj (Option.some.inj h)
          simp only [Bool.or_eq_true, decide_eq_true_eq, not_or, Bool.not_eq_true] at hprose
          refine ⟨kind, name, ⟨⟨part, hpart, hprose.1, hprose.2, hkind⟩, hname, ?_, htail⟩, rfl⟩
          intro hp
          simpa [hp] using hpublic
        · simp at h
  · rintro ⟨kind, name, ⟨⟨part, hpart, hdoc, hat, hkind⟩, hname, hpublic, htail⟩, rfl⟩
    have hvisible : (publicOnly && !hasModifier (m.text .modifiers) "public") = false := by
      cases publicOnly with
      | false => rfl
      | true => simp [hpublic rfl]
    simp [headerOf?, hpart, hname, hdoc, hat, hvisible, hkind, htail, outlineOf]

/-- What a header match gives. -/
def typeOf? (docs publicOnly : Bool) (fuel : Nat) (text : Text) (m : Match Declaration.Part) :
    Option (TypeDecl × Span) :=
  match headerOf? docs publicOnly (mask text) m with
  | none => none
  | some (outline, tail) =>
    match blockEnd? text tail.brace with
    | some close =>
      let body := Text.slice text (tail.brace + 1) close
      some (withBody docs outline body (typesIn docs fuel false body), ⟨m.whole.start, close + 1⟩)
    | none => some ({ outline with }, ⟨m.whole.start, Text.byteLength text⟩)

theorem typesIn_succ (docs : Bool) (fuel : Nat) (publicOnly : Bool) (text : Text) :
    typesIn docs (fuel + 1) publicOnly text =
      (Declaration.typeHeader.allMatches (mask text).text).filterMap
        (typeOf? docs publicOnly fuel text) := rfl

end Typings.Source
