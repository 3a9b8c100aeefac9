import Typings.Proofs.Output.Declarations
import Typings.Proofs.Pattern.Groups
import Typings.Proofs.Source.Noninterference
import Typings.Proofs.Source.PrintedTypes

/-!
# Bodies

A type, however deep it is nested, is found in the masked view of a level, the file or the body of a
reported type, and its members are read in the view of its own body. A file that holds one type
shows what is read in the body of that type; a body in which no type is declared holds members only.
Main statements: `foundAt_of_mem_placed`, `exists_of_mem_methods` and `placed_aroundBody`.
-/

namespace Typings

namespace Source

open Declaration Pattern

-- ---------------------------------------------------------------------------
-- Every depth
-- ---------------------------------------------------------------------------

/-- The texts of the levels in which declarations are searched: the file, in which types have to be
public, and the bodies of the types that are reported. -/
inductive IsLevel (source : Text) : (publicOnly : Bool) → Text → Prop
  | file : IsLevel source true source
  | body {publicOnly : Bool} {level : Text} {brace close : Nat}
      (h : IsLevel source publicOnly level)
      (hopen : brace ∈ openings publicOnly level) (hclose : blockEnd? level brace = some close) :
      IsLevel source false (Text.slice level (brace + 1) close)

/-- A type that a header match gives comes without members and nested types, or with those that are
read in its body, which is a level. -/
inductive FoundIn (source : Text) (docs : Bool) (fuel : Nat) (text : Text) (outline : TypeOutline) :
    TypeDecl → Prop
  | unclosed : FoundIn source docs fuel text outline { outline with }
  | body {body : Text} (hlevel : IsLevel source false body) (hlt : body.length < text.length) :
      FoundIn source docs fuel text outline
        (withBody docs outline body (typesIn docs fuel false body))

theorem foundIn_of_typeOf? {source text : Text} {docs publicOnly : Bool} {fuel : Nat}
    (hlevel : IsLevel source publicOnly text) {m : Match Part}
    (hm : m ∈ typeHeader.allMatches (mask text).text) {d : TypeDecl} {span : Span}
    (h : typeOf? docs publicOnly fuel text m = some (d, span)) : ∃ outline tail,
      headerOf? docs publicOnly (mask text) m = some (outline, tail) ∧
      FoundIn source docs fuel text outline d := by
  unfold typeOf? at h
  split at h
  · cases h
  · rename_i outline tail hheader
    refine ⟨outline, tail, hheader, ?_⟩
    split at h
    · rename_i close hclose
      obtain ⟨rfl, _⟩ := Prod.mk.inj (Option.some.inj h)
      exact .body (.body hlevel (mem_openings_of_headerOf? hm hheader) hclose)
        (length_slice_lt hclose)
    · obtain ⟨rfl, _⟩ := Prod.mk.inj (Option.some.inj h)
      exact .unclosed

/-- Where a declaration of a file is found: at a level, with enough fuel for the level. -/
structure FoundAt (source : Text) (docs : Bool) (d : TypeDecl) (publicOnly : Bool) (level : Text)
    (fuel : Nat)
    (m : Match Part) (outline : TypeOutline) : Prop where
  isLevel : IsLevel source publicOnly level
  length_le : level.length ≤ fuel
  isMatch : m ∈ typeHeader.allMatches (mask level).text
  header : ∃ tail, headerOf? docs publicOnly (mask level) m = some (outline, tail)
  foundIn : FoundIn source docs fuel level outline d

/-- The types in a text and all types nested in them are found at a level. -/
theorem foundAt_of_mem_typesIn {source text : Text} {docs publicOnly : Bool} {fuel : Nat}
    (hfuel : text.length < fuel) (hlevel : IsLevel source publicOnly text) {d : TypeDecl}
    {span : Span}
    (hd : (d, span) ∈ typesIn docs fuel publicOnly text) {around : List String} {p : Placed}
    (hp : p ∈ d.placed around) :
    ∃ publicOnly level fuel m outline, FoundAt source docs p.decl publicOnly level
      fuel m outline := by
  induction fuel generalizing publicOnly text d span around with
  | zero => cases hd
  | succ fuel ih =>
    rw [typesIn_succ] at hd
    obtain ⟨m, hm, htype⟩ := List.mem_filterMap.mp hd
    obtain ⟨outline, tail, hheader, hfound⟩ := foundIn_of_typeOf? hlevel hm htype
    rw [TypeDecl.placed_eq_cons] at hp
    rcases List.mem_cons.mp hp with rfl | hp
    · exact ⟨_, _, _, _, _, hlevel, Nat.le_of_lt_succ hfuel, hm, ⟨tail, hheader⟩, hfound⟩
    · rw [TypeDecl.placedAll_eq_flatMap] at hp
      obtain ⟨e, he, hp⟩ := List.mem_flatMap.mp hp
      cases hfound with
      | unclosed => cases he
      | body hbody hlt =>
        obtain ⟨⟨_, inner⟩, hinner, rfl⟩ := List.mem_map.mp he
        exact ih (by omega) hbody hinner hp

/-- The declarations of a file, at any depth, are found at a level. -/
theorem foundAt_of_mem_placed {docs : Bool} {source : String} {p : Placed}
    (hp : p ∈ (extract docs source).placed) : ∃ publicOnly level fuel m outline,
      FoundAt source.toList docs p.decl publicOnly level fuel m outline := by
  rw [SourceFile.placed, TypeDecl.placedAll_eq_flatMap] at hp
  obtain ⟨d, hd, hp⟩ := List.mem_flatMap.mp hp
  obtain ⟨⟨_, span⟩, hmem, rfl⟩ := List.mem_map.mp hd
  exact foundAt_of_mem_typesIn (Nat.lt_succ_self _) .file hmem hp

/-- A method of a file, at any depth, is read in some body. -/
theorem exists_of_mem_methods {docs : Bool} {source : String} {p : Placed}
    (hp : p ∈ (extract docs source).placed) {method : Method} (hmethod : method ∈ p.decl.methods) :
    ∃ members, method ∈ methods docs members := by
  obtain ⟨_, _, _, _, _, _, _, _, ⟨_, hheader⟩, hfound⟩ := foundAt_of_mem_placed hp
  generalize p.decl = decl at hfound hmethod
  cases hfound with
  | unclosed =>
    obtain ⟨_, _, _, rfl⟩ := headerOf?_eq_some_iff.mp hheader
    cases hmethod
  | body => exact ⟨_, hmethod⟩

-- ---------------------------------------------------------------------------
-- Texts without types
-- ---------------------------------------------------------------------------

/-- The kind of a type stands at a place as a word of its own. -/
theorem hasWord_of_opensAt {x w y : Text} {c : Char} {cs : Text} (hw : w = c :: cs)
    (hc : Text.isWordChar c = true) (h : OpensAt (Text.lastOr none x) w y) :
    Text.HasWord w (x ++ y) := by
  obtain ⟨⟨d, t, rfl, hd⟩, hboundary⟩ := h
  refine ⟨x, d :: t, by simp, fun e he => ?_, Text.forall_head (Text.isWordChar_of_isSpace hd) _⟩
  rcases List.eq_nil_or_concat x with rfl | ⟨xs, f, rfl⟩
  · simp at he
  · obtain rfl : f = e := by simpa using he
    simpa [Anchor.holds, hw, hc] using hboundary

/-- No header starts where no word follows that declares a type. -/
theorem fails_typeHeader_of_avoids {x y : Text}
    (h : Text.Avoids (kindWords.map String.toList) (x ++ y)) :
    typeHeader.Fails (Text.lastOr none x) y := by
  have hkinds : ∀ w ∈ kindWords, ∃ c cs, w.toList = c :: cs ∧ Text.isWordChar c = true := by
    intro w hw
    have hfacts : ∀ w ∈ kindWords, w.toList ≠ [] ∧
        ∀ c ∈ w.toList.head?, Text.isWordChar c = true := by
      decide
    obtain ⟨hne, hhead⟩ := hfacts w hw
    obtain ⟨c, cs, hcs⟩ := List.exists_cons_of_ne_nil hne
    exact ⟨c, cs, hcs, hhead c (by simp [hcs])⟩
  intro pos next
  rw [typeHeader_run]
  refine fails_seq_of_language (fun u _ t hut => ?_) pos _
  refine fails_seq_of_language fun v _ t' hvt => ?_
  refine fails_kindShape fun w hw hopens => ?_
  obtain ⟨c, cs, hcs, hc⟩ := hkinds w hw
  rw [← Text.lastOr_append, ← Text.lastOr_append] at hopens
  have hword := hasWord_of_opensAt hcs hc hopens
  refine h _ (List.mem_map_of_mem hw) ?_
  simpa [hut, hvt] using hword

theorem typesIn_eq_nil {docs publicOnly : Bool} {text : Text}
    (h : ∀ m ∈ typeHeader.allMatches (mask text).text,
      headerOf? docs publicOnly (mask text) m = none)
    (fuel : Nat) : typesIn docs fuel publicOnly text = [] := by
  cases fuel with
  | zero => rfl
  | succ fuel =>
    rw [typesIn_succ, List.filterMap_eq_nil_iff]
    intro m hm
    rw [typeOf?, h m hm]

/-- A text declares no type when its masked view has no word for one. -/
theorem typesIn_eq_nil_of_avoids {text : Text}
    (h : Text.Avoids (kindWords.map String.toList) (mask text).text) (docs publicOnly : Bool)
    (fuel : Nat) : typesIn docs fuel publicOnly text = [] := by
  refine typesIn_eq_nil (fun m hm => ?_) fuel
  have hnone := @matchesFrom_append _ typeHeader none 0 (mask text).text [] fun u v huv _ => by
    rw [List.append_nil]
    exact fails_typeHeader_of_avoids (huv ▸ h)
  rw [allMatches_eq_matchesFrom, ← List.append_nil (mask text).text, hnone] at hm
  cases hm

/-- The pattern of a type header up to its name. -/
def headerFront : Shape :=
  opening ++
    .group .modifiers (.star (boundary ++ keyword typeModifiers)) ++
    boundary ++ .group .kind (.oneOf kindWords) ++ someSpaces

theorem kind_start_le_name_stop {s : Text} {m : Match Part} (hm : m ∈ typeHeader.allMatches s)
    {kind name : Capture} (hkind : m.get? .kind = some kind) (hname : m.get? .name = some name) :
    kind.start ≤ name.stop := by
  have hparts : typeHeader = headerFront ++ .group .name identifier := rfl
  rw [hparts] at hm
  exact start_le_stop_of_get? (by decide) (by decide) hm hkind hname

/-- A text declares no type when no brace stands in its masked view from the first place on that is
neither blank nor in documentation. -/
theorem typesIn_eq_nil_of_brace {text x y : Text} (hmask : (mask text).text = x ++ y) (hy : '{' ∉ y)
    (hx : ∀ u c v, x = u ++ c :: v →
      Text.isSpace c = true ∨ (mask text).inDoc (Text.byteLength u) = true)
    (docs publicOnly : Bool) (fuel : Nat) : typesIn docs fuel publicOnly text = [] := by
  refine typesIn_eq_nil (fun m hm => ?_) fuel
  by_contra hsome
  obtain ⟨⟨outline, tail⟩, hheader⟩ := Option.ne_none_iff_exists'.mp hsome
  obtain ⟨kind, name, hheader, _⟩ := headerOf?_eq_some_iff.mp hheader
  obtain ⟨part, hpart, hprose, _, hkind⟩ := hheader.hasKind
  have hle := kind_start_le_name_stop hm hpart hheader.hasName
  -- The brace of the body stands before `y`, and so does the word for the kind.
  obtain ⟨front, clauses, rest, hbrace, hstop, _⟩ := exists_append_of_headerTail hheader.hasBody
  obtain ⟨u, hu, hstart⟩ :=
    Text.suffixAt?_eq_some_iff.mp ((isOn_of_mem_allMatches hm).groups _ _ hpart).1
  obtain ⟨c, cs, hcs, hspace⟩ : ∃ c cs, part.text = c :: cs ∧ Text.isSpace c = false := by
    rw [TypeKind.ofKeyword?_eq_some_iff] at hkind
    have htext : part.text = kind.keyword.toList := by rw [← hkind, String.toList_ofList]
    cases kind with
    | interface => exact ⟨'i', "nterface".toList, by rw [htext]; decide, by decide⟩
    | class_ => exact ⟨'c', "lass".toList, by rw [htext]; decide, by decide⟩
  have htail := Text.takeBytes_append_dropBytes (part.stop - part.start) part.tail
  rw [show Text.takeBytes (part.stop - part.start) part.tail = c :: cs from hcs,
    List.cons_append] at htail
  rw [hmask, ← htail] at hu
  rw [hmask] at hbrace
  rcases Nat.lt_or_ge part.start (Text.byteLength x) with hlt | hge
  · obtain ⟨m, rfl, hm⟩ := Text.exists_append_of_byteLength_le hu.symm (hstart ▸ Nat.le_of_lt hlt)
    obtain ⟨v, rfl⟩ : ∃ v, m = c :: v := by
      rcases List.cons_eq_append_iff.mp hm with ⟨rfl, _⟩ | ⟨v, rfl, _⟩
      · simp [hstart] at hlt
      · exact ⟨v, rfl⟩
    rcases hx u c v rfl with hblank | hdoc
    · rw [hblank] at hspace
      cases hspace
    · rw [hstart, hprose] at hdoc
      cases hdoc
  · obtain ⟨m, _, rfl⟩ := Text.exists_append_of_byteLength_le hbrace (by omega)
    exact hy (by simp)

/-- Blocks and the lines that open them make up a block. -/
theorem isBlock_headed {x : Text} (hx : ∀ c ∈ x, isLineChar c = true) {bs : List Headed}
    (hbs : ∀ b ∈ bs, b.IsHeaded) : IsBlock (x ++ bs.flatMap Headed.text) := by
  induction bs generalizing x with
  | nil =>
    rw [List.flatMap_nil, List.append_nil]
    exact (IsCodeBlock.of_isLineChar hx).isBlock
  | cons b bs ih =>
    have hb := hbs b (by simp)
    have hbefore : IsBlock (x ++ b.header) := (IsCodeBlock.of_isLineChar fun c hc =>
      (List.mem_append.mp hc).elim (hx c) (hb.header c)).isBlock
    have hnewline : ∀ c ∈ ['\n'], isLineChar c = true := by decide
    have hrest := ih hnewline fun e he => hbs e (by simp [he])
    have hsplit : x ++ (b :: bs).flatMap Headed.text =
        (x ++ b.header) ++ '{' :: (b.block ++ '}' :: (['\n'] ++ bs.flatMap Headed.text)) := by
      simp [Headed.text]
    rw [hsplit]
    refine ⟨hbefore.whole.append (.inl rfl) (hb.block.whole.append (.inr rfl) hrest.whole), ?_⟩
    rw [hb.block.level?_eq hbefore.whole, hbefore.closed]
    exact hrest.closed

-- ---------------------------------------------------------------------------
-- A file with one type
-- ---------------------------------------------------------------------------

/-- The text of a file that holds one type, with a text between its braces. -/
def aroundBody (o : TypeOutline) (body : Text) : Text :=
  (o.printOpening true ++ o.printTail) ++ '{' :: (body ++ ['}', '\n'])

section AroundBody

variable {o : TypeOutline} (ho : o.Printable) {body : Text} (hbody : IsBlock body)

include ho

theorem isLineChar_of_mem_printHeader : ∀ c ∈ o.printOpening true ++ o.printTail,
    isLineChar c = true := by
  intro c hc
  rcases List.mem_append.mp hc with hc | hc
  · exact isLineChar_of_isTypeChar (isTypeChar_of_mem_printOpening ho true c hc)
  · exact isLineChar_of_isTypeChar (isTypeChar_of_mem_printTail ho c hc)

include hbody

/-- Masking shows the header and blanks the body. -/
theorem mask_aroundBody : mask (aroundBody o body) =
    ⟨o.printOpening true ++ (o.printTail ++ '{' :: (Text.blankAll body ++ ['}', '\n'])), []⟩ := by
  have hheader := isLineChar_of_mem_printHeader ho
  have hcode := IsCodeBlock.of_isLineChar hheader
  have htokens := tokens_eq_of_code hcode.chars
  have hdepth : depthAfter 0 (tokens (o.printOpening true ++ o.printTail)) = 0 := by
    rw [htokens]
    exact depthAfter_eq_of_level? hcode.closed
  have hdocs : (outer 0 0 (tokens (o.printOpening true ++ o.printTail))).filterMap
      docSpan? = [] := by
    have h := mask_docs_eq_nil hcode.chars
    rwa [mask_eq] at h
  have hshown := hbody.shown_eq hcode.isBlock.whole hdepth ['\n']
  have houter := hbody.outer_eq hcode.isBlock.whole hdepth ['\n']
  have hend : ∀ pos, (outer pos 0 (tokens ['\n'])).filterMap docSpan? = [] := fun _ => rfl
  rw [mask_eq, aroundBody, Masked.mk.injEq]
  constructor
  · rw [hshown, htokens, shown_map_code hheader, List.append_assoc]
    rfl
  · rw [houter, List.filterMap_append, hdocs, List.nil_append, List.filterMap_cons, hend]
    rfl

/-- A file with one type, in whose body no type is declared, gives what is read in the body. -/
theorem placed_aroundBody {docs : Bool} (hnone : ∀ fuel, typesIn docs fuel false body = []) :
    (extract docs (String.ofList (aroundBody o body))).placed =
      [⟨[], withBody docs (withoutMembers o) body []⟩] := by
  have hmask := mask_aroundBody ho hbody
  have hat : '@' ∉ (mask (aroundBody o body)).text := by
    intro hmem
    rw [hmask, ← List.append_assoc, List.mem_append] at hmem
    rcases hmem with hmem | hmem
    · exact absurd (isLineChar_of_mem_printHeader ho _ hmem) (by decide)
    · simp only [List.mem_cons, List.mem_append, List.not_mem_nil, or_false] at hmem
      rcases hmem with hmem | hmem | hmem
      · exact absurd hmem (by decide)
      · rcases Text.eq_of_mem_blankAll hmem with h | h <;> exact absurd h (by decide)
      · exact absurd hmem (by decide)
  obtain ⟨marks, whole, hmarks, hstart, hmatches⟩ :=
    @matchesFrom_header o ho true none (by simp) 0 body []
  have hnoMore : ∀ b pos, typeHeader.matchesFrom b pos [] = [] := fun _ _ => rfl
  have htype := @typeOf?_header o ho docs true true (aroundBody o body).length (by simp)
    (aroundBody o body) [] [] body ['\n'] (Text.blankAll body ++ ['}', '\n'])
    (by simp [aroundBody]) (by rw [hmask]; simp) rfl hbody (by rw [hmask]) hat whole
      (by simpa using hstart)
    marks (by simpa using hmarks)
  rw [hnone] at htype
  have htypes : typesIn docs ((aroundBody o body).length + 1) true (aroundBody o body) =
      [(withBody docs (withoutMembers o) body [], ⟨0, 0 + Text.byteLength (o.printOpening true ++
        o.printTail) + 1 + Text.byteLength body + 1⟩)] := by
    rw [typesIn_succ, allMatches_eq_matchesFrom]
    nth_rewrite 1 [hmask]
    rw [List.append_nil] at hmatches
    rw [hmatches, hnoMore, List.filterMap_cons, htype]
    rfl
  rw [SourceFile.placed, extract, String.toList_ofList]
  simp only [htypes, List.map_cons, List.map_nil, TypeDecl.placedAll, List.append_nil]
  rw [TypeDecl.placed_eq_cons]
  simp [withBody, TypeDecl.placedAll]

end AroundBody

/-- Without nested types, nothing is blanked in the view of the body. -/
theorem blank_mask_nil (body : Text) : Text.blank (mask body).text [] = (mask body).text := by
  rw [Text.blank_eq_blankWhere]
  exact Text.blankWhere_false 0 _

/-- Without nested types, the methods are read in the view of the body. -/
theorem methods_withBody_nil (docs : Bool) (o : TypeOutline) (body : Text) :
    (withBody docs o body []).methods = methods docs (mask body).text := by
  simp only [withBody, List.map_nil, blank_mask_nil]

/-- Without nested types, the fields of a class are read in the view of the body. -/
theorem fields_withBody_nil (docs : Bool) {o : TypeOutline} (hclass : o.kind = .class_)
    (body : Text) :
    (withBody docs o body []).fields = fields docs (mask body).text := by
  simp only [withBody, hclass, List.map_nil, blank_mask_nil]

end Source

end Typings
