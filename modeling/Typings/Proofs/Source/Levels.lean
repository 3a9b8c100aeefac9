import Typings.Proofs.Source.Rewording

/-!
# Types around a comment

The types of a level, each read off one header match. A comment at the level has no influence on
them as long as no type reaches into it: a type that starts before the comment ends before it, and a
header inside the comment stays there, where it is not reported. Main statements:
`Reworded.Views.declared_eq` and `Reworded.Views.membersIn_cases`.
-/

namespace Typings.Source

open Declaration (Part)
open Pattern

-- ---------------------------------------------------------------------------
-- Types and members of a level
-- ---------------------------------------------------------------------------

/-- The types that a level declares, each with its span. -/
def declared (publicOnly : Bool) (s : Text) : List (TypeDecl × Span) :=
  typesIn false (s.length + 1) publicOnly s

/-- The text in which the members of a body are found. -/
def membersIn (body : Text) : Text :=
  Text.blank (mask body).text ((declared false body).map (·.2))

/-- The type that a header match declares. -/
def declaredAt? (publicOnly : Bool) (s : Text) (m : Match Part) : Option (TypeDecl × Span) :=
  match headerOf? false publicOnly (mask s) m with
  | none => none
  | some (outline, tail) =>
    match blockEnd? s tail.brace with
    | some close =>
      let body := Text.slice s (tail.brace + 1) close
      some (withBody false outline body (declared false body), ⟨m.whole.start, close + 1⟩)
    | none => some ({ outline with }, ⟨m.whole.start, Text.byteLength s⟩)

/-- Bodies with the same nested types, methods and fields. -/
structure SameBody (x y : Text) : Prop where
  nested : declared false x = declared false y
  methods : methods false (membersIn x) = methods false (membersIn y)
  fields : fields false (membersIn x) = fields false (membersIn y)

theorem typesIn_eq_declared {s : Text} {fuel : Nat} (h : s.length < fuel) (publicOnly : Bool) :
    typesIn false fuel publicOnly s = declared publicOnly s :=
  (Indistinct.refl publicOnly s).typesIn_eq false h (Nat.lt_succ_self _)

theorem declared_eq (publicOnly : Bool) (s : Text) :
    declared publicOnly s =
      (Declaration.typeHeader.allMatches (mask s).text).filterMap (declaredAt? publicOnly s) := by
  rw [declared, typesIn_succ]
  refine List.filterMap_congr fun m _ => ?_
  unfold typeOf? declaredAt?
  cases headerOf? false publicOnly (mask s) m with
  | none => rfl
  | some found =>
    obtain ⟨outline, tail⟩ := found
    simp only
    cases hclose : blockEnd? s tail.brace with
    | none => rfl
    | some close => simp only [typesIn_eq_declared (length_slice_lt hclose)]

theorem withBody_eq_of_sameBody {x y : Text} (h : SameBody x y) (outline : TypeOutline) :
    withBody false outline x (declared false x) = withBody false outline y (declared false y) := by
  have hmembers : ∀ z, Text.blank (mask z).text ((declared false z).map (·.2)) = membersIn z :=
    fun _ => rfl
  simp only [withBody, hmembers, h.methods, h.fields]
  rw [h.nested]

-- ---------------------------------------------------------------------------
-- Parts of a text
-- ---------------------------------------------------------------------------

/-- A block that ends in the first part of a text does not depend on the rest. -/
theorem blockEnd?_append_of_lt {x y : Text} {brace close : Nat}
    (h : blockEnd? (x ++ y) brace = some close) (hclose : close < Text.byteLength x) (z : Text) :
    blockEnd? (x ++ z) brace = some close ∧
      Text.slice (x ++ z) (brace + 1) close = Text.slice (x ++ y) (brace + 1) close := by
  obtain ⟨before, block, after, hxy, rfl, rfl, hblock⟩ := blockEnd?_eq_some_iff.mp h
  have hassoc : ∀ u : Text, before ++ '{' :: (block ++ '}' :: u) =
      before ++ '{' :: (block ++ ['}']) ++ u := by simp
  have hxy' := hxy
  rw [hassoc] at hxy'
  obtain ⟨w, rfl, rfl⟩ := Text.exists_append_of_byteLength_le hxy'.symm (by
    simp only [Text.byteLength_append, Text.byteLength_cons, Text.byteLength_nil,
      utf8Size_openBrace, utf8Size_closeBrace]
    omega)
  rw [List.append_assoc _ w z, List.append_assoc _ w y, ← hassoc, ← hassoc, hblock.blockEnd?_eq,
    slice_block, slice_block]
  exact ⟨rfl, rfl⟩

theorem headerTail_append_of_lt {x y : Text} {start : Nat} {tail : HeaderTail}
    (h : headerTail (x ++ y) start = .ok (some tail)) (hbrace : tail.brace < Text.byteLength x)
    (z : Text) : headerTail (x ++ z) start = .ok (some tail) := by
  obtain ⟨front, text, rest, hxy, rfl, hlen, hother⟩ := exists_append_of_headerTail h
  have hassoc : ∀ u : Text, front ++ (text ++ '{' :: u) = front ++ (text ++ ['{']) ++ u := by simp
  rw [hassoc] at hxy
  obtain ⟨w, rfl, rfl⟩ := Text.exists_append_of_byteLength_le hxy.symm (by
    simp only [Text.byteLength_append, Text.byteLength_cons, Text.byteLength_nil,
      utf8Size_openBrace]
    omega)
  rw [List.append_assoc _ w z, ← hassoc]
  exact hother _

theorem le_brace_of_headerTail {s : Text} {start : Nat} {tail : HeaderTail}
    (h : headerTail s start = .ok (some tail)) : start ≤ tail.brace := by
  obtain ⟨_, text, _, _, _, hbrace, _⟩ := exists_append_of_headerTail h
  rw [hbrace]
  exact Nat.le_add_right _ _

namespace Swap

variable {block : Span} {d d' before after s t : Text}

/-- A block that opens behind the comments is the same in both texts. -/
theorem blockEnd?_of_le (h : Swap block d d' before after s t) {brace : Nat}
    (hbrace : block.stop ≤ brace) : blockEnd? s brace = blockEnd? t brace ∧ ∀ close,
      Text.slice s (brace + 1) close = Text.slice t (brace + 1) close := by
  refine ⟨?_, fun close => ?_⟩
  · rw [blockEnd?, blockEnd?, h.suffixAt?_of_le hbrace]
  · rw [Text.slice, Text.slice, h.dropBytes_of_le (Nat.le_succ_of_le hbrace)]

theorem headerTail_of_le (h : Swap block d d' before after s t) {start : Nat}
    (hstart : block.stop ≤ start) : headerTail s start = headerTail t start := by
  rw [headerTail, headerTail, h.suffixAt?_of_le hstart, h.dropBytes_of_le hstart]

end Swap

/-- Headers that agree declare the same type, when what is read around them agrees. -/
theorem headerOf?_of_agreesBut {publicOnly : Bool} {masked other : Masked} {m n : Match Part}
    (hmn : m.AgreesBut .doc n) (hdocs : masked.docs = other.docs)
    (hbefore : ∀ c, m.get? .kind = some c → (Text.takeBytes c.start masked.text).getLast? =
      (Text.takeBytes c.start other.text).getLast?)
    {outline : TypeOutline} {tail : HeaderTail}
    (htail : ∀ c, m.get? .name = some c → headerTail masked.text c.stop = .ok (some tail) →
      headerTail other.text c.stop = .ok (some tail))
    (h : headerOf? false publicOnly masked m = some (outline, tail)) :
    headerOf? false publicOnly other n = some (outline, tail) := by
  obtain ⟨kind, name, ⟨⟨part, hpart, hdoc, hat, hkind⟩, hname, hpublic, hbody⟩, rfl⟩ :=
    headerOf?_eq_some_iff.mp h
  obtain ⟨part', hpart', hstart, _, htext⟩ := hmn.exists_get? (by decide) hpart
  obtain ⟨name', hname', _, hstop, hnameText⟩ := hmn.exists_get? (by decide) hname
  have hmodifiers : n.text .modifiers = m.text .modifiers := (hmn.text_eq (by decide)).symm
  refine headerOf?_eq_some_iff.mpr ⟨kind, name', ⟨⟨part', hpart', ?_, ?_, ?_⟩, hname', ?_, ?_⟩, ?_⟩
  · rw [Masked.inDoc, ← hdocs, hstart]
    exact hdoc
  · rw [hstart, ← hbefore part hpart]
    exact hat
  · rw [htext]
    exact hkind
  · rw [hmodifiers]
    exact hpublic
  · rw [hstop]
    exact htail name hname hbody
  · unfold outlineOf
    rw [hnameText, hmodifiers]
    rfl

/-- A type that is declared has a header, and its body ends at a brace or not at all. -/
theorem declaredAt?_eq_some_iff {publicOnly : Bool} {s : Text} {m : Match Part}
    {found : TypeDecl × Span} :
    declaredAt? publicOnly s m = some found ↔
      ∃ outline tail, headerOf? false publicOnly (mask s) m = some (outline, tail) ∧
        ((∃ close, blockEnd? s tail.brace = some close ∧
            found = (withBody false outline (Text.slice s (tail.brace + 1) close)
              (declared false (Text.slice s (tail.brace + 1) close)), ⟨m.whole.start, close + 1⟩)) ∨
          (blockEnd? s tail.brace = none ∧
            found = ({ outline with }, ⟨m.whole.start, Text.byteLength s⟩))) := by
  unfold declaredAt?
  cases headerOf? false publicOnly (mask s) m with
  | none => simp
  | some header =>
    obtain ⟨outline, tail⟩ := header
    simp only [Option.some.injEq, Prod.mk.injEq]
    cases hclose : blockEnd? s tail.brace with
    | none =>
      constructor
      · intro h
        exact ⟨outline, tail, ⟨rfl, rfl⟩, .inr ⟨hclose, (Option.some.inj h).symm⟩⟩
      · rintro ⟨_, _, ⟨rfl, rfl⟩, ⟨close, hend, _⟩ | ⟨_, rfl⟩⟩
        · simp [hclose] at hend
        · rfl
    | some close =>
      constructor
      · intro h
        exact ⟨outline, tail, ⟨rfl, rfl⟩, .inl ⟨close, hclose, (Option.some.inj h).symm⟩⟩
      · rintro ⟨_, _, ⟨rfl, rfl⟩, ⟨close', hend, rfl⟩ | ⟨hend, _⟩⟩
        · obtain rfl := Option.some.inj (hclose.symm.trans hend)
          rfl
        · simp [hclose] at hend

theorem mem_declared {publicOnly : Bool} {s : Text} {m : Match Part}
    (hm : m ∈ Declaration.typeHeader.allMatches (mask s).text) {found : TypeDecl × Span}
    (h : declaredAt? publicOnly s m = some found) : found ∈ declared publicOnly s := by
  rw [declared_eq]
  exact List.mem_filterMap.mpr ⟨m, hm, h⟩

theorem start_of_declaredAt? {publicOnly : Bool} {s : Text} {m : Match Part}
    {found : TypeDecl × Span} (h : declaredAt? publicOnly s m = some found) :
    found.2.start = m.whole.start := by
  obtain ⟨_, _, _, ⟨_, _, rfl⟩ | ⟨_, rfl⟩⟩ := declaredAt?_eq_some_iff.mp h <;> rfl

-- ---------------------------------------------------------------------------
-- Types apart from a comment
-- ---------------------------------------------------------------------------

/-- No type reaches into a comment: its header and its body end before the comment, or its header
starts with the comment or after it. A header inside the comment stays there. -/
structure TypesApart (publicOnly : Bool) (s : Text) (block : Span) : Prop where
  headers : Declaration.typeHeader.Clear (mask s).text block
  bodies : ∀ found ∈ declared publicOnly s, found.2.start < block.start →
    found.2.stop ≤ block.start

instance (publicOnly : Bool) (s : Text) (block : Span) :
    Decidable (TypesApart publicOnly s block) :=
  decidable_of_iff (_ ∧ _) ⟨fun h => ⟨h.1, h.2⟩, fun h => ⟨h.headers, h.bodies⟩⟩

/-- A header inside a comment is prose. -/
theorem declaredAt?_eq_none_of_inside {publicOnly : Bool} {s : Text} {block : Span} {m : Match Part}
    (hshown : block ∈ (mask s).docs) (hclear : Declaration.typeHeader.Clear (mask s).text block)
    (hm : m ∈ Declaration.typeHeader.allMatches (mask s).text)
    (hstart : block.start < m.whole.start)
    (hlt : m.whole.start < block.stop) : declaredAt? publicOnly s m = none := by
  have hstop := (hclear m hm).2 hstart hlt
  refine Option.eq_none_iff_forall_ne_some.mpr fun found hfound => ?_
  obtain ⟨outline, tail, hheader, _⟩ := declaredAt?_eq_some_iff.mp hfound
  obtain ⟨kind, _, ⟨⟨part, hpart, hdoc, _, hkind⟩, _⟩, _⟩ := headerOf?_eq_some_iff.mp hheader
  have hin := Match.inside_of_get? (by rwa [allMatches_eq_matchesFrom] at hm) hpart
  have hne : part.start < part.stop := by
    by_contra hge
    have hempty : part.text = [] := by
      rw [Capture.text, Nat.sub_eq_zero_of_le (Nat.le_of_not_lt hge)]
      simp [Text.takeBytes]
    have hnone : TypeKind.ofKeyword? (String.ofList []) = none := by decide
    rw [hempty, hnone] at hkind
    cases hkind
  rw [inDoc_eq_true hshown (by omega) (by omega)] at hdoc
  cases hdoc

namespace Reworded.Views

variable {block : Span} {d d' before after front back s t : Text} {publicOnly : Bool}
  {m n : Match Part} {found : TypeDecl × Span}

theorem symm (h : Views block d d' before after front back s t) :
    Views block d' d before after front back t s :=
  ⟨h.view.symm, h.text.symm, h.docs.symm⟩

/-- A type before the comment is declared in both texts. -/
theorem declaredAt?_front (h : Views block d d' before after front back s t)
    (hs : TypesApart publicOnly s block)
    (hm : m ∈ Declaration.typeHeader.allMatches (mask s).text) (hmn : m.AgreesBut .doc n)
    (hstart : m.whole.start < block.start) (hfound : declaredAt? publicOnly s m = some found) :
    declaredAt? publicOnly t n = some found := by
  have hstop := (hs.headers m hm).1 hstart
  have hend := hs.bodies found (mem_declared hm hfound) (by rwa [start_of_declaredAt? hfound])
  obtain ⟨outline, tail, hheader, ⟨close, hclose, rfl⟩ | ⟨_, rfl⟩⟩ :=
    declaredAt?_eq_some_iff.mp hfound
  · simp only at hend
    have hbrace : tail.brace < close := by
      obtain ⟨_, _, _, _, _, rfl, _⟩ := blockEnd?_eq_some_iff.mp hclose
      omega
    rw [h.text.left] at hclose
    obtain ⟨hclose', hslice⟩ :=
      blockEnd?_append_of_lt hclose (by rw [h.text.start]; omega) (d' ++ back)
    rw [← h.text.right] at hclose' hslice
    rw [← h.text.left] at hslice
    refine declaredAt?_eq_some_iff.mpr ⟨outline, tail, ?_, .inl ⟨close, hclose', ?_⟩⟩
    · refine headerOf?_of_agreesBut hmn h.docs (fun c hc => ?_) (fun c hc htail => ?_) hheader
      · have hin := Match.inside_of_get? (by rwa [allMatches_eq_matchesFrom] at hm) hc
        rw [h.view.takeBytes_of_le (by omega)]
      · rw [h.view.left] at htail
        rw [h.view.right]
        exact headerTail_append_of_lt htail (by rw [h.view.start]; omega) _
    · rw [hslice, hmn.start]
  · -- a body without an end would reach behind the comment
    have hlt := h.text.start_lt_stop
    have hle := h.text.stop_le_byteLength
    simp only at hend
    omega

/-- The body of a type whose header is behind the comment opens behind it. -/
theorem stop_le_brace (hbehind : m.BehindBut .doc block.stop) {masked : Masked}
    {outline : TypeOutline} {tail : HeaderTail}
    (h : headerOf? false publicOnly masked m = some (outline, tail)) : block.stop ≤ tail.brace := by
  obtain ⟨_, name, hparts, _⟩ := headerOf?_eq_some_iff.mp h
  exact Nat.le_trans (hbehind.parts _ (by decide) _ hparts.hasName).2
    (le_brace_of_headerTail hparts.hasBody)

/-- A type that starts with the comment or after it is declared in both texts. -/
theorem declaredAt?_rest (h : Views block d d' before after front back s t)
    (hmn : m.AgreesBut .doc n) (hbehind : m.BehindBut .doc block.stop)
    (hfound : declaredAt? publicOnly s m = some found) :
    declaredAt? publicOnly t n = some found := by
  obtain ⟨outline, tail, hheader, hbody⟩ := declaredAt?_eq_some_iff.mp hfound
  obtain ⟨hclose, hslice⟩ := h.text.blockEnd?_of_le (stop_le_brace hbehind hheader)
  refine declaredAt?_eq_some_iff.mpr ⟨outline, tail, ?_, ?_⟩
  · refine headerOf?_of_agreesBut hmn h.docs (fun c hc => ?_) (fun c hc htail => ?_) hheader
    · exact h.view.getLast?_takeBytes_of_le (hbehind.parts _ (by decide) c hc).1
    · rw [← h.view.headerTail_of_le (hbehind.parts _ (by decide) c hc).2]
      exact htail
  · rcases hbody with ⟨close, hend, rfl⟩ | ⟨hend, rfl⟩
    · exact .inl ⟨close, by rw [← hclose, hend], by rw [hslice, hmn.start]⟩
    · exact .inr ⟨by rw [← hclose, hend], by rw [h.text.byteLength_eq, hmn.start]⟩

theorem around_typeHeader (h : Views block d d' before after front back s t)
    (hs : Declaration.typeHeader.Clear (mask s).text block)
    (ht : Declaration.typeHeader.Clear (mask t).text block) :
    Match.Around .doc block (Declaration.typeHeader.allMatches (mask s).text)
      (Declaration.typeHeader.allMatches (mask t).text) :=
  h.view.around (fun b => agreeAt_typeHeader h.view.isDoc h.view.isDoc' h.view.stop h.view.symm.stop
    b after) hs ht

/-- Levels that differ in a comment into which no type reaches declare the same types. -/
theorem declared_eq (h : Views block d d' before after front back s t)
    (hshown : block ∈ (mask s).docs) (hs : TypesApart publicOnly s block)
    (ht : TypesApart publicOnly t block) : declared publicOnly s = declared publicOnly t := by
  have hshown' : block ∈ (mask t).docs := h.docs ▸ hshown
  rw [Source.declared_eq, Source.declared_eq, List.filterMap_eq_flatMap_toList,
    List.filterMap_eq_flatMap_toList]
  refine (h.around_typeHeader hs.headers ht.headers).flatMap_eq ?_ ?_ ?_ ?_
  · intro m hm n hn hmn hstart
    refine congrArg Option.toList (Option.ext fun found => ⟨?_, ?_⟩)
    · exact h.declaredAt?_front hs hm hmn hstart
    · exact h.symm.declaredAt?_front ht hn hmn.symm (hmn.start ▸ hstart)
  · intro m hm hstart hlt
    rw [declaredAt?_eq_none_of_inside hshown hs.headers hm hstart hlt, Option.toList_none]
  · intro n hn hstart hlt
    rw [declaredAt?_eq_none_of_inside hshown' ht.headers hn hstart hlt, Option.toList_none]
  · intro m hm n hn hmn _ hbehind
    refine congrArg Option.toList (Option.ext fun found => ⟨?_, ?_⟩)
    · exact h.declaredAt?_rest hmn hbehind
    · exact h.symm.declaredAt?_rest hmn.symm (hmn.behindBut hbehind)

/-- A type ends before the comment, takes it as its own or starts after it. -/
theorem span_cases (h : Views block d d' before after front back s t)
    (hshown : block ∈ (mask s).docs) (hs : TypesApart publicOnly s block)
    (ht : TypesApart publicOnly t block) (hfound : found ∈ declared publicOnly s) :
    (found.2.start < block.start ∧ found.2.stop ≤ block.start) ∨
      (found.2.start = block.start ∧ block.stop ≤ found.2.stop) ∨ block.stop ≤ found.2.start := by
  have hmem := hfound
  rw [Source.declared_eq] at hmem
  obtain ⟨m, hm, hat⟩ := List.mem_filterMap.mp hmem
  have hstart := start_of_declaredAt? hat
  by_cases hbefore : found.2.start < block.start
  · exact .inl ⟨hbefore, hs.bodies found hfound hbefore⟩
  · by_cases hequal : found.2.start = block.start
    · have hbehind := (h.around_typeHeader hs.headers ht.headers).behindBut_of_start_eq hm
        (hstart ▸ hequal)
      refine .inr (.inl ⟨hequal, ?_⟩)
      obtain ⟨outline, tail, hheader, ⟨close, hclose, rfl⟩ | ⟨_, rfl⟩⟩ :=
        declaredAt?_eq_some_iff.mp hat
      · have hbrace := stop_le_brace hbehind hheader
        obtain ⟨_, _, _, _, _, hend, _⟩ := blockEnd?_eq_some_iff.mp hclose
        simp only
        omega
      · exact h.text.stop_le_byteLength
    · refine .inr (.inr ?_)
      by_contra hinside
      rw [declaredAt?_eq_none_of_inside hshown hs.headers hm (by omega) (by omega)] at hat
      cases hat

/-- The members of levels that differ in a comment: they are the same when a type has taken the
comment as its own, and else differ in the comment only. -/
theorem membersIn_cases (h : Views block d d' before after front back s t)
    (hshown : block ∈ (mask s).docs) (hs : TypesApart false s block)
    (ht : TypesApart false t block) :
    membersIn s = membersIn t ∨ (∀ found ∈ declared false s, found.2.start ≠ block.start) ∧
      ∃ before' after', Swap block d d' before' after' (membersIn s) (membersIn t) := by
  have hspans := h.declared_eq hshown hs ht
  let hidden := Span.covers ((declared false s).map (·.2))
  have hparts : ∀ w : Text, block.start + Text.byteLength w = block.stop →
      Text.blankWhere hidden 0 (before ++ (w ++ after)) = Text.blankWhere hidden 0 before ++
        (Text.blankWhere hidden block.start w ++ Text.blankWhere hidden block.stop after) := by
    intro w hw
    rw [Text.blankWhere_append, Text.blankWhere_append, Nat.zero_add, h.view.start, hw]
  unfold membersIn
  rw [← hspans, Text.blank_eq_blankWhere, Text.blank_eq_blankWhere, h.view.left, h.view.right,
    hparts d h.view.stop, hparts d' h.view.symm.stop]
  by_cases hown : ∃ found ∈ declared false s, found.2.start = block.start
  · obtain ⟨found, hfound, hstart⟩ := hown
    have hhidden : ∀ i, block.start ≤ i → i < block.stop → hidden i = true := by
      intro i hlo hhi
      refine Span.covers_eq_true_iff.mpr ⟨found.2, List.mem_map_of_mem hfound, ?_⟩
      rcases h.span_cases hshown hs ht hfound with ⟨hcase, _⟩ | ⟨_, hcase⟩ | hcase <;> omega
    have hall : ∀ w : Text, block.start + Text.byteLength w = block.stop →
        Text.blankWhere hidden block.start w = Text.blankAll w :=
      fun w hw => Text.blankWhere_of_hidden (hw ▸ hhidden)
    rw [hall d h.view.stop, hall d' h.view.symm.stop, h.view.blank]
    exact .inl rfl
  · simp only [not_exists, not_and] at hown
    have hseen : ∀ i, block.start ≤ i → i < block.stop → hidden i = false := by
      intro i hlo hhi
      refine Span.covers_eq_false_iff.mpr fun span hspan => ?_
      obtain ⟨found, hfound, rfl⟩ := List.mem_map.mp hspan
      rcases h.span_cases hshown hs ht hfound with ⟨_, hcase⟩ | ⟨hcase, _⟩ | hcase
      · omega
      · exact absurd hcase (hown found hfound)
      · omega
    have hnone : ∀ w : Text, block.start + Text.byteLength w = block.stop →
        Text.blankWhere hidden block.start w = w :=
      fun w hw => Text.blankWhere_of_shown (hw ▸ hseen)
    rw [hnone d h.view.stop, hnone d' h.view.symm.stop]
    exact .inr ⟨hown, _, _, rfl, rfl, h.view.isDoc, h.view.isDoc', h.view.blank,
      by rw [Text.byteLength_blankWhere, h.view.start], h.view.stop⟩

end Reworded.Views

end Typings.Source
