import Typings.Proofs.Source.Bodies
import Typings.Proofs.Source.Levels
import Typings.Proofs.Source.Remasking

/-!
# Captured documentation

The documentation of a declaration is what its pattern takes for a comment in the view in which the
declaration was found. It is the text of a documentation comment of the level exactly when neither
the declaration nor a type blanked in its view starts strictly inside the comment around it. Main
statement: `docs_captured`.
-/

namespace Typings.Source

open Declaration Pattern

-- ---------------------------------------------------------------------------
-- The group of a comment
-- ---------------------------------------------------------------------------

/-- The group of a comment starts where the match starts. -/
theorem start_of_get?_doc {p : Shape}
    (hrun : ∀ next r, p.run next r = (opt (group .doc docComment)).run
      ((withoutFirst p).run next) r)
    (hgroups : .doc ∉ (withoutFirst p).groups) {s : Text} {m : Match Part} (hm : m ∈ p.allMatches s)
    {c : Capture} (hc : m.get? .doc = some c) : c.start = m.whole.start := by
  obtain ⟨r, e, _, he, rfl⟩ := exists_run_of_mem_allMatches hm
  rw [hrun] at he
  rcases Option.or_eq_some_iff.mp he with he | ⟨_, he⟩
  · obtain ⟨f, _, rfl⟩ := Option.map_eq_some_iff.mp he
    have hopen : (matchOf r (f.opened .doc r)).opening? .doc = some (r.pos, r.rest) := by
      simp [matchOf, Ending.opened, Match.opening?]
    unfold Match.get? at hc
    rw [hopen] at hc
    split at hc
    · rename_i heq _
      obtain ⟨rfl, rfl⟩ := Prod.mk.inj (Option.some.inj heq)
      obtain rfl := Option.some.inj hc
      rfl
    · cases hc
  · -- without a comment no group of its name takes part
    have hrest : (withoutFirst p).run done r = some e := he
    obtain ⟨_, f, marks, hf, rfl, _, hin⟩ := passedOn_of_run hrest
    obtain rfl := Option.some.inj hf
    have hopened := (Match.exists_mem_marks_of_get? hc).1
    simp only [matchOf, Ending.marked, List.append_nil] at hopened
    exact absurd (hin _ hopened).1 hgroups

/-- A declaration pattern starts with an optional comment. -/
structure StartsWithDoc (p : Shape) : Prop where
  run : ∀ next r, p.run next r = (opt (group .doc docComment)).run ((withoutFirst p).run next) r
  groups : .doc ∉ (withoutFirst p).groups
  bodies : p.bodies .doc = [docComment]

theorem startsWithDoc_typeHeader : StartsWithDoc typeHeader := ⟨fun _ _ => rfl, by decide, rfl⟩

theorem startsWithDoc_method : StartsWithDoc method := ⟨fun _ _ => rfl, by decide, rfl⟩

theorem startsWithDoc_field : StartsWithDoc field := ⟨fun _ _ => rfl, by decide, rfl⟩

/-- The documentation of a match stands where the match starts, and ends with its first `*/`. -/
theorem exists_of_docOf {p : Shape} (hp : StartsWithDoc p) {docs : Bool} {s : Text} {m : Match Part}
    (hm : m ∈ p.allMatches s) {d : String} (hd : docOf docs m = some d) :
    docs = true ∧ ∃ u r t, d.toList = '/' :: '*' :: '*' :: r ∧ Closes r ∧ s = u ++ (d.toList ++ t) ∧
      Text.byteLength u = m.whole.start := by
  unfold docOf at hd
  split at hd
  · rename_i hdocs
    obtain ⟨c, hc, rfl⟩ := Option.map_eq_some_iff.mp hd
    obtain ⟨q, hq, hmem⟩ := exists_mem_language_of_get? (g := .doc)
      (by rw [hp.bodies]; decide) hm hc
    rw [hp.bodies, List.mem_singleton] at hq
    subst hq
    obtain ⟨w, hw, sp, hsp, hsplit⟩ : ∃ w ∈ docBody.language, ∃ sp ∈ spaces.language,
        w ++ sp = c.text :=
      mem_language_seq.mp hmem
    obtain ⟨r, rfl, hr⟩ := mem_language_docBody.mp hw
    obtain ⟨prose, hprose⟩ := hr.exists_eq_append
    have hlast : ∃ cs c, '/' :: '*' :: '*' :: r = cs ++ [c] ∧ Text.isSpace c = false :=
      ⟨'/' :: '*' :: '*' :: (prose ++ ['*']), '/', by simp [hprose], by decide⟩
    have htext : (String.ofList (Text.trimEnd c.text)).toList = '/' :: '*' :: '*' :: r := by
      rw [String.toList_ofList, ← hsplit, Text.trimEnd_append hlast (mem_language_star_char.mp hsp)]
    obtain ⟨u, hu, hlen⟩ := Text.suffixAt?_eq_some_iff.mp
      ((isOn_of_mem_allMatches hm).groups _ _ hc).1
    have htail : c.tail = c.text ++ Text.dropBytes (c.stop - c.start) c.tail :=
      (Text.takeBytes_append_dropBytes _ _).symm
    refine ⟨hdocs, u, r, sp ++ Text.dropBytes (c.stop - c.start) c.tail, htext, hr, ?_, ?_⟩
    · rw [htext, ← List.append_assoc ('/' :: '*' :: '*' :: r), hsplit, ← htail, hu]
    · rw [hlen, start_of_get?_doc hp.run hp.groups hm hc]
  · cases hd

-- ---------------------------------------------------------------------------
-- Comments of a level
-- ---------------------------------------------------------------------------

/-- Some token holds each character of a text. -/
theorem exists_token_of_append {ts : List Token} {u t : Text} {c : Char}
    (h : ts.flatMap Token.text = u ++ c :: t) :
    ∃ before tok after a b, ts = before ++ tok :: after ∧
      tok.text = a ++ c :: b ∧ u = before.flatMap Token.text ++ a ∧
      t = b ++ after.flatMap Token.text := by
  induction ts generalizing u with
  | nil => simp at h
  | cons tok ts ih =>
    rw [List.flatMap_cons] at h
    rcases List.append_eq_append_iff.mp h with ⟨m, rfl, hm⟩ | ⟨m, hm, hrest⟩
    · obtain ⟨before, tok', after, a, b, rfl, htok, rfl, rfl⟩ := ih hm
      exact ⟨tok :: before, tok', after, a, b, by simp, htok, by simp, rfl⟩
    · cases m with
      | nil =>
        obtain ⟨before, tok', after, a, b, rfl, htok, ha, rfl⟩ := ih (u := []) hrest.symm
        refine ⟨tok :: before, tok', after, a, b, by simp, htok, ?_, rfl⟩
        rw [List.append_nil] at hm
        rw [List.flatMap_cons, List.append_assoc, ← ha, List.append_nil, hm]
      | cons d m =>
        obtain ⟨rfl, rfl⟩ := List.cons.inj hrest
        exact ⟨[], tok, ts, u, m, by simp, hm, by simp, rfl⟩

/-- The comments and literals of a view are documentation comments of the level. -/
theorem exists_doc_of_shownTokens {depth : Nat} {ts before after : List Token} {kind : Trivia}
    {d : Text}
    (h : shownTokens depth ts = before ++ .trivia kind d :: after) : ∃ vs us,
      ts = vs ++ .trivia .doc d :: us ∧ depthAfter depth vs = 0 ∧
      Text.byteLength (vs.flatMap Token.text) = Text.byteLength (before.flatMap Token.text) := by
  induction ts generalizing depth before with
  | nil => simp [shownTokens] at h
  | cons tok ts ih =>
    have hlen : Text.byteLength ((tok.inView depth).flatMap Token.text) =
        Text.byteLength tok.text := by
      rw [flatMap_text_shown, byteLength_shown, List.flatMap_cons, List.flatMap_nil,
        List.append_nil]
    rw [shownTokens] at h
    rcases List.append_eq_append_iff.mp h with ⟨m, rfl, hm⟩ | ⟨m, hm, hrest⟩
    · obtain ⟨vs, us, rfl, hdepth, hvs⟩ := ih hm
      exact ⟨tok :: vs, us, rfl, hdepth, by simp [hvs, hlen]⟩
    · cases m with
      | nil =>
        have hlater : shownTokens (tok.depthAfter depth) ts = [] ++ .trivia kind d :: after :=
          hrest.symm
        obtain ⟨vs, us, rfl, hdepth, hvs⟩ := ih hlater
        rw [List.append_nil] at hm
        exact ⟨tok :: vs, us, rfl, hdepth, by simp [hvs, ← hm, hlen]⟩
      | cons first m =>
        obtain ⟨rfl, _⟩ := List.cons.inj hrest
        have hmem : .trivia kind d ∈ tok.inView depth := by simp [hm]
        cases tok with
        | code c =>
          simp only [Token.inView] at hmem
          split at hmem <;> simp at hmem
        | trivia kind' text =>
          simp only [Token.inView] at hm hmem
          split at hmem
          · rename_i hdoc
            rw [if_pos hdoc] at hm
            obtain ⟨rfl, rfl⟩ := hdoc
            obtain ⟨rfl, rfl⟩ : kind = .doc ∧ d = text := by simpa using hmem
            have hbefore : before = [] := by
              cases before with
              | nil => rfl
              | cons b before => simp at hm
            exact ⟨[], ts, rfl, rfl, by rw [hbefore]⟩
          · simp at hmem

/-- A comment that a view shows starts in a documentation comment of the level. -/
theorem exists_doc_of_shown {s u t : Text} (h : (mask s).text = u ++ '/' :: '*' :: t) :
    ∃ block ∈ (mask s).docs, block.start ≤ Text.byteLength u ∧ Text.byteLength u < block.stop := by
  rw [← flatMap_text_tokens (mask s).text] at h
  obtain ⟨before, tok, after, a, b, htokens, htok, rfl, hb⟩ := exists_token_of_append h
  cases tok with
  | code c =>
    -- code is no comment
    obtain ⟨rfl, rfl, rfl⟩ : a = [] ∧ c = '/' ∧ b = [] := by
      have hsingle : [c] = a ++ '/' :: b := htok
      cases a with
      | nil => simpa using hsingle
      | cons e a => simp at hsingle
    have hsuffix := tokens_flatMap_text htokens
    rw [List.flatMap_cons, ← List.nil_append (after.flatMap Token.text), ← hb] at hsuffix
    have hopens : triviaAt? '/' ('*' :: t) ≠ none := fun hnone =>
      ((triviaAt?_eq_none_iff.mp hnone).2.2 rfl).2 rfl
    obtain ⟨⟨kind, n⟩, hfound⟩ := Option.ne_none_iff_exists'.mp hopens
    have htrivia : tokens ('/' :: '*' :: t) = .code '/' :: after := hsuffix
    rw [tokens_of_triviaAt? hfound] at htrivia
    cases (List.cons.inj htrivia).1
  | trivia kind d =>
    rw [mask_text_eq_shown, tokens_shown] at htokens
    obtain ⟨vs, us, hs, hdepth, hlen⟩ := exists_doc_of_shownTokens htokens
    refine ⟨_, mem_docs_iff.mpr ⟨vs, d, us, hs, hdepth, rfl⟩, ?_, ?_⟩
    · simp [hlen]
    · have hd : d = a ++ '/' :: b := htok
      have hslash := Char.utf8Size_pos '/'
      simp only [hlen, hd, Text.byteLength_append, Text.byteLength_cons]
      omega

/-- A comment that the pattern of comments takes from its start is taken whole. -/
theorem eq_of_doc_token {s d : Text} {ts us : List Token}
    (h : tokens s = ts ++ .trivia .doc d :: us)
    {r after t : Text} (hr : Closes r) (hafter : us = [] → after = [])
    (heq : d ++ after = '/' :: '*' :: '*' :: (r ++ t)) :
    d = '/' :: '*' :: '*' :: r ∧ r.head? ≠ some '/' := by
  obtain ⟨rest, hhead, rfl, rfl⟩ := exists_of_tokens_eq_doc h
  have hinside : rest.take (commentRest rest) ++ after = r ++ t := by simpa using heq
  have hsame : rest.take (commentRest rest) = r := by
    rcases closes_take_or rest with hclosed | ⟨hall, _⟩
    · exact hclosed.eq_of_append hr hinside
    · -- a comment that nothing closes runs to the end, so nothing is shown behind it
      have hnil : rest.drop (commentRest rest) = [] := by
        have hsplit := List.take_append_drop (commentRest rest) rest
        rw [hall] at hsplit
        exact List.append_cancel_left (hsplit.trans (List.append_nil rest).symm)
      rw [hafter (by rw [hnil]; rfl), List.append_nil, hall] at hinside
      rw [hinside, hr t, List.take_left]
  exact ⟨by rw [hsame], hsame ▸ head?_take_ne hhead _⟩

-- ---------------------------------------------------------------------------
-- Documentation of a level
-- ---------------------------------------------------------------------------

/-- Whether none of some offsets lies strictly inside a span. -/
def NoneInside (starts : List Nat) (block : Span) : Prop :=
  ∀ i ∈ starts, i ≤ block.start ∨ block.stop ≤ i

instance (starts : List Nat) (block : Span) : Decidable (NoneInside starts block) :=
  inferInstanceAs (Decidable (∀ i ∈ starts, _))

/-- Whether a text is that of the documentation comment of a level that starts at an offset. -/
def IsDocAt (level : Text) (start : Nat) (d : Text) : Prop :=
  ∃ block ∈ (mask level).docs, block.start = start ∧ d = Text.slice level block.start block.stop

/-- What a view shows around a comment, and the comment itself. -/
theorem exists_doc_of_mem_docs {level : Text} {block : Span} (h : block ∈ (mask level).docs) :
    ∃ ts d us, tokens level = ts ++ .trivia .doc d :: us ∧
      (mask level).text = shown 0 ts ++ (d ++ shown 0 us) ∧
      Text.byteLength (shown 0 ts) = block.start ∧
      block.stop = block.start + Text.byteLength d ∧
      Text.slice level block.start block.stop = d := by
  obtain ⟨ts, d, us, hts, hdepth, rfl⟩ := mem_docs_iff.mp h
  refine ⟨ts, d, us, hts, ?_, byteLength_shown 0 ts, rfl, ?_⟩
  · rw [mask_text_eq_shown, hts, shown_append_doc, hdepth]
    rfl
  · rw [eq_append_of_tokens_eq hts, Text.slice, Text.dropBytes_append, Nat.add_sub_cancel_left,
      Token.text,
      Text.takeBytes_append]

/-- One comment holds an offset. -/
theorem eq_of_mem_docs {level : Text} {block other : Span} (hblock : block ∈ (mask level).docs)
    (hother : other ∈ (mask level).docs) {i : Nat} (hi : block.start ≤ i ∧ i < block.stop)
    (hi' : other.start ≤ i ∧ i < other.stop) : block = other := by
  rw [mask_eq] at hblock hother
  have hapart : ((outer 0 0 (tokens level)).filterMap docSpan?).Pairwise fun s t =>
      s.stop ≤ t.start ∨ t.stop ≤ s.start := (pairwise_docs 0 0 (tokens level)).imp .inl
  have hsymm : Std.Symm fun s t : Span => s.stop ≤ t.start ∨ t.stop ≤ s.start :=
    ⟨fun _ _ h => h.symm⟩
  by_contra hne
  have := hapart.forall hblock hother hne
  omega

section Level

variable {level u t d r : Text} {spans : List Span} {start : Nat}

/-- What is shown of a comment of the level when spans are blanked. -/
theorem blank_eq_append (spans : List Span) {ts us : List Token} {text : Text} {block : Span}
    (hmask : (mask level).text = shown 0 ts ++ (text ++ shown 0 us))
    (hlen : Text.byteLength (shown 0 ts) = block.start)
    (hstop : block.stop = block.start + Text.byteLength text) :
    ∃ before, Text.byteLength before = block.start ∧ Text.blank (mask level).text spans =
      before ++ (Text.blankWhere (Span.covers spans) block.start text ++
        Text.blankWhere (Span.covers spans) block.stop (shown 0 us)) := by
  refine ⟨Text.blankWhere (Span.covers spans) 0 (shown 0 ts),
    by rw [Text.byteLength_blankWhere, hlen], ?_⟩
  rw [Text.blank_eq_blankWhere, hmask, Text.blankWhere_append, Text.blankWhere_append,
    Nat.zero_add, hlen,
    ← hstop]

/-- Where a comment is shown although spans are blanked, there is a comment of the level. -/
theorem exists_doc_of_blank (h : Text.blank (mask level).text spans = u ++ '/' :: '*' :: t) :
    (∃ block ∈ (mask level).docs, block.start ≤ Text.byteLength u ∧
      Text.byteLength u < block.stop) ∧
      Span.covers spans (Text.byteLength u) = false := by
  rw [Text.blank_eq_blankWhere] at h
  obtain ⟨u', t', hu, hlen, hshown, ht⟩ := Text.exists_append_of_blankWhere (by decide) h
  obtain ⟨v, t'', rfl, hv, _⟩ := Text.exists_append_of_blankWhere (u := []) (by decide) ht.symm
  obtain rfl : v = [] := by
    cases v with
    | nil => rfl
    | cons c v =>
      have := c.utf8Size_pos
      rw [Text.byteLength_cons, Text.byteLength_nil] at hv
      omega
  rw [Nat.zero_add] at hshown
  exact ⟨hlen ▸ exists_doc_of_shown hu, hshown⟩

/-- A comment in which no span is blanked is taken whole. -/
theorem isDocAt_of_noneInside (hview : Text.blank (mask level).text spans = u ++ (d ++ t))
    (hstart : Text.byteLength u = start) (hd : d = '/' :: '*' :: '*' :: r) (hr : Closes r)
    (hnone : ∀ block ∈ (mask level).docs, block.start ≤ start → start < block.stop →
      NoneInside (start :: spans.map Span.start) block) :
    IsDocAt level start d ∧ r.head? ≠ some '/' := by
  obtain ⟨⟨block, hblock, hle, hlt⟩, hshown⟩ :=
    exists_doc_of_blank (t := '*' :: (r ++ t)) (by rw [hview, hd]; rfl)
  rw [hstart] at hle hlt hshown
  have hinside := hnone block hblock hle hlt
  have hfirst : block.start = start := by
    have := hinside start (by simp)
    omega
  obtain ⟨ts, text, us, hts, hmask, hlen, hstop, hslice⟩ := exists_doc_of_mem_docs hblock
  obtain ⟨before, hbefore, hblank⟩ := blank_eq_append spans hmask hlen hstop
  have hwhole : Text.blankWhere (Span.covers spans) block.start text = text := by
    refine Text.blankWhere_of_shown fun i hi hlt' => Span.covers_eq_false_iff.mpr fun s hs hsi => ?_
    have houtside := hinside s.start (by simpa using .inr ⟨s, hs, rfl⟩)
    have hends := Span.covers_eq_false_iff.mp hshown s hs
    omega
  rw [hview, hwhole] at hblank
  obtain ⟨_, hrest⟩ := Text.append_inj_of_byteLength hblank (by rw [hstart, hbefore, hfirst])
  have hnil : us = [] → Text.blankWhere (Span.covers spans) block.stop (shown 0 us) = [] := by
    rintro rfl
    rfl
  obtain ⟨htext, hhead⟩ := eq_of_doc_token hts (t := t) hr hnil (by rw [← hrest, hd]; rfl)
  exact ⟨⟨block, hblock, hfirst, by rw [hslice, hd, htext]⟩, hhead⟩

/-- In a comment that is taken whole no span is blanked. -/
theorem noneInside_of_isDocAt (hview : Text.blank (mask level).text spans = u ++ (d ++ t))
    (hstart : Text.byteLength u = start) (hd : d = '/' :: '*' :: '*' :: r)
    (hspans : ∀ s ∈ spans, s.start < s.stop ∧ ∃ x c y, (mask level).text = x ++ c :: y ∧
      Text.byteLength x = s.start ∧ c ≠ ' ' ∧ c ≠ '\n')
    (h : IsDocAt level start d) {block : Span} (hblock : block ∈ (mask level).docs)
    (hle : block.start ≤ start) (hlt : start < block.stop) :
    NoneInside (start :: spans.map Span.start) block := by
  obtain ⟨own, hown, hfirst, hsame⟩ := h
  obtain ⟨ts, text, us, hts, hmask, hlen, hstop, hslice⟩ := exists_doc_of_mem_docs hown
  rw [hslice] at hsame
  have hpos : 0 < Text.byteLength d := by
    have := Char.utf8Size_pos '/'
    rw [hd, Text.byteLength_cons]
    omega
  obtain rfl := eq_of_mem_docs hblock hown ⟨hle, hlt⟩ ⟨by omega, by rw [hstop, ← hsame]; omega⟩
  obtain ⟨before, hbefore, hblank⟩ := blank_eq_append spans hmask hlen hstop
  rw [hview] at hblank
  obtain ⟨_, hrest⟩ := Text.append_inj_of_byteLength hblank (by rw [hstart, hbefore, hfirst])
  have hwhole := (Text.append_inj_of_byteLength hrest (by rw [Text.byteLength_blankWhere, hsame])).1
  intro i hi
  rcases List.mem_cons.mp hi with rfl | hi
  · exact .inl (Nat.le_of_eq hfirst.symm)
  obtain ⟨s, hs, rfl⟩ := List.mem_map.mp hi
  by_contra hinside
  rw [not_or, Nat.not_le, Nat.not_le] at hinside
  obtain ⟨hne, x, c, y, hx, hxlen, hc⟩ := hspans s hs
  -- the first character of the span stands in the comment, where it would be blank
  rw [hmask] at hx
  obtain ⟨a, rfl, ha⟩ := Text.exists_append_of_byteLength_le hx (by omega)
  rw [Text.byteLength_append, hlen] at hxlen
  obtain ⟨b, rfl, hb⟩ := Text.exists_append_of_byteLength_le ha.symm (by omega)
  cases b with
  | nil => simp at hstop; omega
  | cons e b =>
    obtain ⟨rfl, _⟩ := List.cons.inj hb
    obtain ⟨_, _, _, _, hshown, _⟩ := Text.exists_append_of_blankWhere hc (hwhole.symm.trans hsame)
    rw [hxlen] at hshown
    have := Span.covers_eq_false_iff.mp hshown s hs (Nat.le_refl _)
    omega

end Level

-- ---------------------------------------------------------------------------
-- Spans of types
-- ---------------------------------------------------------------------------

/-- A type starts with a character that is neither a space nor a newline. -/
theorem exists_append_of_mem_typeHeader {s : Text} {m : Match Part}
    (hm : m ∈ typeHeader.allMatches s) :
    ∃ x c y, s = x ++ c :: y ∧ Text.byteLength x = m.whole.start ∧ c ≠ ' ' ∧ c ≠ '\n' := by
  obtain ⟨⟨b, pos, rest⟩, e, hon, he, rfl⟩ := exists_run_of_mem_allMatches hm
  obtain ⟨w, t, _, _, hw, hrest, _⟩ := goesOn_of_run he
  obtain ⟨x, rfl, hx⟩ := Text.suffixAt?_eq_some_iff.mp hon
  cases w with
  | nil => exact absurd (nullable_of_nil_mem hw) (by decide)
  | cons c w =>
    have hopens : typeHeader.opensWith ' ' = false ∧ typeHeader.opensWith '\n' = false := by decide
    have hc := opensWith_of_cons_mem hw
    refine ⟨x, c, w ++ t, by simpa using hrest, hx, ?_, ?_⟩ <;> rintro rfl <;> simp [hopens] at hc

theorem span_of_mem_typesIn {docs publicOnly : Bool} {fuel : Nat} {text : Text} {d : TypeDecl}
    {span : Span}
    (h : (d, span) ∈ typesIn docs fuel publicOnly text) :
    span.start < span.stop ∧ ∃ x c y, (mask text).text = x ++ c :: y ∧
    Text.byteLength x = span.start ∧
      c ≠ ' ' ∧ c ≠ '\n' := by
  cases fuel with
  | zero => cases h
  | succ fuel =>
    rw [typesIn_succ] at h
    obtain ⟨m, hm, hfound⟩ := List.mem_filterMap.mp h
    obtain ⟨x, c, y, hx, hlen, hc⟩ := exists_append_of_mem_typeHeader hm
    unfold typeOf? at hfound
    split at hfound
    · cases hfound
    · rename_i outline tail hheader
      split at hfound
      · rename_i close hclose
        obtain ⟨_, rfl⟩ := Prod.mk.inj (Option.some.inj hfound)
        obtain ⟨_, name, hparts, _⟩ := headerOf?_eq_some_iff.mp hheader
        have hin := Match.inside_of_get? (by rwa [allMatches_eq_matchesFrom] at hm) hparts.hasName
        have hbrace := le_brace_of_headerTail hparts.hasBody
        obtain ⟨_, _, _, _, _, rfl, _⟩ := blockEnd?_eq_some_iff.mp hclose
        refine ⟨?_, x, c, y, hx, hlen, hc⟩
        simp only
        omega
      · obtain ⟨_, rfl⟩ := Prod.mk.inj (Option.some.inj hfound)
        refine ⟨?_, x, c, y, hx, hlen, hc⟩
        have hsize := congrArg Text.byteLength hx
        rw [mask_text_eq_shown, byteLength_shown, flatMap_text_tokens, Text.byteLength_append,
          Text.byteLength_cons] at hsize
        have := c.utf8Size_pos
        simp only
        omega

-- ---------------------------------------------------------------------------
-- Every depth
-- ---------------------------------------------------------------------------

/-- The spans of the types in a body. -/
def nestedSpans (body : Text) : List Span := (typesIn true (body.length + 1) false body).map (·.2)

/-- The text in which the members of a body are searched. -/
def memberView (body : Text) : Text := Text.blank (mask body).text (nestedSpans body)

/-- The matches that declare something at a level, each with the spans that are blanked in the view
in which it is found. -/
inductive Declares (publicOnly : Bool) (level : Text) : Match Part → List Span → Prop
  | type {m : Match Part} (hm : m ∈ typeHeader.allMatches (mask level).text)
      (hreported : (headerOf? true publicOnly (mask level) m).isSome) :
      Declares publicOnly level m []
  | method {m : Match Part} (hm : m ∈ method.allMatches (memberView level))
      (hreported : (methodOf? true (memberView level) m).isSome) :
      Declares publicOnly level m (nestedSpans level)
  | field {m : Match Part} (hm : m ∈ field.allMatches (memberView level))
      (hreported : fieldsOf true (memberView level) m ≠ []) :
      Declares publicOnly level m (nestedSpans level)

/-- The documentation of a type, its methods and its fields. -/
def docsOf (d : TypeDecl) : List String :=
  d.doc.toList ++ (d.methods.filterMap Method.doc ++ d.fields.filterMap Field.doc)

/-- Documentation comes from a match of a declaration at some level. -/
structure Captured (source : Text) (publicOnly : Bool) (level : Text) (m : Match Part)
    (spans : List Span)
    (doc : String) : Prop where
  isLevel : IsLevel source publicOnly level
  declares : Declares publicOnly level m spans
  docOf_eq : docOf true m = some doc

theorem docOf_eq_some {docs : Bool} {m : Match Part} {doc : String} (h : docOf docs m = some doc) :
    docs = true := by
  cases docs with
  | true => rfl
  | false => cases h

section Members

variable {docs : Bool} {members : Text} {doc : String}

theorem exists_of_mem_methods_doc (h : doc ∈ (methods docs members).filterMap Method.doc) :
    ∃ m ∈ method.allMatches members, (methodOf? docs members m).isSome ∧
    docOf docs m = some doc := by
  obtain ⟨found, hfound, hdoc⟩ := List.mem_filterMap.mp h
  obtain ⟨m, hm, hmethod⟩ := List.mem_filterMap.mp hfound
  refine ⟨m, hm, by rw [hmethod]; rfl, ?_⟩
  simp only [methodOf?] at hmethod
  split at hmethod
  · cases hmethod
  · split at hmethod
    · cases hmethod
    · obtain rfl := Option.some.inj hmethod
      exact hdoc

theorem exists_of_mem_fields_doc (h : doc ∈ (fields docs members).filterMap Field.doc) :
    ∃ m ∈ field.allMatches members, fieldsOf docs members m ≠ [] ∧ docOf docs m = some doc := by
  obtain ⟨found, hfound, hdoc⟩ := List.mem_filterMap.mp h
  obtain ⟨m, hm, hfield⟩ := List.mem_flatMap.mp hfound
  refine ⟨m, hm, List.ne_nil_of_mem hfield, ?_⟩
  simp only [fieldsOf] at hfield
  split at hfield
  · cases hfield
  · obtain ⟨_, _, rfl⟩ := List.mem_map.mp hfield
    exact hdoc

end Members

/-- The documentation of each declaration of a file, at any depth, is captured at a level. -/
theorem captured_of_mem_placed {docs : Bool} {source : String} {p : Placed}
    (hp : p ∈ (extract docs source).placed) {doc : String} (hdoc : doc ∈ docsOf p.decl) :
    ∃ publicOnly level m spans, Captured source.toList publicOnly level m spans doc := by
  obtain ⟨publicOnly, level, fuel, m, outline, hlevel, hfuel, hm, ⟨tail, hheader⟩, hfound⟩ :=
    foundAt_of_mem_placed hp
  obtain ⟨kind, name, _, houtline⟩ := headerOf?_eq_some_iff.mp hheader
  have hown : doc ∈ outline.doc → ∃ publicOnly level m spans,
      Captured source.toList publicOnly level m spans doc := by
    intro hdoc
    have hdocOf : docOf docs m = some doc := by rwa [houtline] at hdoc
    obtain rfl := docOf_eq_some hdocOf
    exact ⟨_, _, m, [], hlevel, .type hm (by rw [hheader]; rfl), hdocOf⟩
  generalize p.decl = decl at hfound hdoc
  cases hfound with
  | unclosed =>
    refine hown ?_
    rw [houtline] at hdoc ⊢
    simpa [docsOf, outlineOf] using hdoc
  | @body body hbody hlt =>
    -- the nested types do not depend on the fuel
    have hview : docs = true → Text.blank (mask body).text
        ((typesIn docs fuel false body).map (·.2)) =
        memberView body := by
      rintro rfl
      rw [memberView, nestedSpans, (Indistinct.refl false body).typesIn_eq true
        (by omega : _ < fuel)
        (Nat.lt_succ_self _)]
    simp only [docsOf, withBody, List.mem_append] at hdoc
    rcases hdoc with hdoc | hdoc | hdoc
    · exact hown (by simpa using hdoc)
    · obtain ⟨n, hn, hreported, hdocOf⟩ := exists_of_mem_methods_doc hdoc
      obtain rfl := docOf_eq_some hdocOf
      rw [hview rfl] at hn hreported
      exact ⟨_, _, n, _, hbody, .method hn hreported, hdocOf⟩
    · split at hdoc
      · cases hdoc
      · obtain ⟨n, hn, hreported, hdocOf⟩ := exists_of_mem_fields_doc hdoc
        obtain rfl := docOf_eq_some hdocOf
        rw [hview rfl] at hn hreported
        exact ⟨_, _, n, _, hbody, .field hn hreported, hdocOf⟩

-- ---------------------------------------------------------------------------
-- Whole comments
-- ---------------------------------------------------------------------------

/-- Whether a text is that of the documentation comment of a level that starts at an offset, and
ends at its only `*/`. -/
structure IsWholeDoc (level : Text) (start : Nat) (d : Text) : Prop where
  isDocAt : IsDocAt level start d
  only_end : ∀ u v, d = u ++ ['*', '/'] ++ v → v = []

/-- Whether neither a declaration nor a span blanked in its view starts strictly inside the comment
around the start of the declaration. -/
def StartsApart (level : Text) (start : Nat) (spans : List Span) : Prop :=
  ∀ block ∈ (mask level).docs, block.start ≤ start → start < block.stop →
    NoneInside (start :: spans.map Span.start) block

theorem commentRest_le (u v : Text) : commentRest (u ++ ['*', '/'] ++ v) ≤ u.length + 2 := by
  induction u with
  | nil => exact Nat.le_refl 2
  | cons c u ih =>
    by_cases hend : c = '*' ∧ (u ++ ['*', '/'] ++ v).head? = some '/'
    · obtain ⟨rfl, hslash⟩ := hend
      obtain ⟨cs, hcs⟩ := List.head?_eq_some_iff.mp hslash
      rw [List.cons_append, List.cons_append, hcs, commentRest]
      simp
    · have hstep : commentRest (c :: (u ++ ['*', '/'] ++ v)) =
          commentRest (u ++ ['*', '/'] ++ v) + 1 :=
        commentRest.eq_3 c _ fun _ hstar hslash => hend ⟨hstar, by rw [hslash]; rfl⟩
      rw [List.cons_append, List.cons_append, hstep, List.length_cons]
      omega

/-- A text that ends with its first `*/` has no other one. -/
theorem Closes.only_end {r : Text} (hr : Closes r) (hhead : r.head? ≠ some '/') {u v : Text}
    (h : '/' :: '*' :: '*' :: r = u ++ ['*', '/'] ++ v) : v = [] := by
  match u with
  | [] => simp at h
  | [_] => simp at h
  | [_, _] =>
    simp only [List.cons_append, List.nil_append, List.cons.injEq] at h
    exact absurd (by rw [h.2.2.2]; rfl) hhead
  | _ :: _ :: _ :: u =>
    simp only [List.cons_append, List.cons.injEq] at h
    have hlen := hr []
    have hle := commentRest_le u v
    rw [List.append_nil] at hlen
    rw [← h.2.2.2, hlen, h.2.2.2] at hle
    simp only [List.length_append, List.length_cons, List.length_nil] at hle
    exact List.length_eq_zero_iff.mp (by omega)

theorem Declares.span_spec {publicOnly : Bool} {level : Text} {m : Match Part} {spans : List Span}
    (h : Declares publicOnly level m spans) : ∀ s ∈ spans, s.start < s.stop ∧ ∃ x c y,
      (mask level).text = x ++ c :: y ∧ Text.byteLength x = s.start ∧ c ≠ ' ' ∧ c ≠ '\n' := by
  have hnested : ∀ s ∈ nestedSpans level, s.start < s.stop ∧ ∃ x c y,
      (mask level).text = x ++ c :: y ∧ Text.byteLength x = s.start ∧ c ≠ ' ' ∧ c ≠ '\n' := by
    intro s hs
    obtain ⟨⟨d, span⟩, hmem, rfl⟩ := List.mem_map.mp hs
    exact span_of_mem_typesIn hmem
  cases h with
  | type => simp
  | method => exact hnested
  | field => exact hnested

/-- The documentation of a declaration stands in the view in which it is found. -/
theorem Captured.exists_view {source level : Text} {publicOnly : Bool} {m : Match Part}
    {spans : List Span}
    {doc : String} (h : Captured source publicOnly level m spans doc) :
    ∃ u r t, doc.toList = '/' :: '*' :: '*' :: r ∧ Closes r ∧
      Text.blank (mask level).text spans = u ++ (doc.toList ++ t) ∧
      Text.byteLength u = m.whole.start := by
  have hdoc := h.docOf_eq
  cases h.declares with
  | type hm =>
    rw [blank_mask_nil]
    exact (exists_of_docOf startsWithDoc_typeHeader hm hdoc).2
  | method hm => exact (exists_of_docOf startsWithDoc_method hm hdoc).2
  | field hm => exact (exists_of_docOf startsWithDoc_field hm hdoc).2

/-- The documentation of a declaration is a whole comment of its level exactly when nothing that is
declared starts strictly inside the comment. -/
theorem Captured.isWholeDoc_iff {source level : Text} {publicOnly : Bool} {m : Match Part}
    {spans : List Span}
    {doc : String} (h : Captured source publicOnly level m spans doc) :
    IsWholeDoc level m.whole.start doc.toList ↔ StartsApart level m.whole.start spans := by
  obtain ⟨u, r, t, hd, hr, hview, hstart⟩ := h.exists_view
  constructor
  · intro hwhole block hblock hle hlt
    exact noneInside_of_isDocAt hview hstart hd h.declares.span_spec hwhole.isDocAt hblock hle hlt
  · intro hapart
    obtain ⟨hdoc, hhead⟩ := isDocAt_of_noneInside hview hstart hd hr hapart
    exact ⟨hdoc, fun x y hxy => hr.only_end hhead (hd.symm.trans hxy)⟩

/-- The documentation of each declaration of a file, at any depth, opens like a documentation
comment and ends like one. It is the text of a documentation comment of the level of the
declaration, whole, exactly when neither the declaration nor a type nested beside it starts strictly
inside the comment. -/
theorem docs_captured {docs : Bool} {source : String} {p : Placed}
    (hp : p ∈ (extract docs source).placed)
    {doc : String} (hdoc : doc ∈ docsOf p.decl) : ∃ publicOnly level m spans,
      Captured source.toList publicOnly level m spans doc ∧ "/**".toList <+: doc.toList ∧
        "*/".toList <:+ doc.toList ∧
        (IsWholeDoc level m.whole.start doc.toList ↔ StartsApart level m.whole.start spans) := by
  obtain ⟨publicOnly, level, m, spans, h⟩ := captured_of_mem_placed hp hdoc
  obtain ⟨_, r, _, hd, hr, _⟩ := h.exists_view
  obtain ⟨prose, hprose⟩ := hr.exists_eq_append
  refine ⟨publicOnly, level, m, spans, h, ⟨r, by rw [hd]; rfl⟩, ⟨'/' :: '*' :: '*' :: prose, ?_⟩,
    h.isWholeDoc_iff⟩
  rw [hd, hprose]
  rfl

/-- A comment in which another one seems to open, and a field with documentation. -/
def reopenedComment : String :=
  "public class A \x7b\n    /** See /**/\n    int x;\n    /** The y. */\n    public int y;\n\x7d\n"

/-- The documentation of the field starts in the comment before it. -/
theorem docs_captured_reopenedComment : ∃ publicOnly level m spans,
    Captured reopenedComment.toList publicOnly level m spans
        "/**/\n    int x;\n    /** The y. */" ∧ ¬StartsApart level m.whole.start spans := by
  have hfound : ∃ p ∈ (extract true reopenedComment).placed,
      "/**/\n    int x;\n    /** The y. */" ∈ docsOf p.decl := by decide +kernel
  obtain ⟨p, hp, hdoc⟩ := hfound
  obtain ⟨publicOnly, level, m, spans, h, _, _, hiff⟩ := docs_captured hp hdoc
  refine ⟨publicOnly, level, m, spans, h, fun hapart => ?_⟩
  have hends := (hiff.mpr hapart).only_end "/*".toList
    "\n    int x;\n    /** The y. */".toList (by decide)
  exact absurd hends (by decide)

end Typings.Source
