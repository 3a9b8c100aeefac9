import Mathlib.Data.List.Forall2
import Typings.Proofs.Source.Masking
import Typings.Proofs.Source.Undocumented

/-!
# Hidden text has no influence

Text inside literals, ordinary comments and blocks that open no reported type is hidden. Two files
that differ in hidden text only, with the same layout, declare the same. The comparison goes level
by level: two texts are `Indistinct` when they look the same masked, the types that they report end
at the same offsets, and the bodies of these types are again indistinct. Main statement:
`extract_eq_of_hidden`.
-/

namespace Typings.Source

-- ---------------------------------------------------------------------------
-- Reported types
-- ---------------------------------------------------------------------------

/-- The offsets of the braces that open the bodies of the types reported at the outer level of a
text. -/
def openings (publicOnly : Bool) (s : Text) : List Nat :=
  (Declaration.typeHeader.allMatches (mask s).text).filterMap fun m =>
    (headerOf? false publicOnly (mask s) m).map (·.2.brace)

/-- Whether a token is no documentation comment that holds an opening brace. -/
def Token.isPlain : Token → Bool
  | .trivia .doc text => '{' ∉ text
  | _ => true

/-- No documentation comment of a token sequence holds an opening brace. -/
def PlainDocs (ts : List Token) : Prop := ∀ t ∈ ts, t.isPlain = true

instance (ts : List Token) : Decidable (PlainDocs ts) :=
  inferInstanceAs (Decidable (∀ t ∈ ts, t.isPlain = true))

theorem mem_openings_of_headerOf? {includeDocs publicOnly : Bool} {s : Text}
    {m : Match Declaration.Part} (hm : m ∈ Declaration.typeHeader.allMatches (mask s).text)
    {outline : TypeOutline} {tail : HeaderTail}
    (h : headerOf? includeDocs publicOnly (mask s) m = some (outline, tail)) :
    tail.brace ∈ openings publicOnly s := by
  have hbare := headerOf?_withoutDocs includeDocs publicOnly (mask s) m
  rw [h] at hbare
  exact List.mem_filterMap.mpr ⟨m, hm, by rw [hbare]; rfl⟩

/-- A character of the second part of a text that the first part lacks. -/
theorem exists_append_of_not_mem {c : Char} {s t before rest : Text} (hs : c ∉ s)
    (h : s ++ t = before ++ c :: rest) :
    ∃ middle, before = s ++ middle ∧ t = middle ++ c :: rest := by
  rcases List.append_eq_append_iff.mp h with ⟨middle, rfl, rfl⟩ | ⟨middle, rfl, hrest⟩
  · exact ⟨middle, rfl, rfl⟩
  · cases middle with
    | nil => exact ⟨[], by simp, by simpa using hrest.symm⟩
    | cons d ds =>
      obtain ⟨rfl, _⟩ := List.cons.inj hrest
      exact absurd (by simp) hs

theorem not_mem_blankAll {c : Char} (hspace : c ≠ ' ') (hnewline : c ≠ '\n') (s : Text) :
    c ∉ Text.blankAll s := by
  intro h
  rcases Text.eq_of_mem_blankAll h with h | h
  · exact hspace h
  · exact hnewline h

/-- Only an opening brace of the code outside all blocks, and a documentation comment that holds
one, show an opening brace. -/
theorem not_mem_shown_singleton {depth : Nat} {t : Token} (hcode : ¬(depth = 0 ∧ t = .code '{'))
    (hplain : t.isPlain = true) : '{' ∉ shown depth [t] := by
  have hblank : ∀ s, '{' ∉ Text.blankAll s := not_mem_blankAll (by decide) (by decide)
  cases t with
  | trivia kind text =>
    simp only [shown, List.append_nil]
    split
    · rename_i hdoc
      simpa [Token.isPlain, hdoc.2] using hplain
    · exact hblank text
  | code c =>
    cases depth with
    | zero =>
      have hc : c ≠ '{' := fun hc => hcode ⟨rfl, by rw [hc]⟩
      simpa [shown] using hc.symm
    | succ depth =>
      simp only [shown]
      split
      · simp
      · split
        · split <;> simp
        · have hchar := hblank [c]
          simpa using hchar

/-- An opening brace that a masked text shows is a brace of the code outside all blocks, unless a
documentation comment holds it. -/
theorem mem_outer_of_shown {ts : List Token} (hdocs : PlainDocs ts) {pos depth : Nat}
    {before rest : Text} (h : shown depth ts = before ++ '{' :: rest) :
    (pos + Text.byteLength before, .code '{') ∈ outer pos depth ts := by
  induction ts generalizing pos depth before with
  | nil => cases depth <;> simp [shown] at h
  | cons t ts ih =>
    have hts : PlainDocs ts := fun u hu => hdocs u (List.mem_cons_of_mem t hu)
    have hsplit : shown depth (t :: ts) = shown depth [t] ++ shown (t.depthAfter depth) ts :=
      shown_append depth [t] ts
    have hlen : Text.byteLength (shown depth [t]) = Text.byteLength t.text := by
      rw [byteLength_shown]
      simp
    rw [hsplit] at h
    rw [outer, List.mem_append]
    by_cases hcode : depth = 0 ∧ t = .code '{'
    · obtain ⟨rfl, rfl⟩ := hcode
      cases before with
      | nil => exact .inl (by simp)
      | cons d ds =>
        obtain ⟨rfl, hrest⟩ := List.cons.inj h
        have hmem := @ih hts (pos + 1) 1 ds hrest
        rw [Text.byteLength_cons, utf8Size_openBrace, ← Nat.add_assoc]
        exact .inr hmem
    · obtain ⟨middle, rfl, hrest⟩ := exists_append_of_not_mem
        (not_mem_shown_singleton hcode (hdocs t List.mem_cons_self)) h
      have hmem := @ih hts (pos + Text.byteLength t.text) _ middle hrest
      rw [Text.byteLength_append, hlen, ← Nat.add_assoc]
      exact .inr hmem

theorem mem_outer_of_mem_openings {publicOnly : Bool} {s : Text} (hdocs : PlainDocs (tokens s))
    {brace : Nat} (h : brace ∈ openings publicOnly s) :
    (brace, .code '{') ∈ outer 0 0 (tokens s) := by
  obtain ⟨m, _, hm⟩ := List.mem_filterMap.mp h
  obtain ⟨⟨outline, tail⟩, htail, rfl⟩ := Option.map_eq_some_iff.mp hm
  obtain ⟨_, name, hheader, _⟩ := headerOf?_eq_some_iff.mp htail
  obtain ⟨before, rest, hs, hbrace⟩ := exists_brace_of_headerTail hheader.hasBody
  rw [mask_text_eq_shown] at hs
  have hmem := @mem_outer_of_shown _ hdocs 0 0 before rest hs
  simpa [hbrace] using hmem

/-- A brace outside all blocks divides the text. -/
theorem exists_whole_of_mem_outer {s : Text} {brace : Nat}
    (h : (brace, .code '{') ∈ outer 0 0 (tokens s)) :
    ∃ before inside, s = before ++ '{' :: inside ∧ brace = Text.byteLength before ∧
      Whole before ∧ depthAfter 0 (tokens before) = 0 := by
  obtain ⟨us, vs, hts, hdepth, rfl⟩ := exists_append_of_mem_outer h
  obtain ⟨before, inside, rfl, hwhole, rfl, _⟩ := exists_whole_of_tokens_eq (.inl rfl) hts
  exact ⟨before, inside, rfl, by rw [flatMap_text_tokens, Nat.zero_add], hwhole, hdepth⟩

-- ---------------------------------------------------------------------------
-- Indistinct texts
-- ---------------------------------------------------------------------------

/-- Texts that a run over them cannot tell apart: at the outer level they show the same, and so do
the bodies of the types that are reported there. -/
inductive Indistinct : (publicOnly : Bool) → Text → Text → Prop
  | intro {publicOnly : Bool} {s t : Text} (length : Text.byteLength s = Text.byteLength t)
      (view : mask s = mask t)
      (ends : ∀ brace ∈ openings publicOnly s, blockEnd? s brace = blockEnd? t brace)
      (bodies : ∀ brace ∈ openings publicOnly s, ∀ close, blockEnd? s brace = some close →
        Indistinct false (Text.slice s (brace + 1) close) (Text.slice t (brace + 1) close)) :
      Indistinct publicOnly s t

/-- A body is shorter than the text around it. -/
theorem length_slice_lt {s : Text} {brace close : Nat} (h : blockEnd? s brace = some close) :
    (Text.slice s (brace + 1) close).length < s.length := by
  obtain ⟨before, block, after, rfl, rfl, rfl, _⟩ := blockEnd?_eq_some_iff.mp h
  rw [slice_block]
  simp only [List.length_append, List.length_cons]
  omega

theorem Indistinct.refl (publicOnly : Bool) (s : Text) : Indistinct publicOnly s s := by
  induction hn : s.length using Nat.strongRecOn generalizing publicOnly s with
  | ind n ih =>
    refine .intro rfl rfl (fun _ _ => rfl) ?_
    intro brace _ close hclose
    exact ih _ (hn ▸ length_slice_lt hclose) false _ rfl

theorem Indistinct.mask_eq {publicOnly : Bool} {s t : Text} (h : Indistinct publicOnly s t) :
    mask s = mask t := by
  cases h with
  | intro _ view _ _ => exact view

/-- Indistinct texts declare the same types, given fuel for either. -/
theorem Indistinct.typesIn_eq {publicOnly : Bool} {s t : Text} (h : Indistinct publicOnly s t)
    (includeDocs : Bool) {fuel fuel' : Nat} (hs : s.length < fuel) (ht : t.length < fuel') :
    typesIn includeDocs fuel publicOnly s = typesIn includeDocs fuel' publicOnly t := by
  induction h generalizing fuel fuel' with
  | @intro publicOnly s t length view ends bodies ih =>
    obtain ⟨n, rfl⟩ := Nat.exists_eq_succ_of_ne_zero (Nat.ne_zero_of_lt hs)
    obtain ⟨n', rfl⟩ := Nat.exists_eq_succ_of_ne_zero (Nat.ne_zero_of_lt ht)
    simp only [typesIn, ← view]
    refine List.filterMap_congr fun m hm => ?_
    cases hheader : headerOf? includeDocs publicOnly (mask s) m with
    | none => rfl
    | some found =>
      obtain ⟨outline, tail⟩ := found
      have hopen : tail.brace ∈ openings publicOnly s := mem_openings_of_headerOf? hm hheader
      have hend := ends _ hopen
      simp only
      rw [← hend, ← length]
      cases hclose : blockEnd? s tail.brace with
      | none => rfl
      | some close =>
        have hbody := bodies _ hopen _ hclose
        have hlt := length_slice_lt hclose
        have hlt' := length_slice_lt (hend.symm.trans hclose)
        have hnested := @ih _ hopen _ hclose n n' (by omega) (by omega)
        simp only [withBody, hbody.mask_eq, hnested]

theorem Indistinct.extract_eq {s t : String} (h : Indistinct true s.toList t.toList)
    (includeDocs : Bool) : extract includeDocs s = extract includeDocs t := by
  unfold extract
  simp only
  rw [h.mask_eq, h.typesIn_eq includeDocs (Nat.lt_succ_self _) (Nat.lt_succ_self _)]

-- ---------------------------------------------------------------------------
-- Literals and comments
-- ---------------------------------------------------------------------------

/-- Tokens that differ in hidden text at most: in a literal or an ordinary comment, and there not
in what blanking leaves of it. -/
inductive Token.Alike : Token → Token → Prop
  | code (c : Char) : Alike (.code c) (.code c)
  | doc (text : Text) : Alike (.trivia .doc text) (.trivia .doc text)
  | hidden {kind : Trivia} {text other : Text} (hkind : kind ≠ .doc)
      (h : Text.blankAll text = Text.blankAll other) :
      Alike (.trivia kind text) (.trivia kind other)

namespace Token.Alike

variable {t u : Token}

theorem byteLength_eq (h : t.Alike u) : Text.byteLength t.text = Text.byteLength u.text := by
  cases h with
  | code c => rfl
  | doc text => rfl
  | hidden _ h => exact Text.byteLength_eq_of_blankAll_eq h

theorem depthAfter_eq (h : t.Alike u) (depth : Nat) : t.depthAfter depth = u.depthAfter depth := by
  cases h <;> rfl

theorem docSpan?_eq (h : t.Alike u) (pos : Nat) : docSpan? (pos, t) = docSpan? (pos, u) := by
  cases h with
  | code c => rfl
  | doc text => rfl
  | @hidden kind _ _ hkind _ =>
    cases kind with
    | doc => exact absurd rfl hkind
    | comment => rfl
    | literal => rfl

theorem shown_eq (h : t.Alike u) (depth : Nat) : shown depth [t] = shown depth [u] := by
  cases h with
  | code c => rfl
  | doc text => rfl
  | hidden hkind h => simp [shown, hkind, h]

end Token.Alike

section

variable {ts us : List Token}

theorem byteLength_eq_of_alike (h : List.Forall₂ Token.Alike ts us) :
    Text.byteLength (ts.flatMap Token.text) = Text.byteLength (us.flatMap Token.text) := by
  induction h with
  | nil => rfl
  | cons ht _ ih => simp [ht.byteLength_eq, ih]

theorem shown_eq_of_alike (h : List.Forall₂ Token.Alike ts us) (depth : Nat) :
    shown depth ts = shown depth us := by
  induction h generalizing depth with
  | nil => rfl
  | @cons t u ts us ht _ ih =>
    have hts := shown_append depth [t] ts
    have hus := shown_append depth [u] us
    simp only [List.singleton_append, depthAfter_cons, depthAfter_nil] at hts hus
    rw [hts, hus, ht.shown_eq, ht.depthAfter_eq, ih]

theorem filterMap_docSpan?_of_alike (h : List.Forall₂ Token.Alike ts us) (pos depth : Nat) :
    (outer pos depth ts).filterMap docSpan? = (outer pos depth us).filterMap docSpan? := by
  induction h generalizing pos depth with
  | nil => rfl
  | @cons t u ts us ht _ ih =>
    simp only [outer, List.filterMap_append]
    rw [ht.byteLength_eq, ht.depthAfter_eq, ih]
    congr 1
    split
    · simp [List.filterMap_cons, ht.docSpan?_eq]
    · rfl

theorem closingBrace?_eq_of_alike (h : List.Forall₂ Token.Alike ts us) (pos depth : Nat) :
    closingBrace? pos depth ts = closingBrace? pos depth us := by
  induction h generalizing pos depth with
  | nil => rfl
  | cons ht _ ih =>
    cases ht with
    | code c => simp only [closingBrace?, ih]
    | doc text => exact ih _ _
    | hidden _ h => simp only [closingBrace?, ih, Text.byteLength_eq_of_blankAll_eq h]

theorem exists_append_of_alike {ts vs ws : List Token}
    (h : List.Forall₂ Token.Alike (ts ++ vs) ws) :
    ∃ us xs, ws = us ++ xs ∧ List.Forall₂ Token.Alike ts us ∧ List.Forall₂ Token.Alike vs xs := by
  induction ts generalizing ws with
  | nil => exact ⟨[], ws, rfl, .nil, h⟩
  | cons t ts ih =>
    cases h with
    | cons ht h =>
      obtain ⟨us, xs, rfl, hus, hxs⟩ := ih h
      exact ⟨_ :: us, xs, rfl, .cons ht hus, hxs⟩

/-- A piece of code divides alike token sequences at the same offset. -/
theorem exists_code_of_alike {ts vs ws : List Token} {c : Char}
    (h : List.Forall₂ Token.Alike (ts ++ .code c :: vs) ws) :
    ∃ us xs, ws = us ++ .code c :: xs ∧ List.Forall₂ Token.Alike ts us ∧
      List.Forall₂ Token.Alike vs xs := by
  obtain ⟨us, rest, rfl, hus, hrest⟩ := exists_append_of_alike h
  cases hrest with
  | cons hc hxs =>
    cases hc with
    | code => exact ⟨us, _, rfl, hus, hxs⟩

end

/-- A brace outside all blocks divides texts with alike tokens at the same offset. -/
theorem exists_inside_of_alike {s t : Text} (h : List.Forall₂ Token.Alike (tokens s) (tokens t))
    {brace : Nat} (hbrace : (brace, .code '{') ∈ outer 0 0 (tokens s)) :
    ∃ before inside before' inside', s = before ++ '{' :: inside ∧ t = before' ++ '{' :: inside' ∧
      Text.byteLength before = brace ∧ Text.byteLength before' = brace ∧
      (∀ tok ∈ tokens inside, tok ∈ tokens s) ∧
      List.Forall₂ Token.Alike (tokens inside) (tokens inside') := by
  obtain ⟨us, vs, hs, _, rfl⟩ := exists_append_of_mem_outer hbrace
  rw [hs] at h
  obtain ⟨us', vs', ht, hus, hvs⟩ := exists_code_of_alike h
  have hlen := byteLength_eq_of_alike hus
  obtain ⟨before, inside, rfl, _, rfl, rfl⟩ := exists_whole_of_tokens_eq (.inl rfl) hs
  obtain ⟨before', inside', rfl, _, rfl, rfl⟩ := exists_whole_of_tokens_eq (.inl rfl) ht
  rw [flatMap_text_tokens, flatMap_text_tokens] at hlen
  refine ⟨before, inside, before', inside', rfl, rfl, ?_, ?_, ?_, hvs⟩
  · rw [flatMap_text_tokens, Nat.zero_add]
  · rw [flatMap_text_tokens, Nat.zero_add, hlen]
  · intro tok htok
    rw [hs]
    exact List.mem_append_right _ (List.mem_cons_of_mem _ htok)

/-- Texts whose tokens differ in hidden text only are indistinct. -/
theorem indistinct_of_alike {s t : Text} (hdocs : PlainDocs (tokens s))
    (h : List.Forall₂ Token.Alike (tokens s) (tokens t)) (publicOnly : Bool) :
    Indistinct publicOnly s t := by
  induction hn : s.length using Nat.strongRecOn generalizing publicOnly s t with
  | ind n ih =>
    refine .intro ?_ ?_ ?_ ?_
    · have hlen := byteLength_eq_of_alike h
      rwa [flatMap_text_tokens, flatMap_text_tokens] at hlen
    · rw [mask_eq, mask_eq, shown_eq_of_alike h, filterMap_docSpan?_of_alike h]
    · intro brace hbrace
      obtain ⟨before, inside, before', inside', rfl, rfl, hb, hb', _, hin⟩ :=
        exists_inside_of_alike h (mem_outer_of_mem_openings hdocs hbrace)
      have hend := blockEnd?_append before inside
      have hend' := blockEnd?_append before' inside'
      rw [hb] at hend
      rw [hb'] at hend'
      rw [hend, hend', closingBrace?_eq_of_alike hin]
    · intro brace hbrace close hclose
      have hlt := length_slice_lt hclose
      obtain ⟨before, inside, before', inside', rfl, rfl, rfl, hb', hmem, hin⟩ :=
        exists_inside_of_alike h (mem_outer_of_mem_openings hdocs hbrace)
      rw [blockEnd?_append] at hclose
      obtain ⟨us, vs, hus, _, rfl⟩ := exists_append_of_closingBrace? hclose
      rw [hus] at hin
      obtain ⟨us', vs', hus', halike, _⟩ := exists_code_of_alike hin
      have hlen := byteLength_eq_of_alike halike
      obtain ⟨block, after, rfl, _, rfl, rfl⟩ := exists_whole_of_tokens_eq (.inr rfl) hus
      obtain ⟨block', after', rfl, _, rfl, rfl⟩ := exists_whole_of_tokens_eq (.inr rfl) hus'
      rw [flatMap_text_tokens] at hlt ⊢
      rw [flatMap_text_tokens, flatMap_text_tokens] at hlen
      have hslice := slice_block before' block' after'
      rw [hb', ← hlen] at hslice
      rw [slice_block] at hlt
      rw [slice_block, hslice]
      refine ih _ (hn ▸ hlt) ?_ halike false rfl
      intro tok htok
      refine hdocs tok (hmem _ ?_)
      rw [hus]
      exact List.mem_append_left _ htok

-- ---------------------------------------------------------------------------
-- Blocks
-- ---------------------------------------------------------------------------

/-- A block at a visited level that opens no type reported there: the level is the whole text, or
the body of a reported type, and so on. The block stands between the offsets `brace` and
`close`. -/
inductive HidesBlock : (publicOnly : Bool) → Text → (brace close : Nat) → Prop
  | here {publicOnly : Bool} {s : Text} {brace close : Nat}
      (houter : (brace, .code '{') ∈ outer 0 0 (tokens s)) (hend : blockEnd? s brace = some close)
      (hclosed : brace ∉ openings publicOnly s) : HidesBlock publicOnly s brace close
  | inside {publicOnly : Bool} {s : Text} {opening stop brace close : Nat}
      (hopen : opening ∈ openings publicOnly s) (hend : blockEnd? s opening = some stop)
      (h : HidesBlock false (Text.slice s (opening + 1) stop) brace close) :
      HidesBlock publicOnly s (opening + 1 + brace) (opening + 1 + close)

/-- The block at a brace outside all blocks, when it is closed. -/
theorem exists_block_of_mem_outer {s : Text} {brace close : Nat}
    (houter : (brace, .code '{') ∈ outer 0 0 (tokens s)) (hend : blockEnd? s brace = some close) :
    ∃ before block after, s = before ++ '{' :: (block ++ '}' :: after) ∧
      brace = Text.byteLength before ∧ close = brace + 1 + Text.byteLength block ∧
      Whole before ∧ depthAfter 0 (tokens before) = 0 ∧ IsBlock block := by
  obtain ⟨before, inside, rfl, rfl, hbefore, hdepth⟩ := exists_whole_of_mem_outer houter
  obtain ⟨front, block, after, hs, hlen, rfl, hblock⟩ := blockEnd?_eq_some_iff.mp hend
  obtain ⟨rfl, hinside⟩ := Text.append_inj_of_byteLength hs hlen
  obtain ⟨_, rfl⟩ := List.cons.inj hinside
  exact ⟨before, block, after, rfl, rfl, rfl, hbefore, hdepth, hblock⟩

/-- Where all blocks of a text are closed, what follows the text does not change them. -/
theorem exists_blockEnd?_append {before : Text} (hdepth : depthAfter 0 (tokens before) = 0)
    {brace : Nat} (h : (brace, .code '{') ∈ outer 0 0 (tokens before)) :
    ∃ close body, ∀ t, blockEnd? (before ++ t) brace = some close ∧
      Text.slice (before ++ t) (brace + 1) close = body := by
  obtain ⟨us, vs, htokens, hus, rfl⟩ := exists_append_of_mem_outer h
  have hopen : depthAfter 1 vs = 0 := by
    rw [htokens, depthAfter_append, hus] at hdepth
    exact hdepth
  obtain ⟨ws, xs, rfl, hws, _⟩ := exists_level?_of_depthAfter hopen
  obtain ⟨front, rest, rfl, _, rfl, hrest⟩ := exists_whole_of_tokens_eq (.inl rfl) htokens
  obtain ⟨block, rest, rfl, hwhole, rfl, rfl⟩ := exists_whole_of_tokens_eq (.inr rfl) hrest
  have hblock : IsBlock block := ⟨hwhole, hws⟩
  refine ⟨Text.byteLength front + 1 + Text.byteLength block, block, fun t => ?_⟩
  have hassoc : front ++ '{' :: (block ++ '}' :: rest) ++ t =
      front ++ '{' :: (block ++ '}' :: (rest ++ t)) := by simp
  rw [flatMap_text_tokens, Nat.zero_add, hassoc, hblock.blockEnd?_eq, slice_block]
  exact ⟨rfl, rfl⟩

/-- A block is read from its own brace on: of what comes before, only the length counts. -/
theorem blockEnd?_eq_of_byteLength {front front' : Text}
    (h : Text.byteLength front = Text.byteLength front') (inside : Text) :
    blockEnd? (front ++ '{' :: inside) (Text.byteLength front) =
        blockEnd? (front' ++ '{' :: inside) (Text.byteLength front) ∧
      ∀ close, Text.slice (front ++ '{' :: inside) (Text.byteLength front + 1) close =
        Text.slice (front' ++ '{' :: inside) (Text.byteLength front + 1) close := by
  refine ⟨?_, fun close => ?_⟩
  · rw [blockEnd?_append, h, blockEnd?_append]
  · rw [slice_brace, h, slice_brace]

section

variable {before block other after : Text} (hbefore : Whole before)
  (hdepth : depthAfter 0 (tokens before) = 0) (hblock : IsBlock block)
  (hblank : Text.blankAll block = Text.blankAll other)

include hbefore hdepth hblock hblank

/-- Replacing a block does not change what masking shows. -/
theorem mask_eq_of_replace (hother : IsBlock other) :
    mask (before ++ '{' :: (block ++ '}' :: after)) =
      mask (before ++ '{' :: (other ++ '}' :: after)) := by
  have hlen := Text.byteLength_eq_of_blankAll_eq hblank
  rw [mask_eq, mask_eq, hblock.shown_eq hbefore hdepth, hother.shown_eq hbefore hdepth,
    hblock.outer_eq hbefore hdepth, hother.outer_eq hbefore hdepth, hblank, hlen]

/-- Replacing a block does not change the other blocks at its level. -/
theorem blockEnd?_eq_of_replace {brace : Nat}
    (h : (brace, .code '{') ∈ outer 0 0 (tokens (before ++ '{' :: (block ++ '}' :: after))))
    (hne : brace ≠ Text.byteLength before) :
    blockEnd? (before ++ '{' :: (block ++ '}' :: after)) brace =
        blockEnd? (before ++ '{' :: (other ++ '}' :: after)) brace ∧
      ∀ close, blockEnd? (before ++ '{' :: (block ++ '}' :: after)) brace = some close →
        Text.slice (before ++ '{' :: (block ++ '}' :: after)) (brace + 1) close =
          Text.slice (before ++ '{' :: (other ++ '}' :: after)) (brace + 1) close := by
  rw [hblock.outer_eq hbefore hdepth, List.mem_append, List.mem_cons] at h
  rcases h with h | h | h
  · obtain ⟨close, body, hend⟩ := exists_blockEnd?_append hdepth h
    refine ⟨by rw [(hend _).1, (hend _).1], fun found hfound => ?_⟩
    obtain rfl := Option.some.inj ((hend _).1.symm.trans hfound)
    rw [(hend _).2, (hend _).2]
  · exact absurd (Prod.mk.inj h).1 hne
  · obtain ⟨us, vs, htokens, _, rfl⟩ := exists_append_of_mem_outer h
    obtain ⟨front, inside, rfl, _, rfl, rfl⟩ := exists_whole_of_tokens_eq (.inl rfl) htokens
    have hassoc : ∀ b : Text, before ++ '{' :: (b ++ '}' :: (front ++ '{' :: inside)) =
        (before ++ '{' :: (b ++ '}' :: front)) ++ '{' :: inside := by intro b; simp
    have hlen : Text.byteLength (before ++ '{' :: (block ++ '}' :: front)) =
        Text.byteLength (before ++ '{' :: (other ++ '}' :: front)) := by
      simp [Text.byteLength_eq_of_blankAll_eq hblank]
    have hpos : Text.byteLength before + 1 + Text.byteLength block + 1 +
          Text.byteLength ((tokens front).flatMap Token.text) =
        Text.byteLength (before ++ '{' :: (block ++ '}' :: front)) := by
      simp only [flatMap_text_tokens, Text.byteLength_append, Text.byteLength_cons,
        utf8Size_openBrace, utf8Size_closeBrace]
      omega
    rw [hassoc, hassoc, hpos]
    obtain ⟨hend, hslice⟩ := blockEnd?_eq_of_byteLength hlen inside
    exact ⟨hend, fun close _ => hslice close⟩

/-- Replacing a block makes no difference unless it is the body of a reported type, and then the
bodies decide. -/
theorem indistinct_of_replace (hother : IsBlock other) {publicOnly : Bool}
    (hdocs : PlainDocs (tokens (before ++ '{' :: (block ++ '}' :: after))))
    (hbody : Text.byteLength before ∈ openings publicOnly
      (before ++ '{' :: (block ++ '}' :: after)) →
      Indistinct false block other) :
    Indistinct publicOnly (before ++ '{' :: (block ++ '}' :: after))
      (before ++ '{' :: (other ++ '}' :: after)) := by
  have hlen := Text.byteLength_eq_of_blankAll_eq hblank
  have hend := hblock.blockEnd?_eq before after
  have hend' := hother.blockEnd?_eq before after
  have hslice := slice_block before other after
  rw [← hlen] at hend' hslice
  refine .intro (by simp [hlen]) (mask_eq_of_replace hbefore hdepth hblock hblank hother) ?_ ?_
  · intro brace hbrace
    by_cases hne : brace = Text.byteLength before
    · rw [hne, hend, hend']
    · exact (blockEnd?_eq_of_replace hbefore hdepth hblock hblank
        (mem_outer_of_mem_openings hdocs hbrace) hne).1
  · intro brace hbrace close hclose
    by_cases hne : brace = Text.byteLength before
    · subst hne
      obtain rfl := Option.some.inj (hend.symm.trans hclose)
      rw [slice_block, hslice]
      exact hbody hbrace
    · rw [← (blockEnd?_eq_of_replace hbefore hdepth hblock hblank
        (mem_outer_of_mem_openings hdocs hbrace) hne).2 close hclose]
      exact .refl false _

end

/-- A hidden block can be replaced by any other that is blanked to the same. -/
theorem HidesBlock.exists_replace {publicOnly : Bool} {s : Text} {brace close : Nat}
    (h : HidesBlock publicOnly s brace close) (hdocs : PlainDocs (tokens s)) :
    ∃ before block after, s = before ++ '{' :: (block ++ '}' :: after) ∧
      brace = Text.byteLength before ∧ close = brace + 1 + Text.byteLength block ∧
      Whole before ∧ IsBlock block ∧
      ∀ other, IsBlock other → Text.blankAll block = Text.blankAll other →
        Indistinct publicOnly s (before ++ '{' :: (other ++ '}' :: after)) := by
  induction h with
  | here houter hend hclosed =>
    obtain ⟨before, block, after, rfl, rfl, rfl, hbefore, hdepth, hblock⟩ :=
      exists_block_of_mem_outer houter hend
    refine ⟨before, block, after, rfl, rfl, rfl, hbefore, hblock, fun other hother hblank => ?_⟩
    exact indistinct_of_replace hbefore hdepth hblock hblank hother hdocs
      fun hopen => absurd hopen hclosed
  | inside hopen hend _ ih =>
    obtain ⟨front, body, rest, rfl, rfl, rfl, hfront, hdepth, hbody⟩ :=
      exists_block_of_mem_outer (mem_outer_of_mem_openings hdocs hopen) hend
    rw [slice_block] at ih
    have hbodyDocs : PlainDocs (tokens body) := by
      intro tok htok
      refine hdocs tok ?_
      rw [hbody.tokens_eq hfront]
      simp [htok]
    obtain ⟨before, block, after, rfl, rfl, rfl, hbefore, hblock, hreplace⟩ := ih hbodyDocs
    refine ⟨front ++ '{' :: before, block, after ++ '}' :: rest, ?_, ?_, ?_, ?_, hblock, ?_⟩
    · simp
    · simp only [Text.byteLength_append, Text.byteLength_cons, utf8Size_openBrace]
      omega
    · omega
    · exact hfront.append (.inl rfl) hbefore
    · intro other hother hblank
      have hassoc : front ++ '{' :: before ++ '{' :: (other ++ '}' :: (after ++ '}' :: rest)) =
          front ++ '{' :: (before ++ '{' :: (other ++ '}' :: after) ++ '}' :: rest) := by simp
      rw [hassoc]
      exact indistinct_of_replace hfront hdepth hbody (by simp [hblank])
        (hbody.replace hbefore hblock hother) hdocs fun _ => hreplace other hother hblank

-- ---------------------------------------------------------------------------
-- Files with the same layout
-- ---------------------------------------------------------------------------

/-- Texts of the same byte length with newlines at the same offsets. -/
structure SameLayout (s t : Text) : Prop where
  length : Text.byteLength s = Text.byteLength t
  newlines : ∀ i : Nat, (Text.bytes s)[i]? = some 10 ↔ (Text.bytes t)[i]? = some 10

/-- The comments and literals of a token sequence at offset `pos`, with their spans. -/
def triviaSpans : (pos : Nat) → List Token → List (Trivia × Span)
  | _, [] => []
  | pos, .trivia kind text :: ts =>
    (kind, ⟨pos, pos + Text.byteLength text⟩) :: triviaSpans (pos + Text.byteLength text) ts
  | pos, .code c :: ts => triviaSpans (pos + c.utf8Size) ts

/-- Texts with comments and literals of the same kinds at the same offsets, which differ inside
literals and ordinary comments only. -/
structure DifferInTrivia (s t : Text) : Prop where
  spans : triviaSpans 0 (tokens s) = triviaSpans 0 (tokens t)
  agree : ∀ i : Nat, (∀ found ∈ triviaSpans 0 (tokens s), found.2.contains i = true →
    found.1 = .doc) → (Text.bytes s)[i]? = (Text.bytes t)[i]?

/-- Texts which differ inside one hidden block only, with the same end in both. -/
def DifferInBlock (s t : Text) : Prop :=
  ∃ brace close, HidesBlock true s brace close ∧ blockEnd? t brace = some close ∧
    ∀ i : Nat, i ≤ brace ∨ close ≤ i → (Text.bytes s)[i]? = (Text.bytes t)[i]?

instance (s t : Text) : Decidable (SameLayout s t) :=
  decidable_of_iff (Text.byteLength s = Text.byteLength t ∧ ∀ i < Text.byteLength s,
      ((Text.bytes s)[i]? = some 10 ↔ (Text.bytes t)[i]? = some 10)) <| by
    constructor
    · rintro ⟨length, newlines⟩
      refine ⟨length, fun i => ?_⟩
      by_cases hi : i < Text.byteLength s
      · exact newlines i hi
      · rw [List.getElem?_eq_none (by simpa using hi),
          List.getElem?_eq_none (by simpa [← length] using hi)]
    · rintro ⟨length, newlines⟩
      exact ⟨length, fun i _ => newlines i⟩

namespace SameLayout

variable {s t u v : Text}

theorem blankAll_eq (h : SameLayout s t) : Text.blankAll s = Text.blankAll t :=
  Text.blankAll_eq_of_newlines h.length h.newlines

/-- Parts of the same length of texts with the same layout have the same layout. -/
theorem of_append (h : SameLayout (s ++ t) (u ++ v))
    (hlen : Text.byteLength s = Text.byteLength u) : SameLayout s u ∧ SameLayout t v := by
  refine ⟨⟨hlen, fun i => ?_⟩, ⟨?_, fun i => ?_⟩⟩
  · by_cases hi : i < Text.byteLength s
    · have hi' : i < Text.byteLength u := hlen ▸ hi
      have hnl := h.newlines i
      rwa [Text.getElem?_bytes_append_left hi, Text.getElem?_bytes_append_left hi'] at hnl
    · rw [List.getElem?_eq_none (by simpa using hi),
        List.getElem?_eq_none (by simpa [← hlen] using hi)]
  · have hall := h.length
    rw [Text.byteLength_append, Text.byteLength_append] at hall
    omega
  · have hnl := h.newlines (Text.byteLength s + i)
    rw [Text.getElem?_bytes_append_right, hlen] at hnl
    rwa [Text.getElem?_bytes_append_right] at hnl

end SameLayout

theorem triviaSpans_code (pos : Nat) (c : Char) (ts : List Token) :
    triviaSpans pos (.code c :: ts) = triviaSpans
      (pos + Text.byteLength (Token.code c).text) ts := by
  simp [triviaSpans, Token.text]

theorem le_start_of_mem_triviaSpans {pos : Nat} {ts : List Token} {found : Trivia × Span}
    (h : found ∈ triviaSpans pos ts) : pos ≤ found.2.start := by
  induction ts generalizing pos with
  | nil => simp [triviaSpans] at h
  | cons t ts ih =>
    cases t with
    | trivia kind' text =>
      rcases List.mem_cons.mp h with rfl | h
      · exact Nat.le_refl _
      · exact Nat.le_trans (Nat.le_add_right _ _) (ih h)
    | code c => exact Nat.le_trans (Nat.le_add_right _ _) (ih h)

/-- Where the texts of two token sequences agree: outside literals and ordinary comments of the
first, which starts at offset `pos`. -/
def AgreeOutside (pos : Nat) (ts us : List Token) : Prop :=
  ∀ i : Nat, (∀ found ∈ triviaSpans pos ts, found.2.contains (pos + i) = true →
    found.1 = .doc) → (Text.bytes (ts.flatMap Token.text))[i]? =
      (Text.bytes (us.flatMap Token.text))[i]?

namespace AgreeOutside

variable {pos : Nat} {t u : Token} {ts us : List Token}

/-- The texts after first tokens of the same length agree as well. -/
theorem tail (h : AgreeOutside pos (t :: ts) (u :: us))
    (hlen : Text.byteLength t.text = Text.byteLength u.text) :
    AgreeOutside (pos + Text.byteLength t.text) ts us := by
  intro i hi
  have houtside : ∀ found ∈ triviaSpans pos (t :: ts),
      found.2.contains (pos + (Text.byteLength t.text + i)) = true → found.1 = .doc := by
    intro found hfound hin
    rw [← Nat.add_assoc] at hin
    cases t with
    | trivia kind text =>
      rcases List.mem_cons.mp hfound with rfl | hfound
      · rw [Span.contains, Bool.and_eq_true, decide_eq_true_eq, decide_eq_true_eq] at hin
        simp only [Token.text] at hin
        omega
      · exact hi found hfound hin
    | code c => exact hi found (triviaSpans_code pos c ts ▸ hfound) hin
  have hagree := h _ houtside
  rwa [List.flatMap_cons, List.flatMap_cons, Text.getElem?_bytes_append_right, hlen,
    Text.getElem?_bytes_append_right] at hagree

/-- A first token that is code or a documentation comment is the start of the other text. -/
theorem exists_append (h : AgreeOutside pos (t :: ts) us)
    (ht : ∀ kind text, t = .trivia kind text → kind = .doc) :
    ∃ rest, us.flatMap Token.text = t.text ++ rest := by
  refine Text.exists_append_of_bytes fun i hi => ?_
  rw [← h i ?_, List.flatMap_cons, Text.getElem?_bytes_append_left hi]
  intro found hfound hin
  have hlater : ∀ found ∈ triviaSpans (pos + Text.byteLength t.text) ts,
      found.2.contains (pos + i) = false := by
    intro found hfound
    have hle := le_start_of_mem_triviaSpans hfound
    simp only [Span.contains, Bool.and_eq_false_iff, decide_eq_false_iff_not]
    omega
  cases t with
  | trivia kind text =>
    rcases List.mem_cons.mp hfound with rfl | hfound
    · exact ht _ _ rfl
    · exact absurd hin (by simp [hlater found hfound])
  | code c =>
    rw [triviaSpans_code] at hfound
    exact absurd hin (by simp [hlater found hfound])

end AgreeOutside

/-- The first tokens of sequences with their comments and literals in the same places are alike
when the sequences agree elsewhere. -/
theorem alike_head_of_agreeOutside {pos : Nat} {t u : Token} {ts us : List Token}
    (hspans : triviaSpans pos (t :: ts) = triviaSpans pos (u :: us))
    (hlayout : SameLayout ((t :: ts).flatMap Token.text) ((u :: us).flatMap Token.text))
    (hagree : AgreeOutside pos (t :: ts) (u :: us)) : t.Alike u := by
  -- a comment or literal never faces code: its span would have to start later in one of the texts
  have hstart : ∀ {kind : Trivia} {text : Text} {c : Char} {rest : List Token},
      (kind, ⟨pos, pos + Text.byteLength text⟩) ∉
      triviaSpans (pos + c.utf8Size) rest := by
    intro kind text c rest hmem
    have hle := le_start_of_mem_triviaSpans hmem
    have hsize := c.utf8Size_pos
    simp only at hle
    omega
  cases t with
  | trivia kind text =>
    cases u with
    | trivia kind' text' =>
      obtain ⟨hhead, _⟩ := List.cons.inj hspans
      simp only [Prod.mk.injEq, Span.mk.injEq, true_and] at hhead
      obtain ⟨rfl, hstop⟩ := hhead
      have hlen : Text.byteLength text = Text.byteLength text' := by omega
      by_cases hkind : kind = .doc
      · subst hkind
        obtain ⟨rest, hrest⟩ := hagree.exists_append fun _ _ h => (Token.trivia.inj h).1.symm
        obtain ⟨rfl, _⟩ := Text.append_inj_of_byteLength hrest hlen.symm
        exact .doc text'
      · exact .hidden hkind (hlayout.of_append hlen).1.blankAll_eq
    | code d =>
      simp only [triviaSpans] at hspans
      exact absurd (hspans ▸ List.mem_cons_self) hstart
  | code c =>
    cases u with
    | trivia kind' text' =>
      simp only [triviaSpans] at hspans
      exact absurd (hspans ▸ List.mem_cons_self) hstart
    | code d =>
      obtain ⟨rest, hrest⟩ := hagree.exists_append fun _ _ h => by cases h
      obtain ⟨rfl, _⟩ := List.cons.inj hrest
      exact .code d

/-- Only a comment or literal can be empty, and it shows in the spans. -/
theorem byteLength_pos_of_triviaSpans {pos : Nat} {t : Token} {ts : List Token}
    (h : triviaSpans pos (t :: ts) = []) : 0 < Text.byteLength ((t :: ts).flatMap Token.text) := by
  cases t with
  | trivia kind text => simp [triviaSpans] at h
  | code c =>
    have hsize := c.utf8Size_pos
    simp only [List.flatMap_cons, Token.text, Text.byteLength_append, Text.byteLength_cons]
    omega

/-- Token sequences with their comments and literals in the same places are alike when they agree
elsewhere. -/
theorem alike_of_agreeOutside {pos : Nat} {ts us : List Token}
    (hspans : triviaSpans pos ts = triviaSpans pos us)
    (hlayout : SameLayout (ts.flatMap Token.text) (us.flatMap Token.text))
    (hagree : AgreeOutside pos ts us) : List.Forall₂ Token.Alike ts us := by
  induction ts generalizing us pos with
  | nil =>
    cases us with
    | nil => exact .nil
    | cons u us =>
      have hpos := byteLength_pos_of_triviaSpans hspans.symm
      rw [← hlayout.length] at hpos
      simp at hpos
  | cons t ts ih =>
    cases us with
    | nil =>
      have hpos := byteLength_pos_of_triviaSpans hspans
      rw [hlayout.length] at hpos
      simp at hpos
    | cons u us =>
      have halike := alike_head_of_agreeOutside hspans hlayout hagree
      have hlen := halike.byteLength_eq
      have htail : triviaSpans (pos + Text.byteLength t.text) ts =
          triviaSpans (pos + Text.byteLength t.text) us := by
        cases halike with
        | code c => rwa [triviaSpans_code, triviaSpans_code] at hspans
        | doc text => exact (List.cons.inj hspans).2
        | hidden _ hblank =>
          have hrest := (List.cons.inj hspans).2
          rwa [← Text.byteLength_eq_of_blankAll_eq hblank] at hrest
      exact .cons halike (ih htail (hlayout.of_append hlen).2 (hagree.tail hlen))

theorem indistinct_of_differInTrivia {s t : Text} (hdocs : PlainDocs (tokens s))
    (hlayout : SameLayout s t) (h : DifferInTrivia s t) : Indistinct true s t := by
  refine indistinct_of_alike hdocs (@alike_of_agreeOutside 0 _ _ h.spans ?_ ?_) true
  · rwa [flatMap_text_tokens, flatMap_text_tokens]
  · intro i hi
    rw [flatMap_text_tokens, flatMap_text_tokens]
    exact h.agree i fun found hfound hin => hi found hfound (by rwa [Nat.zero_add])

theorem indistinct_of_differInBlock {s t : Text} (hdocs : PlainDocs (tokens s))
    (hlayout : SameLayout s t) (h : DifferInBlock s t) : Indistinct true s t := by
  obtain ⟨brace, close, hhides, hend, hagree⟩ := h
  obtain ⟨before, block, after, rfl, rfl, rfl, _, _, hreplace⟩ := hhides.exists_replace hdocs
  -- up to the brace the texts agree, so the other one has its block at the same place
  obtain ⟨rest, rfl⟩ : ∃ rest, t = before ++ rest := by
    refine Text.exists_append_of_bytes fun i hi => ?_
    rw [← hagree i (.inl (Nat.le_of_lt hi)), Text.getElem?_bytes_append_left hi]
  obtain ⟨front, other, after', ht, hfront, hclose, hother⟩ := blockEnd?_eq_some_iff.mp hend
  obtain ⟨rfl, rfl⟩ := Text.append_inj_of_byteLength ht hfront
  have hlen : Text.byteLength block = Text.byteLength other := by omega
  have hblank : Text.blankAll block = Text.blankAll other := by
    have hbraced : SameLayout ((before ++ ['{']) ++ (block ++ '}' :: after))
        ((before ++ ['{']) ++ (other ++ '}' :: after')) := by simpa using hlayout
    exact ((hbraced.of_append rfl).2.of_append hlen).1.blankAll_eq
  have hafter : after = after' := by
    refine Text.bytes_injective (List.ext_getElem? fun i => ?_)
    have hassoc : ∀ b u : Text, before ++ '{' :: (b ++ '}' :: u) =
        (before ++ '{' :: (b ++ ['}'])) ++ u := by simp
    have hcut : Text.byteLength (before ++ '{' :: (block ++ ['}'])) =
        Text.byteLength (before ++ '{' :: (other ++ ['}'])) := by simp [hlen]
    have hi := hagree (Text.byteLength (before ++ '{' :: (block ++ ['}'])) + i) ?_
    · rwa [hassoc block after, hassoc other after', Text.getElem?_bytes_append_right, hcut,
        Text.getElem?_bytes_append_right] at hi
    · simp only [Text.byteLength_append, Text.byteLength_cons, utf8Size_openBrace]
      omega
  rw [← hafter]
  exact hreplace other hother hblank

/-- Literals, ordinary comments and the blocks that open no reported type have no influence on what
is extracted. No documentation comment may hold a brace, which would be taken for the brace of a
header. -/
theorem extract_eq_of_hidden (s t : String) (hlayout : SameLayout s.toList t.toList)
    (hdocs : PlainDocs (tokens s.toList))
    (h : DifferInTrivia s.toList t.toList ∨ DifferInBlock s.toList t.toList) (includeDocs : Bool) :
    extract includeDocs s = extract includeDocs t := by
  rcases h with h | h
  · exact (indistinct_of_differInTrivia hdocs hlayout h).extract_eq includeDocs
  · exact (indistinct_of_differInBlock hdocs hlayout h).extract_eq includeDocs

/-- A literal may hold a brace instead of another, and the body of a method may change. -/
theorem extract_eq_of_hidden_literal_and_body :
    extract true "public class A \x7b String s = \"\x7b\"; \x7d" =
        extract true "public class A \x7b String s = \"\x7d\"; \x7d" ∧
      extract true "public class A \x7b void f() \x7b g(); \x7d int h(); \x7d" =
        extract true "public class A \x7b void f() \x7b ';'; \x7d int h(); \x7d" := by
  constructor
  · refine extract_eq_of_hidden _ _ (by decide +kernel) (by decide +kernel) (.inl ⟨?_, ?_⟩) true
    · decide +kernel
    · exact Text.getElem?_bytes_eq_of_lt (by decide +kernel) (by decide +kernel)
  · refine extract_eq_of_hidden _ _ (by decide +kernel) (by decide +kernel) (.inr ?_) true
    refine ⟨26, 33, ?_, by decide +kernel, ?_⟩
    · -- the class is reported with its brace at 15, and in its body the method's brace is at 10
      refine @HidesBlock.inside true _ 15 44 10 17 (by decide +kernel) (by decide +kernel) ?_
      exact .here (by decide +kernel) (by decide +kernel) (by decide +kernel)
    · exact Text.getElem?_bytes_eq_of_lt (by decide +kernel) (by decide +kernel)

end Typings.Source
