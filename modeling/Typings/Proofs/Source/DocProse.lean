import Mathlib.Data.List.TakeWhile
import Typings.Proofs.Source.BlockTokens
import Typings.Proofs.Source.Levels

/-!
# Prose in documentation comments

The view of a level shows its documentation comments as they are, so declaration patterns run over
prose. Prose has no influence on what is declared as long as no declaration reaches into the
comment: each match ends before the comment, starts with it or starts after it. Headers of types
inside a comment are allowed, since they are not reported. Main statement: `extract_blankProse`.
-/

namespace Typings.Source

open Declaration (Part)
open Pattern

-- ---------------------------------------------------------------------------
-- Declarations apart from a comment
-- ---------------------------------------------------------------------------

/-- Whether a match ends before a block, starts with it or starts after it. -/
def StandsApart (block : Span) (m : Match Part) : Prop :=
  (m.whole.start < block.start → m.whole.stop ≤ block.start) ∧
    (block.start < m.whole.start → block.stop ≤ m.whole.start)

instance (block : Span) (m : Match Part) : Decidable (StandsApart block m) :=
  inferInstanceAs (Decidable ((_ → _) ∧ (_ → _)))

/-- Whether a character ends a statement. -/
def endsStatement (c : Char) : Bool := c = ';' || c = '{' || c = '}'

/-- No method or field reaches into a comment. The variables of a field that starts before it end
before it, and a method after it is not in an initializer that the comment would leave open. -/
structure MembersApart (members : Text) (block : Span) : Prop where
  methods : ∀ m ∈ Declaration.method.allMatches members, StandsApart block m
  fields : ∀ m ∈ Declaration.field.allMatches members, StandsApart block m
  declarators : ∀ m ∈ Declaration.field.allMatches members, m.whole.start < block.start →
    m.whole.text.getLast? = some ';' ∨
      ';' ∈ Text.dropBytes m.whole.stop (Text.takeBytes block.start members)
  initializers : ∀ m ∈ Declaration.method.allMatches members, block.stop ≤ m.whole.start →
    inInitializer members block.stop = false ∨
      (Text.slice members block.stop m.whole.start).any endsStatement = true

instance (members : Text) (block : Span) : Decidable (MembersApart members block) :=
  decidable_of_iff (_ ∧ _ ∧ _ ∧ _) ⟨fun h => ⟨h.1, h.2.1, h.2.2.1, h.2.2.2⟩,
    fun h => ⟨h.methods, h.fields, h.declarators, h.initializers⟩⟩

/-- No package or import declaration reaches into a comment. -/
structure FileApart (view : Text) (block : Span) : Prop where
  packages : ∀ m ∈ Declaration.package.allMatches view, StandsApart block m
  imports : ∀ m ∈ Declaration.importLine.allMatches view, StandsApart block m

instance (view : Text) (block : Span) : Decidable (FileApart view block) :=
  decidable_of_iff (_ ∧ _) ⟨fun h => ⟨h.1, h.2⟩, fun h => ⟨h.packages, h.imports⟩⟩

theorem clear_of_standsApart {p : Declaration.Shape} {s : Text} {block : Span}
    (h : ∀ m ∈ p.allMatches s, StandsApart block m) : p.Clear s block := by
  intro m hm
  refine ⟨(h m hm).1, fun hstart hlt => ?_⟩
  have hstop := (h m hm).2 hstart
  omega

/-- What is read off declarations that stand apart from a comment. -/
theorem Swap.flatMap_eq {block : Span} {d d' before after s t : Text}
    (h : Swap block d d' before after s t) {p : Declaration.Shape}
    (hat : ∀ b, p.AgreeAt .doc block.stop ⟨b, block.start, d ++ after⟩
      ⟨b, block.start, d' ++ after⟩)
    (hs : ∀ m ∈ p.allMatches s, StandsApart block m)
    (ht : ∀ m ∈ p.allMatches t, StandsApart block m)
    {β : Type} {f g : Match Part → List β}
    (hfront : ∀ m ∈ p.allMatches s, ∀ n ∈ p.allMatches t, m.AgreesBut .doc n →
      m.whole.start < block.start → f m = g n)
    (hrest : ∀ m ∈ p.allMatches s, ∀ n ∈ p.allMatches t, m.AgreesBut .doc n →
      block.start ≤ m.whole.start → block.stop ≤ m.whole.stop → f m = g n) :
    (p.allMatches s).flatMap f = (p.allMatches t).flatMap g := by
  refine (h.around hat (clear_of_standsApart hs) (clear_of_standsApart ht)).flatMap_eq hfront ?_ ?_
    fun m hm n hn hmn hstart hbehind => hrest m hm n hn hmn hstart hbehind.stop
  · intro m hm hstart hlt
    have hstop := (hs m hm).2 hstart
    omega
  · intro n hn hstart hlt
    have hstop := (ht n hn).2 hstart
    omega

-- ---------------------------------------------------------------------------
-- Methods
-- ---------------------------------------------------------------------------

/-- Nothing is taken behind a character that is not taken. -/
theorem takeWhile_append_of_mem {p : Char → Bool} {s : Text} {c : Char} (hc : c ∈ s)
    (hp : p c = false) (t : Text) : (s ++ t).takeWhile p = s.takeWhile p := by
  have hcut : (s.takeWhile p).length ≠ s.length := by
    intro hlen
    have hall := List.takeWhile_eq_self_iff.mp ((List.takeWhile_sublist p).eq_of_length hlen) c hc
    rw [hp] at hall
    cases hall
  rw [List.takeWhile_append, if_neg hcut]

/-- Whether the statement at the end of a text has an `=`. -/
def opensInitializer (s : Text) : Bool :=
  (s.reverse.takeWhile fun c => !endsStatement c).contains '='

theorem inInitializer_eq (members : Text) (offset : Nat) :
    inInitializer members offset = opensInitializer (Text.takeBytes offset members) := rfl

/-- Text with the end of a statement hides what stands before it. -/
theorem opensInitializer_append (s t : Text) :
    opensInitializer (s ++ t) = (opensInitializer t || !t.any endsStatement &&
      opensInitializer s) := by
  unfold opensInitializer
  rw [List.reverse_append]
  cases hends : t.any endsStatement with
  | false =>
    have hall : ∀ c ∈ t.reverse, (!endsStatement c) = true := by
      intro c hc
      rw [List.any_eq_false] at hends
      simpa using hends c (List.mem_reverse.mp hc)
    rw [List.takeWhile_append_of_pos hall, List.takeWhile_eq_self_iff.mpr hall, Bool.eq_iff_iff]
    simp
  | true =>
    obtain ⟨c, hc, hend⟩ := List.any_eq_true.mp hends
    rw [takeWhile_append_of_mem (List.mem_reverse.mpr hc) (by rw [hend]; rfl)]
    simp

theorem methodOf?_of_agreesBut {s t : Text} {m n : Match Part} (h : m.AgreesBut .doc n)
    (hinit : inInitializer s m.whole.start = inInitializer t n.whole.start) :
    methodOf? false s m = methodOf? false t n := by
  have hparams : (m.get? .typeParameters).map (fun c => String.ofList (Text.compact c.text)) =
      (n.get? .typeParameters).map (fun c => String.ofList (Text.compact c.text)) := by
    have hparts := congrArg (Option.map fun r => String.ofList (Text.compact r.2))
      (h.parts .typeParameters (by decide))
    rwa [Option.map_map, Option.map_map] at hparts
  unfold methodOf?
  simp only [h.text_eq (by decide : Part.result ≠ .doc), h.text_eq (by decide : Part.name ≠ .doc),
    h.text_eq (by decide : Part.parameters ≠ .doc), hinit, hparams, docOf]
  rfl

namespace Swap

variable {block : Span} {d d' before after s t : Text}

/-- A method after the comments is in an initializer in both texts or in none. -/
theorem inInitializer_eq_of_le (h : Swap block d d' before after s t) {offset : Nat}
    (hle : block.stop ≤ offset)
    (hs : inInitializer s block.stop = false ∨
      (Text.slice s block.stop offset).any endsStatement = true)
    (ht : inInitializer t block.stop = false ∨
      (Text.slice t block.stop offset).any endsStatement = true) :
    inInitializer s offset = inInitializer t offset := by
  obtain ⟨k, rfl⟩ := Nat.exists_eq_add_of_le hle
  have hopen : ∀ {e e' u : Text}, Swap block e e' before after u (before ++ (e' ++ after)) →
      (inInitializer u block.stop = false ∨
        (Text.slice u block.stop (block.stop + k)).any endsStatement = true) →
      inInitializer u (block.stop + k) = opensInitializer (Text.takeBytes k after) := by
    intro e e' u hswap hu
    have hfront := hswap.takeBytes_add 0
    have hslice := hswap.dropBytes_add 0
    rw [Nat.add_zero] at hfront hslice
    rw [inInitializer_eq, hfront, Text.slice, hslice, Nat.add_sub_cancel_left] at hu
    rw [inInitializer_eq, hswap.takeBytes_add, opensInitializer_append]
    rcases hu with hu | hu
    · have hnone : opensInitializer (before ++ e) = false := by simpa [Text.takeBytes] using hu
      rw [hnone, Bool.and_false, Bool.or_false]
    · have hends : (Text.takeBytes k after).any endsStatement = true := by
        simpa [Text.dropBytes] using hu
      rw [hends, Bool.not_true, Bool.false_and, Bool.or_false]
  rw [hopen (h.right ▸ h) hs, hopen (h.left ▸ h.symm) ht]

/-- Texts that differ in a comment into which no member reaches have the same methods. -/
theorem methods_eq (h : Swap block d d' before after s t) (hs : MembersApart s block)
    (ht : MembersApart t block) : methods false s = methods false t := by
  rw [methods, methods, List.filterMap_eq_flatMap_toList, List.filterMap_eq_flatMap_toList]
  refine h.flatMap_eq (fun b =>
    agreeAt_method h.isDoc h.isDoc' h.stop h.symm.stop b after) hs.methods
    ht.methods ?_ ?_
  · intro m _ n _ hmn hstart
    refine congrArg Option.toList (methodOf?_of_agreesBut hmn ?_)
    rw [← hmn.start, inInitializer, inInitializer, h.takeBytes_of_le (Nat.le_of_lt hstart)]
  · intro m hm n hn hmn hstart _
    refine congrArg Option.toList (methodOf?_of_agreesBut hmn ?_)
    rcases Nat.eq_or_lt_of_le hstart with hat | hbehind
    · rw [← hmn.start, inInitializer, inInitializer, h.takeBytes_of_le (Nat.le_of_eq hat.symm)]
    · have hle := (hs.methods m hm).2 hbehind
      have hother := ht.initializers n hn (hmn.start ▸ hle)
      rw [← hmn.start] at hother ⊢
      exact h.inInitializer_eq_of_le hle (hs.initializers m hm hle) hother

end Swap

-- ---------------------------------------------------------------------------
-- Fields
-- ---------------------------------------------------------------------------

theorem fieldsOf_of_agreesBut {s t : Text} {m n : Match Part} (h : m.AgreesBut .doc n)
    (hrest : m.whole.text.getLast? ≠ some ';' → ∀ hasInitializer,
      furtherVariables hasInitializer (Text.dropBytes m.whole.stop s) =
        furtherVariables hasInitializer (Text.dropBytes m.whole.stop t)) :
    fieldsOf false s m = fieldsOf false t n := by
  unfold fieldsOf
  simp only [h.text_eq (by decide : Part.fieldType ≠ .doc), ← h.last, ← h.stop, List.map_cons,
    h.text_eq (by decide : Part.name ≠ .doc), h.text_eq (by decide : Part.dimensions ≠ .doc), docOf]
  by_cases hlast : m.whole.text.getLast? = some ';'
  · simp [hlast]
  · simp [hlast, hrest hlast]

/-- Variables are read up to the end of the statement. -/
theorem furtherVariables_append {s : Text} (hs : ';' ∈ s) (hasInitializer : Bool) (t : Text) :
    furtherVariables hasInitializer (s ++ t) = furtherVariables hasInitializer s := by
  rw [furtherVariables, furtherVariables, takeWhile_append_of_mem hs (by decide)]

/-- Texts that differ in a comment into which no member reaches have the same fields. -/
theorem Swap.fields_eq {block : Span} {d d' before after s t : Text}
    (h : Swap block d d' before after s t) (hs : MembersApart s block) (ht : MembersApart t block) :
    fields false s = fields false t := by
  refine h.flatMap_eq (fun b => agreeAt_field h.isDoc h.isDoc' h.stop h.symm.stop b after) hs.fields
    ht.fields ?_ ?_
  · intro m hm n _ hmn hstart
    refine fieldsOf_of_agreesBut hmn fun hlast hasInitializer => ?_
    have hstop := (hs.fields m hm).1 hstart
    have hends := (hs.declarators m hm hstart).resolve_left hlast
    have hcut : ∀ u : Text, Text.dropBytes m.whole.stop (before ++ u) =
        Text.dropBytes m.whole.stop before ++ u :=
      fun u => Text.dropBytes_append_of_le (h.start ▸ hstop) u
    have hfront : Text.takeBytes block.start s = before := by
      rw [h.left, ← h.start]
      simp
    rw [hfront] at hends
    rw [h.left, h.right, hcut, hcut, furtherVariables_append hends, furtherVariables_append hends]
  · intro m _ n _ hmn _ hstop
    refine fieldsOf_of_agreesBut hmn fun _ hasInitializer => ?_
    rw [h.dropBytes_of_le hstop]

-- without the condition, prose that spells a field is read as one
example : (fields false "/** the public api methods, but */".toList).map
    (·.name) = ["methods"] := by
  decide +kernel

-- ---------------------------------------------------------------------------
-- Package and imports
-- ---------------------------------------------------------------------------

section

variable {block : Span} {d d' before after s t : Text}

theorem Swap.packageOf_eq (h : Swap block d d' before after s t) (hs : FileApart s block)
    (ht : FileApart t block) : packageOf s = packageOf t := by
  have hname : ∀ u, packageOf u =
      ((Declaration.package.allMatches u).flatMap fun m => [m.text .package]).head?.getD [] := by
    intro u
    rw [packageOf, firstMatch?]
    cases Declaration.package.allMatches u <;> rfl
  have hsame : ∀ m n : Match Part, m.AgreesBut .doc n → [m.text .package] = [n.text .package] :=
    fun m n hmn => by rw [hmn.text_eq (by decide)]
  rw [hname, hname, h.flatMap_eq
    (fun b => agreeAt_of_fails (by decide) (by decide) h.isDoc h.isDoc' b after)
      hs.packages ht.packages
    (fun m _ n _ hmn _ => hsame m n hmn) fun m _ n _ hmn _ _ => hsame m n hmn]

theorem importOf_of_agreesBut {m n : Match Part} (h : m.AgreesBut .doc n) :
    importOf m = importOf n := by
  have hsome : ∀ g, g ≠ Part.doc → (m.get? g).isSome = (n.get? g).isSome := by
    intro g hg
    have hparts := congrArg Option.isSome (h.parts g hg)
    rwa [Option.isSome_map, Option.isSome_map] at hparts
  rw [importOf, importOf, h.text_eq (by decide), hsome _ (by decide), hsome _ (by decide)]

theorem Swap.imports_eq (h : Swap block d d' before after s t) (hs : FileApart s block)
    (ht : FileApart t block) : (Declaration.importLine.allMatches s).map importOf =
      (Declaration.importLine.allMatches t).map importOf := by
  have hsame : ∀ m n : Match Part, m.AgreesBut .doc n → [importOf m] = [importOf n] :=
    fun m n hmn => by rw [importOf_of_agreesBut hmn]
  rw [List.map_eq_flatMap, List.map_eq_flatMap]
  exact h.flatMap_eq (fun b => agreeAt_of_fails (by decide) (by decide) h.isDoc h.isDoc' b after)
    hs.imports ht.imports (fun m _ n _ hmn _ => hsame m n hmn) fun m _ n _ hmn _ _ => hsame m n hmn

end

-- ---------------------------------------------------------------------------
-- Levels
-- ---------------------------------------------------------------------------

/-- A documentation comment into which no declaration of a visited level reaches. Where a level
shows the comment, its declarations leave it to themselves; in the body of a reported type, that
body decides. A comment in any other block is not seen. -/
inductive Apart : (publicOnly : Bool) → Text → Span → Prop
  | shown {publicOnly : Bool} {s : Text} {block : Span} (shown : block ∈ (mask s).docs)
      (types : TypesApart publicOnly s block)
      (file : publicOnly = true → FileApart (mask s).text block)
      (members : publicOnly = false → (∀ found ∈ declared false s, found.2.start ≠ block.start) →
        MembersApart (membersIn s) block) : Apart publicOnly s block
  | inside {publicOnly : Bool} {s : Text} {block : Span} (hidden : block ∉ (mask s).docs)
      (braces : ∀ brace ∈ openings publicOnly s, (brace, .code '{') ∈ outer 0 0 (tokens s))
      (bodies : ∀ brace ∈ openings publicOnly s, ∀ close, blockEnd? s brace = some close →
        brace < block.start → block.stop ≤ close →
        Apart false (Text.slice s (brace + 1) close)
          ⟨block.start - (brace + 1), block.stop - (brace + 1)⟩) : Apart publicOnly s block

/-- A comment in the body of the only type that a text reports. -/
theorem Apart.of_body {publicOnly : Bool} {s : Text} {block : Span} {brace close : Nat}
    (hhidden : block ∉ (mask s).docs) (hopen : openings publicOnly s = [brace])
    (hcode : (brace, .code '{') ∈ outer 0 0 (tokens s)) (hclose : blockEnd? s brace = some close)
    (h : Apart false (Text.slice s (brace + 1) close)
      ⟨block.start - (brace + 1), block.stop - (brace + 1)⟩) : Apart publicOnly s block := by
  refine .inside hhidden ?_ ?_
  · rw [hopen]
    exact List.forall_mem_singleton.mpr hcode
  · rw [hopen]
    refine List.forall_mem_singleton.mpr fun stop hstop _ _ => ?_
    obtain rfl := Option.some.inj (hclose.symm.trans hstop)
    exact h

theorem SameBody.refl (s : Text) : SameBody s s := ⟨rfl, rfl, rfl⟩

namespace Reworded

variable {block : Span} {s t : Text} {publicOnly : Bool}

/-- Bodies that show the comment declare the same when no declaration reaches into it. -/
theorem Views.sameBody {d d' before after front back : Text}
    (h : Views block d d' before after front back s t) (hshown : block ∈ (mask s).docs)
    (hs : TypesApart false s block) (ht : TypesApart false t block)
    (hmembers : (∀ found ∈ declared false s, found.2.start ≠ block.start) →
      MembersApart (membersIn s) block)
    (hmembers' : (∀ found ∈ declared false t, found.2.start ≠ block.start) →
      MembersApart (membersIn t) block) : SameBody s t := by
  have hnested := h.declared_eq hshown hs ht
  rcases h.membersIn_cases hshown hs ht with hsame | ⟨hown, _, _, hswap⟩
  · exact ⟨hnested, by rw [hsame], by rw [hsame]⟩
  · have hleft := hmembers hown
    have hright := hmembers' (hnested ▸ hown)
    exact ⟨hnested, hswap.methods_eq hleft hright, hswap.fields_eq hleft hright⟩

/-- Levels that do not show the comment declare the same when the bodies of their types do. -/
theorem declared_eq_of_hidden (h : Reworded block s t) (hhidden : block ∉ (mask s).docs)
    (hbraces : ∀ brace ∈ openings publicOnly s, (brace, .code '{') ∈ outer 0 0 (tokens s))
    (hbodies : ∀ brace ∈ openings publicOnly s, ∀ close, blockEnd? s brace = some close →
      SameBody (Text.slice s (brace + 1) close) (Text.slice t (brace + 1) close)) :
    declared publicOnly s = declared publicOnly t := by
  have hmask := h.mask_eq_of_hidden hhidden
  rw [declared_eq, declared_eq, ← hmask]
  refine List.filterMap_congr fun m hm => ?_
  unfold declaredAt?
  rw [← hmask]
  cases hheader : headerOf? false publicOnly (mask s) m with
  | none => rfl
  | some found =>
    obtain ⟨outline, tail⟩ := found
    have hopen := mem_openings_of_headerOf? hm hheader
    have hend := (h.blockEnd?_eq (hbraces _ hopen)).1
    simp only [← hend]
    cases hclose : blockEnd? s tail.brace with
    | none => simp only [h.byteLength_eq]
    | some close => simp only [withBody_eq_of_sameBody (hbodies _ hopen close hclose)]

end Reworded

/-- What a text declares does not change with a comment into which no declaration reaches. -/
theorem Apart.declared_eq {publicOnly : Bool} {s : Text} {block : Span}
    (h : Apart publicOnly s block) :
    ∀ {t : Text}, Reworded block s t → Apart publicOnly t block →
      declared publicOnly s = declared publicOnly t ∧ (publicOnly = false → SameBody s t) := by
  induction h with
  | @shown publicOnly s block hshown htypes _ hmembers =>
    intro t hreword ht
    obtain ⟨_, _, _, _, _, _, hviews⟩ := hreword.exists_views hshown
    cases ht with
    | inside hhidden => exact absurd (hviews.docs ▸ hshown) hhidden
    | shown _ htypes' _ hmembers' =>
      refine ⟨hviews.declared_eq hshown htypes htypes', ?_⟩
      rintro rfl
      exact hviews.sameBody hshown htypes htypes' (hmembers rfl) (hmembers' rfl)
  | @inside publicOnly s block hhidden hbraces _ ih =>
    intro t hreword ht
    have hmask := hreword.mask_eq_of_hidden hhidden
    cases ht with
    | shown hshown => exact absurd (hmask ▸ hshown) hhidden
    | inside _ _ hbodies' =>
      -- the levels look the same, and so do the bodies of their types by induction
      have hdeclared := hreword.declared_eq_of_hidden hhidden hbraces
        fun brace hopen close hclose => by
        obtain ⟨hend, hbody⟩ := hreword.blockEnd?_eq (hbraces brace hopen)
        rcases hbody close hclose with hsame | ⟨⟨hlt, hle⟩, hsub⟩
        · rw [hsame]
          exact .refl _
        · have hopen' : brace ∈ openings publicOnly t := by
            rw [openings, ← hmask]
            exact hopen
          exact (ih brace hopen close hclose hlt hle hsub
            (hbodies' brace hopen' close (hend ▸ hclose) hlt hle)).2 rfl
      refine ⟨hdeclared, ?_⟩
      rintro rfl
      have hmembers : membersIn s = membersIn t := by rw [membersIn, membersIn, hmask, hdeclared]
      exact ⟨hdeclared, by rw [hmembers], by rw [hmembers]⟩

-- ---------------------------------------------------------------------------
-- Files
-- ---------------------------------------------------------------------------

/-- A closed documentation comment of a text. -/
structure DocBlock (s : Text) (block : Span) : Prop where
  isDoc : (Trivia.doc, block) ∈ triviaSpans 0 (tokens s)
  closed : ['*', '/'] <:+ Text.slice s block.start block.stop

instance (s : Text) (block : Span) : Decidable (DocBlock s block) :=
  decidable_of_iff (_ ∧ _) ⟨fun h => ⟨h.1, h.2⟩, fun h => ⟨h.isDoc, h.closed⟩⟩

/-- The text with everything between the opening and the end of a documentation comment blanked. -/
def blankProse (s : Text) (block : Span) : Text :=
  Text.blank s [⟨block.start + 3, block.stop - 2⟩]

/-- Blanking the prose leaves the three characters before it and the two after it. -/
theorem blankProse_append (front prose back : Text) :
    blankProse (front ++ ('/' :: '*' :: '*' :: (prose ++ ['*', '/']) ++ back))
      ⟨Text.byteLength front,
        Text.byteLength front + Text.byteLength ('/' :: '*' :: '*' :: (prose ++ ['*', '/']))⟩ =
      front ++ ('/' :: '*' :: '*' :: (Text.blankAll prose ++ ['*', '/']) ++ back) := by
  have hmiddle := Text.blank_middle (front ++ ['/', '*', '*']) prose (['*', '/'] ++ back)
  have hopen : Text.byteLength ['/', '*', '*'] = 3 := by decide
  have hend : Text.byteLength ['*', '/'] = 2 := by decide
  have hsize : Text.byteLength ('/' :: '*' :: '*' :: (prose ++ ['*', '/'])) =
      Text.byteLength (['/', '*', '*'] ++ prose ++ ['*', '/']) := rfl
  rw [Text.byteLength_append, Text.byteLength_append, hopen, hend] at hsize
  rw [Text.byteLength_append, hopen] at hmiddle
  rw [blankProse, hsize]
  simp only [List.append_assoc, List.cons_append, List.nil_append] at hmiddle ⊢
  convert hmiddle using 4
  omega

/-- Blanking the prose of a comment is a rewording. -/
theorem DocBlock.reworded {s : Text} {block : Span} (h : DocBlock s block) :
    Reworded block s (blankProse s block) := by
  obtain ⟨us, d, vs, htokens, rfl⟩ := exists_append_of_mem_triviaSpans h.isDoc
  have hs : s = us.flatMap Token.text ++ (d ++ vs.flatMap Token.text) :=
    eq_append_of_tokens_eq htokens
  have hslice : Text.slice s (Text.byteLength (us.flatMap Token.text))
      (Text.byteLength (us.flatMap Token.text) + Text.byteLength d) = d := by
    rw [hs, Text.slice]
    simp
  have hclosed := h.closed
  simp only [Nat.zero_add, hslice] at hclosed ⊢
  have hdoc := isDoc_of_tokens_eq htokens hclosed
  obtain ⟨prose, rfl⟩ : ∃ prose, d = '/' :: '*' :: '*' :: (prose ++ ['*', '/']) := by
    obtain ⟨r, rfl, hr, _⟩ := hdoc
    obtain ⟨prose, rfl⟩ := hr.exists_eq_append
    exact ⟨prose, rfl⟩
  have hspaces : ∀ c ∈ Text.blankAll prose, c = ' ' ∨ c = '\n' := fun c hc =>
    Text.eq_of_mem_blankAll hc
  have hother := tokens_eq_of_reword htokens hdoc (isDoc_blank hspaces)
  rw [← blankProse_append, ← hs] at hother
  refine .intro htokens hother hdoc (isDoc_blank hspaces) ?_
  simp [Text.blankAll_of_blank hspaces]

/-- The package and the imports of a file do not change with a comment into which no declaration
reaches. -/
theorem Apart.file_eq {s t : Text} {block : Span} (hs : Apart true s block) (h : Reworded block s t)
    (ht : Apart true t block) : packageOf (mask s).text = packageOf (mask t).text ∧
      (Declaration.importLine.allMatches (mask s).text).map importOf =
        (Declaration.importLine.allMatches (mask t).text).map importOf := by
  cases hs with
  | inside hhidden =>
    rw [h.mask_eq_of_hidden hhidden]
    exact ⟨rfl, rfl⟩
  | shown hshown _ hfile =>
    obtain ⟨_, _, _, _, _, _, hviews⟩ := h.exists_views hshown
    cases ht with
    | inside hhidden => exact absurd (hviews.docs ▸ hshown) hhidden
    | shown _ _ hfile' =>
      exact ⟨hviews.view.packageOf_eq (hfile rfl) (hfile' rfl),
        hviews.view.imports_eq (hfile rfl) (hfile' rfl)⟩

/-- Blanking the prose of a documentation comment does not change what a file declares, when no
declaration reaches into the comment, be it worded or blank. -/
theorem extract_blankProse (source : String) (block : Span) (hdoc : DocBlock source.toList block)
    (hworded : Apart true source.toList block)
    (hblank : Apart true (blankProse source.toList block) block) :
    extract false (String.ofList (blankProse source.toList block)) = extract false source := by
  obtain ⟨hpackage, himports⟩ := hworded.file_eq hdoc.reworded hblank
  obtain ⟨htypes, _⟩ := hworded.declared_eq hdoc.reworded hblank
  unfold extract
  simp only [String.toList_ofList, hpackage, himports]
  exact congrArg (SourceFile.mk _ _) (congrArg (List.map Prod.fst) htypes.symm)

/-- A class with a method whose comment has a link, an `=` and the header of a class in
its prose. -/
def linkedMethod : String :=
  "public class A \x7b /** \x7b@link B\x7d; class C = */ int f(); \x7d"

theorem extract_blankProse_linkedMethod :
    extract false (String.ofList (blankProse linkedMethod.toList ⟨17, 44⟩)) =
      extract false linkedMethod := by
  refine extract_blankProse linkedMethod ⟨17, 44⟩ (by decide +kernel) ?_ ?_
  -- worded and blank, the comment is at the front of the body between the braces at 15 and 54
  all_goals
    refine @Apart.of_body true _ _ 15 54 (by decide +kernel) (by decide +kernel) (by decide +kernel)
      (by decide +kernel) (.shown (by decide +kernel) (by decide +kernel) ?_ ?_)
    · exact fun h => nomatch h
    · exact fun _ _ => by decide +kernel

end Typings.Source
