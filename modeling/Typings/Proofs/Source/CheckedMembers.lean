import Typings.Proofs.Source.CheckedHeader
import Typings.Proofs.Source.ParameterParts

/-!
# Members read with checks

Reads parameters, methods and fields with the checks of `CheckedHeader`, and with two more: the
counts of open brackets are 32-bit integers and must not leave their range, and the parts of a
declaration that are read have to have taken part in the match. On members of less than 2 GiB no
check fails, and what is read is what `methods` and `fields` give. Main statements: `methods_eq` and
`fields_eq`.
-/

namespace Typings.Source.Checked

open Text (bytes byteLength IsAscii IsBoundary)
open Declaration (Part)

/-- The first count of brackets that is no 32-bit integer. -/
def limit : Nat := 2 ^ 31

theorem mapM_eq_ok {α β : Type} {f : α → Except Fault β} {g : α → β} {as : List α}
    (h : ∀ a ∈ as, f a = .ok (g a)) : as.mapM f = .ok (as.map g) := by
  induction as with
  | nil => rfl
  | cons a as ih =>
    obtain ⟨ha, has⟩ := List.forall_mem_cons.mp h
    rw [List.mapM_cons, ha, ih has]
    rfl

/-- The results for the elements of a list, those that give none left out. -/
def gather {α β : Type} (f : α → Except Fault (Option β)) (as : List α) :
    Except Fault (List β) := do
  let found ← as.mapM f
  return found.reduceOption

theorem gather_eq_ok {α β : Type} {f : α → Except Fault (Option β)} {g : α → Option β} {as : List α}
    (h : ∀ a ∈ as, f a = .ok (g a)) : gather f as = .ok (as.filterMap g) := by
  rw [gather, mapM_eq_ok h]
  show Except.ok ((as.map g).filterMap id) = _
  rw [List.filterMap_map]
  rfl

-- ---------------------------------------------------------------------------
-- Splitting
-- ---------------------------------------------------------------------------

/-- The parts of a text between the separators outside brackets. The part at `start` has been read
up to `pos`, where `depth` brackets are open. -/
def splitParts (text : Text) (sep : Char) : (pos start depth : Nat) → Text →
    Except Fault (List Text)
  | _, start, _, [] => do
    let last ← cut text start (byteLength text)
    return [last]
  | pos, start, depth, c :: cs =>
    if Text.isOpening c then
      if depth + 1 < limit then splitParts text sep (pos + c.utf8Size) start (depth + 1) cs
      else .error .overflow
    else if Text.isClosing c then splitParts text sep (pos + c.utf8Size) start (depth - 1) cs
    else if c = sep && depth = 0 then do
      let part ← cut text start pos
      let later ← splitParts text sep (pos + c.utf8Size) (pos + c.utf8Size) depth cs
      return part :: later
    else splitParts text sep (pos + c.utf8Size) start depth cs

/-- The trimmed, non-empty parts of a text between the separators outside brackets. -/
def splitTopLevel (sep : Char) (s : Text) : Except Fault (List Text) := do
  let parts ← splitParts s sep 0 0 0 s
  return (parts.map Text.trim).filter (!·.isEmpty)

theorem splitParts_append (sep : Char) (u v s : Text) {depth : Nat} (h : depth + s.length < limit) :
    ∃ part parts, Text.splitOutside sep depth s = part :: parts ∧
      splitParts (u ++ (v ++ s)) sep (byteLength u + byteLength v) (byteLength u) depth s =
        .ok ((v ++ part) :: parts) := by
  induction s generalizing u v depth with
  | nil =>
    refine ⟨[], [], rfl, ?_⟩
    rw [List.append_nil, splitParts, cut_back]
    rfl
  | cons c cs ih =>
    rw [List.length_cons] at h
    have hassoc : u ++ (v ++ c :: cs) = u ++ (v ++ [c] ++ cs) := by simp
    have hlen : byteLength u + byteLength v + c.utf8Size =
        byteLength u + byteLength (v ++ [c]) := by
      simp [Nat.add_assoc]
    -- a character that does not separate belongs to the part
    have hextend : ∀ depth', depth' + cs.length < limit →
        ∃ part parts, Text.splitOutside.extend c (Text.splitOutside sep depth' cs) = part :: parts ∧
          splitParts (u ++ (v ++ c :: cs)) sep (byteLength u + byteLength v + c.utf8Size)
            (byteLength u) depth' cs = .ok ((v ++ part) :: parts) := by
      intro depth' hdepth
      obtain ⟨part, parts, hsplit, hparts⟩ := ih u (v ++ [c]) hdepth
      refine ⟨c :: part, parts, by rw [hsplit]; rfl, ?_⟩
      rw [hassoc, hlen, hparts, List.append_assoc]
      rfl
    rw [Text.splitOutside, splitParts]
    split
    · rw [if_pos (by omega)]
      exact hextend _ (by omega)
    · split
      · exact hextend _ (by omega)
      · split
        · obtain ⟨part, parts, hsplit, hparts⟩ := @ih (u ++ v ++ [c]) [] depth (by omega)
          refine ⟨[], part :: parts, by rw [hsplit], ?_⟩
          have hstart : byteLength (u ++ v ++ [c]) = byteLength u + byteLength v + c.utf8Size := by
            simp [Nat.add_assoc]
          have htext : u ++ v ++ [c] ++ ([] ++ cs) = u ++ (v ++ c :: cs) := by simp
          rw [htext, hstart, Text.byteLength_nil, Nat.add_zero] at hparts
          rw [cut_append, hparts]
          simp only [ok_bind, List.append_nil, List.nil_append]
          rfl
        · exact hextend _ (by omega)

theorem splitTopLevel_eq (sep : Char) {s : Text} (h : s.length < limit) :
    splitTopLevel sep s = .ok (Text.splitTopLevel sep s) := by
  obtain ⟨part, parts, hsplit, hparts⟩ := @splitParts_append sep [] [] s 0 (by omega)
  have hall : splitParts s sep 0 0 0 s = .ok (Text.splitOutside sep 0 s) := hsplit ▸ hparts
  rw [splitTopLevel, hall]
  rfl

-- ---------------------------------------------------------------------------
-- Parameters
-- ---------------------------------------------------------------------------

/-- Offset of the last space outside angle brackets at or after `pos`, where `depth` of them are
open, or else `last`. -/
def lastSpace : (pos : Nat) → (depth : Int) → (last : Option Nat) → Text → Except Fault (Option Nat)
  | _, _, last, [] => .ok last
  | pos, depth, last, c :: cs =>
    if c = '<' then
      if depth + 1 < limit then lastSpace (pos + c.utf8Size) (depth + 1) last cs
      else .error .overflow
    else if c = '>' then
      if -limit ≤ depth - 1 then lastSpace (pos + c.utf8Size) (depth - 1) last cs
      else .error .overflow
    else if c = ' ' && depth = 0 then lastSpace (pos + c.utf8Size) depth (some pos) cs
    else lastSpace (pos + c.utf8Size) depth last cs

/-- The last space is behind a character, or is the character. -/
theorem map_splitLastSpace?_cons (pos : Nat) (depth : Int) (c : Char) (cs : Text) :
    ((splitLastSpace? depth (c :: cs)).map fun (before, _) => pos + byteLength before) =
      ((splitLastSpace? (if c = '<' then depth + 1 else if c = '>' then depth - 1
        else depth) cs).map
        fun (before, _) => pos + c.utf8Size + byteLength before).or
        (if c = ' ' && depth = 0 then some pos else none) := by
  rw [splitLastSpace?]
  generalize
    splitLastSpace? (if c = '<' then depth + 1 else if c = '>' then depth - 1 else depth) cs = found
  cases found with
  | some found => simp [Nat.add_assoc]
  | none =>
    dsimp only
    split <;> rfl

theorem lastSpace_eq {s : Text} {depth : Int} (h : depth.natAbs + s.length < limit) (pos : Nat)
    (last : Option Nat) :
    lastSpace pos depth last s =
      .ok (((splitLastSpace? depth s).map fun (before, _) => pos + byteLength before).or last) := by
  induction s generalizing pos depth last with
  | nil => rfl
  | cons c cs ih =>
    rw [List.length_cons] at h
    rw [map_splitLastSpace?_cons, Option.or_assoc, lastSpace]
    by_cases hopen : c = '<'
    · subst hopen
      rw [if_pos rfl, if_pos rfl, if_pos (by omega), ih (by omega)]
      rfl
    · rw [if_neg hopen, if_neg hopen]
      by_cases hclose : c = '>'
      · subst hclose
        rw [if_pos rfl, if_pos rfl, if_pos (by omega), ih (by omega)]
        rfl
      · rw [if_neg hclose, if_neg hclose]
        by_cases hspace : (c = ' ' && depth = 0) = true
        · rw [if_pos hspace, if_pos hspace, ih (by omega)]
          rfl
        · rw [if_neg hspace, if_neg hspace, ih (by omega)]
          rfl

/-- The parameter that the text before its name and its name give. -/
def namedParameter? (typeText nameText : Text) : Option Parameter :=
  let typeText := Text.compact typeText
  let (name, typeText) :=
    match Text.afterPrefix? "...".toList nameText with
    | some name => (name, typeText ++ "...".toList)
    | none => (nameText, typeText)
  let (typeText, isVarargs) :=
    match Text.beforeSuffix? "...".toList typeText with
    | some element => (Text.trimEnd element ++ "[]".toList, true)
    | none => (typeText, false)
  let (dims, reversed) := splitPairs name.reverse
  let name := reversed.reverse
  let typeText := typeText ++ pairs dims
  if name.isEmpty || name = "this".toList || typeText.isEmpty then none
  else some { name := String.ofList name, typeName := String.ofList typeText, isVarargs }

theorem parameter?_eq (s : Text) :
    parameter? s = (splitLastSpace? 0 (parameterWords s)).bind fun (typeText, nameText) =>
      namedParameter? typeText nameText := by
  rw [parameter?]
  cases splitLastSpace? 0 (parameterWords s) with
  | none => rfl
  | some found => rfl

/-- Reads one parameter. -/
def parameter (s : Text) : Except Fault (Option Parameter) := do
  let words := parameterWords s
  match ← lastSpace 0 0 none words with
  | none => return none
  | some space =>
    let typeText ← cut words 0 space
    let nameText ← cut words (space + 1) (byteLength words)
    return namedParameter? typeText nameText

/-- Reads a list of parameters. -/
def parameters (s : Text) : Except Fault (List Parameter) := do
  let parts ← splitTopLevel ',' s
  gather parameter parts

theorem erase_sublist (spans : List Span) (pos : Nat) (s : Text) :
    (Pattern.erase spans pos s).Sublist s := by
  induction s generalizing spans pos with
  | nil => exact .slnil
  | cons c cs ih =>
    rw [Pattern.erase]
    split
    · exact (ih _ _).cons_cons c
    · split
      · exact (ih _ _).cons c
      · exact (ih _ _).cons_cons c

/-- The length of words with one more character for each. -/
def spread : List Text → Nat
  | [] => 0
  | w :: ws => w.length + 1 + spread ws

theorem length_intercalate_le (ws : List Text) : ([' '].intercalate ws).length ≤ spread ws - 1 := by
  induction ws with
  | nil => simp
  | cons w ws ih =>
    cases ws with
    | nil => simp [spread]
    | cons v vs =>
      rw [List.intercalate_cons_cons, spread]
      simp only [List.length_append, List.length_singleton, spread] at ih ⊢
      omega

theorem spread_le_of_sublist {vs ws : List Text} (h : vs.Sublist ws) : spread vs ≤ spread ws := by
  induction h with
  | slnil => exact Nat.le_refl _
  | cons w _ ih =>
    rw [spread]
    omega
  | cons_cons w _ ih =>
    rw [spread, spread]
    omega

/-- Words are apart: with one more character for each they fit into the text and one more character,
and into the text when it starts with white space. -/
theorem spread_words_le (s : Text) : spread (Text.words s) ≤ s.length + 1 ∧
    ((∀ c ∈ s.head?, Text.isSpace c = true) → spread (Text.words s) ≤ s.length) := by
  induction s with
  | nil => exact ⟨Nat.zero_le _, fun _ => Nat.zero_le _⟩
  | cons c cs ih =>
    obtain ⟨hwords, hspaced⟩ := ih
    by_cases hc : Text.isSpace c = true
    · rw [Text.words_cons_of_isSpace hc, List.length_cons]
      exact ⟨Nat.le_succ_of_le hwords, fun _ => hwords⟩
    · refine ⟨?_, fun h => absurd (h c rfl) hc⟩
      rw [Bool.not_eq_true] at hc
      cases cs with
      | nil =>
        rw [Text.words_singleton hc]
        exact Nat.le_refl _
      | cons d ds =>
        rw [Text.words_cons_cons hc, List.length_cons]
        generalize Text.words (d :: ds) = ws at hwords hspaced
        cases ws with
        | nil => exact Nat.le_add_left _ _
        | cons word rest =>
          dsimp only
          split
          · rename_i hd
            have hrest := hspaced fun e he => Option.mem_some_iff.mp he ▸ hd
            rw [spread, List.length_singleton]
            omega
          · simp only [spread, List.length_cons] at hwords ⊢
            omega

/-- Words with single spaces between them are no longer than the text that they come from. -/
theorem length_intercalate_words_le {s : Text} {ws : List Text} (h : ws.Sublist (Text.words s)) :
    ([' '].intercalate ws).length ≤ s.length := by
  have hspread := spread_le_of_sublist h
  have hlen := length_intercalate_le ws
  have hwords := (spread_words_le s).1
  omega

theorem length_parameterWords_le (s : Text) : (parameterWords s).length ≤ s.length :=
  Nat.le_trans (length_intercalate_words_le List.filter_sublist) (erase_sublist _ 0 s).length_le

theorem parameter_eq {s : Text} (h : s.length < limit) : parameter s = .ok (parameter? s) := by
  have hwords := length_parameterWords_le s
  rw [parameter, lastSpace_eq (by simp; omega), parameter?_eq]
  cases hsplit : splitLastSpace? 0 (parameterWords s) with
  | none => rfl
  | some found =>
    obtain ⟨typeText, nameText⟩ := found
    have htext := eq_append_of_splitLastSpace? hsplit
    have hfront : cut (parameterWords s) 0 (byteLength typeText) = .ok typeText :=
      htext ▸ cut_front typeText (' ' :: nameText)
    have hback : cut (parameterWords s) (byteLength typeText + 1) (byteLength (parameterWords s)) =
        .ok nameText := by
      have hspace : byteLength (typeText ++ [' ']) = byteLength typeText + 1 := by
        rw [Text.byteLength_append]
        rfl
      have h := cut_back (typeText ++ [' ']) nameText
      rwa [List.append_assoc, List.singleton_append, ← htext, hspace] at h
    simp only [Option.map_some, Option.some_or, Nat.zero_add, ok_bind, hfront, hback]
    rfl

theorem parameters_eq {s : Text} (h : s.length < limit) :
    parameters s = .ok (Source.parameters s) := by
  rw [parameters, splitTopLevel_eq ',' h]
  refine gather_eq_ok fun part hpart => parameter_eq ?_
  exact Nat.lt_of_le_of_lt (Text.sublist_of_mem_splitTopLevel hpart).length_le h

-- ---------------------------------------------------------------------------
-- Parts
-- ---------------------------------------------------------------------------

theorem length_le_byteLength (s : Text) : s.length ≤ byteLength s := by
  induction s with
  | nil => exact Nat.le_refl _
  | cons c cs ih =>
    have := c.utf8Size_pos
    rw [List.length_cons, Text.byteLength_cons]
    omega

/-- A part of a declaration that has to have taken part in the match. -/
def part (m : Match Part) (g : Part) : Except Fault Capture :=
  match m.get? g with
  | some c => .ok c
  | none => .error (.missing g)

theorem exists_part {p : Declaration.Shape} {s : Text} {m : Match Part} (hm : m ∈ p.allMatches s)
    {g : Part} (hp : p.captures g = true) :
    ∃ c, part m g = .ok c ∧ c.text = m.text g ∧ c.text.length ≤ byteLength s := by
  obtain ⟨c, hc⟩ := Pattern.exists_get?_of_captures hp hm
  refine ⟨c, by rw [part, hc], by rw [Match.text, hc]; rfl, ?_⟩
  exact Nat.le_trans (length_le_byteLength _)
    ((Pattern.isOn_of_mem_allMatches hm).byteLength_text_le hc)

-- ---------------------------------------------------------------------------
-- Methods
-- ---------------------------------------------------------------------------

/-- Offset of the last character that satisfies a condition, in a text at offset `pos`. -/
def lastWhere? (p : Char → Bool) : (pos : Nat) → Text → Option Nat
  | _, [] => none
  | pos, c :: cs => (lastWhere? p (pos + c.utf8Size) cs).or (if p c then some pos else none)

/-- Whether a character ends a statement. -/
def endsStatement (c : Char) : Bool := c = ';' || c = '{' || c = '}'

/-- Whether the statement that holds an offset has an `=` before it. -/
def inInitializer (members : Text) (offset : Nat) : Except Fault Bool := do
  let before ← cut members 0 offset
  let start := ((lastWhere? endsStatement 0 before).map (· + 1)).getD 0
  let statement ← cut members start offset
  return List.contains statement '='

theorem isAscii_of_endsStatement {c : Char} (h : endsStatement c = true) : IsAscii c := by
  simp only [endsStatement, Bool.or_eq_true, decide_eq_true_eq] at h
  rcases h with (rfl | rfl) | rfl <;> rfl

theorem lastWhere?_eq_none {p : Char → Bool} {s : Text} (h : ∀ c ∈ s, p c = false) (pos : Nat) :
    lastWhere? p pos s = none := by
  induction s generalizing pos with
  | nil => rfl
  | cons c cs ih =>
    obtain ⟨hc, hcs⟩ := List.forall_mem_cons.mp h
    rw [lastWhere?, ih hcs, hc]
    rfl

theorem lastWhere?_append {p : Char → Bool} {c : Char} (hc : p c = true) {t : Text}
    (ht : ∀ d ∈ t, p d = false) (s : Text) (pos : Nat) :
    lastWhere? p pos (s ++ c :: t) = some (pos + byteLength s) := by
  induction s generalizing pos with
  | nil =>
    rw [List.nil_append, lastWhere?, lastWhere?_eq_none ht, if_pos hc]
    rfl
  | cons d ds ih =>
    rw [List.cons_append, lastWhere?, ih, Text.byteLength_cons, Nat.add_assoc]
    rfl

/-- A statement starts behind the last character that ends one. -/
theorem exists_statement (s : Text) :
    ∃ front statement, s = front ++ statement ∧
      (s.reverse.takeWhile fun c => !(c = ';' || c = '{' || c = '}')) = statement.reverse ∧
      ((lastWhere? endsStatement 0 s).map (· + 1)).getD 0 = byteLength front := by
  have hsplit := @List.takeWhile_append_dropWhile _ (fun c => !endsStatement c) s.reverse
  have hinside : ∀ c ∈ (s.reverse.takeWhile fun c => !endsStatement c).reverse,
      endsStatement c = false := by
    intro c hc
    simpa using List.all_eq_true.mp List.all_takeWhile c (List.mem_reverse.mp hc)
  cases hrest : s.reverse.dropWhile fun c => !endsStatement c with
  | nil =>
    rw [hrest, List.append_nil] at hsplit
    rw [hsplit, List.reverse_reverse] at hinside
    refine ⟨[], s, rfl, hsplit, ?_⟩
    rw [lastWhere?_eq_none hinside]
    rfl
  | cons c more =>
    have hc : endsStatement c = true := by
      have hnot := List.head?_dropWhile_not (fun c => !endsStatement c) s.reverse
      rw [hrest] at hnot
      simpa using hnot
    have hs : s = more.reverse ++ c :: (s.reverse.takeWhile fun c => !endsStatement c).reverse := by
      have h := congrArg List.reverse hsplit
      rw [hrest] at h
      simpa using h.symm
    refine ⟨more.reverse ++ [c], (s.reverse.takeWhile fun c => !endsStatement c).reverse,
      ?_, ?_, ?_⟩
    · rw [List.append_assoc]
      exact hs
    · exact (List.reverse_reverse _).symm
    · have hlast := lastWhere?_append hc hinside more.reverse 0
      rw [← hs, Nat.zero_add] at hlast
      have hone : c.utf8Size = 1 := isAscii_of_endsStatement hc
      simp [hlast, hone]

theorem inInitializer_append (u s : Text) :
    inInitializer (u ++ s) (byteLength u) = .ok (Source.inInitializer (u ++ s) (byteLength u)) := by
  obtain ⟨front, statement, rfl, htake, hstart⟩ := exists_statement u
  have hstatement := cut_append front statement s
  rw [← List.append_assoc, ← Text.byteLength_append] at hstatement
  simp only [inInitializer, cut_front, ok_bind, hstart, hstatement, Source.inInitializer,
    Text.takeBytes_append, htake, List.contains_reverse]
  rfl

/-- Reads the method that a match declares. -/
def methodOf (includeDocs : Bool) (members : Text) (m : Match Part) :
    Except Fault (Option Method) := do
  let resultPart ← part m .result
  let result := Text.compact resultPart.text
  if modifierWords.contains result || statementWords.contains result ||
      declarationWords.contains result then return none
  else if ← inInitializer members m.whole.start then return none
  else
    let namePart ← part m .name
    let parametersPart ← part m .parameters
    let parameters ← parameters parametersPart.text
    return some
      { name := String.ofList namePart.text
        returnType := String.ofList result
        typeParameters :=
          (m.get? .typeParameters).map fun text => String.ofList (Text.compact text.text)
        parameters
        doc := docOf includeDocs m }

/-- Reads the methods of a type. -/
def methods (includeDocs : Bool) (members : Text) : Except Fault (List Method) :=
  gather (methodOf includeDocs members) (Declaration.method.allMatches members)

theorem methodOf_eq {members : Text} (h : byteLength members < limit) (includeDocs : Bool)
    {m : Match Part} (hm : m ∈ Declaration.method.allMatches members) :
    methodOf includeDocs members m = .ok (methodOf? includeDocs members m) := by
  obtain ⟨result, hresult, hresultText, _⟩ := exists_part hm (g := .result) rfl
  obtain ⟨name, hname, hnameText, _⟩ := exists_part hm (g := .name) rfl
  obtain ⟨params, hparams, hparamsText, hshort⟩ := exists_part hm (g := .parameters) rfl
  obtain ⟨u, t, rfl, hstart⟩ := Text.isBoundary_iff.mp (Pattern.isOn_of_mem_allMatches hm).start
  rw [methodOf, methodOf?, hresult, hname, hparams, ← hstart, inInitializer_append, ← hresultText,
    ← hnameText, ← hparamsText]
  simp only [ok_bind, parameters_eq (Nat.lt_of_le_of_lt hshort h)]
  split
  · rfl
  · split <;> rfl

theorem methods_eq {members : Text} (h : byteLength members < limit) (includeDocs : Bool) :
    methods includeDocs members = .ok (Source.methods includeDocs members) :=
  gather_eq_ok fun _ hm => methodOf_eq h includeDocs hm

-- ---------------------------------------------------------------------------
-- Fields
-- ---------------------------------------------------------------------------

/-- Offset of the first character that satisfies a condition, in a text at offset `pos`. -/
def firstWhere? (p : Char → Bool) : (pos : Nat) → Text → Option Nat
  | _, [] => none
  | pos, c :: cs => if p c then some pos else firstWhere? p (pos + c.utf8Size) cs

/-- Reads the variables that follow the first one in the field declaration that a match opens. -/
def furtherVariables (members : Text) (m : Match Part) : Except Fault (List (Match Part)) := do
  let last := m.whole.text.getLast?
  if last = some ';' then return []
  else
    let rest ← cut members m.whole.stop (byteLength members)
    let statement ← cut rest 0 ((firstWhere? (· = ';') 0 rest).getD (byteLength rest))
    let declarators ← splitTopLevel ',' statement
    return (declarators.drop (if last = some '=' then 1 else 0)).filterMap
      Declaration.declarator.firstMatch?

/-- Reads the field that a variable declares. -/
def fieldOf (base : Text) (doc : Option String) (v : Match Part) : Except Fault Field := do
  let namePart ← part v .name
  let dimensionsPart ← part v .dimensions
  let typeName := String.ofList (variableType base dimensionsPart.text)
  return { name := String.ofList namePart.text, typeName, doc }

/-- Reads the fields that a match declares. -/
def fieldsOf (includeDocs : Bool) (members : Text) (m : Match Part) :
    Except Fault (List Field) := do
  let typePart ← part m .fieldType
  let base := Text.compact typePart.text
  if statementWords.contains base then return []
  else
    let further ← furtherVariables members m
    (m :: further).mapM (fieldOf base (docOf includeDocs m))

/-- Reads the fields of a class. -/
def fields (includeDocs : Bool) (members : Text) : Except Fault (List Field) := do
  let found ← (Declaration.field.allMatches members).mapM (fieldsOf includeDocs members)
  return found.flatten

theorem getD_firstWhere? (p : Char → Bool) (pos : Nat) (s : Text) :
    (firstWhere? p pos s).getD (pos + byteLength s) =
      pos + byteLength (s.takeWhile fun c => !p c) := by
  induction s generalizing pos with
  | nil => rfl
  | cons c cs ih =>
    have hrest := ih (pos + c.utf8Size)
    rw [firstWhere?, List.takeWhile_cons]
    cases p c with
    | true => rfl
    | false =>
      simp only [Bool.false_eq_true, ↓reduceIte, Bool.not_false, Text.byteLength_cons]
      rw [← Nat.add_assoc, hrest, Nat.add_assoc]

/-- A text is cut before the first character that satisfies a condition. -/
theorem cut_firstWhere? (p : Char → Bool) (s : Text) :
    cut s 0 ((firstWhere? p 0 s).getD (byteLength s)) = .ok (s.takeWhile fun c => !p c) := by
  have hstop := getD_firstWhere? p 0 s
  have hcut := cut_front (s.takeWhile fun c => !p c) (s.dropWhile fun c => !p c)
  rw [List.takeWhile_append_dropWhile] at hcut
  rw [Nat.zero_add, Nat.zero_add] at hstop
  rw [hstop, hcut]

/-- The variables that follow the first one in a declaration. -/
def furtherOf (members : Text) (m : Match Part) : List (Match Part) :=
  if m.whole.text.getLast? = some ';' then []
  else Source.furtherVariables (m.whole.text.getLast? = some '=')
    (Text.dropBytes m.whole.stop members)

theorem furtherVariables_eq {members : Text} (h : byteLength members < limit) {m : Match Part}
    (hm : m ∈ Declaration.field.allMatches members) :
    furtherVariables members m = .ok (furtherOf members m) := by
  obtain ⟨u, rest, rfl, hstop⟩ := Text.isBoundary_iff.mp (Pattern.isOn_of_mem_allMatches hm).stop
  have hshort : (rest.takeWhile fun c => !decide (c = ';')).length < limit := by
    have htake := (List.takeWhile_sublist (p := fun c => !decide (c = ';')) (l := rest)).length_le
    have hrest := length_le_byteLength rest
    rw [Text.byteLength_append] at h
    omega
  rw [furtherVariables, furtherOf, Source.furtherVariables, ← hstop, cut_back,
    Text.dropBytes_append]
  simp only [ok_bind, cut_firstWhere?, splitTopLevel_eq ',' hshort]
  split
  · rfl
  · simp only [decide_eq_true_eq, ne_eq, decide_not]
    rfl

theorem exists_declarator_of_mem_furtherOf {members : Text} {m v : Match Part}
    (h : v ∈ furtherOf members m) :
    ∃ s, v ∈ Declaration.declarator.allMatches s := by
  rw [furtherOf] at h
  split at h
  · cases h
  · obtain ⟨s, _, hfirst⟩ := List.mem_filterMap.mp h
    exact ⟨s, List.mem_of_mem_head? hfirst⟩

theorem fieldOf_eq {p : Declaration.Shape} {s : Text} {v : Match Part} (hv : v ∈ p.allMatches s)
    (hname : p.captures .name = true) (hdimensions : p.captures .dimensions = true) (base : Text)
    (doc : Option String) :
    fieldOf base doc v = .ok
      { name := String.ofList (v.text .name)
        typeName := String.ofList (variableType base (v.text .dimensions))
        doc } := by
  obtain ⟨name, hname, hnameText, _⟩ := exists_part hv hname
  obtain ⟨dims, hdims, hdimsText, _⟩ := exists_part hv hdimensions
  rw [fieldOf, hname, hdims, ← hnameText, ← hdimsText]
  rfl

theorem fieldsOf_eq {members : Text} (h : byteLength members < limit) (includeDocs : Bool)
    {m : Match Part} (hm : m ∈ Declaration.field.allMatches members) :
    fieldsOf includeDocs members m = .ok (Source.fieldsOf includeDocs members m) := by
  obtain ⟨type, htype, htypeText, _⟩ := exists_part hm (g := .fieldType) rfl
  rw [fieldsOf, htype, furtherVariables_eq h hm, Source.fieldsOf, ← htypeText]
  simp only [ok_bind]
  split
  · rfl
  · refine mapM_eq_ok fun v hv => ?_
    rcases List.mem_cons.mp hv with rfl | hv
    · exact fieldOf_eq hm rfl rfl _ _
    · obtain ⟨s, hs⟩ := exists_declarator_of_mem_furtherOf hv
      exact fieldOf_eq hs rfl rfl _ _

theorem fields_eq {members : Text} (h : byteLength members < limit) (includeDocs : Bool) :
    fields includeDocs members = .ok (Source.fields includeDocs members) := by
  rw [fields, mapM_eq_ok fun m hm => fieldsOf_eq h includeDocs hm]
  rfl

end Typings.Source.Checked
