import Typings.Proofs.TypeScript.Reader

/-!
# Reading what is put together

What reading gives for a text that is put together from the texts of types: arrays, records,
unions with `null` and function types. The one place where the parts do not keep their structure
is a union with `null` after a function type: there the result of the function takes the union.
-/

namespace Typings.TsType

-- ---------------------------------------------------------------------------
-- Symbols and names
-- ---------------------------------------------------------------------------

theorem symbol?_space (c : Char) (s : Text) : symbol? c (' ' :: s) = symbol? c s := by
  simp [symbol?, skipSpaces]

theorem symbol?_self {c : Char} (h : c ≠ ' ') (s : Text) : symbol? c (c :: s) = some s := by
  simp [symbol?, skipSpaces, h]

theorem symbol?_ne {c d : Char} (hd : d ≠ ' ') (h : d ≠ c) (s : Text) :
    symbol? c (d :: s) = none := by
  simp [symbol?, skipSpaces, hd, h]

theorem symbol?_nil (c : Char) : symbol? c [] = none := rfl

theorem ne_space_of_isNameChar {c : Char} (h : isNameChar c = true) : c ≠ ' ' := by
  rintro rfl
  exact absurd h (by decide)

/-- A text that is not empty and holds characters of dotted names only. -/
structure IsWord (w : Text) : Prop where
  ne_nil : w ≠ []
  name_chars : ∀ c ∈ w, isNameChar c = true

/-- A text that does not start with a character of a dotted name. -/
def EndsWord (s : Text) : Prop := ∀ c cs, s = c :: cs → isNameChar c = false

theorem word?_append {w s : Text} (hw : IsWord w) (hs : EndsWord s) :
    word? (w ++ s) = some (w, s) := by
  obtain ⟨c, cs, rfl⟩ := List.exists_cons_of_ne_nil hw.ne_nil
  have hskip : skipSpaces (c :: cs ++ s) = c :: cs ++ s := by
    have := ne_space_of_isNameChar (hw.name_chars c (by simp))
    simp [skipSpaces, this]
  have htake : (c :: cs ++ s).takeWhile isNameChar = c :: cs := by
    rw [List.takeWhile_append_of_pos hw.name_chars]
    cases s with
    | nil => simp
    | cons d ds => simp [hs d ds rfl]
  have hdrop : (c :: cs ++ s).dropWhile isNameChar = s := by
    rw [List.dropWhile_append_of_pos hw.name_chars]
    cases s with
    | nil => simp
    | cons d ds => simp [hs d ds rfl]
  simp only [word?, hskip, htake, hdrop]
  rfl

theorem word?_space (s : Text) : word? (' ' :: s) = word? s := by
  simp [word?, skipSpaces]

theorem word?_eq_none {c : Char} (hspace : c ≠ ' ') (hname : isNameChar c = false) (s : Text) :
    word? (c :: s) = none := by
  simp [word?, skipSpaces, hspace, hname]

-- ---------------------------------------------------------------------------
-- Where types end
-- ---------------------------------------------------------------------------

/-- A text before which a type ends: it is empty, or goes on with `)`, `,` or `>`. -/
def Ends (s : Text) : Prop := s = [] ∨ ∃ c cs, s = c :: cs ∧ (c = ')' ∨ c = ',' ∨ c = '>')

theorem ends_nil : Ends [] := .inl rfl

theorem ends_cons {c : Char} (h : c = ')' ∨ c = ',' ∨ c = '>') (s : Text) : Ends (c :: s) :=
  .inr ⟨c, s, rfl, h⟩

/-- A text before which a postfix type ends: a type ends, or a union goes on. -/
def EndsPostfix (s : Text) : Prop := Ends s ∨ ∃ cs, s = ' ' :: '|' :: cs

theorem EndsPostfix.endsWord {s : Text} (h : EndsPostfix s) : EndsWord s := by
  rintro c cs rfl
  rcases h with (h | ⟨d, ds, h, hd⟩) | ⟨ds, h⟩
  · simp at h
  · obtain ⟨rfl, -⟩ := List.cons.inj h
    rcases hd with rfl | rfl | rfl <;> decide
  · obtain ⟨rfl, -⟩ := List.cons.inj h
    decide

/-- Only symbols that end a type are found where a type ends. -/
theorem Ends.symbol?_eq_none {s : Text} (h : Ends s) {c : Char}
    (hc : c ≠ ')' ∧ c ≠ ',' ∧ c ≠ '>') : symbol? c s = none := by
  rcases h with rfl | ⟨d, ds, rfl, rfl | rfl | rfl⟩
  · exact symbol?_nil c
  · exact symbol?_ne (by decide) hc.1.symm ds
  · exact symbol?_ne (by decide) hc.2.1.symm ds
  · exact symbol?_ne (by decide) hc.2.2.symm ds

theorem EndsPostfix.symbol?_eq_none {s : Text} (h : EndsPostfix s) {c : Char}
    (hc : c ≠ ')' ∧ c ≠ ',' ∧ c ≠ '>') (hbar : c ≠ '|') : symbol? c s = none := by
  rcases h with h | ⟨cs, rfl⟩
  · exact h.symbol?_eq_none hc
  · rw [symbol?_space]
    exact symbol?_ne (by decide) hbar.symm cs

theorem EndsPostfix.arrays_eq {s : Text} (h : EndsPostfix s) (t : TsType) :
    arrays t s = (t, s) := by
  rcases h with (rfl | ⟨c, cs, rfl, hc⟩) | ⟨cs, rfl⟩
  · rfl
  · rcases hc with rfl | rfl | rfl <;> rfl
  · rfl

-- ---------------------------------------------------------------------------
-- Arrays and unions with null
-- ---------------------------------------------------------------------------

/-- Pairs of square brackets. -/
def brackets : Nat → Text
  | 0 => []
  | m + 1 => '[' :: ']' :: brackets m

/-- The array of the array of … of a type. -/
def arrayTimes : Nat → TsType → TsType
  | 0, t => t
  | m + 1, t => arrayTimes m (.array t)

theorem arrays_brackets {s : Text} (h : EndsPostfix s) (m : Nat) (t : TsType) :
    arrays t (brackets m ++ s) = (arrayTimes m t, s) := by
  induction m generalizing t with
  | zero => exact h.arrays_eq t
  | succ m ih => exact ih (.array t)

/-- The type `null`. -/
def null : TsType := .reference ['n', 'u', 'l', 'l'] []

/-- What ` | null` after the text of a type makes of it. -/
def orNull : TsType → TsType
  | .function parameters result => .function parameters (orNull result)
  | t => .union t null

def orNullTimes : Nat → TsType → TsType
  | 0, t => t
  | k + 1, t => orNullTimes k (orNull t)

/-- ` | null` several times. -/
def nulls : Nat → Text
  | 0 => []
  | k + 1 => ' ' :: '|' :: ' ' :: 'n' :: 'u' :: 'l' :: 'l' :: nulls k

/-- A function type keeps its parameters; its result takes the unions. -/
theorem orNullTimes_function (k : Nat) (parameters : List TsType) (result : TsType) :
    orNullTimes k (.function parameters result) = .function parameters (orNullTimes k result) := by
  induction k generalizing result with
  | zero => rfl
  | succ k ih => exact ih (orNull result)

/-- Whether a type is a function type. -/
def isFunction : TsType → Bool
  | .function _ _ => true
  | _ => false

theorem orNull_eq_union {t : TsType} (h : t.isFunction = false) : orNull t = .union t null := by
  cases t with
  | function parameters result => simp [isFunction] at h
  | reference name arguments => rfl
  | array element => rfl
  | union left right => rfl

theorem endsPostfix_nulls (k : Nat) {rest : Text} (h : Ends rest) :
    EndsPostfix (nulls k ++ rest) := by
  cases k with
  | zero => exact .inl h
  | succ k => exact .inr ⟨_, rfl⟩

-- ---------------------------------------------------------------------------
-- How the text of a type starts
-- ---------------------------------------------------------------------------

/-- A text that starts like a type and not like the inside of a list of parameters: with an opening
parenthesis, or with a name after which no colon follows. -/
inductive Starts : Text → Prop where
  | paren (s : Text) : Starts ('(' :: s)
  | word {w : Text} (h : IsWord w) : Starts w
  | symbol {w : Text} (h : IsWord w) {c : Char} (hc : c = '[' ∨ c = '<' ∨ c = '(') (s : Text) :
      Starts (w ++ c :: s)
  | union {w : Text} (h : IsWord w) (s : Text) : Starts (w ++ ' ' :: '|' :: s)

theorem Starts.append_brackets {x : Text} (h : Starts x) (s : Text) :
    Starts (x ++ '[' :: s) := by
  cases h with
  | paren y => exact .paren _
  | word hw => exact .symbol hw (.inl rfl) s
  | symbol hw hc y => rw [List.append_assoc]; exact .symbol hw hc _
  | union hw y => rw [List.append_assoc]; exact .union hw _

theorem Starts.append_bar {x : Text} (h : Starts x) (s : Text) : Starts (x ++ ' ' :: '|' :: s) := by
  cases h with
  | paren y => exact .paren _
  | word hw => exact .union hw s
  | symbol hw hc y => rw [List.append_assoc]; exact .symbol hw hc _
  | union hw y => rw [List.append_assoc]; exact .union hw _

theorem opensParameters_word {w : Text} (hw : IsWord w) (s : Text) :
    opensParameters (w ++ s) = false := by
  obtain ⟨c, cs, rfl⟩ := List.exists_cons_of_ne_nil hw.ne_nil
  have hc := hw.name_chars c (by simp)
  have hparen : c ≠ '(' := by
    rintro rfl
    exact absurd hc (by decide)
  have hnone : symbol? '(' (c :: cs ++ s) = none :=
    symbol?_ne (ne_space_of_isNameChar hc) hparen (cs ++ s)
  rw [opensParameters, hnone]

/-- A type in parentheses is not taken for a list of parameters. -/
theorem Starts.opensParameters_eq_false {x : Text} (h : Starts x) (s : Text) :
    opensParameters ('(' :: (x ++ ')' :: s)) = false := by
  -- A name follows the parenthesis; what stands after it is no colon.
  have named : ∀ {w : Text} (_ : IsWord w) (y : Text), EndsWord y → symbol? ':' y = none →
      opensParameters ('(' :: (w ++ y)) = false := by
    intro w hw y hend hcolon
    obtain ⟨c, cs, rfl⟩ := List.exists_cons_of_ne_nil hw.ne_nil
    have hc := hw.name_chars c (by simp)
    have hclose : c ≠ ')' := by
      rintro rfl
      exact absurd hc (by decide)
    have hnone : symbol? ')' (c :: cs ++ y) = none :=
      symbol?_ne (ne_space_of_isNameChar hc) hclose (cs ++ y)
    rw [opensParameters, symbol?_self (by decide)]
    simp only [hnone, word?_append hw hend, hcolon]
    rfl
  have endsWord_cons : ∀ {c : Char} (t : Text), isNameChar c = false → EndsWord (c :: t) := by
    rintro c t hc d ds hd
    obtain ⟨rfl, -⟩ := List.cons.inj hd
    exact hc
  cases h with
  | paren y =>
    rw [opensParameters, symbol?_self (by decide)]
    simp only [List.cons_append, symbol?_ne (show '(' ≠ ' ' by decide) (show '(' ≠ ')' by decide),
      word?_eq_none (show '(' ≠ ' ' by decide) (show isNameChar '(' = false by decide)]
    rfl
  | word hw =>
    exact named hw _ (endsWord_cons s (by decide)) (symbol?_ne (by decide) (by decide) s)
  | symbol hw hc y =>
    rw [List.append_assoc]
    rcases hc with rfl | rfl | rfl <;>
      exact named hw _ (endsWord_cons _ (by decide)) (symbol?_ne (by decide) (by decide) _)
  | union hw y =>
    rw [List.append_assoc]
    refine named hw _ (endsWord_cons _ (by decide)) ?_
    rw [List.cons_append, symbol?_space]
    exact symbol?_ne (by decide) (by decide) _

-- ---------------------------------------------------------------------------
-- Postfix types
-- ---------------------------------------------------------------------------

/-- The text reads as the type, and brackets after it make arrays of that type. -/
structure ReadsPostfix (x : Text) (t : TsType) : Prop where
  starts : Starts x
  opensParameters : ∀ rest, opensParameters (x ++ rest) = false
  reads : ∀ m n rest, EndsPostfix rest → x.length < n →
    postfix? (type? n) n (x ++ (brackets m ++ rest)) = some (arrayTimes m t, rest)

/-- The text reads as the type, and ` | null` after it goes into that type. -/
structure Reads (x : Text) (t : TsType) : Prop where
  starts : Starts x
  reads : ∀ k n rest, Ends rest → x.length + k + 1 < n →
    type? n (x ++ (nulls k ++ rest)) = some (orNullTimes k t, rest)

theorem Reads.type?_eq {x : Text} {t : TsType} (h : Reads x t) {n : Nat} (hn : x.length + 1 < n)
    {rest : Text} (hrest : Ends rest) : type? n (x ++ rest) = some (t, rest) := by
  exact h.reads 0 n rest hrest hn

theorem Reads.read_eq {x : Text} {t : TsType} (h : Reads x t) : read x = some t := by
  have := h.type?_eq (Nat.lt_succ_self (x.length + 1)) ends_nil
  rw [List.append_nil] at this
  rw [read, this]
  rfl

/-- What a primary type reads as decides what a postfix type reads as. -/
theorem postfix?_of_primary? {type : Reader} {n m : Nat} {s rest : Text} {t : TsType}
    (h : primary? type n s = some (t, brackets m ++ rest)) (hrest : EndsPostfix rest) :
    postfix? type n s = some (arrayTimes m t, rest) := by
  rw [postfix?, h]
  exact congrArg some (arrays_brackets hrest m t)

theorem endsWord_brackets {rest : Text} (h : EndsPostfix rest) (m : Nat) :
    EndsWord (brackets m ++ rest) := by
  cases m with
  | zero => exact h.endsWord
  | succ m =>
    rintro c cs hc
    obtain ⟨rfl, -⟩ := List.cons.inj hc
    decide

theorem symbol?_brackets {rest : Text} (h : EndsPostfix rest) (m : Nat) {c : Char}
    (hc : c ≠ ')' ∧ c ≠ ',' ∧ c ≠ '>') (hbar : c ≠ '|') (hsquare : c ≠ '[') :
    symbol? c (brackets m ++ rest) = none := by
  cases m with
  | zero => exact h.symbol?_eq_none hc hbar
  | succ m => exact symbol?_ne (by decide) hsquare.symm _

/-- What stands for a name: a dotted name, or an import. -/
inductive IsReference : Text → Prop where
  | word {w : Text} (h : IsWord w) : IsReference w
  | imported {module path : Text} (hmodule : '"' ∉ module) (hpath : IsWord path) :
      IsReference (importText module path)

theorem isWord_importWord : IsWord importWord := ⟨by decide, by decide⟩

theorem quotedArgument?_append {module : Text} (h : '"' ∉ module) (s : Text) :
    quotedArgument? ('(' :: '"' :: (module ++ '"' :: ')' :: s)) = some (module, s) := by
  have hne : ∀ c ∈ module, decide (c ≠ '"') = true := by
    intro c hc
    simp only [decide_eq_true_eq]
    rintro rfl
    exact h hc
  have htake : (module ++ '"' :: ')' :: s).takeWhile (· ≠ '"') = module := by
    rw [List.takeWhile_append_of_pos hne]
    simp
  have hdrop : (module ++ '"' :: ')' :: s).dropWhile (· ≠ '"') = '"' :: ')' :: s := by
    rw [List.dropWhile_append_of_pos hne]
    simp
  have hopen : Text.afterPrefix? ['(', '"'] ('(' :: '"' :: (module ++ '"' :: ')' :: s)) =
      some (module ++ '"' :: ')' :: s) := rfl
  have hclose : Text.afterPrefix? ['"', ')'] ('"' :: ')' :: s) = some s := rfl
  simp only [quotedArgument?, hopen, htake, hdrop, hclose, Option.map_some]

theorem IsReference.reference?_append {x : Text} (h : IsReference x) {s : Text} (hs : EndsWord s)
    (hparen : ∀ t, s ≠ '(' :: t) : reference? (x ++ s) = some (x, s) := by
  cases h with
  | word hw =>
    have hquoted : quotedArgument? s = none := by
      cases s with
      | nil => rfl
      | cons c cs =>
        have hc : '(' ≠ c := fun e => hparen cs (by rw [e])
        simp [quotedArgument?, Text.afterPrefix?, hc]
    simp only [reference?, word?_append hw hs, hquoted, ite_self]
  | @imported module path hmodule hpath =>
    have hword : word? (importText module path ++ s) =
        some (importWord, '(' :: '"' :: (module ++ '"' :: ')' :: (path ++ s))) := by
      have hend : EndsWord ('(' :: '"' :: (module ++ '"' :: ')' :: (path ++ s))) := by
        rintro c cs hc
        obtain ⟨rfl, -⟩ := List.cons.inj hc
        decide
      rw [← word?_append isWord_importWord hend]
      simp [importText]
    simp only [reference?, hword, if_true, quotedArgument?_append hmodule,
      word?_append hpath hs, Option.map_some]

theorem IsReference.starts {x : Text} (h : IsReference x) : Starts x := by
  cases h with
  | word hw => exact .word hw
  | imported hmodule hpath => exact .symbol isWord_importWord (.inr (.inr rfl)) _

/-- A reference starts with a name. -/
theorem IsReference.exists_eq_append {x : Text} (h : IsReference x) :
    ∃ w s, x = w ++ s ∧ IsWord w := by
  cases h with
  | @word w hw => exact ⟨_, [], (List.append_nil _).symm, hw⟩
  | imported hmodule hpath => exact ⟨_, _, rfl, isWord_importWord⟩

theorem symbol?_paren_word {w : Text} (hw : IsWord w) (s : Text) :
    symbol? '(' (w ++ s) = none := by
  obtain ⟨c, cs, rfl⟩ := List.exists_cons_of_ne_nil hw.ne_nil
  have hc := hw.name_chars c (by simp)
  refine symbol?_ne (ne_space_of_isNameChar hc) ?_ (cs ++ s)
  rintro rfl
  exact absurd hc (by decide)

/-- A reference reads as itself. -/
theorem IsReference.readsPostfix {x : Text} (h : IsReference x) :
    ReadsPostfix x (.reference x []) := by
  obtain ⟨w, y, hx, hw⟩ := h.exists_eq_append
  refine ⟨h.starts, fun rest => ?_, fun m n rest hrest _ => ?_⟩
  · rw [hx, List.append_assoc]
    exact opensParameters_word hw _
  · have hparen : symbol? '(' (x ++ (brackets m ++ rest)) = none := by
      rw [hx, List.append_assoc]
      exact symbol?_paren_word hw _
    have hend : ∀ t, brackets m ++ rest ≠ '(' :: t := by
      intro t ht
      have := symbol?_brackets hrest m (c := '(') (by decide) (by decide) (by decide)
      rw [ht, symbol?_self (by decide)] at this
      simp at this
    have hangle := symbol?_brackets hrest m (c := '<') (by decide) (by decide) (by decide)
    refine postfix?_of_primary? ?_ hrest
    rw [primary?, hparen]
    simp only [h.reference?_append (endsWord_brackets hrest m) hend, Option.bind_eq_bind,
      Option.bind_some, hangle]
    rfl

/-- A type in parentheses with brackets after it reads as the array of that type. -/
theorem Reads.readsPostfix_group {x : Text} {t : TsType} (h : Reads x t) :
    ReadsPostfix ('(' :: (x ++ [')', '[', ']'])) (.array t) := by
  refine ⟨.paren _, fun rest => ?_, fun m n rest hrest hn => ?_⟩
  · have := h.starts.opensParameters_eq_false ('[' :: ']' :: rest)
    simpa using this
  · have htext : '(' :: (x ++ [')', '[', ']']) ++ (brackets m ++ rest) =
        '(' :: (x ++ ')' :: (brackets (m + 1) ++ rest)) := by simp [brackets]
    have hx : x.length + 1 < n := by
      simp only [List.length_cons, List.length_append] at hn
      omega
    have hinner := h.type?_eq hx (ends_cons (.inl rfl) (brackets (m + 1) ++ rest))
    rw [htext]
    refine (postfix?_of_primary? (m := m + 1) (t := t) ?_ hrest).trans rfl
    rw [primary?, symbol?_self (by decide)]
    simp only [hinner, Option.bind_eq_bind, Option.bind_some,
      symbol?_self (show ')' ≠ ' ' by decide)]
    rfl

/-- Brackets after a postfix type make an array of it. -/
theorem ReadsPostfix.array {x : Text} {t : TsType} (h : ReadsPostfix x t) :
    ReadsPostfix (x ++ ['[', ']']) (.array t) := by
  refine ⟨h.starts.append_brackets [']'], fun rest => ?_, fun m n rest hrest hn => ?_⟩
  · rw [List.append_assoc]
    exact h.opensParameters _
  · have hx : x.length < n := by
      simp only [List.length_append] at hn
      omega
    have := h.reads (m + 1) n rest hrest hx
    simpa [brackets, arrayTimes] using this

-- ---------------------------------------------------------------------------
-- Spaces in front
-- ---------------------------------------------------------------------------

theorem opensParameters_space (s : Text) : opensParameters (' ' :: s) = opensParameters s := by
  rw [opensParameters, opensParameters, symbol?_space]

theorem primary?_space (type : Reader) (n : Nat) (s : Text) :
    primary? type n (' ' :: s) = primary? type n s := by
  rw [primary?, primary?, symbol?_space, reference?, reference?, word?_space]

theorem postfix?_space (type : Reader) (n : Nat) (s : Text) :
    postfix? type n (' ' :: s) = postfix? type n s := by
  rw [postfix?, postfix?, primary?_space]

theorem type?_space (n : Nat) (s : Text) : type? n (' ' :: s) = type? n s := by
  cases n with
  | zero => rfl
  | succ n => rw [type?, type?, opensParameters_space, symbol?_space, postfix?_space]

-- ---------------------------------------------------------------------------
-- Records
-- ---------------------------------------------------------------------------

/-- The name of the type of records. -/
def recordWord : Text := ['R', 'e', 'c', 'o', 'r', 'd']

theorem isWord_recordWord : IsWord recordWord := ⟨by decide, by decide⟩

theorem Reads.readsPostfix_record {a b : Text} {t u : TsType} (ha : Reads a t) (hb : Reads b u) :
    ReadsPostfix (recordWord ++ '<' :: (a ++ ',' :: ' ' :: (b ++ ['>'])))
      (.reference recordWord [t, u]) := by
  refine ⟨.symbol isWord_recordWord (.inr (.inl rfl)) _, fun rest => ?_,
    fun m n rest hrest hn => ?_⟩
  · rw [List.append_assoc]
    exact opensParameters_word isWord_recordWord _
  · simp only [List.length_append, List.length_cons] at hn
    obtain ⟨n, rfl⟩ : ∃ k, n = k + 2 := ⟨n - 2, by omega⟩
    have htext : recordWord ++ '<' :: (a ++ ',' :: ' ' :: (b ++ ['>'])) ++ (brackets m ++ rest) =
        recordWord ++ '<' :: (a ++ ',' :: ' ' :: (b ++ '>' :: (brackets m ++ rest))) := by simp
    have hkey := ha.type?_eq (n := n + 2) (by omega)
      (ends_cons (.inr (.inl rfl)) (' ' :: (b ++ '>' :: (brackets m ++ rest))))
    have hvalue := hb.type?_eq (n := n + 2) (by omega)
      (ends_cons (.inr (.inr rfl)) (brackets m ++ rest))
    have hname : reference? (recordWord ++ '<' ::
        (a ++ ',' :: ' ' :: (b ++ '>' :: (brackets m ++ rest)))) =
        some (recordWord, '<' :: (a ++ ',' :: ' ' :: (b ++ '>' :: (brackets m ++ rest)))) := by
      refine (IsReference.word isWord_recordWord).reference?_append ?_ (by simp)
      rintro c cs hc
      obtain ⟨rfl, -⟩ := List.cons.inj hc
      decide
    rw [htext]
    refine postfix?_of_primary? ?_ hrest
    rw [primary?, symbol?_paren_word isWord_recordWord]
    simp only [hname, Option.bind_eq_bind, Option.bind_some, arguments?,
      symbol?_self (show '<' ≠ ' ' by decide), hkey, symbol?_self (show ',' ≠ ' ' by decide),
      type?_space, hvalue, symbol?_ne (show '>' ≠ ' ' by decide) (show '>' ≠ ',' by decide),
      symbol?_self (show '>' ≠ ' ' by decide)]
    rfl

-- ---------------------------------------------------------------------------
-- Unions with null
-- ---------------------------------------------------------------------------

theorem postfix?_null (type : Reader) (n : Nat) {rest : Text} (h : EndsPostfix rest) :
    postfix? type n ('n' :: 'u' :: 'l' :: 'l' :: rest) = some (null, rest) := by
  have hword : IsWord ['n', 'u', 'l', 'l'] := ⟨by decide, by decide⟩
  have hparen : ∀ t, rest ≠ '(' :: t := by
    rintro t rfl
    have := h.symbol?_eq_none (c := '(') (by decide) (by decide)
    rw [symbol?_self (by decide)] at this
    simp at this
  have hname := (IsReference.word hword).reference?_append h.endsWord hparen
  refine (postfix?_of_primary? (m := 0) (t := null) ?_ h).trans rfl
  show primary? type n (['n', 'u', 'l', 'l'] ++ rest) = some (null, rest)
  rw [primary?, symbol?_paren_word hword]
  simp only [hname, Option.bind_eq_bind, Option.bind_some,
    h.symbol?_eq_none (c := '<') (by decide) (by decide)]
  rfl

theorem members?_nulls (type : Reader) (n k bound : Nat) (hk : k < bound) {rest : Text}
    (h : Ends rest) {t : TsType} (ht : t.isFunction = false) :
    members? (postfix? type n) bound t (nulls k ++ rest) = some (orNullTimes k t, rest) := by
  induction k generalizing t bound with
  | zero =>
    obtain ⟨bound, rfl⟩ : ∃ b, bound = b + 1 := ⟨bound - 1, by omega⟩
    show members? (postfix? type n) (bound + 1) t rest = some (t, rest)
    simp only [members?, h.symbol?_eq_none (c := '|') (by decide)]
  | succ k ih =>
    obtain ⟨bound, rfl⟩ : ∃ b, bound = b + 1 := ⟨bound - 1, by omega⟩
    have hnull := postfix?_null type n (endsPostfix_nulls k h)
    simp only [nulls, List.cons_append, members?, symbol?_space,
      symbol?_self (show '|' ≠ ' ' by decide), postfix?_space, hnull, Option.bind_eq_bind,
      Option.bind_some]
    rw [orNullTimes, orNull_eq_union ht]
    exact ih bound (by omega) rfl

/-- A postfix type is a type. -/
theorem ReadsPostfix.toReads {x : Text} {t : TsType} (h : ReadsPostfix x t)
    (ht : t.isFunction = false) : Reads x t := by
  refine ⟨h.starts, fun k n rest hrest hn => ?_⟩
  obtain ⟨n, rfl⟩ : ∃ j, n = j + 1 := ⟨n - 1, by omega⟩
  have hfirst := h.reads 0 n (nulls k ++ rest) (endsPostfix_nulls k hrest) (by omega)
  have hfirst : postfix? (type? n) n (x ++ (nulls k ++ rest)) = some (t, nulls k ++ rest) := hfirst
  rw [type?, h.opensParameters, if_neg (by simp)]
  simp only [hfirst, Option.bind_eq_bind, Option.bind_some]
  exact members?_nulls _ n k n (by omega) hrest ht

theorem Reads.orNull {x : Text} {t : TsType} (h : Reads x t) :
    Reads (x ++ nulls 1) (orNull t) := by
  refine ⟨h.starts.append_bar _, fun k n rest hrest hn => ?_⟩
  have hx : x.length + (k + 1) + 1 < n := by
    simp only [nulls, List.length_append, List.length_cons] at hn
    omega
  have := h.reads (k + 1) n rest hrest hx
  simpa [nulls, orNullTimes] using this

-- ---------------------------------------------------------------------------
-- Functions
-- ---------------------------------------------------------------------------

/-- The text, up to its closing parenthesis, reads as a list of parameters. -/
structure ReadsParameters (x : Text) (ts : List TsType) : Prop where
  opens : ∀ rest, opensParameters ('(' :: (x ++ rest)) = true
  reads : ∀ n bound rest, x.length < n → x.length < bound + 1 →
    parameters? (type? n) bound (x ++ rest) = some (ts, rest)

theorem readsParameters_nil : ReadsParameters [')'] [] := by
  have hclose : ∀ rest, symbol? ')' (')' :: rest) = some rest := symbol?_self (by decide)
  refine ⟨fun rest => ?_, fun n bound rest _ hbound => ?_⟩
  · rw [opensParameters, symbol?_self (by decide)]
    simp only [List.cons_append, hclose]
    rfl
  · obtain ⟨bound, rfl⟩ : ∃ b, bound = b + 1 := ⟨bound - 1, by
      simp only [List.length_singleton] at hbound
      omega⟩
    simp only [List.cons_append, List.nil_append, parameters?, hclose]

theorem opensParameters_parameter {w : Text} (hw : IsWord w) (s : Text) :
    opensParameters ('(' :: (w ++ ':' :: s)) = true := by
  have hend : EndsWord (':' :: s) := by
    rintro c cs hc
    obtain ⟨rfl, -⟩ := List.cons.inj hc
    decide
  rw [opensParameters, symbol?_self (by decide)]
  simp only [word?_append hw hend, symbol?_self (show ':' ≠ ' ' by decide), Option.isSome_some,
    Bool.or_true]

/-- The first parameter of a list, up to the symbol after its type. -/
theorem parameters?_parameter {w a : Text} (hw : IsWord w) {t : TsType} (ha : Reads a t)
    {n : Nat} (hn : a.length + 1 < n) (bound : Nat) {s : Text} (hs : Ends s) :
    parameters? (type? n) (bound + 1) (w ++ ':' :: ' ' :: (a ++ s)) =
      match symbol? ',' s with
      | some s => (parameters? (type? n) bound s).map fun (ts, s) => (t :: ts, s)
      | none => (symbol? ')' s).map fun s => ([t], s) := by
  have hend : EndsWord (':' :: ' ' :: (a ++ s)) := by
    rintro c cs hc
    obtain ⟨rfl, -⟩ := List.cons.inj hc
    decide
  have hclose : symbol? ')' (w ++ ':' :: ' ' :: (a ++ s)) = none := by
    obtain ⟨c, cs, rfl⟩ := List.exists_cons_of_ne_nil hw.ne_nil
    have hc := hw.name_chars c (by simp)
    refine symbol?_ne (ne_space_of_isNameChar hc) ?_ _
    rintro rfl
    exact absurd hc (by decide)
  simp only [parameters?, hclose, word?_append hw hend, Option.bind_eq_bind, Option.bind_some,
    symbol?_self (show ':' ≠ ' ' by decide), type?_space, ha.type?_eq hn hs]
  simp only [Option.map_eq_bind]
  rfl

theorem Reads.readsParameters_single {w a : Text} (hw : IsWord w) {t : TsType} (ha : Reads a t) :
    ReadsParameters (w ++ ':' :: ' ' :: (a ++ [')'])) [t] := by
  refine ⟨fun rest => ?_, fun n bound rest hn hbound => ?_⟩
  · rw [List.append_assoc]
    exact opensParameters_parameter hw _
  · simp only [List.length_append, List.length_cons] at hn hbound
    obtain ⟨bound, rfl⟩ : ∃ b, bound = b + 1 := ⟨bound - 1, by omega⟩
    have htext : w ++ ':' :: ' ' :: (a ++ [')']) ++ rest =
        w ++ ':' :: ' ' :: (a ++ ')' :: rest) := by
      simp
    rw [htext, parameters?_parameter hw ha (by omega) bound (ends_cons (.inl rfl) rest),
      symbol?_ne (by decide) (by decide), symbol?_self (by decide)]
    rfl

theorem parameters?_space (type : Reader) (bound : Nat) (s : Text) :
    parameters? type bound (' ' :: s) = parameters? type bound s := by
  cases bound with
  | zero => rfl
  | succ bound => rw [parameters?, parameters?, symbol?_space, word?_space]

theorem Reads.readsParameters_cons {w a ps : Text} (hw : IsWord w) {t : TsType} (ha : Reads a t)
    {ts : List TsType} (hps : ReadsParameters ps ts) :
    ReadsParameters (w ++ ':' :: ' ' :: (a ++ ',' :: ' ' :: ps)) (t :: ts) := by
  refine ⟨fun rest => ?_, fun n bound rest hn hbound => ?_⟩
  · rw [List.append_assoc]
    exact opensParameters_parameter hw _
  · simp only [List.length_append, List.length_cons] at hn hbound
    obtain ⟨bound, rfl⟩ : ∃ b, bound = b + 1 := ⟨bound - 1, by omega⟩
    have htext : w ++ ':' :: ' ' :: (a ++ ',' :: ' ' :: ps) ++ rest =
        w ++ ':' :: ' ' :: (a ++ ',' :: ' ' :: (ps ++ rest)) := by simp
    rw [htext, parameters?_parameter hw ha (by omega) bound (ends_cons (.inr (.inl rfl)) _),
      symbol?_self (by decide)]
    simp only [parameters?_space, hps.reads n bound rest (by omega) (by omega), Option.map_some]

/-- A list of parameters, an arrow and a type read as a function type. -/
theorem ReadsParameters.reads_function {ps r : Text} {ts : List TsType} {u : TsType}
    (hps : ReadsParameters ps ts) (hr : Reads r u) :
    Reads ('(' :: (ps ++ ' ' :: '=' :: '>' :: ' ' :: r)) (.function ts u) := by
  refine ⟨.paren _, fun k n rest hrest hn => ?_⟩
  simp only [List.length_append, List.length_cons] at hn
  obtain ⟨n, rfl⟩ : ∃ j, n = j + 1 := ⟨n - 1, by omega⟩
  have htext : '(' :: (ps ++ ' ' :: '=' :: '>' :: ' ' :: r) ++ (nulls k ++ rest) =
      '(' :: (ps ++ ' ' :: '=' :: '>' :: ' ' :: (r ++ (nulls k ++ rest))) := by simp
  have hparameters := hps.reads n n (' ' :: '=' :: '>' :: ' ' :: (r ++ (nulls k ++ rest)))
    (by omega) (by omega)
  have hresult := hr.reads k n rest hrest (by omega)
  have harrow : ∀ s, arrow? (' ' :: '=' :: '>' :: s) = some s := by
    intro s
    rw [arrow?, symbol?_space, symbol?_self (by decide)]
    rfl
  rw [htext, type?, hps.opens, if_pos rfl, orNullTimes_function]
  simp only [symbol?_self (show '(' ≠ ' ' by decide), Option.bind_eq_bind, Option.bind_some,
    hparameters, harrow, type?_space, hresult]
  rfl

end Typings.TsType
