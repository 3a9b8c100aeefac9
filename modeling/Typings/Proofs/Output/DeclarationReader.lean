import Typings.Proofs.JavaType.Conversion
import Typings.Proofs.Output.OneLine
import Typings.Proofs.Text.Identifiers

/-!
# Reading declaration files

What the text of a declaration file declares, read line by line: the reader keeps the blocks that
are open at a line and takes the path of a declaration from the namespaces among them. `Declare`
says of lines that they are read alike wherever they stand, so that a file can be read piece by
piece.
-/

namespace Typings

-- ---------------------------------------------------------------------------
-- Reading a declaration file
-- ---------------------------------------------------------------------------

/-- What a line of a declaration file does. -/
inductive LineKind where
  /-- Declares an interface or class, whose members follow. -/
  | declares (name : String)
  /-- Declares an alias, which has no members. -/
  | aliases (name : String)
  | opensNamespace (name : String)
  /-- Closes the innermost block. -/
  | closes
  | other
deriving DecidableEq

/-- The identifier that a text starts with. -/
def leadingName (s : Text) : String := String.ofList (s.takeWhile isIdentifierChar)

/-- What a line does that exports a name with a word in front of it. -/
def LineKind.ofWord (word : Text) (name : String) : LineKind :=
  if word = "interface".toList || word = "class".toList then .declares name
  else if word = "type".toList then .aliases name
  else if word = "namespace".toList then .opensNamespace name
  else .other

def LineKind.ofLine (line : Text) : LineKind :=
  let s := line.dropWhile (· = ' ')
  match Text.afterPrefix? "export ".toList s with
  | none => if s = ['}'] then .closes else .other
  | some exported =>
    match Text.splitFirst? ' ' exported with
    | none => .other
    | some (word, rest) => .ofWord word (leadingName rest)

/-- A block that is open at a line. -/
inductive Block where
  | members
  | namespace (name : String)

def Block.name? : Block → Option String
  | .members => none
  | .namespace name => some name

/-- The names of the open namespaces, outermost first, the innermost block being listed first. -/
def openNames (blocks : List Block) : List String := (blocks.filterMap Block.name?).reverse

/-- The paths of the declarations on lines, top to bottom, some blocks being open before them. -/
def readPaths : (blocks : List Block) → List Text → List (List String)
  | _, [] => []
  | blocks, line :: lines =>
    match LineKind.ofLine line with
    | .declares name => (openNames blocks ++ [name]) :: readPaths (.members :: blocks) lines
    | .aliases name => (openNames blocks ++ [name]) :: readPaths blocks lines
    | .opensNamespace name => readPaths (.namespace name :: blocks) lines
    | .closes => readPaths blocks.tail lines
    | .other => readPaths blocks lines

/-- The paths of the declarations in the text of a declaration file. -/
def declaredPaths (contents : String) : List (List String) :=
  readPaths [] (contents.toList.splitOn '\n')

/-- Lines at which nothing is broken that, inside the namespaces `around`, declare some paths and
close every block they open. -/
structure Declare (around : List String) (lines : List String) (paths : List (List String)) :
    Prop where
  oneLine : ∀ line ∈ lines, OneLine line
  readPaths_append : ∀ blocks rest, openNames blocks = around →
    readPaths blocks (lines.map String.toList ++ rest) = paths ++ readPaths blocks rest

namespace Declare

variable {around : List String} {lines more : List String} {paths further : List (List String)}

theorem nil : Declare around [] [] := ⟨by simp, fun _ _ _ => rfl⟩

theorem append (h : Declare around lines paths) (h' : Declare around more further) :
    Declare around (lines ++ more) (paths ++ further) where
  oneLine line hline := (List.mem_append.1 hline).elim (h.oneLine line) (h'.oneLine line)
  readPaths_append blocks rest hblocks := by
    rw [List.map_append, List.append_assoc, h.readPaths_append _ _ hblocks,
      h'.readPaths_append _ _ hblocks, List.append_assoc]

theorem flatMap {α : Type} (items : List α) {lines : α → List String}
    {paths : α → List (List String)} (h : ∀ a ∈ items, Declare around (lines a) (paths a)) :
    Declare around (items.flatMap lines) (items.flatMap paths) := by
  induction items with
  | nil => exact .nil
  | cons a items ih =>
    rw [List.flatMap_cons, List.flatMap_cons]
    exact (h a List.mem_cons_self).append (ih fun b hb => h b (List.mem_cons_of_mem _ hb))

theorem other {line : String} (hline : OneLine line) (h : LineKind.ofLine line.toList = .other) :
    Declare around [line] [] where
  oneLine := by simpa using hline
  readPaths_append blocks rest _ := by simp [readPaths, h]

theorem empty : Declare around [""] [] := .other (by decide) (by decide)

theorem aliases {line name : String} (hline : OneLine line)
    (h : LineKind.ofLine line.toList = .aliases name) :
    Declare around [line] [around ++ [name]] where
  oneLine := by simpa using hline
  readPaths_append blocks rest hblocks := by simp [readPaths, h, hblocks]

/-- A declaration with its members. -/
theorem members {first last name : String} (hfirst : OneLine first) (hlast : OneLine last)
    (hopens : LineKind.ofLine first.toList = .declares name)
    (hcloses : LineKind.ofLine last.toList = .closes) (h : Declare around lines []) :
    Declare around (first :: lines ++ [last]) [around ++ [name]] where
  oneLine line hline := by
    rcases List.mem_append.1 hline with hline | hline
    · exact (List.mem_cons.1 hline).elim (· ▸ hfirst) (h.oneLine line)
    · exact List.mem_singleton.1 hline ▸ hlast
  readPaths_append blocks rest hblocks := by
    have hinner : openNames (.members :: blocks) = around := hblocks
    simp [readPaths, hopens, hcloses, hblocks, h.readPaths_append _ _ hinner]

/-- A namespace around declarations. -/
theorem space {first last name : String} (hfirst : OneLine first) (hlast : OneLine last)
    (hopens : LineKind.ofLine first.toList = .opensNamespace name)
    (hcloses : LineKind.ofLine last.toList = .closes)
    (h : Declare (around ++ [name]) lines paths) :
    Declare around (first :: lines ++ [last]) paths where
  oneLine line hline := by
    rcases List.mem_append.1 hline with hline | hline
    · exact (List.mem_cons.1 hline).elim (· ▸ hfirst) (h.oneLine line)
    · exact List.mem_singleton.1 hline ▸ hlast
  readPaths_append blocks rest hblocks := by
    have hinner : openNames (.namespace name :: blocks) = around ++ [name] := by
      simp [openNames, Block.name?, ← hblocks]
    simp [readPaths, hopens, hcloses, h.readPaths_append _ _ hinner]

/-- The text of lines declares what the lines declare. -/
theorem declaredPaths_unlines (h : Declare [] lines paths) :
    declaredPaths (unlines lines) = paths := by
  have hsplit : (unlines lines).toList.splitOn '\n' = lines.map String.toList ++ [[]] := by
    have hjoin : (unlines lines).toList =
        ['\n'].intercalate (lines.map String.toList ++ [[]]) := by
      unfold unlines
      rw [String.toList_join, List.flatMap_map]
      have hbreak : "\n".toList = ['\n'] := by decide
      simp only [String.toList_append, hbreak]
      clear h
      induction lines with
      | nil => rfl
      | cons line lines ih =>
        rw [List.flatMap_cons, ih, List.map_cons, List.cons_append,
          List.intercalate_cons_of_ne_nil (by simp)]
    rw [hjoin]
    refine List.splitOn_intercalate _ (fun l hl => ?_) (by simp)
    rcases List.mem_append.1 hl with hl | hl
    · obtain ⟨line, hline, rfl⟩ := List.mem_map.1 hl
      exact h.oneLine line hline
    · simp_all
  unfold declaredPaths
  rw [hsplit, h.readPaths_append [] [[]] rfl]
  have hempty : LineKind.ofLine [] = .other := by decide
  simp [readPaths, hempty]

end Declare

-- ---------------------------------------------------------------------------
-- The lines of a declaration
-- ---------------------------------------------------------------------------

/-- An indentation. -/
def IsIndent (indent : String) : Prop := ∀ c ∈ indent.toList, c = ' '

theorem IsIndent.deeper {indent : String} (h : IsIndent indent) : IsIndent (deeper indent) := by
  have hfour : IsIndent "    " := by
    unfold IsIndent
    decide
  intro c hc
  unfold Typings.deeper at hc
  rw [String.toList_append, List.mem_append] at hc
  exact hc.elim (h c) (hfour c)

theorem IsIndent.oneLine {indent : String} (h : IsIndent indent) : OneLine indent := fun hc =>
  absurd (h _ hc) (by decide)

theorem IsIdentifier.oneLine {name : String} (h : IsIdentifier name) : OneLine name :=
  h.notMem (by decide)

namespace LineKind

variable {indent name : String}

theorem ofLine_indent (h : IsIndent indent) (s : Text) :
    ofLine (indent.toList ++ s) = ofLine s := by
  have hdrop : (indent.toList ++ s).dropWhile (· = ' ') = s.dropWhile (· = ' ') :=
    List.dropWhile_append_of_pos fun c hc => by simpa using h c hc
  unfold ofLine
  rw [hdrop]

/-- The line of a member does not look like a declaration: what follows its name is no space. -/
theorem ofLine_member (h : IsIndent indent) (hname : IsIdentifier name) {c : Char} (rest : Text)
    (hc : isIdentifierChar c = false) (hspace : c ≠ ' ') :
    ofLine (indent.toList ++ (name.toList ++ c :: rest)) = .other := by
  obtain ⟨d, ds, hd⟩ := List.exists_cons_of_ne_nil hname.ne_nil
  have hfirst : isIdentifierChar d = true := hname.chars d (by simp [hd])
  have hne : ∀ e, isIdentifierChar e = false → d ≠ e := by
    rintro e he rfl
    rw [hfirst] at he
    exact Bool.noConfusion he
  have hdrop : (name.toList ++ c :: rest).dropWhile (· = ' ') = name.toList ++ c :: rest := by
    rw [hd]
    simp [hne ' ' (by decide)]
  have hprefix : Text.afterPrefix? "export ".toList (name.toList ++ c :: rest) = none := by
    refine Option.eq_none_iff_forall_ne_some.2 fun t ht => hspace ?_
    -- Both sides start with an identifier; compare what follows it.
    have heq := Text.afterPrefix?_eq_some_iff.1 ht
    have hexport : "export ".toList ++ t = "export".toList ++ ' ' :: t := rfl
    have hword : IsIdentifier "export" := by decide
    have hafter := congrArg (List.dropWhile isIdentifierChar) (heq.trans hexport)
    rw [hname.dropWhile_append (by simpa using hc), hword.dropWhile_append rfl] at hafter
    exact (List.cons.inj hafter).1
  have hbrace : name.toList ++ c :: rest ≠ ['}'] := by
    rw [hd]
    simp [hne '}' (by decide)]
  rw [ofLine_indent h]
  unfold ofLine
  simp only [hdrop, hprefix, hbrace, if_false]

theorem ofLine_export (h : IsIndent indent) {word : Text} (hword : ' ' ∉ word)
    (hname : IsIdentifier name) {rest : Text}
    (hrest : rest.head?.all (!isIdentifierChar ·) = true) :
    ofLine (indent.toList ++ ("export ".toList ++ (word ++ ' ' :: (name.toList ++ rest)))) =
      ofWord word name := by
  have hdrop : ∀ t : Text, ("export ".toList ++ t).dropWhile (· = ' ') = "export ".toList ++ t :=
    fun _ => rfl
  have hprefix : ∀ t : Text, Text.afterPrefix? "export ".toList ("export ".toList ++ t) = some t :=
    fun _ => Text.afterPrefix?_eq_some_iff.2 rfl
  rw [ofLine_indent h]
  unfold ofLine
  simp only [hdrop, hprefix, Text.splitFirst?_append hword, leadingName,
    hname.takeWhile_append hrest, String.ofList_toList]

theorem ofLine_brace (h : IsIndent indent) : ofLine (indent ++ "\x7d").toList = .closes := by
  rw [String.toList_append, ofLine_indent h]
  decide

end LineKind

end Typings
