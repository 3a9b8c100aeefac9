import Typings.Proofs.JavaType.Basic
import Typings.TypeExpr.Convert

/-!
# Conversion is compositional

Conversion works on the text of a type: it strips prefixes and suffixes and cuts at the first
angle bracket and at commas. Main statement: on the text of a Java type it cuts where the type has
its parts, at any depth, so what it gives is the translation by recursion on the type.
-/

namespace Typings

-- ---------------------------------------------------------------------------
-- Translation
-- ---------------------------------------------------------------------------

mutual

/-- The TypeScript type for a Java type, by recursion on the type. -/
def Scope.translate (s : Scope) : JavaType → String
  | .name n => (primitive? n.string).getD (s.resolve n.string)
  | .array element => arrayOf (s.translate element)
  | .generic base arguments => s.genericType base.string (s.translateArguments arguments)

def Scope.translateArgument (s : Scope) : TypeArgument → String
  | .type t => s.translate t
  | .wildcard => "any"
  | .bounded _ bound => s.translate bound

def Scope.translateArguments (s : Scope) : List TypeArgument → List String
  | [] => []
  | a :: as => s.translateArgument a :: s.translateArguments as

end

mutual

/-- The structure that reading finds in the text of a type. -/
def JavaType.expr : JavaType → TypeExpr
  | .name n => .name n.string
  | .array element => .array element.expr
  | .generic base arguments => .generic base.string (TypeArgument.exprs arguments)

def TypeArgument.expr : TypeArgument → TypeExpr
  | .type t => t.expr
  | .wildcard => .anything
  | .bounded _ bound => .bounded bound.expr

def TypeArgument.exprs : List TypeArgument → List TypeExpr
  | [] => []
  | a :: as => a.expr :: TypeArgument.exprs as

end

mutual

theorem Scope.typeOf_expr (s : Scope) (t : JavaType) : s.typeOf t.expr = s.translate t := by
  cases t with
  | name n => rfl
  | array element => rw [JavaType.expr, typeOf, typeOf_expr s element, translate]
  | generic base arguments =>
    rw [JavaType.expr, typeOf, typesOf_exprs s arguments, translate]

theorem Scope.typeOf_argument (s : Scope) (a : TypeArgument) :
    s.typeOf a.expr = s.translateArgument a := by
  cases a with
  | type t => rw [TypeArgument.expr, typeOf_expr s t, translateArgument]
  | wildcard => rfl
  | bounded side bound => rw [TypeArgument.expr, typeOf, typeOf_expr s bound, translateArgument]

theorem Scope.typesOf_exprs (s : Scope) (as : List TypeArgument) :
    s.typesOf (TypeArgument.exprs as) = s.translateArguments as := by
  cases as with
  | nil => rfl
  | cons a as =>
    rw [TypeArgument.exprs, typesOf, typeOf_argument s a, typesOf_exprs s as, translateArguments]

end

-- ---------------------------------------------------------------------------
-- Cutting the text
-- ---------------------------------------------------------------------------

namespace TypeExpr

theorem boundText?_opening (side : Bound) (s : Text) :
    boundText? (side.opening ++ s) = some s := by
  have hprefix : ∀ p : Text, Text.afterPrefix? p (p ++ s) = some s := fun p =>
    Text.afterPrefix?_eq_some_iff.2 rfl
  cases side with
  | upper => simp only [boundText?, Bound.opening, Bound.keyword, hprefix "? extends ".toList]
  | lower =>
    have hnot : Text.afterPrefix? "? extends ".toList ("? super ".toList ++ s) = none := rfl
    simp only [boundText?, Bound.opening, Bound.keyword, hnot, hprefix "? super ".toList]

theorem boundText?_eq_none {c : Char} {cs : Text} (h : c ≠ '?') : boundText? (c :: cs) = none := by
  have hnot : ∀ p : Text, Text.afterPrefix? ('?' :: p) (c :: cs) = none := by
    intro p
    rw [Text.afterPrefix?, if_neg h.symm]
  have hextends : Text.afterPrefix? "? extends ".toList (c :: cs) = none := hnot " extends ".toList
  have hsuper : Text.afterPrefix? "? super ".toList (c :: cs) = none := hnot " super ".toList
  rw [boundText?, hextends, hsuper]

theorem elementText?_array (s : Text) : elementText? (s ++ "[]".toList) = some s := by
  rw [elementText?, Text.beforeSuffix?_eq_some_iff.2 rfl]

theorem elementText?_eq_none {cs : Text} {c : Char} (hbracket : c ≠ ']') (hdot : c ≠ '.') :
    elementText? (cs ++ [c]) = none := by
  have hnot : ∀ (p : Text) (d : Char), c ≠ d →
      Text.beforeSuffix? (p ++ [d]) (cs ++ [c]) = none := by
    intro p d hne
    simp [Text.beforeSuffix?, Text.afterPrefix?, hne.symm]
  have hpair : Text.beforeSuffix? "[]".toList (cs ++ [c]) = none := hnot ['['] ']' hbracket
  have hdots : Text.beforeSuffix? "...".toList (cs ++ [c]) = none := hnot ['.', '.'] '.' hdot
  rw [elementText?, hpair, hdots]

theorem genericText?_eq_none {cs : Text} {c : Char} (h : c ≠ '>') :
    genericText? (cs ++ [c]) = none := by
  have hnot : Text.beforeSuffix? ['>'] (cs ++ [c]) = none := by
    simp [Text.beforeSuffix?, Text.afterPrefix?, h.symm]
  rw [genericText?, hnot]

end TypeExpr

theorem Text.splitFirst?_append {sep : Char} {s : Text} (h : sep ∉ s) (t : Text) :
    Text.splitFirst? sep (s ++ sep :: t) = some (s, t) := by
  induction s with
  | nil => simp [Text.splitFirst?]
  | cons c cs ih =>
    have hc : c ≠ sep := fun e => h (by simp [e])
    have hcs : sep ∉ cs := fun hm => h (List.mem_cons_of_mem c hm)
    simp [Text.splitFirst?, hc, ih hcs]

theorem TypeExpr.genericText?_generic (base : JavaName) (arguments : List TypeArgument) :
    genericText? (JavaType.generic base arguments).text =
      some (base.text, TypeArgument.texts arguments) := by
  have hbase : '<' ∉ base.text := by
    intro hmem
    rcases base.isSegmentChar_or_dot hmem with h | h
    · exact absurd h (by decide)
    · exact absurd h (by decide)
  have hpieces : ∀ p ∈ TypeArgument.texts arguments, Text.Trimmed p ∧ Text.Closed ',' p := by
    intro p hp
    refine ⟨?_, TypeArgument.closed_texts arguments p hp⟩
    rw [TypeArgument.texts_eq_map] at hp
    obtain ⟨a, _, rfl⟩ := List.mem_map.1 hp
    exact a.trimmed_text
  have hsuffix : Text.beforeSuffix? ['>'] (JavaType.generic base arguments).text =
      some (base.text ++ '<' :: [',', ' '].intercalate (TypeArgument.texts arguments)) :=
    Text.beforeSuffix?_eq_some_iff.2 (by simp [JavaType.text])
  rw [genericText?, hsuffix]
  simp only [Text.splitFirst?_append hbase, base.trimmed_text.trim_eq,
    Text.splitTopLevel_intercalate Text.isSeparator_comma hpieces]

-- ---------------------------------------------------------------------------
-- Reading
-- ---------------------------------------------------------------------------

namespace TypeExpr

/-- One step of reading a trimmed text that is no wildcard. -/
theorem read_succ {s : Text} (fuel : Nat) {c : Char} {cs : Text} (hs : s = c :: cs) (hc : c ≠ '?')
    (htrim : Text.Trimmed s) :
    read (fuel + 1) s =
      match elementText? s with
      | some element => .array (read fuel element)
      | none =>
        match genericText? s with
        | some (base, arguments) => .generic (String.ofList base) (arguments.map (read fuel))
        | none => .name (String.ofList s) := by
  have hquestion : ¬(s.isEmpty || decide (s = ['?'])) = true := by
    simp [hs, hc]
  have hbound : boundText? s = none := hs ▸ boundText?_eq_none hc
  rw [read, htrim.trim_eq, if_neg hquestion]
  cases elementText? s with
  | some element => simp only [hbound]
  | none => cases genericText? s <;> simp only [hbound]

theorem read_name (n : JavaName) (fuel : Nat) : read (fuel + 1) n.text = .name n.string := by
  obtain ⟨c, cs, hhead, hc⟩ := n.exists_text_eq_cons
  obtain ⟨ds, d, hlast, hd⟩ := n.exists_text_eq_concat
  have hne : ∀ {x y : Char}, isSegmentChar x = true → isSegmentChar y = false → x ≠ y := by
    rintro x y hx hy rfl
    simp [hx] at hy
  rw [read_succ fuel hhead (hne hc (by decide)) n.trimmed_text, hlast,
    elementText?_eq_none (hne hd (by decide)) (hne hd (by decide)),
    genericText?_eq_none (hne hd (by decide)), ← hlast]
  rfl

theorem read_array {t : JavaType} {c : Char} {cs : Text} (hhead : t.text = c :: cs) (hc : c ≠ '?')
    (fuel : Nat) : read (fuel + 1) (JavaType.array t).text = .array (read fuel t.text) := by
  have hcons : (JavaType.array t).text = c :: (cs ++ "[]".toList) := by
    rw [JavaType.text, hhead, List.cons_append]
  rw [read_succ fuel hcons hc (JavaType.array t).trimmed_text, JavaType.text, elementText?_array]

theorem read_generic (base : JavaName) (arguments : List TypeArgument) (fuel : Nat) :
    read (fuel + 1) (JavaType.generic base arguments).text =
      .generic base.string ((TypeArgument.texts arguments).map (read fuel)) := by
  obtain ⟨c, cs, hhead, hc⟩ := base.exists_text_eq_cons
  have hne : c ≠ '?' := by
    rintro rfl
    exact absurd hc (by decide)
  have hcons : ∃ ds, (JavaType.generic base arguments).text = c :: ds := by
    rw [JavaType.text, hhead]
    exact ⟨_, List.cons_append⟩
  have hlast : ∃ ds, (JavaType.generic base arguments).text = ds ++ ['>'] := by
    rw [JavaType.text, ← List.cons_append, ← List.append_assoc]
    exact ⟨_, rfl⟩
  obtain ⟨ds, hds⟩ := hcons
  obtain ⟨es, hes⟩ := hlast
  have helement : elementText? (JavaType.generic base arguments).text = none :=
    hes ▸ elementText?_eq_none (by decide) (by decide)
  rw [read_succ fuel hds hne (JavaType.generic base arguments).trimmed_text, helement,
    genericText?_generic]
  rfl

theorem read_wildcard (fuel : Nat) : read (fuel + 1) ['?'] = .anything := rfl

theorem read_bounded (side : Bound) (t : JavaType) (fuel : Nat) :
    read (fuel + 1) (TypeArgument.bounded side t).text = .bounded (read fuel t.text) := by
  have htrim := (TypeArgument.bounded side t).trimmed_text
  obtain ⟨c, cs, hhead, _⟩ := t.trimmed_text.head
  have hquestion : ¬((TypeArgument.bounded side t).text.isEmpty ||
      decide ((TypeArgument.bounded side t).text = ['?'])) = true := by
    obtain ⟨ds, hds⟩ := side.opening_eq_cons
    simp [TypeArgument.text, hds, hhead]
  rw [read, htrim.trim_eq, if_neg hquestion, TypeArgument.text, boundText?_opening]

end TypeExpr

/-- The text of a type does not start like a wildcard. -/
theorem JavaType.exists_text_eq_cons (t : JavaType) : ∃ c cs, t.text = c :: cs ∧ c ≠ '?' := by
  have hname : ∀ (n : JavaName) (s : Text), ∃ c cs, n.text ++ s = c :: cs ∧ c ≠ '?' := by
    intro n s
    obtain ⟨c, cs, hhead, hc⟩ := n.exists_text_eq_cons
    refine ⟨c, cs ++ s, by rw [hhead, List.cons_append], ?_⟩
    rintro rfl
    exact absurd hc (by decide)
  cases t with
  | name n => simpa [JavaType.text] using hname n []
  | array element =>
    obtain ⟨c, cs, hhead, hc⟩ := element.exists_text_eq_cons
    exact ⟨c, cs ++ "[]".toList, by rw [JavaType.text, hhead, List.cons_append], hc⟩
  | generic base arguments => exact hname base _

theorem TypeArgument.length_text_lt {as : List TypeArgument} {a : TypeArgument} (h : a ∈ as)
    (base : JavaName) : a.text.length < (JavaType.generic base as).text.length := by
  have hjoin : ∀ pieces : List Text, a.text ∈ pieces →
      a.text.length ≤ ([',', ' '].intercalate pieces).length := by
    intro pieces hp
    induction pieces with
    | nil => simp at hp
    | cons q qs ih =>
      cases qs with
      | nil => simp_all
      | cons r rs =>
        rw [List.intercalate_cons_cons]
        simp only [List.length_append]
        rcases List.mem_cons.1 hp with rfl | hp
        · omega
        · have := ih hp
          omega
  have := hjoin (TypeArgument.texts as) (by
    rw [TypeArgument.texts_eq_map]
    exact List.mem_map_of_mem h)
  simp only [JavaType.text, List.length_append, List.length_cons, List.length_nil]
  omega

mutual

/-- Reading the text of a type finds the type. Each part is shorter than the whole, so fuel beyond
the length of the text suffices. -/
theorem JavaType.read_text (t : JavaType) (fuel : Nat) (h : t.text.length < fuel) :
    TypeExpr.read fuel t.text = t.expr := by
  obtain ⟨fuel, rfl⟩ : ∃ k, fuel = k + 1 := ⟨fuel - 1, by omega⟩
  cases t with
  | name n => exact TypeExpr.read_name n fuel
  | array element =>
    obtain ⟨c, cs, hhead, hc⟩ := element.exists_text_eq_cons
    have hshort : element.text.length < fuel := by
      simp only [JavaType.text, List.length_append] at h
      have : "[]".toList.length = 2 := by decide
      omega
    rw [TypeExpr.read_array hhead hc, element.read_text fuel hshort, JavaType.expr]
  | generic base arguments =>
    have hargs : ∀ a ∈ arguments, a.text.length < fuel := by
      intro a ha
      have := TypeArgument.length_text_lt ha base
      omega
    rw [TypeExpr.read_generic, TypeArgument.read_texts arguments fuel hargs, JavaType.expr]

theorem TypeArgument.read_text (a : TypeArgument) (fuel : Nat) (h : a.text.length < fuel) :
    TypeExpr.read fuel a.text = a.expr := by
  cases a with
  | type t => exact t.read_text fuel h
  | wildcard =>
    obtain ⟨fuel, rfl⟩ : ∃ k, fuel = k + 1 := ⟨fuel - 1, by omega⟩
    exact TypeExpr.read_wildcard fuel
  | bounded side bound =>
    obtain ⟨fuel, rfl⟩ : ∃ k, fuel = k + 1 := ⟨fuel - 1, by omega⟩
    have hshort : bound.text.length < fuel := by
      obtain ⟨cs, hcs⟩ := side.opening_eq_cons
      simp only [TypeArgument.text, hcs, List.cons_append, List.length_cons,
        List.length_append] at h
      omega
    rw [TypeExpr.read_bounded, bound.read_text fuel hshort, TypeArgument.expr]

theorem TypeArgument.read_texts (as : List TypeArgument) (fuel : Nat)
    (h : ∀ a ∈ as, a.text.length < fuel) :
    (TypeArgument.texts as).map (TypeExpr.read fuel) = TypeArgument.exprs as := by
  cases as with
  | nil => rfl
  | cons a as =>
    rw [TypeArgument.texts, List.map_cons, a.read_text fuel (h a (by simp)),
      TypeArgument.read_texts as fuel fun b hb => h b (List.mem_cons_of_mem a hb),
      TypeArgument.exprs]

end

/-- The text of a type spells that type. -/
theorem TypeExpr.ofText_string (t : JavaType) : TypeExpr.ofText t.string = t.expr := by
  rw [TypeExpr.ofText, JavaType.string, String.toList_ofList]
  exact t.read_text _ (Nat.lt_succ_self _)

/-- Conversion is compositional: in every scope, the text of a type is converted to the translation
of the type, whatever is nested in it. -/
theorem Scope.convert_eq_translate (s : Scope) (t : JavaType) :
    s.convert t.string = s.translate t := by
  rw [Scope.convert, TypeExpr.ofText_string, Scope.typeOf_expr]

end Typings
