import Typings.Proofs.JavaType.Conversion
import Typings.Proofs.TypeScript.References

/-!
# What converted types mean

The types that a Java interface is made of (names, arrays, and the generic types with a TypeScript
form of their own) have an intended meaning as TypeScript types. Main statement: the converted text
reads as what was intended exactly when no `Optional` holds a function type. After a function type
` | null` goes to the result of the function, and the text of an `Optional` has no parentheses to
prevent that.
-/

namespace Typings

-- ---------------------------------------------------------------------------
-- Types and their meaning
-- ---------------------------------------------------------------------------

namespace WellKnown

/-- The number of type arguments. -/
def arity : WellKnown → Nat
  | .collection | .optional | .consumer | .supplier | .predicate => 1
  | .map | .function | .biConsumer => 2
  | .biFunction => 3

/-- Whether a type stands for functions. -/
def isFunctional : WellKnown → Bool
  | .collection | .map | .optional => false
  | .consumer | .supplier | .predicate | .function | .biConsumer | .biFunction => true

/-- The TypeScript type `void`. -/
def void : TsType := .reference ['v', 'o', 'i', 'd'] []

/-- The TypeScript type `boolean`. -/
def boolean : TsType := .reference ['b', 'o', 'o', 'l', 'e', 'a', 'n'] []

/-- The meaning of a well-known type, given those of its arguments and what an `Optional` makes of
the meaning of its argument. -/
def meaning (nullable : TsType → TsType) : (w : WellKnown) → (Fin w.arity → TsType) → TsType
  | .collection, a => .array (a ⟨0, by decide⟩)
  | .map, a => .reference TsType.recordWord [a ⟨0, by decide⟩, a ⟨1, by decide⟩]
  | .optional, a => nullable (a ⟨0, by decide⟩)
  | .consumer, a => .function [a ⟨0, by decide⟩] void
  | .supplier, a => .function [] (a ⟨0, by decide⟩)
  | .predicate, a => .function [a ⟨0, by decide⟩] boolean
  | .function, a => .function [a ⟨0, by decide⟩] (a ⟨1, by decide⟩)
  | .biConsumer, a => .function [a ⟨0, by decide⟩, a ⟨1, by decide⟩] void
  | .biFunction, a => .function [a ⟨0, by decide⟩, a ⟨1, by decide⟩] (a ⟨2, by decide⟩)

end WellKnown

/-- A Java type made of names, arrays and well-known generic types with all their arguments. -/
inductive ApiType where
  | name (n : JavaName) (h : TsType.IsWord n.text)
  | array (element : ApiType)
  | generic (base : JavaName) (w : WellKnown) (h : WellKnown.ofBase? base.string = some w)
      (arguments : Fin w.arity → ApiType)

namespace ApiType

/-- The type as a Java type. -/
def java : ApiType → JavaType
  | .name n _ => .name n
  | .array element => .array element.java
  | .generic base _ _ arguments => .generic base (List.ofFn fun i => .type (arguments i).java)

/-- The meaning of a type in a scope, given what an `Optional` makes of its argument. -/
def meaning (s : Scope) (nullable : TsType → TsType) : ApiType → TsType
  | .name n _ => .reference (s.nameType n.string).toList []
  | .array element => .array (element.meaning s nullable)
  | .generic _ w _ arguments => w.meaning nullable fun i => (arguments i).meaning s nullable

/-- What a type is meant to say: an `Optional` is the union of its argument with `null`. -/
def intended (s : Scope) (t : ApiType) : TsType := t.meaning s fun u => .union u .null

/-- Whether a type is a functional interface. -/
def isFunctional : ApiType → Bool
  | .generic _ w _ _ => w.isFunctional
  | _ => false

/-- No `Optional` in the type holds a functional interface. -/
def OptionalsHoldValues : ApiType → Prop
  | .name _ _ => True
  | .array element => element.OptionalsHoldValues
  | .generic _ w _ arguments =>
    (∀ i, (arguments i).OptionalsHoldValues) ∧
      (w = .optional → ∀ i, (arguments i).isFunctional = false)

end ApiType

-- ---------------------------------------------------------------------------
-- The text of arrays
-- ---------------------------------------------------------------------------

theorem Text.contains_append (p a b : Text) : Text.contains p (a ++ (p ++ b)) = true := by
  have hhere : ∀ s : Text, Text.startsWith p (p ++ s) = true := by
    intro s
    rw [Text.startsWith, Text.afterPrefix?_eq_some_iff.2 rfl]
    rfl
  induction a with
  | nil =>
    cases h : p ++ b with
    | nil =>
      obtain ⟨rfl, rfl⟩ := List.append_eq_nil_iff.1 h
      rfl
    | cons c cs =>
      rw [List.nil_append, Text.contains, ← h, hhere, Bool.true_or]
  | cons c cs ih => rw [List.cons_append, Text.contains, ih, Bool.or_true]

/-- Whether the text of a type gets parentheses in an array. -/
def needsGroup (s : Text) : Bool :=
  Text.contains " | ".toList s || Text.contains "=>".toList s

theorem toList_arrayOf (e : String) :
    (arrayOf e).toList =
      if needsGroup e.toList then '(' :: (e.toList ++ [')', '[', ']'])
        else e.toList ++ ['[', ']'] := by
  have hopen : "(".toList = ['('] := by decide
  have hclose : ")[]".toList = [')', '[', ']'] := by decide
  have hpair : "[]".toList = ['[', ']'] := by decide
  unfold arrayOf needsGroup
  split
  · rw [String.toList_append, String.toList_append, hopen, hclose]
    rfl
  · rw [String.toList_append, hpair]

namespace TsType

/-- The text reads as the type, and where it is not a postfix type it gets parentheses in an
array. -/
structure ReadsElement (x : Text) (t : TsType) : Prop where
  reads : Reads x t
  postfix_of_not_needsGroup : needsGroup x = false → ReadsPostfix x t

theorem ReadsPostfix.readsElement {x : Text} {t : TsType} (h : ReadsPostfix x t)
    (ht : t.isFunction = false) : ReadsElement x t :=
  ⟨h.toReads ht, fun _ => h⟩

theorem Reads.readsElement {x : Text} {t : TsType} (h : Reads x t) (hx : needsGroup x = true) :
    ReadsElement x t :=
  ⟨h, fun hnot => by simp [hx] at hnot⟩

/-- The array of a type reads as the array of what the type reads as. -/
theorem ReadsElement.arrayOf {e : String} {t : TsType} (h : ReadsElement e.toList t) :
    ReadsElement (arrayOf e).toList (.array t) := by
  refine ReadsPostfix.readsElement ?_ rfl
  rw [toList_arrayOf]
  cases hx : needsGroup e.toList with
  | true => exact h.reads.readsPostfix_group
  | false => exact (h.postfix_of_not_needsGroup hx).array

theorem Reads.readsElement_orNull {x : Text} {t : TsType} (h : Reads x t) :
    ReadsElement (x ++ nulls 1) (TsType.orNull t) := by
  refine h.orNull.readsElement ?_
  have hbar : " | ".toList = [' ', '|', ' '] := by decide
  have := Text.contains_append [' ', '|', ' '] x ['n', 'u', 'l', 'l']
  rw [needsGroup, hbar, Bool.or_eq_true]
  exact .inl this

theorem ReadsParameters.readsElement_function {ps r : Text} {ts : List TsType} {u : TsType}
    (hps : ReadsParameters ps ts) (hr : Reads r u) :
    ReadsElement ('(' :: (ps ++ ' ' :: '=' :: '>' :: ' ' :: r)) (.function ts u) := by
  refine (hps.reads_function hr).readsElement ?_
  have harrow : "=>".toList = ['=', '>'] := by decide
  have := Text.contains_append ['=', '>'] ('(' :: (ps ++ [' '])) (' ' :: r)
  rw [needsGroup, harrow, Bool.or_eq_true]
  refine .inr ?_
  simpa using this

end TsType

-- ---------------------------------------------------------------------------
-- Well-known types
-- ---------------------------------------------------------------------------

namespace WellKnown

open TsType

/-- The names of the parameters of a function type. -/
def firstParameter : Text := ['a', 'r', 'g', '0']

def secondParameter : Text := ['a', 'r', 'g', '1']

theorem isWord_firstParameter : IsWord firstParameter := ⟨by decide, by decide⟩

theorem isWord_secondParameter : IsWord secondParameter := ⟨by decide, by decide⟩

theorem reads_word {w : Text} (h : IsWord w) : Reads w (.reference w []) :=
  (IsReference.word h).readsPostfix.toReads rfl

theorem reads_void : Reads "void".toList void := reads_word ⟨by decide, by decide⟩

theorem reads_boolean : Reads "boolean".toList boolean := reads_word ⟨by decide, by decide⟩

/-- The text of a function type with one parameter. -/
theorem toList_unary (a r : String) :
    ("(arg0: " ++ a ++ ") => " ++ r).toList =
      '(' :: (firstParameter ++ ':' :: ' ' :: (a.toList ++ [')']) ++
        ' ' :: '=' :: '>' :: ' ' :: r.toList) := by
  have hopen : "(arg0: ".toList = '(' :: (firstParameter ++ [':', ' ']) := by decide
  have harrow : ") => ".toList = [')', ' ', '=', '>', ' '] := by decide
  simp only [String.toList_append, hopen, harrow]
  simp

/-- The text of a function type with two parameters. -/
theorem toList_binary (a b r : String) :
    ("(arg0: " ++ a ++ ", arg1: " ++ b ++ ") => " ++ r).toList =
      '(' :: (firstParameter ++ ':' :: ' ' :: (a.toList ++ ',' :: ' ' ::
        (secondParameter ++ ':' :: ' ' :: (b.toList ++ [')']))) ++
        ' ' :: '=' :: '>' :: ' ' :: r.toList) := by
  have hopen : "(arg0: ".toList = '(' :: (firstParameter ++ [':', ' ']) := by decide
  have hcomma : ", arg1: ".toList = ',' :: ' ' :: (secondParameter ++ [':', ' ']) := by decide
  have harrow : ") => ".toList = [')', ' ', '=', '>', ' '] := by decide
  simp only [String.toList_append, hopen, hcomma, harrow]
  simp

theorem readsElement_unary {a r : String} {t u : TsType} (ha : Reads a.toList t)
    (hr : Reads r.toList u) :
    ReadsElement ("(arg0: " ++ a ++ ") => " ++ r).toList (.function [t] u) := by
  rw [toList_unary]
  exact (Reads.readsParameters_single isWord_firstParameter ha).readsElement_function hr

theorem readsElement_binary {a b r : String} {t v u : TsType} (ha : Reads a.toList t)
    (hb : Reads b.toList v) (hr : Reads r.toList u) :
    ReadsElement ("(arg0: " ++ a ++ ", arg1: " ++ b ++ ") => " ++ r).toList
      (.function [t, v] u) := by
  rw [toList_binary]
  have hb := Reads.readsParameters_single isWord_secondParameter hb
  exact (Reads.readsParameters_cons isWord_firstParameter ha hb).readsElement_function hr

/-- The text for a well-known type reads as its meaning, where an `Optional` of a function type
goes to the result of the function. -/
theorem readsElement_render (w : WellKnown) {arguments : Fin w.arity → String}
    {ts : Fin w.arity → TsType} (h : ∀ i, ReadsElement (arguments i).toList (ts i)) :
    ReadsElement (w.render (List.ofFn arguments)).toList (w.meaning TsType.orNull ts) := by
  cases w with
  | collection => exact (h ⟨0, by decide⟩).arrayOf
  | map =>
    refine ReadsPostfix.readsElement ?_ rfl
    have htext : ∀ a b : String, ("Record<" ++ a ++ ", " ++ b ++ ">").toList =
        recordWord ++ '<' :: (a.toList ++ ',' :: ' ' :: (b.toList ++ ['>'])) := by
      intro a b
      have hopen : "Record<".toList = recordWord ++ ['<'] := by decide
      have hcomma : ", ".toList = [',', ' '] := by decide
      have hclose : ">".toList = ['>'] := by decide
      simp only [String.toList_append, hopen, hcomma, hclose]
      simp
    have := (h ⟨0, by decide⟩).reads.readsPostfix_record (h ⟨1, by decide⟩).reads
    rw [← htext] at this
    exact this
  | optional =>
    have htext : ∀ a : String, (a ++ " | null").toList = a.toList ++ nulls 1 := by
      intro a
      have hnull : " | null".toList = nulls 1 := by decide
      rw [String.toList_append, hnull]
    have := (h ⟨0, by decide⟩).reads.readsElement_orNull
    rw [← htext] at this
    exact this
  | consumer =>
    have := readsElement_unary (h ⟨0, by decide⟩).reads reads_void
    rwa [String.append_assoc] at this
  | supplier =>
    have htext : ∀ r : String, ("() => " ++ r).toList =
        '(' :: ([')'] ++ ' ' :: '=' :: '>' :: ' ' :: r.toList) := by
      intro r
      have harrow : "() => ".toList = ['(', ')', ' ', '=', '>', ' '] := by decide
      rw [String.toList_append, harrow]
      rfl
    have := readsParameters_nil.readsElement_function (h ⟨0, by decide⟩).reads
    rw [← htext] at this
    exact this
  | predicate =>
    have := readsElement_unary (h ⟨0, by decide⟩).reads reads_boolean
    rwa [String.append_assoc] at this
  | function => exact readsElement_unary (h ⟨0, by decide⟩).reads (h ⟨1, by decide⟩).reads
  | biConsumer =>
    have := readsElement_binary (h ⟨0, by decide⟩).reads (h ⟨1, by decide⟩).reads reads_void
    rwa [String.append_assoc] at this
  | biFunction =>
    exact readsElement_binary (h ⟨0, by decide⟩).reads (h ⟨1, by decide⟩).reads
      (h ⟨2, by decide⟩).reads

end WellKnown

-- ---------------------------------------------------------------------------
-- What the text reads as
-- ---------------------------------------------------------------------------

namespace ApiType

open TsType (ReadsElement orNull)

theorem translateArguments_ofFn (s : Scope) {n : Nat} (arguments : Fin n → JavaType) :
    s.translateArguments (List.ofFn fun i => .type (arguments i)) =
      List.ofFn fun i => s.translate (arguments i) := by
  induction n with
  | zero => rfl
  | succ n ih =>
    rw [List.ofFn_succ, List.ofFn_succ, Scope.translateArguments, Scope.translateArgument]
    exact congrArg _ (ih fun i => arguments i.succ)

/-- What the converted text of a type reads as, whatever the type. -/
theorem readsElement_translate {s : Scope} (hs : s.HasDottedNames) (t : ApiType) :
    ReadsElement (s.translate t.java).toList (t.meaning s orNull) := by
  induction t with
  | name n h =>
    have hword : TsType.IsWord n.string.toList := by
      rw [JavaName.string, String.toList_ofList]
      exact h
    exact (Scope.isReference_nameType hs hword).readsPostfix.readsElement rfl
  | array element ih => exact ih.arrayOf
  | generic base w h arguments ih =>
    have htext : s.translate (ApiType.generic base w h arguments).java =
        w.render (List.ofFn fun i => s.translate (arguments i).java) := by
      rw [java, Scope.translate, translateArguments_ofFn, Scope.genericType, h]
    rw [htext]
    exact w.readsElement_render ih

theorem read_convert {s : Scope} (hs : s.HasDottedNames) (t : ApiType) :
    TsType.read (s.convert t.java.string).toList = some (t.meaning s orNull) := by
  rw [Scope.convert, TypeExpr.ofText_string, Scope.typeOf_expr]
  exact (readsElement_translate hs t).reads.read_eq

-- ---------------------------------------------------------------------------
-- What the text was meant to read as
-- ---------------------------------------------------------------------------

/-- An `Optional` reads as a union exactly when its argument does not read as a function. -/
theorem orNull_eq_union_iff {t u : TsType} :
    orNull t = .union u .null ↔ t = u ∧ t.isFunction = false := by
  cases t with
  | function parameters result => simp [orNull, TsType.isFunction]
  | reference name arguments => simp [orNull, TsType.isFunction]
  | array element => simp [orNull, TsType.isFunction]
  | union left right => simp [orNull, TsType.isFunction]

/-- The two meanings of a well-known type differ where those of its arguments do, and for an
`Optional` of a function. -/
theorem meaning_orNull_eq_iff (w : WellKnown) (a b : Fin w.arity → TsType) :
    w.meaning orNull a = w.meaning (fun u => .union u .null) b ↔
      (∀ i, a i = b i) ∧ (w = .optional → ∀ i, (a i).isFunction = false) := by
  have forall_one : ∀ P : Fin 1 → Prop, (∀ i, P i) ↔ P ⟨0, by decide⟩ := fun P =>
    Fin.forall_fin_one
  have forall_two : ∀ P : Fin 2 → Prop, (∀ i, P i) ↔ P ⟨0, by decide⟩ ∧ P ⟨1, by decide⟩ :=
    fun P => Fin.forall_fin_two
  have forall_three : ∀ P : Fin 3 → Prop,
      (∀ i, P i) ↔ P ⟨0, by decide⟩ ∧ P ⟨1, by decide⟩ ∧ P ⟨2, by decide⟩ := fun P =>
    Fin.forall_fin_succ.trans (and_congr Iff.rfl Fin.forall_fin_two)
  cases w with
  | collection =>
    simp only [WellKnown.meaning, TsType.array.injEq, reduceCtorEq, false_implies, and_true]
    exact (forall_one fun i => a i = b i).symm
  | map =>
    simp only [WellKnown.meaning, TsType.reference.injEq, List.cons.injEq, and_true, true_and,
      reduceCtorEq, false_implies]
    exact (forall_two fun i => a i = b i).symm
  | optional =>
    simp only [WellKnown.meaning, orNull_eq_union_iff, true_implies]
    exact and_congr (forall_one fun i => a i = b i).symm
      (forall_one fun i => (a i).isFunction = false).symm
  | consumer =>
    simp only [WellKnown.meaning, TsType.function.injEq, List.cons.injEq, and_true,
      reduceCtorEq, false_implies]
    exact (forall_one fun i => a i = b i).symm
  | supplier =>
    simp only [WellKnown.meaning, TsType.function.injEq, true_and, reduceCtorEq, false_implies,
      and_true]
    exact (forall_one fun i => a i = b i).symm
  | predicate =>
    simp only [WellKnown.meaning, TsType.function.injEq, List.cons.injEq, and_true,
      reduceCtorEq, false_implies]
    exact (forall_one fun i => a i = b i).symm
  | function =>
    simp only [WellKnown.meaning, TsType.function.injEq, List.cons.injEq, and_true,
      reduceCtorEq, false_implies]
    exact (forall_two fun i => a i = b i).symm
  | biConsumer =>
    simp only [WellKnown.meaning, TsType.function.injEq, List.cons.injEq, and_true,
      reduceCtorEq, false_implies]
    exact (forall_two fun i => a i = b i).symm
  | biFunction =>
    simp only [WellKnown.meaning, TsType.function.injEq, List.cons.injEq, and_true,
      reduceCtorEq, false_implies, and_assoc]
    exact (forall_three fun i => a i = b i).symm

/-- A type meant to be a function is a functional interface, and such a type reads as a
function. -/
theorem isFunction_meaning (s : Scope) (t : ApiType) {nullable : TsType → TsType}
    (hnullable : ∀ u, (nullable u).isFunction = false) :
    (t.meaning s nullable).isFunction = t.isFunctional := by
  cases t with
  | name n h => rfl
  | array element => rfl
  | generic base w h arguments =>
    cases w with
    | optional => exact hnullable _
    | _ => rfl

/-- The text of a type reads as what was meant exactly when no `Optional` in the type holds a
functional interface. -/
theorem meaning_orNull_eq_intended_iff (s : Scope) (t : ApiType) :
    t.meaning s orNull = t.intended s ↔ t.OptionalsHoldValues := by
  induction t with
  | name n h => simp [meaning, intended, OptionalsHoldValues]
  | array element ih => simpa [meaning, intended, OptionalsHoldValues] using ih
  | generic base w h arguments ih =>
    have hfunction : ∀ i, (arguments i).meaning s orNull = (arguments i).intended s →
        ((arguments i).meaning s orNull).isFunction = (arguments i).isFunctional := by
      intro i hi
      rw [hi]
      exact isFunction_meaning s (arguments i) fun _ => rfl
    refine (meaning_orNull_eq_iff w _ _).trans ?_
    constructor
    · rintro ⟨hparts, hoptional⟩
      refine ⟨fun i => (ih i).1 (hparts i), fun hw i => ?_⟩
      rw [← hfunction i (hparts i)]
      exact hoptional hw i
    · rintro ⟨hparts, hoptional⟩
      have hread : ∀ i, (arguments i).meaning s orNull = (arguments i).intended s := fun i =>
        (ih i).2 (hparts i)
      refine ⟨hread, fun hw i => ?_⟩
      rw [hfunction i (hread i)]
      exact hoptional hw i

/-- The text of a type reads as what was meant exactly when no `Optional` in it holds a functional
interface; types of that kind that are meant differently are never written alike. -/
theorem read_convert_eq_intended_iff {s : Scope} (hs : s.HasDottedNames) (t : ApiType) :
    (TsType.read (s.convert t.java.string).toList = some (t.intended s) ↔ t.OptionalsHoldValues) ∧
      ∀ u : ApiType, t.OptionalsHoldValues → u.OptionalsHoldValues →
        s.convert t.java.string = s.convert u.java.string → t.intended s = u.intended s := by
  refine ⟨?_, fun u ht hu htext => ?_⟩
  · rw [read_convert hs, Option.some.injEq]
    exact meaning_orNull_eq_intended_iff s t
  · have hread : some (t.meaning s orNull) = some (u.meaning s orNull) := by
      rw [← read_convert hs t, ← read_convert hs u, htext]
    rw [← (meaning_orNull_eq_intended_iff s t).2 ht, ← (meaning_orNull_eq_intended_iff s u).2 hu]
    exact Option.some.inj hread

/-- `Optional<Supplier<String>>`. -/
def optionalSupplier : ApiType :=
  .generic (.simple "Optional".toList (by decide) (by decide)) .optional (by decide) fun _ =>
    .generic (.simple "Supplier".toList (by decide) (by decide)) .supplier (by decide) fun _ =>
      .name (.simple "String".toList (by decide) (by decide)) ⟨by decide, by decide⟩

/-- `Supplier<Optional<String>>`. -/
def supplierOptional : ApiType :=
  .generic (.simple "Supplier".toList (by decide) (by decide)) .supplier (by decide) fun _ =>
    .generic (.simple "Optional".toList (by decide) (by decide)) .optional (by decide) fun _ =>
      .name (.simple "String".toList (by decide) (by decide)) ⟨by decide, by decide⟩

/-- An optional supplier is written like a supplier of optional values, and does not read as what
was meant. -/
theorem read_convert_optionalSupplier :
    (default : Scope).HasDottedNames ∧
      (default : Scope).convert optionalSupplier.java.string =
        (default : Scope).convert supplierOptional.java.string ∧
      TsType.read ((default : Scope).convert optionalSupplier.java.string).toList ≠
        some (optionalSupplier.intended default) := by
  have hs : (default : Scope).HasDottedNames := ⟨by decide, by decide, by rintro _ ⟨⟩⟩
  refine ⟨hs, ?_, fun hread => ?_⟩
  · decide
  · have hvalues := (read_convert_eq_intended_iff hs optionalSupplier).1.1 hread
    exact absurd (hvalues.2 rfl ⟨0, by decide⟩) (by decide)

end ApiType

end Typings
