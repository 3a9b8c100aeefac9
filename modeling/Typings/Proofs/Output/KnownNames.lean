import Mathlib.Data.List.Induction
import Typings.Proofs.Output.Declarations
import Typings.TypeExpr.Scope

/-!
# What the name of a declaration stands for

A file may declare a name several times, in different types. The name then stands for the
declaration of the outermost level or, when that level has none, for the first one on the way
through the file, which goes into each type before it goes on to the next. Main statement:
`knownPath?_outermost_iff`.
-/

namespace Typings

-- ---------------------------------------------------------------------------
-- First entries
-- ---------------------------------------------------------------------------

theorem mem_of_mem_firstEntries {entries : List (String × String)} {entry : String × String}
    (h : entry ∈ firstEntries entries) : entry ∈ entries := by
  induction entries with
  | nil => simp [firstEntries] at h
  | cons e entries ih =>
    simp only [firstEntries, List.mem_cons, List.mem_filter] at h
    exact List.mem_cons.2 (h.imp_right fun h => ih h.1)

/-- Of entries with one key the first stays, so no key is lost. -/
theorem mem_keys_firstEntries {entries : List (String × String)} {key : String} :
    key ∈ (firstEntries entries).map Prod.fst ↔ key ∈ entries.map Prod.fst := by
  refine ⟨fun h => ?_, fun h => ?_⟩
  · obtain ⟨entry, hentry, rfl⟩ := List.mem_map.1 h
    exact List.mem_map_of_mem (mem_of_mem_firstEntries hentry)
  · induction entries with
    | nil => simp at h
    | cons e entries ih =>
      by_cases hkey : e.1 = key
      · subst hkey
        exact List.mem_map_of_mem (by simp [firstEntries])
      · have hrest : key ∈ entries.map Prod.fst := by
          rcases List.mem_cons.1 h with rfl | h
          · exact absurd rfl hkey
          · exact h
        obtain ⟨entry, hentry, rfl⟩ := List.mem_map.1 (ih hrest)
        refine List.mem_map_of_mem (List.mem_cons_of_mem _ (List.mem_filter.2 ⟨hentry, ?_⟩))
        simpa using fun h => hkey h.symm

theorem find?_firstEntries (entries : List (String × String)) (key : String) :
    (firstEntries entries).find? (·.1 == key) = entries.find? (·.1 == key) := by
  induction entries with
  | nil => rfl
  | cons e entries ih =>
    by_cases hkey : e.1 = key
    · subst hkey
      simp [firstEntries]
    · have hrest : ((firstEntries entries).filter (·.1 ≠ e.1)).find? (·.1 == key) =
          (firstEntries entries).find? (·.1 == key) := by
        rw [List.find?_filter]
        refine congrArg (List.find? · _) (funext fun entry => ?_)
        by_cases h : entry.1 = key
        · simp [h, Ne.symm hkey]
        · simp [h]
      simp only [firstEntries, List.find?_cons, hrest, ih]

-- ---------------------------------------------------------------------------
-- Paths in a file
-- ---------------------------------------------------------------------------

/-- The entry for a declaration among the names known in its file. -/
def Placed.entry (p : Placed) : String × String := (p.decl.name, p.dotted)

/-- The path of a name inside the type with the path `outer`, none being the empty one. -/
def innerPath (outer name : String) : String := if outer = "" then name else outer ++ "." ++ name

/-- The path under which a declaration is known in its file. -/
def Placed.localPath (p : Placed) : String := p.path.foldl innerPath ""

mutual

theorem TypeDecl.localPaths_eq_map (around : List String) :
    ∀ d : TypeDecl, d.localPaths (around.foldl innerPath "") =
      (d.placed around).map fun p => (p.decl.name, p.localPath)
  | ⟨o, nested⟩ => by
    have hinner : innerPath (around.foldl innerPath "") o.name =
        (around ++ [o.name]).foldl innerPath "" := by
      rw [List.foldl_append, List.foldl_cons, List.foldl_nil]
    simp only [TypeDecl.localPaths, TypeDecl.placed, List.map_cons]
    rw [← innerPath, hinner, TypeDecl.localPathsAll_eq_map_foldl (around ++ [o.name]) nested]
    rfl

theorem TypeDecl.localPathsAll_eq_map_foldl (around : List String) :
    ∀ ds : List TypeDecl, TypeDecl.localPathsAll (around.foldl innerPath "") ds =
      (TypeDecl.placedAll around ds).map fun p => (p.decl.name, p.localPath)
  | [] => by simp only [TypeDecl.localPathsAll, TypeDecl.placedAll, List.map_nil]
  | d :: ds => by
    simp only [TypeDecl.localPathsAll, TypeDecl.placedAll, List.map_append,
      TypeDecl.localPaths_eq_map around d, TypeDecl.localPathsAll_eq_map_foldl around ds]

end

/-- The names collected in a file are those of its declarations, in order. -/
theorem TypeDecl.localPathsAll_eq_map (types : List TypeDecl) :
    TypeDecl.localPathsAll "" types =
      (TypeDecl.placedAll [] types).map fun p => (p.decl.name, p.localPath) :=
  TypeDecl.localPathsAll_eq_map_foldl [] types

/-- Where every type has a name, the path is the dotted one. -/
theorem Placed.localPath_eq_dotted (p : Placed) (h : ∀ n ∈ p.path, n ≠ "") :
    p.localPath = p.dotted := by
  have hjoined : ∀ names : List String, (∀ n ∈ names, n ≠ "") →
      names.foldl innerPath "" = String.intercalate "." names ∧
        (names ≠ [] → String.intercalate "." names ≠ "") := by
    intro names hnames
    induction names using List.reverseRecOn with
    | nil => simp
    | append_singleton names name ih =>
      obtain ⟨heq, hne⟩ := ih fun n hn => hnames n (List.mem_append_left _ hn)
      have hname : name ≠ "" := hnames name (by simp)
      rw [List.foldl_append, List.foldl_cons, List.foldl_nil, heq]
      by_cases hnil : names = []
      · subst hnil
        simpa [innerPath] using hname
      · rw [innerPath, if_neg (hne hnil),
          String.intercalate_append_of_ne_nil hnil (by simp), String.intercalate_singleton]
        refine ⟨rfl, fun _ hempty => ?_⟩
        have hlast := congrArg String.toList hempty
        rw [String.toList_append] at hlast
        exact hname (String.toList_eq_nil_iff.mp (List.append_eq_nil_iff.mp hlast).2)
  exact (hjoined p.path h).1

/-- A name without a dot. -/
structure IsSimpleName (name : String) : Prop where
  ne_empty : name ≠ ""
  dot : '.' ∉ name.toList

/-- A dotted path of simple names has one reading. -/
theorem Placed.path_eq_of_dotted_eq {p q : Placed} (hp : ∀ n ∈ p.path, IsSimpleName n)
    (hq : ∀ n ∈ q.path, IsSimpleName n) (h : p.dotted = q.dotted) : p.path = q.path := by
  have hsplit : ∀ r : Placed, (∀ n ∈ r.path, IsSimpleName n) →
      r.dotted.toList.splitOn '.' = r.path.map String.toList := by
    intro r hr
    rw [dotted, String.toList_intercalate]
    refine List.splitOn_intercalate '.' (fun s hs => ?_) (by simp [path])
    obtain ⟨n, hn, rfl⟩ := List.mem_map.mp hs
    exact (hr n hn).dot
  have hnames := (hsplit p hp).symm.trans ((congrArg (·.toList.splitOn '.') h).trans (hsplit q hq))
  exact (List.map_inj_right fun _ _ => String.toList_inj.mp).mp hnames

-- ---------------------------------------------------------------------------
-- What a name stands for
-- ---------------------------------------------------------------------------

/-- The path that a name stands for in a file with these types. -/
def knownPath? (types : List TypeDecl) (name : String) : Option String :=
  ((localTypeNames types).find? fun entry => entry.1 == name).map (·.2)

variable {types : List TypeDecl} {name : String} {first : Placed}

/-- A declaration of a name, around which no more types stand than around any other of that name. -/
structure IsOutermost (types : List TypeDecl) (name : String) (p : Placed) : Prop where
  mem : p ∈ TypeDecl.placedAll [] types
  named : p.decl.name = name
  least : ∀ q ∈ TypeDecl.placedAll [] types, q.decl.name = name → p.around.length ≤ q.around.length

/-- The outermost level comes first. -/
theorem knownPath?_eq (types : List TypeDecl) (name : String) :
    knownPath? types name =
      if ∃ d ∈ types, d.name = name then some name
      else ((TypeDecl.placedAll [] types).find? (·.decl.name == name)).map Placed.localPath := by
  rw [knownPath?, localTypeNames, find?_firstEntries, List.find?_append,
    TypeDecl.localPathsAll_eq_map,
    List.find?_map, List.find?_map]
  split
  · rename_i h
    obtain ⟨d, hd⟩ := Option.isSome_iff_exists.mp
      (List.find?_isSome (p := fun d : TypeDecl => d.name == name) |>.mpr (by simpa using h))
    have hname : d.name = name := by simpa using List.find?_some hd
    have hfound : types.find? ((fun entry => entry.1 == name) ∘ fun d => (d.name, d.name)) =
        some d := hd
    rw [hfound, Option.map_some, Option.some_or, Option.map_some, hname]
  · rename_i h
    have hnone : types.find? ((fun entry => entry.1 == name) ∘ fun d => (d.name, d.name)) = none :=
      List.find?_eq_none.mpr fun d hd heq => h ⟨d, hd, by simpa using heq⟩
    rw [hnone, Option.map_none, Option.none_or, Option.map_map]
    rfl

theorem isOutermost_of_mem {d : TypeDecl} (hd : d ∈ types) (hname : d.name = name) :
    IsOutermost types name ⟨[], d⟩ where
  mem := by
    rw [TypeDecl.placedAll_eq_flatMap, List.mem_flatMap]
    exact ⟨d, hd, TypeDecl.mem_placed_self [] d⟩
  named := hname
  least _ _ _ := Nat.zero_le _

/-- What a name stands for, `first` being the first declaration of it on the way through the file: a
type of the outermost level of that name, else `first`. So it stands for an outermost declaration
exactly when the outermost level has the name or `first` is an outermost one. -/
theorem knownPath?_outermost_iff
    (hfirst : (TypeDecl.placedAll [] types).find? (·.decl.name == name) = some first) :
    ((∃ d ∈ types, d.name = name) → knownPath? types name = some name) ∧
    ((¬∃ d ∈ types, d.name = name) → knownPath? types name = some first.localPath) ∧
    ((∀ p ∈ TypeDecl.placedAll [] types, IsSimpleName p.decl.name) →
      ((∃ p, IsOutermost types name p ∧ knownPath? types name = some p.dotted) ↔
        (∃ d ∈ types, d.name = name) ∨ IsOutermost types name first)) := by
  have hknown := knownPath?_eq types name
  rw [hfirst, Option.map_some] at hknown
  refine ⟨fun htop => by rw [hknown, if_pos htop], fun htop => by rw [hknown, if_neg htop],
    fun hsimple => ?_⟩
  have hnames := TypeDecl.forall_mem_path_placedAll (by simp) types hsimple
  have hmem : first ∈ TypeDecl.placedAll [] types := List.mem_of_find?_eq_some hfirst
  have hname : first.decl.name = name := by simpa using List.find?_some hfirst
  have hdotted : first.localPath = first.dotted :=
    first.localPath_eq_dotted fun n hn => (hnames first hmem n hn).ne_empty
  by_cases htop : ∃ d ∈ types, d.name = name
  · obtain ⟨d, hd, hdname⟩ := htop
    refine iff_of_true ⟨⟨[], d⟩, isOutermost_of_mem hd hdname, ?_⟩ (.inl ⟨d, hd, hdname⟩)
    rw [hknown, if_pos ⟨d, hd, hdname⟩]
    simp [Placed.dotted, Placed.path, hdname]
  · rw [hknown, if_neg htop, hdotted]
    constructor
    · rintro ⟨p, hp, heq⟩
      have hpath := Placed.path_eq_of_dotted_eq (hnames first hmem) (hnames p hp.mem)
        (Option.some.inj heq)
      have hlength : first.around.length = p.around.length := by
        simpa [Placed.path] using congrArg List.length hpath
      exact .inr ⟨hmem, hname, fun q hq hqname => hlength ▸ hp.least q hq hqname⟩
    · rintro (h | h)
      · exact absurd h htop
      · exact ⟨first, h, rfl⟩

/-- Types `A`, `A.B`, `A.B.X` and `A.X`, in that order. -/
def deeperFirst : List TypeDecl :=
  let x := TypeDecl.ofKind .class_ "X"
  [{ TypeDecl.ofKind .class_ "A" with
    nested := [{ TypeDecl.ofKind .class_ "B" with nested := [x] }, x] }]

/-- The name `X` stands for `A.B.X`, which is not an outermost declaration of it. -/
theorem knownPath?_outermost_iff_deeperFirst :
    (TypeDecl.placedAll [] deeperFirst).find? (·.decl.name == "X") =
        some ⟨["A", "B"], TypeDecl.ofKind .class_ "X"⟩ ∧
      (∀ p ∈ TypeDecl.placedAll [] deeperFirst, IsSimpleName p.decl.name) ∧
      knownPath? deeperFirst "X" = some "A.B.X" ∧
      ¬∃ p, IsOutermost deeperFirst "X" p ∧ knownPath? deeperFirst "X" = some p.dotted := by
  have hfirst : (TypeDecl.placedAll [] deeperFirst).find? (·.decl.name == "X") =
      some ⟨["A", "B"], TypeDecl.ofKind .class_ "X"⟩ := rfl
  have hsimple : ∀ p ∈ TypeDecl.placedAll [] deeperFirst, IsSimpleName p.decl.name := by
    have hchecked : ∀ p ∈ TypeDecl.placedAll [] deeperFirst,
        p.decl.name ≠ "" ∧ '.' ∉ p.decl.name.toList := by decide
    exact fun p hp => ⟨(hchecked p hp).1, (hchecked p hp).2⟩
  have htop : ¬∃ d ∈ deeperFirst, d.name = "X" := by decide
  obtain ⟨_, hdeep, hiff⟩ := knownPath?_outermost_iff hfirst
  refine ⟨hfirst, hsimple, (hdeep htop).trans (by decide), fun hex => ?_⟩
  rcases (hiff hsimple).mp hex with h | h
  · exact htop h
  · have hsecond : ⟨["A"], TypeDecl.ofKind .class_ "X"⟩ ∈ TypeDecl.placedAll [] deeperFirst :=
      .tail _ (.tail _ (.tail _ (.head _)))
    exact absurd (h.least _ hsecond rfl) (by decide)

end Typings
