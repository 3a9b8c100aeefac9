import Typings.Output.Catalog

/-!
# The declarations of a file in order

A file as the flat list of its declarations, outer before inner, each with the names of the types
around it. What a run records of the types of a file is read off this list, one record for each of
its entries, and so are the paths of the names that the file declares.
-/

namespace Typings

/-- A declaration with the names of the types around it, outermost first. -/
structure Placed where
  around : List String
  decl : TypeDecl

namespace Placed

/-- The names that lead to a declaration, its own last. -/
def path (p : Placed) : List String := p.around ++ [p.decl.name]

/-- The dotted path of a declaration in its file. -/
def dotted (p : Placed) : String := String.intercalate "." p.path

def isNested (p : Placed) : Bool := !p.around.isEmpty

/-- A type directly inside a declaration. -/
def inner (p : Placed) (sub : TypeDecl) : Placed := { around := p.path, decl := sub }

theorem dotted_inner (p : Placed) (sub : TypeDecl) :
    (p.inner sub).dotted = p.dotted ++ "." ++ sub.name := by
  have hpath : p.path ≠ [] := by simp [path]
  show String.intercalate "." (p.path ++ [sub.name]) = _
  rw [String.intercalate_append_of_ne_nil hpath (by simp), String.intercalate_singleton]
  rfl

/-- What a run records of a declaration. -/
def record (package filePath : String) (p : Placed) : TypeRecord :=
  { name := p.dotted, package, filePath, kind := p.decl.kind, isNested := p.isNested }

end Placed

mutual

/-- A declaration and those nested in it, outer before inner. -/
def TypeDecl.placed (around : List String) : TypeDecl → List Placed
  | ⟨o, nested⟩ => ⟨around, ⟨o, nested⟩⟩ :: TypeDecl.placedAll (around ++ [o.name]) nested

def TypeDecl.placedAll (around : List String) : List TypeDecl → List Placed
  | [] => []
  | d :: ds => d.placed around ++ TypeDecl.placedAll around ds

end

/-- All declarations of a file, outer before inner. -/
def SourceFile.placed (f : SourceFile) : List Placed := TypeDecl.placedAll [] f.types

-- ---------------------------------------------------------------------------
-- Members of the list
-- ---------------------------------------------------------------------------

namespace TypeDecl

theorem placed_eq_cons (around : List String) (d : TypeDecl) :
    d.placed around = ⟨around, d⟩ :: placedAll (around ++ [d.name]) d.nested := by
  cases d
  simp only [placed]

theorem placedAll_eq_flatMap (around : List String) (ds : List TypeDecl) :
    placedAll around ds = ds.flatMap (placed around) := by
  induction ds with
  | nil => simp only [placedAll, List.flatMap_nil]
  | cons d ds ih => simp only [placedAll, List.flatMap_cons, ih]

theorem mem_placed_self (around : List String) (d : TypeDecl) : ⟨around, d⟩ ∈ d.placed around := by
  rw [placed_eq_cons]
  exact List.mem_cons_self

mutual

/-- The list is closed under going to a nested type. -/
theorem inner_mem_placed {around : List String} {p : Placed} {sub : TypeDecl} :
    ∀ d : TypeDecl, p ∈ d.placed around → sub ∈ p.decl.nested → p.inner sub ∈ d.placed around
  | ⟨o, nested⟩, hp, hsub => by
    simp only [placed, List.mem_cons] at hp ⊢
    rcases hp with rfl | hp
    · refine .inr ?_
      rw [placedAll_eq_flatMap, List.mem_flatMap]
      exact ⟨sub, hsub, mem_placed_self _ sub⟩
    · exact .inr (inner_mem_placedAll nested hp hsub)

theorem inner_mem_placedAll {around : List String} {p : Placed} {sub : TypeDecl} :
    ∀ ds : List TypeDecl, p ∈ placedAll around ds → sub ∈ p.decl.nested →
      p.inner sub ∈ placedAll around ds
  | [], hp, _ => by simp [placedAll] at hp
  | d :: ds, hp, hsub => by
    simp only [placedAll, List.mem_append] at hp ⊢
    exact hp.imp (inner_mem_placed d · hsub) (inner_mem_placedAll ds · hsub)

end

mutual

/-- What holds of the names of all declarations holds of all names on their paths. -/
theorem forall_mem_path_placed {P : String → Prop} {around : List String}
    (haround : ∀ n ∈ around, P n) :
    ∀ d : TypeDecl, (∀ p ∈ d.placed around, P p.decl.name) →
      ∀ p ∈ d.placed around, ∀ n ∈ p.path, P n
  | ⟨o, nested⟩, hd, p, hp => by
    simp only [placed, List.mem_cons, forall_eq_or_imp] at hd hp
    have hinner : ∀ n ∈ around ++ [o.name], P n := by
      simpa [or_imp, forall_and] using ⟨haround, hd.1⟩
    rcases hp with rfl | hp
    · exact hinner
    · exact forall_mem_path_placedAll hinner nested hd.2 p hp

theorem forall_mem_path_placedAll {P : String → Prop} {around : List String}
    (haround : ∀ n ∈ around, P n) :
    ∀ ds : List TypeDecl, (∀ p ∈ placedAll around ds, P p.decl.name) →
      ∀ p ∈ placedAll around ds, ∀ n ∈ p.path, P n
  | [], _, p, hp => by simp [placedAll] at hp
  | d :: ds, hds, p, hp => by
    simp only [placedAll, List.mem_append, or_imp, forall_and] at hds hp
    rcases hp with hp | hp
    · exact forall_mem_path_placed haround d hds.1 p hp
    · exact forall_mem_path_placedAll haround ds hds.2 p hp

end

mutual

theorem length_placed (around : List String) :
    ∀ d : TypeDecl, (d.placed around).length = d.typeCount
  | ⟨o, nested⟩ => by
    simp only [placed, typeCount, List.length_cons, length_placedAll _ nested]
    omega

theorem length_placedAll (around : List String) :
    ∀ ds : List TypeDecl, (placedAll around ds).length = typeCountList ds
  | [] => by simp only [placedAll, typeCountList, List.length_nil]
  | d :: ds => by
    simp only [placedAll, typeCountList, List.length_append, length_placed around d,
      length_placedAll around ds]

end

end TypeDecl

-- ---------------------------------------------------------------------------
-- Records
-- ---------------------------------------------------------------------------

/-- The dotted path of the innermost of the types around a declaration. -/
def enclosingPath? (around : List String) : Option String :=
  if around.isEmpty then none else some (String.intercalate "." around)

theorem enclosingPath?_path (p : Placed) : enclosingPath? p.path = some p.dotted := by
  simp [enclosingPath?, Placed.path, Placed.dotted]

theorem isSome_enclosingPath? (around : List String) :
    (enclosingPath? around).isSome = !around.isEmpty := by
  cases around <;> rfl

theorem dottedName_enclosingPath? (p : Placed) :
    dottedName (enclosingPath? p.around) p.decl.name = p.dotted := by
  obtain ⟨around, d⟩ := p
  cases around with
  | nil => simp [enclosingPath?, dottedName, Placed.dotted, Placed.path]
  | cons name names =>
    simp only [enclosingPath?, List.isEmpty_cons, dottedName, Placed.dotted, Placed.path]
    rw [String.intercalate_append_of_ne_nil (by simp) (by simp), String.intercalate_singleton]
    rfl

namespace TypeDecl

mutual

theorem typeRecords_eq_map (package filePath : String) (around : List String) :
    ∀ d : TypeDecl, d.typeRecords package filePath (enclosingPath? around) =
      (d.placed around).map (Placed.record package filePath)
  | ⟨o, nested⟩ => by
    let p : Placed := ⟨around, ⟨o, nested⟩⟩
    have hname : dottedName (enclosingPath? around) o.name = p.dotted := dottedName_enclosingPath? p
    have hinner : some p.dotted = enclosingPath? (around ++ [o.name]) :=
      (enclosingPath?_path p).symm
    simp only [typeRecords, placed, List.map_cons, hname, hinner, isSome_enclosingPath?,
      typeRecordsAll_eq_map package filePath _ nested]
    rfl

/-- The records of declarations, one for each entry of the flat list. -/
theorem typeRecordsAll_eq_map (package filePath : String) (around : List String) :
    ∀ ds : List TypeDecl, typeRecordsAll package filePath (enclosingPath? around) ds =
      (placedAll around ds).map (Placed.record package filePath)
  | [] => by simp only [typeRecordsAll, placedAll, List.map_nil]
  | d :: ds => by
    simp only [typeRecordsAll, placedAll, List.map_append,
      typeRecords_eq_map package filePath around d,
        typeRecordsAll_eq_map package filePath around ds]

end

end TypeDecl

/-- One step of a run adds the records of the declarations of a file, in order. -/
theorem Catalog.types_emit (c : Catalog) (file : SourceFile) (path : String) :
    (c.emit file path).1.types =
      c.types ++ file.placed.map (Placed.record file.package path) := by
  have hall := TypeDecl.typeRecordsAll_eq_map file.package path [] file.types
  simp only [emit, record, SourceFile.placed, ← hall]
  rfl

end Typings
