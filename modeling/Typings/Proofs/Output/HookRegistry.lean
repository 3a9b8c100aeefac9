import Typings.Proofs.Output.Declarations

/-!
# The hooks of a run

A run feeds files to a catalog one after another. Its hooks are those that the event interfaces of
the files ask for, file by file and outer before inner. No hook is nameless or has a reserved name,
and the type that a hook takes is a type of the same catalog, so that the hooks file refers to
declared types only.
-/

namespace Typings

/-- The catalog after a sequence of files, each with its output path. -/
def Catalog.emitAll (c : Catalog) (fed : List (SourceFile × String)) : Catalog :=
  fed.foldl (fun c f => (c.emit f.1 f.2).1) c

-- ---------------------------------------------------------------------------
-- Names of hooks
-- ---------------------------------------------------------------------------

theorem Text.lower_ne_nil (c : Char) : Text.lower c ≠ [] := by
  unfold Text.lower
  split
  · simp
  · split
    · simp
    · split <;> simp

/-- A name without the ending `Event`, if it has that ending. -/
def eventStem (name : String) : Text :=
  if eventSuffix.toList <:+ name.toList then
    name.toList.take (name.toList.length - eventSuffix.toList.length)
  else name.toList

theorem getD_beforeSuffix? (name : String) :
    (Text.beforeSuffix? eventSuffix.toList name.toList).getD name.toList = eventStem name := by
  unfold eventStem
  cases h : Text.beforeSuffix? eventSuffix.toList name.toList with
  | none =>
    have hends : ¬ eventSuffix.toList <:+ name.toList := by
      rw [← Text.endsWith_eq_true_iff, Text.endsWith, h]
      simp
    rw [if_neg hends, Option.getD_none]
  | some stem =>
    have hname := Text.beforeSuffix?_eq_some_iff.1 h
    rw [if_pos ⟨stem, hname.symm⟩, Option.getD_some, hname]
    simp

/-- A type nested in an event interface has no hook exactly when nothing of its name remains. -/
theorem hookName?_eq_none_iff {name : String} : hookName? name = none ↔ eventStem name = [] := by
  unfold hookName?
  rw [getD_beforeSuffix?]
  cases eventStem name with
  | nil => simp
  | cons c cs =>
    simp only [reduceCtorEq, iff_false]
    split <;> simp

theorem not_isPrefix_of_mem_reservedWords {word : String} (h : word ∈ reservedWords) :
    ¬ "on".toList <+: word.toList := by
  have hall : ∀ w ∈ reservedWords, ¬ "on".toList <+: w.toList := by decide
  exact hall word h

theorem isReserved_on (stem : String) : isReserved ("on" ++ stem) = false := by
  refine Bool.eq_false_iff.2 fun h => ?_
  have hmem : "on" ++ stem ∈ reservedWords := by simpa [isReserved] using h
  refine not_isPrefix_of_mem_reservedWords hmem ?_
  rw [String.toList_append]
  exact List.prefix_append _ _

/-- A hook has a name, and one that can be declared. -/
theorem hookName?_declarable {name hook : String} (h : hookName? name = some hook) :
    hook ≠ "" ∧ isReserved hook = false := by
  unfold hookName? at h
  simp only at h
  split at h
  · simp at h
  · rename_i c cs _
    split at h
    · obtain rfl := Option.some.inj h
      refine ⟨fun hempty => ?_, isReserved_on _⟩
      simpa using congrArg String.toList hempty
    · rename_i hfree
      obtain rfl := Option.some.inj h
      refine ⟨fun hempty => ?_, by simpa using hfree⟩
      have := congrArg String.toList hempty
      simp [Text.lower_ne_nil] at this

-- ---------------------------------------------------------------------------
-- The hooks of a file
-- ---------------------------------------------------------------------------

/-- An interface whose name ends in `Event`. -/
def Placed.isEvent (p : Placed) : Bool :=
  p.decl.kind = .interface ∧ eventSuffix.toList <:+ p.decl.name.toList

/-- The hook for a type that stands directly inside an event interface. -/
def Placed.hook (file : SourceFile) (filePath : String) (p : Placed) (sub : TypeDecl) :
    HookRecord :=
  { hookName := (hookName? sub.name).getD "", eventName := p.dotted, subType := sub.name
    reference := file.qualify (p.inner sub).dotted, package := file.package, filePath }

/-- The hooks that an event interface asks for: one for each type directly inside it whose name is
more than the ending `Event`. -/
def Placed.hooks (file : SourceFile) (filePath : String) (p : Placed) : List HookRecord :=
  (p.decl.nested.filter fun sub => !(eventStem sub.name).isEmpty).map (p.hook file filePath)

/-- The hooks that the declarations of a file ask for, outer before inner. -/
def SourceFile.eventHooks (file : SourceFile) (filePath : String) : List HookRecord :=
  (file.placed.filter Placed.isEvent).flatMap (Placed.hooks file filePath)

theorem isEvent_eq (p : Placed) : p.decl.isEvent = p.isEvent := by
  rw [Bool.eq_iff_iff]
  simp [TypeOutline.isEvent, Placed.isEvent, Text.endsWith_eq_true_iff]

theorem filterMap_hookRecord? (file : SourceFile) (filePath : String) (p : Placed) :
    p.decl.nested.filterMap (hookRecord? file filePath p.dotted) = p.hooks file filePath := by
  unfold Placed.hooks
  generalize p.decl.nested = subs
  induction subs with
  | nil => rfl
  | cons sub subs ih =>
    cases hname : hookName? sub.name with
    | none =>
      have hstem : eventStem sub.name = [] := hookName?_eq_none_iff.1 hname
      simp [hookRecord?, hname, hstem, ih]
    | some hook =>
      have hstem : eventStem sub.name ≠ [] := fun h => by
        rw [hookName?_eq_none_iff.2 h] at hname
        simp at hname
      simp [hookRecord?, hname, hstem, ih, Placed.hook, Placed.dotted_inner]

mutual

theorem TypeDecl.hookRecords_eq (file : SourceFile) (filePath : String) (around : List String) :
    ∀ d : TypeDecl, d.hookRecords file filePath (enclosingPath? around) =
      ((d.placed around).filter Placed.isEvent).flatMap (Placed.hooks file filePath)
  | ⟨o, nested⟩ => by
    let p : Placed := ⟨around, ⟨o, nested⟩⟩
    have hname : dottedName (enclosingPath? around) o.name = p.dotted := dottedName_enclosingPath? p
    have hinner : some p.dotted = enclosingPath? (around ++ [o.name]) :=
      (enclosingPath?_path p).symm
    have hown : nested.filterMap (hookRecord? file filePath p.dotted) = p.hooks file filePath :=
      filterMap_hookRecord? file filePath p
    have hevent : o.isEvent = p.isEvent := isEvent_eq p
    simp only [TypeDecl.hookRecords, TypeDecl.placed, hname, hown, hevent]
    rw [hinner, TypeDecl.hookRecordsAll_eq file filePath _ nested, List.filter_cons]
    split
    · rw [List.flatMap_cons]
    · rw [List.nil_append]

/-- The hooks of declarations are those of the event interfaces on the flat list. -/
theorem TypeDecl.hookRecordsAll_eq (file : SourceFile) (filePath : String)
    (around : List String) :
    ∀ ds : List TypeDecl, TypeDecl.hookRecordsAll file filePath (enclosingPath? around) ds =
      ((TypeDecl.placedAll around ds).filter Placed.isEvent).flatMap (Placed.hooks file filePath)
  | [] => by simp only [TypeDecl.hookRecordsAll, TypeDecl.placedAll, List.filter_nil,
      List.flatMap_nil]
  | d :: ds => by
    simp only [TypeDecl.hookRecordsAll, TypeDecl.placedAll, List.filter_append,
      List.flatMap_append, TypeDecl.hookRecords_eq file filePath around d,
      TypeDecl.hookRecordsAll_eq file filePath around ds]

end

-- ---------------------------------------------------------------------------
-- Steps and runs
-- ---------------------------------------------------------------------------

namespace Catalog

/-- One step adds the hooks of one file. -/
theorem hooks_emit (c : Catalog) (file : SourceFile) (path : String) :
    (c.emit file path).1.hooks = c.hooks ++ file.eventHooks path := by
  have hall := TypeDecl.hookRecordsAll_eq file path [] file.types
  simp only [emit, record, SourceFile.eventHooks, SourceFile.placed, ← hall]
  rfl

theorem hooks_emitAll (c : Catalog) (fed : List (SourceFile × String)) :
    (c.emitAll fed).hooks = c.hooks ++ fed.flatMap fun f => f.1.eventHooks f.2 := by
  induction fed generalizing c with
  | nil => simp [emitAll]
  | cons f fed ih =>
    have hstep : c.emitAll (f :: fed) = (c.emit f.1 f.2).1.emitAll fed := rfl
    rw [hstep, ih, hooks_emit, List.append_assoc, List.flatMap_cons]

/-- The type that a hook takes is among the types of the catalog. -/
def Declares (c : Catalog) (r : HookRecord) : Prop :=
  ∃ t ∈ c.types, t.name = r.eventName ++ "." ++ r.subType ∧ t.filePath = r.filePath

/-- Every hook has a name that can be declared and takes a type of the catalog. -/
def Closed (c : Catalog) : Prop :=
  ∀ r ∈ c.hooks, r.hookName ≠ "" ∧ isReserved r.hookName = false ∧ c.Declares r

theorem Declares.emit {c : Catalog} {r : HookRecord} (h : c.Declares r) (file : SourceFile)
    (path : String) : (c.emit file path).1.Declares r := by
  obtain ⟨t, ht, hname⟩ := h
  refine ⟨t, ?_, hname⟩
  rw [types_emit]
  exact List.mem_append_left _ ht

/-- The event interface of a hook is on the flat list, and with it the type that the hook takes. -/
theorem declares_of_mem_eventHooks (c : Catalog) {file : SourceFile} {path : String}
    {r : HookRecord} (hr : r ∈ file.eventHooks path) : (c.emit file path).1.Declares r := by
  obtain ⟨p, hp, hr⟩ := List.mem_flatMap.1 hr
  obtain ⟨sub, hsub, rfl⟩ := List.mem_map.1 hr
  have hplaced : p ∈ file.placed := (List.mem_filter.1 hp).1
  have hinner : p.inner sub ∈ file.placed :=
    TypeDecl.inner_mem_placedAll file.types hplaced (List.mem_filter.1 hsub).1
  refine ⟨(p.inner sub).record file.package path, ?_, p.dotted_inner sub, rfl⟩
  rw [types_emit]
  exact List.mem_append_right _ (List.mem_map_of_mem hinner)

theorem declarable_of_mem_eventHooks {file : SourceFile} {path : String} {r : HookRecord}
    (hr : r ∈ file.eventHooks path) : r.hookName ≠ "" ∧ isReserved r.hookName = false := by
  obtain ⟨p, -, hr⟩ := List.mem_flatMap.1 hr
  obtain ⟨sub, hsub, rfl⟩ := List.mem_map.1 hr
  have hstem : eventStem sub.name ≠ [] := by simpa using (List.mem_filter.1 hsub).2
  cases hname : hookName? sub.name with
  | none => exact absurd (hookName?_eq_none_iff.1 hname) hstem
  | some hook =>
    have hhook : (p.hook file path sub).hookName = hook := by simp [Placed.hook, hname]
    rw [hhook]
    exact hookName?_declarable hname

/-- One step keeps the catalog closed. -/
theorem Closed.emit {c : Catalog} (h : c.Closed) (file : SourceFile) (path : String) :
    (c.emit file path).1.Closed := by
  intro r hr
  rw [hooks_emit, List.mem_append] at hr
  rcases hr with hr | hr
  · obtain ⟨hname, hfree, hdeclared⟩ := h r hr
    exact ⟨hname, hfree, hdeclared.emit file path⟩
  · obtain ⟨hname, hfree⟩ := declarable_of_mem_eventHooks hr
    exact ⟨hname, hfree, declares_of_mem_eventHooks c hr⟩

theorem Closed.emitAll {c : Catalog} (h : c.Closed) (fed : List (SourceFile × String)) :
    (c.emitAll fed).Closed := by
  induction fed generalizing c with
  | nil => exact h
  | cons f fed ih => exact ih (h.emit f.1 f.2)

/-- The line of a function that takes a type of the catalog. -/
def functionLine (hooksPath hookName : String) (t : TypeRecord) : String :=
  "    function " ++ hookName ++ "(event: import(\"" ++ ModulePath.relative hooksPath t.filePath ++
    "\")." ++ t.name ++ "): void;\n"

theorem Declares.hookLine_eq {c : Catalog} {r : HookRecord} (h : c.Declares r)
    (hooksPath : String) :
    ∃ t ∈ c.types, hookLine hooksPath r = functionLine hooksPath r.hookName t := by
  obtain ⟨t, ht, hname, hpath⟩ := h
  refine ⟨t, ht, ?_⟩
  unfold hookLine functionLine
  rw [hname, hpath]
  simp only [String.append_assoc]

/-- The hooks of a run are those that the event interfaces of its files ask for, in order. Each has
a name that is neither empty nor reserved and takes a type of the catalog, and so does every
function of the hooks file. -/
theorem hooks_of_run (config : RunConfig) (fed : List (SourceFile × String)) :
    let c := emitAll { config } fed
    c.hooks = (fed.flatMap fun f => f.1.eventHooks f.2) ∧
    (∀ r ∈ c.hooks, r.hookName ≠ "" ∧ isReserved r.hookName = false ∧
      ∃ t ∈ c.types, t.name = r.eventName ++ "." ++ r.subType ∧ t.filePath = r.filePath) ∧
    ∀ r ∈ sortedHooks c.hooks, ∃ t ∈ c.types,
      hookLine config.hooksFile r = functionLine config.hooksFile r.hookName t := by
  intro c
  have hclosed : c.Closed := Closed.emitAll (by simp [Closed]) fed
  refine ⟨by simpa using hooks_emitAll { config } fed, hclosed, fun r hr => ?_⟩
  have hmem : r ∈ c.hooks := (Order.sort_perm _ _).mem_iff.1 hr
  exact (hclosed r hmem).2.2.hookLine_eq config.hooksFile

end Catalog

end Typings
