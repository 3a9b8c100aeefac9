import Typings.Proofs.FileSystem.Changes
import Typings.Run.Basic

/-!
# Writing below the output directory

The files that a run writes have paths that lead downwards from the output directory. Writing them
changes nothing apart from it, and what was written last at a location stays. Which files are
written, and what is counted, depends on the Java files alone.
-/

namespace Typings

open Typings.FileSystem Typings.Path

-- ---------------------------------------------------------------------------
-- Steps that succeed
-- ---------------------------------------------------------------------------

namespace Step

variable {α β : Type} {fs after : FileSystem} {path : String}

instance decidableEqResult [DecidableEq α] : DecidableEq (EStateM.Result RunError FileSystem α)
  | .ok a fs, .ok a' fs' => decidable_of_iff (a = a' ∧ fs = fs') (by simp)
  | .error e fs, .error e' fs' => decidable_of_iff (e = e' ∧ fs = fs') (by simp)
  | .ok _ _, .error _ _ => .isFalse nofun
  | .error _ _, .ok _ _ => .isFalse nofun

/-- A sequence of steps succeeds when each of them does. -/
theorem bind_eq_ok {x : Step α} {f : α → Step β} {b : β} :
    (x >>= f) fs = .ok b after ↔ ∃ a mid, x fs = .ok a mid ∧ f a mid = .ok b after := by
  show EStateM.bind x f fs = _ ↔ _
  unfold EStateM.bind
  cases x fs <;> simp

theorem bind_eq_error {x : Step α} {f : α → Step β} {e : RunError} :
    (x >>= f) fs = .error e after ↔
      x fs = .error e after ∨ ∃ a mid, x fs = .ok a mid ∧ f a mid = .error e after := by
  show EStateM.bind x f fs = _ ↔ _
  unfold EStateM.bind
  cases x fs <;> simp

theorem get_bind (f : FileSystem → Step α) : (get >>= f : Step α) fs = f fs fs := rfl

theorem change_eq_ok {f : FileSystem → Except OsError FileSystem} {u : Unit}
    (h : change path f fs = .ok u after) : f fs = .ok after := by
  rw [change, get_bind] at h
  cases hf : f fs with
  | ok a =>
    simp only [hf] at h
    cases h
    rfl
  | error e =>
    simp only [hf] at h
    cases h

theorem makeDirs_eq_ok {u : Unit} (h : makeDirs path fs = .ok u after) :
    fs.makeDirs path = (after, none) := by
  rw [makeDirs, get_bind] at h
  match hdirs : fs.makeDirs path with
  | (mid, none) =>
    simp only [hdirs] at h
    cases h
    rfl
  | (mid, some e) =>
    simp only [hdirs] at h
    cases h

end Step

-- ---------------------------------------------------------------------------
-- One file
-- ---------------------------------------------------------------------------

/-- Whether a path is relative and leads downwards only. -/
def Path.LeadsDown (path : String) : Prop := isAbsolute path = false ∧ .parent ∉ steps path

instance (path : String) : Decidable (Path.LeadsDown path) := by
  unfold Path.LeadsDown
  infer_instance

/-- Whether every segment of a path enters a directory or a file. -/
def Path.Plain (path : String) : Prop := ∀ s ∈ segments path, ModulePath.IsPlainStep s

theorem Path.Plain.leadsDown {path : String} (h : Plain path) : LeadsDown path := by
  refine ⟨?_, fun hmem => ?_⟩
  · obtain ⟨first, rest, hsegments⟩ : ∃ first rest, segments path = first :: rest :=
      List.exists_cons_of_ne_nil (List.splitOn_ne_nil _ _)
    have hfirst : first ≠ [] := (h first (hsegments ▸ List.mem_cons_self)).1
    simp [isAbsolute_of_segments hsegments, hfirst]
  · obtain ⟨s, hs, hparent⟩ := List.mem_filterMap.1 hmem
    have hup : s ≠ ['.', '.'] := (h s hs).2.2
    simp [component?, hup] at hparent

theorem Path.Plain.names_steps {path : String} (h : Plain path) :
    names (steps path) = (segments path).map String.ofList := by
  rw [steps, names, List.filterMap_filterMap]
  refine List.filterMap_eq_map_iff_forall_eq_some.2 fun s hs => ?_
  obtain ⟨hne, hdot, hup⟩ := h s hs
  have hname : component? s = some (.name s) := by
    have hup : s ≠ ['.', '.'] := hup
    simp [component?, hne, hdot, hup]
  rw [hname, Option.bind_some]

/-- A plain path can be told from where it leads. -/
theorem Path.Plain.eq_of_names {path other : String} (h : Plain path) (hother : Plain other)
    (heq : names (steps path) = names (steps other)) : path = other := by
  rw [h.names_steps, hother.names_steps] at heq
  have hsegments : segments path = segments other :=
    List.map_injective_iff.2 (fun _ _ => String.ofList_injective) heq
  refine String.toList_injective ?_
  calc path.toList = ['/'].intercalate (segments path) := (List.intercalate_splitOn '/').symm
    _ = ['/'].intercalate (segments other) := by rw [hsegments]
    _ = other.toList := List.intercalate_splitOn '/'

/-- What is put at the end of a text goes to the end of its last segment. -/
theorem Text.exists_splitOn_append (sep : Char) (s : Text) :
    ∃ init last, ∀ t, sep ∉ t → (s ++ t).splitOn sep = init ++ [last ++ t] := by
  induction s with
  | nil => exact ⟨[], [], fun t ht => List.splitOn_eq_singleton ht⟩
  | cons c s ih =>
    obtain ⟨init, last, h⟩ := ih
    by_cases hc : c = sep
    · refine ⟨[] :: init, last, fun t ht => ?_⟩
      rw [List.cons_append, List.splitOn_cons_eq_if_modifyHead, h t ht]
      simp [hc]
    · cases init with
      | nil =>
        refine ⟨[], c :: last, fun t ht => ?_⟩
        rw [List.cons_append, List.splitOn_cons_eq_if_modifyHead, h t ht]
        simp [hc]
      | cons first init =>
        refine ⟨(c :: first) :: init, last, fun t ht => ?_⟩
        rw [List.cons_append, List.splitOn_cons_eq_if_modifyHead, h t ht]
        simp [hc]

/-- The ending is replaced at the end of the last segment, which no slash stands in. -/
theorem ModulePath.toList_ofSource (path : String) :
    ∃ body ending : Text,
      ['/'].intercalate ((segments path.toList).filter (· ≠ ['.', '.'])) = body ++ ending ∧
        '/' ∉ ending ∧ (ofSource path).toList = body ++ extension.toList := by
  let joined := ['/'].intercalate ((segments path.toList).filter (· ≠ ['.', '.']))
  have htext (body : Text) (h : (Text.beforeSuffix? ".java".toList joined).getD joined = body) :
      (ofSource path).toList = body ++ extension.toList := by
    rw [← h, ofSource, String.toList_append, String.toList_ofList]
  cases hjava : Text.beforeSuffix? ".java".toList joined with
  | none => exact ⟨_, [], (List.append_nil _).symm, by simp, htext _ (by rw [hjava]; rfl)⟩
  | some body =>
    exact ⟨body, ".java".toList, Text.beforeSuffix?_eq_some_iff.1 hjava, by decide,
      htext _ (by rw [hjava]; rfl)⟩

/-- The segments of the path of a declaration file enter directories, and its last one has the
ending of declaration files. -/
theorem ModulePath.segments_ofSource (path : String) :
    ∃ init last, Path.segments (ofSource path) = init ++ [last ++ extension.toList] ∧
      (∀ s ∈ init, IsPlainStep s) ∧ IsPlainStep (last ++ extension.toList) := by
  let parts := (segments path.toList).filter (· ≠ ['.', '.'])
  have hparts : ∀ s ∈ parts, IsPlainStep s ∧ '/' ∉ s := by
    intro s hs
    obtain ⟨hs, hup⟩ := List.mem_filter.1 hs
    obtain ⟨hs, hne⟩ := List.mem_filter.1 hs
    have hslash := Text.notMem_of_mem_splitOn hs
    simp_all [IsPlainStep, up]
  obtain ⟨body, ending, hjoined, hending, htext⟩ := toList_ofSource path
  obtain ⟨init, last, hsplit⟩ := Text.exists_splitOn_append '/' body
  refine ⟨init, last, ?_, fun s hs => (hparts s ?_).1, ?_⟩
  · rw [Path.segments, htext, hsplit _ (by decide)]
  · have hall := hsplit ending hending
    rw [← hjoined] at hall
    have hne : parts ≠ [] := by
      intro hnil
      have hinit : init ≠ [] := List.ne_nil_of_mem hs
      have hnone : [[]] = init ++ [last ++ ending] := by
        rw [← hall, show (segments path.toList).filter (· ≠ ['.', '.']) = [] from hnil]
        rfl
      exact hinit (by simpa using congrArg List.dropLast hnone.symm)
    have hmem : s ∈ init ++ [last ++ ending] := List.mem_append_left _ hs
    rwa [← hall, List.splitOn_intercalate '/' (fun l hl => (hparts l hl).2) hne] at hmem
  · refine ⟨fun h => ?_, fun h => ?_, fun h => ?_⟩ <;> have := congrArg List.length h <;>
      simp [extension, up] at this

theorem ModulePath.plain_ofSource (path : String) : Plain (ofSource path) := by
  obtain ⟨init, last, hsegments, hinit, hlast⟩ := segments_ofSource path
  rw [Plain, hsegments, List.forall_mem_append, List.forall_mem_singleton]
  exact ⟨hinit, hlast⟩

/-- The declaration file of a Java file is below the output directory. -/
theorem ModulePath.leadsDown_ofSource (path : String) : LeadsDown (ofSource path) :=
  (plain_ofSource path).leadsDown

variable {c : RunConfig} {out : List String} {fs after : FileSystem}

/-- The location of a file below the output directory. -/
def OutputFile.locationIn (out : List String) (file : OutputFile) : List String :=
  out ++ names (steps file.path)

/-- The files after more have been written, one after another. -/
def withOutputs (out : List String) (files : List String → Option Contents)
    (outputs : List OutputFile) : List String → Option Contents :=
  outputs.foldl (fun files file => withFile files (file.locationIn out) (.text file.contents)) files

/-- A file is written after the directory for it has been made, if it has one. -/
theorem writeOutput_eq_ok {file : OutputFile} {u : Unit} (h : writeOutput c file fs = .ok u after) :
    ∃ mid, (mid = fs ∨ ∃ above, parent? (join c.outputDir file.path) = some above ∧
        fs.makeDirs above = (mid, none)) ∧
      mid.write (join c.outputDir file.path) (.text file.contents) = .ok after := by
  unfold writeOutput at h
  cases hparent : parent? (join c.outputDir file.path) with
  | none =>
    simp only [hparent] at h
    exact ⟨fs, .inl rfl, Step.change_eq_ok h⟩
  | some above =>
    simp only [hparent] at h
    obtain ⟨_, mid, hdirs, h⟩ := Step.bind_eq_ok.1 h
    exact ⟨mid, .inr ⟨above, rfl, Step.makeDirs_eq_ok hdirs⟩, Step.change_eq_ok h⟩

theorem places_writeOutput {file : OutputFile} {u : Unit} (hsteady : fs.Steady out c.outputDir)
    (hout : fs.locationOf c.outputDir = out) (hdown : LeadsDown file.path)
    (h : writeOutput c file fs = .ok u after) :
    Places out (file.locationIn out) fs after
      (withFile fs.fileAt? (file.locationIn out) (.text file.contents)) := by
  have hlocation (fs : FileSystem) (hout : fs.locationOf c.outputDir = out) :
      fs.locationOf (join c.outputDir file.path) = file.locationIn out := by
    rw [locationOf_join hdown.1, hout, resolve_of_down hdown.2, OutputFile.locationIn]
  have hbelow : out <+: file.locationIn out := List.prefix_append _ _
  have htowards : fs.Towards out (join c.outputDir file.path) (file.locationIn out) := by
    rw [← hlocation fs hout] at hbelow ⊢
    refine .of_steady (fun exit hexit => hsteady exit ?_) hbelow
    rwa [exitsOf_join hdown.1 hdown.2] at hexit
  obtain ⟨mid, hmade, hwrite⟩ := writeOutput_eq_ok h
  have hmid : Places out (file.locationIn out) fs mid fs.fileAt? := by
    rcases hmade with rfl | ⟨above, hparent, hmade⟩
    · exact .refl out _ mid
    · have hplaces := places_makeDirs (htowards.parent hparent)
      rwa [hmade] at hplaces
  have hout' : mid.locationOf c.outputDir = out := (locationOf_congr hmid.cwd _).trans hout
  have hafter := places_write (hlocation mid hout' ▸ hbelow) hwrite
  rw [hlocation mid hout', hmid.files] at hafter
  exact hmid.trans hafter

/-- What writing files below `out` does: it keeps every directory, and makes those on the way to the
files. -/
structure WritesOutputs (out : List String) (outputs : List OutputFile)
    (before after : FileSystem) : Prop extends
    Becomes out before after (withOutputs out before.fileAt? outputs) where
  kept : ∀ location, before.HasDir location → after.HasDir location
  made : ∀ location, after.HasDir location →
    before.HasDir location ∨ ∃ file ∈ outputs, location <+: file.locationIn out

theorem writesOutputs {outputs : List OutputFile} {u : Unit}
    (hsteady : fs.Steady out c.outputDir) (hout : fs.locationOf c.outputDir = out)
    (hdown : ∀ file ∈ outputs, LeadsDown file.path)
    (h : outputs.forM (writeOutput c) fs = .ok u after) :
    WritesOutputs out outputs fs after := by
  induction outputs generalizing fs with
  | nil =>
    cases h
    exact ⟨becomes_refl out _, fun _ h => h, fun _ h => .inl h⟩
  | cons file outputs ih =>
    obtain ⟨_, mid, hfile, h⟩ := Step.bind_eq_ok.1 h
    rw [List.forall_mem_cons] at hdown
    have hmid := places_writeOutput hsteady hout hdown.1 hfile
    have hrest := ih (hsteady.of_keeps hmid.toKeeps) ((locationOf_congr hmid.cwd _).trans hout)
      hdown.2 h
    refine ⟨⟨hmid.toKeeps.trans hrest.toKeeps, ?_⟩, fun location hdir => ?_,
      fun location hdir => ?_⟩
    · rw [hrest.files, hmid.files]
      rfl
    · exact hrest.kept location (hmid.kept location hdir)
    · rcases hrest.made location hdir with hdir | ⟨later, hmem, hp⟩
      · exact (hmid.made location hdir).imp id fun hp => ⟨file, List.mem_cons_self, hp⟩
      · exact .inr ⟨later, List.mem_cons_of_mem _ hmem, hp⟩

theorem isSome_withOutputs {outputs : List OutputFile} {files : List String → Option Contents}
    {location : List String} (h : (files location).isSome) :
    (withOutputs out files outputs location).isSome := by
  induction outputs generalizing files with
  | nil => exact h
  | cons file outputs ih =>
    refine ih ?_
    dsimp only [withFile]
    split
    · rfl
    · exact h

/-- There is a file where one has been written, though a later one may have been written over it. -/
theorem isSome_withOutputs_of_mem {outputs : List OutputFile}
    {files : List String → Option Contents} {file : OutputFile} (h : file ∈ outputs) :
    (withOutputs out files outputs (file.locationIn out)).isSome := by
  induction outputs generalizing files with
  | nil => cases h
  | cons first outputs ih =>
    rcases List.mem_cons.1 h with rfl | h
    · refine @isSome_withOutputs out outputs (withFile files (file.locationIn out) _) _ ?_
      rw [withFile, if_pos rfl, Option.isSome_some]
    · exact ih h

-- ---------------------------------------------------------------------------
-- All declaration files
-- ---------------------------------------------------------------------------

/-- The declaration files for read files, one after another. -/
def declarationOutputs (sources : List SourcePath) : Catalog → List FileInfo → List OutputFile
  | _, [] => []
  | catalog, info :: rest =>
    match outputFor? sources info.path with
    | none => declarationOutputs sources catalog rest
    | some path =>
      (catalog.outputFor? info.source path).toList ++
        declarationOutputs sources (catalog.record info.source path) rest

/-- The catalog and the report after the declaration files for read files. -/
def declarationResult (sources : List SourcePath) :
    Catalog → Report → List FileInfo → Catalog × Report
  | catalog, r, [] => (catalog, r)
  | catalog, r, info :: rest =>
    match outputFor? sources info.path with
    | none => declarationResult sources catalog r rest
    | some path =>
      declarationResult sources (catalog.record info.source path)
        (match catalog.outputFor? info.source path with
        | some _ => { r with written := r.written + 1 }
        | none => { r with skipped := r.skipped + 1 }) rest

/-- Writing the declaration files is writing those that are planned, one after another. -/
theorem writeDeclarations_eq (sources : List SourcePath) (catalog : Catalog) (r : Report)
    (infos : List FileInfo) :
    writeDeclarations c sources catalog r infos = (do
      (declarationOutputs sources catalog infos).forM (writeOutput c)
      return declarationResult sources catalog r infos) := by
  induction infos generalizing catalog r with
  | nil => rfl
  | cons info infos ih =>
    rw [writeDeclarations, declarationOutputs, declarationResult]
    cases hpath : outputFor? sources info.path with
    | none => exact ih catalog r
    | some path =>
      simp only [Catalog.emit]
      cases hfile : catalog.outputFor? info.source path with
      | none => exact ih _ _
      | some file =>
        rw [Option.toList_some, List.singleton_append, List.forM_eq_forM, List.forM_cons,
          bind_assoc]
        exact bind_congr fun _ => ih _ _

theorem mem_declarationOutputs {sources : List SourcePath} {catalog : Catalog}
    {infos : List FileInfo} {file : OutputFile}
    (h : file ∈ declarationOutputs sources catalog infos) :
    ∃ s ∈ sources, file.path = s.output := by
  induction infos generalizing catalog with
  | nil => cases h
  | cons info infos ih =>
    rw [declarationOutputs] at h
    split at h
    · exact ih h
    · rename_i path hpath
      rcases List.mem_append.1 h with h | h
      · obtain ⟨s, hs, rfl⟩ := Option.map_eq_some_iff.1 hpath
        have hmem := List.mem_of_find?_eq_some hs
        refine ⟨s, List.mem_reverse.1 hmem, ?_⟩
        rw [Option.mem_toList, Catalog.outputFor?] at h
        split at h
        · cases h
        · cases h
          rfl
      · exact ih h

end Typings
