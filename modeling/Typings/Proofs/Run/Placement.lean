import Typings.Proofs.Run.Accounting
import Typings.Proofs.Run.Effects

/-!
# Where declarations end up

A run writes one declaration file for each Java file that it has found, could read, and found a
type in, then the index and the hooks file. What is written at a place stays there until something
else is written at the same place. When source directories overlap, the last of them that holds a
Java file decides where its declaration file is; there the declaration file is at the end.
-/

namespace Typings

open Typings.FileSystem Typings.Path Typings.Step

variable {c : RunConfig} {fs start written after : FileSystem} {sources : List SourcePath}
  {outputs : List OutputFile} {file : OutputFile} {path : String} {contents : Contents}

-- ---------------------------------------------------------------------------
-- Planned files
-- ---------------------------------------------------------------------------

/-- The declaration file of a Java file; none if it cannot be read or has no types. -/
def SourcePath.declaration? (c : RunConfig) (fs : FileSystem) (s : SourcePath) :
    Option OutputFile :=
  (fs.readJava c.reading s.path).toOption.bind fun info =>
    Catalog.outputFor? { config := c } info.source s.output

/-- The types and hooks of the Java files that were found. -/
def catalogOf (c : RunConfig) (fs : FileSystem) (sources : List SourcePath) : Catalog :=
  Catalog.emitAll { config := c } (fedFiles sources (parsedFiles c.reading fs sources))

theorem declarationOutputs_eq (catalog : Catalog) (infos : List FileInfo) :
    declarationOutputs sources catalog infos =
      infos.filterMap fun info => (outputFor? sources info.path).bind
        (Catalog.outputFor? { config := catalog.config } info.source) := by
  induction infos generalizing catalog with
  | nil => rfl
  | cons info infos ih =>
    rw [declarationOutputs]
    cases hpath : outputFor? sources info.path with
    | none =>
      rw [List.filterMap_cons_none (by rw [hpath, Option.bind_none])]
      exact ih catalog
    | some output =>
      have hrest : declarationOutputs sources (catalog.record info.source output) infos =
          infos.filterMap fun info => (outputFor? sources info.path).bind
            (Catalog.outputFor? { config := catalog.config } info.source) := ih _
      simp only [hrest]
      cases hfile : catalog.outputFor? info.source output with
      | none =>
        rw [List.filterMap_cons_none (by rw [hpath]; exact hfile)]
        rfl
      | some file =>
        rw [List.filterMap_cons_some (by rw [hpath]; exact hfile)]
        rfl

/-- The declaration files of the Java files that were found, each at the path that the last source
directory which holds the Java file gives it. -/
def declarationFiles (c : RunConfig) (fs : FileSystem) (sources : List SourcePath) :
    List OutputFile :=
  sources.filterMap fun s => (outputFor? sources s.path).bind fun output =>
    SourcePath.declaration? c fs { s with output }

theorem declarationOutputs_parsedFiles (c : RunConfig) (fs : FileSystem)
    (sources : List SourcePath) :
    declarationOutputs sources { config := c } (parsedFiles c.reading fs sources) =
      declarationFiles c fs sources := by
  rw [declarationOutputs_eq, parsedFiles, List.filterMap_filterMap, declarationFiles]
  refine List.filterMap_congr fun s _ => ?_
  cases hread : fs.readJava c.reading s.path with
  | error e => simp [SourcePath.declaration?, hread, Except.toOption]
  | ok info => simp [SourcePath.declaration?, hread, Except.toOption, path_of_readJava hread]

theorem declarationResult_parsedFiles (c : RunConfig) (fs : FileSystem)
    (sources : List SourcePath) (r : Report) :
    (declarationResult sources { config := c } r (parsedFiles c.reading fs sources)).1 =
      catalogOf c fs sources := by
  rw [declarationResult_eq, catalogOf]
  intro info hinfo
  obtain ⟨s, hs, hread⟩ := mem_parsedFiles.1 hinfo
  rw [path_of_readJava hread]
  exact isSome_outputFor? hs

/-- What a run is going to write. -/
theorem planOf_outputs (c : RunConfig) (fs : FileSystem) (sources : List SourcePath) :
    (planOf c fs sources).outputs =
      declarationFiles c fs sources ++ (catalogOf c fs sources).finish := by
  obtain ⟨hfiles, -⟩ := readFiles_project c.reading fs {} sources
  simp only [planOf, planFor, hfiles, declarationOutputs_parsedFiles, declarationResult_parsedFiles]

@[simp] theorem path_indexFile_catalogOf :
    (catalogOf c fs sources).indexFile.path = c.indexFile := by
  rw [Catalog.indexFile, catalogOf, Catalog.config_emitAll]

@[simp] theorem path_hooksFile_catalogOf :
    (catalogOf c fs sources).hooksFile.path = c.hooksFile := by
  rw [Catalog.hooksFile, catalogOf, Catalog.config_emitAll]

theorem SourcePath.declaration?_eq_some {s : SourcePath} (h : s.declaration? c fs = some file) :
    ∃ info, fs.readJava c.reading s.path = .ok info ∧
      Catalog.outputFor? { config := c } info.source s.output = some file := by
  obtain ⟨info, hinfo, hfile⟩ := Option.bind_eq_some_iff.1 h
  cases hread : fs.readJava c.reading s.path with
  | error e => rw [hread] at hinfo; cases hinfo
  | ok read =>
    rw [hread] at hinfo
    exact ⟨info, by rw [Option.some.inj hinfo], hfile⟩

theorem SourcePath.path_of_declaration? {s : SourcePath} (h : s.declaration? c fs = some file) :
    file.path = s.output := by
  obtain ⟨info, -, hfile⟩ := declaration?_eq_some h
  exact Catalog.path_of_outputFor? hfile

-- ---------------------------------------------------------------------------
-- Writing one file after another
-- ---------------------------------------------------------------------------

theorem cwd_of_writeOutput {u : Unit} (h : writeOutput c file fs = .ok u after) :
    after.cwd = fs.cwd := by
  obtain ⟨mid, hmid, hwrite⟩ := grows_of_writeOutput h
  exact (grows_write hwrite).cwd.trans hmid.cwd

theorem read_of_writeOutput {u : Unit} (h : writeOutput c file fs = .ok u after) :
    after.read (join c.outputDir file.path) = .ok (.text file.contents) := by
  obtain ⟨mid, -, hwrite⟩ := grows_of_writeOutput h
  exact read_of_write hwrite

/-- What is read at a path is read there until something else is written at its place. -/
theorem read_of_writeOutput_of_read {u : Unit} (h : writeOutput c file fs = .ok u after)
    (hread : fs.read path = .ok contents)
    (hsame : c.placeOf fs file.path = fs.locationOf path → .text file.contents = contents) :
    after.read path = .ok contents := by
  obtain ⟨mid, hmid, hwrite⟩ := grows_of_writeOutput h
  obtain ⟨hlocate, hfile⟩ := read_eq_ok_iff.1 hread
  refine read_of_write_of_read hwrite (hmid.read hlocate hfile) fun hplace => hsame ?_
  rwa [locationOf_congr hmid.cwd, locationOf_congr hmid.cwd] at hplace

theorem read_of_forM_of_read (h : outputs.forM (writeOutput c) fs = .ok () after)
    (hread : fs.read path = .ok contents)
    (hsame : ∀ other ∈ outputs, c.placeOf fs other.path = fs.locationOf path →
      .text other.contents = contents) :
    after.read path = .ok contents := by
  induction outputs generalizing fs with
  | nil =>
    cases h
    exact hread
  | cons first outputs ih =>
    obtain ⟨_, mid, hfirst, h⟩ := bind_eq_ok.1 h
    rw [List.forall_mem_cons] at hsame
    refine ih h (read_of_writeOutput_of_read hfirst hread hsame.1) fun other hother hplace => ?_
    have hcwd := cwd_of_writeOutput hfirst
    rw [placeOf_congr hcwd, locationOf_congr hcwd] at hplace
    exact hsame.2 other hother hplace

/-- A file is as it was written when all that is written at its place is the same. -/
theorem read_of_forM (h : outputs.forM (writeOutput c) fs = .ok () after) (hfile : file ∈ outputs)
    (hsame : ∀ other ∈ outputs, c.placeOf fs other.path = c.placeOf fs file.path →
      other.contents = file.contents) :
    after.read (join c.outputDir file.path) = .ok (.text file.contents) := by
  induction outputs generalizing fs with
  | nil => cases hfile
  | cons first outputs ih =>
    obtain ⟨_, mid, hfirst, hlater⟩ := bind_eq_ok.1 h
    rw [List.forall_mem_cons] at hsame
    have hcwd := cwd_of_writeOutput hfirst
    have hrest (other : OutputFile) (hother : other ∈ outputs)
        (hplace : c.placeOf mid other.path = c.placeOf mid file.path) :
        other.contents = file.contents := by
      rw [placeOf_congr hcwd, placeOf_congr hcwd] at hplace
      exact hsame.2 other hother hplace
    rcases List.mem_cons.1 hfile with rfl | hfile
    · exact read_of_forM_of_read hlater (read_of_writeOutput hfirst) fun other hother hplace =>
        congrArg _ (hrest other hother hplace)
    · exact ih hlater hfile hrest

-- ---------------------------------------------------------------------------
-- Copying hand-written declarations
-- ---------------------------------------------------------------------------

/-- What each of several steps keeps is kept by all of them. -/
theorem Step.of_mapM {α β : Type} {P : FileSystem → Prop} {f : α → Step β} {xs : List α}
    {bs : List β} (hstep : ∀ x fs b after, f x fs = .ok b after → P fs → P after)
    (h : xs.mapM f fs = .ok bs after) (hfs : P fs) : P after := by
  induction xs generalizing fs bs with
  | nil =>
    cases h
    exact hfs
  | cons x xs ih =>
    rw [List.mapM_cons] at h
    obtain ⟨b, mid, hfirst, h⟩ := bind_eq_ok.1 h
    obtain ⟨bs', _, hrest, hpure⟩ := bind_eq_ok.1 h
    cases hpure
    exact ih hrest (hstep x fs b mid hfirst hfs)

theorem hasDir_of_copyEntry {location : List String} {fuel count : Nat} {src dest : String}
    {e : Entry} (h : copyEntry fuel src dest e fs = .ok count after) (hdir : fs.HasDir location) :
    after.HasDir location := by
  induction fuel generalizing src dest e count fs after with
  | zero => cases h
  | succ fuel ih =>
    cases e with
    | file copied =>
      obtain ⟨-, copied, -, hwrite⟩ := copyEntry_file h
      exact (grows_write hwrite).dirs location hdir
    | dir d =>
      obtain ⟨listed, mid, counts, -, hmade, hcopied, -⟩ := copyEntry_dir h
      have hmid := (grows_makeDirs fs dest).dirs location hdir
      rw [hmade] at hmid
      exact Step.of_mapM (fun _ _ _ _ hcopy hdir => ih hcopy hdir) hcopied hmid

/-- The path of a copy leads out of directories only, once it is made. -/
theorem hasDir_exits_of_copyTree {count : Nat} {src dest : String} (hne : dest ≠ "")
    (h : copyTree src dest fs = .ok count after) : ∀ exit ∈ fs.exitsOf dest, after.HasDir exit := by
  intro exit hexit
  obtain ⟨entry, -, hcopy⟩ := copyTree_eq_ok h
  cases entry with
  | file copied =>
    obtain ⟨-, copied, -, hwrite⟩ := copyEntry_file hcopy
    have hwalk := (ok_of_checkPath (locate_of_write hwrite)).2
    exact (grows_write hwrite).dirs exit (hasDir_exits_of_walkFrom hwalk exit hexit)
  | dir d =>
    obtain ⟨listed, mid, counts, -, hmade, hcopied, -⟩ := copyEntry_dir hcopy
    have hmid : mid.HasDir exit := hasDir_exits_of_makeDirs hne hmade exit hexit
    exact Step.of_mapM (fun _ _ _ _ hcopy hdir => hasDir_of_copyEntry hcopy hdir) hcopied hmid

/-- Either nothing is copied, or the way to the copy is made. -/
theorem exits_of_copyAllPatches {count : Nat} (hwf : fs.WellFormed)
    (h : copyAllPatches c fs = .ok count after) :
    after = fs ∨ ∀ exit ∈ fs.exitsOf c.outputDir, after.HasDir exit := by
  rw [copyAllPatches] at h
  cases hdir : c.patchDir with
  | none =>
    simp only [hdir] at h
    cases h
    exact .inl rfl
  | some dir =>
    simp only [hdir] at h
    cases hpatches : fs.directory? dir with
    | none =>
      rw [copyPatches, Step.get_bind] at h
      simp only [isDir, hpatches] at h
      cases h
      exact .inl rfl
    | some d =>
      obtain ⟨mid, hremoved, hcopy⟩ := copyPatches_of_isSome hpatches h
      have hcwd : mid.cwd = fs.cwd := by
        rcases hremoved with ⟨-, rfl⟩ | hremoved
        · rfl
        · exact (cleared_of_removeTree hwf rfl hremoved).cwd
      refine .inr fun exit hexit => hasDir_exits_of_copyTree (by simp) hcopy exit ?_
      rwa [exitsOf_append_slash patchTarget_ne_empty, patchTarget,
        exitsOf_join_name isName_patches, exitsOf_congr hcwd]

/-- Replacing the copy of the hand-written declarations changes nothing that is read beside it. The
way there may lead through what was replaced, but then it is made again. -/
theorem read_of_copyAllPatches {count : Nat} {inner : String} (hwf : fs.WellFormed)
    (hdown : LeadsDown inner)
    (hbeside : c.patchDir.isSome →
      ¬ patchLocation (fs.locationOf c.outputDir) <+: c.placeOf fs inner)
    (h : copyAllPatches c fs = .ok count after)
    (hread : fs.read (join c.outputDir inner) = .ok contents) :
    after.read (join c.outputDir inner) = .ok contents := by
  obtain ⟨hlocate, hfile⟩ := read_eq_ok_iff.1 hread
  rcases exits_of_copyAllPatches hwf h with rfl | hway
  · exact hread
  have hspares := @spares_copyAllPatches fs c hwf
  rw [leaves_of_ok h] at hspares
  have hfile' : after.fileAt? (fs.locationOf (join c.outputDir inner)) = some contents :=
    (hspares.files _ fun ⟨⟨_, hdir, _⟩, hp⟩ => hbeside (Option.isSome_of_mem hdir) hp.1).trans hfile
  rw [read_eq_ok_iff, locationOf_congr hspares.cwd]
  refine ⟨?_, hfile'⟩
  rw [← hlocate]
  refine (locate_congr hspares.cwd (fun exit hexit => ?_) ?_ ?_ ?_).symm
  · refine ⟨hasDir_exits_of_walkFrom (ok_of_checkPath hlocate).2 exit hexit, hway exit ?_⟩
    rwa [exitsOf_join hdown.1 hdown.2] at hexit
  · rw [fileAt?_eq_some_iff.1 hfile, Option.isSome_some]
  · rw [fileAt?_eq_some_iff.1 hfile', Option.isSome_some]
  · rw [HasDir, HasDir, fileAt?_eq_some_iff.1 hfile, fileAt?_eq_some_iff.1 hfile']

-- ---------------------------------------------------------------------------
-- Places and the files that they are for
-- ---------------------------------------------------------------------------

/-- The place of a plain path tells the path. -/
theorem eq_of_placeOf {other : String} (h : Plain path) (hother : Plain other)
    (heq : c.placeOf fs path = c.placeOf fs other) : path = other := by
  have hplace {path : String} (h : Plain path) :
      c.placeOf fs path = fs.locationOf c.outputDir ++ names (steps path) := by
    rw [RunConfig.placeOf, locationOf_join h.leadsDown.1, resolve_of_down h.leadsDown.2]
  rw [hplace h, hplace hother] at heq
  exact h.eq_of_names hother (List.append_cancel_left heq)

theorem plain_of_mem_discover (h : discover c fs = .ok sources start) {s : SourcePath}
    (hs : s ∈ sources) : Plain s.output := by
  obtain ⟨dir, found, hfound, hs⟩ := exists_of_mem_discover h hs
  obtain ⟨d, names, -, -, rfl⟩ := mem_sourcePaths hfound hs
  exact ModulePath.plain_ofSource _

theorem Path.ne_of_mem_steps {x : Component} (h : x ∈ steps path) : x ≠ .root ∧ x ≠ .current := by
  obtain ⟨s, -, hs⟩ := List.mem_filterMap.1 h
  rcases component?_cases s with hcase | hcase | hcase
  · rw [hcase] at hs
    cases hs
  · rw [hcase] at hs
    cases hs
    exact ⟨nofun, nofun⟩
  · rw [hcase] at hs
    cases hs
    exact ⟨nofun, nofun⟩

theorem Path.filter_components (path : String) :
    (components path).filter (fun x => x ≠ .root ∧ x ≠ .current) = steps path := by
  have hsteps : (steps path).filter (fun x => x ≠ .root ∧ x ≠ .current) = steps path :=
    List.filter_eq_self.2 fun x hx => decide_eq_true (ne_of_mem_steps hx)
  rw [components]
  split
  · rw [List.filter_cons_of_neg (by simp)]
    exact hsteps
  · split
    · rw [List.filter_cons_of_neg (by simp)]
      exact hsteps
    · exact hsteps

theorem Path.head?_components (path : String) :
    (components path).head? = some .root ↔ isAbsolute path = true := by
  rw [components]
  split
  · simp_all
  · rename_i habsolute
    refine iff_of_false ?_ habsolute
    split
    · simp
    · exact fun h => (ne_of_mem_steps (List.mem_of_head? h)).1 rfl

/-- Paths with the same components lead to the same location. -/
theorem locationOf_of_components {other : String} (h : components path = components other) :
    fs.locationOf path = fs.locationOf other := by
  have habsolute : isAbsolute path = isAbsolute other := by
    rw [Bool.eq_iff_iff, ← head?_components, ← head?_components, h]
  rw [locationOf, locationOf, FileSystem.start, FileSystem.start, habsolute, ← filter_components,
    ← filter_components, h]

theorem readJava_eq_ok {config : ReadingConfig} {info : FileInfo}
    (h : fs.readJava config path = .ok info) :
    ∃ text, fs.fileAt? (fs.locationOf path) = some (.text text) ∧
      info = FileInfo.ofText config path text := by
  rw [readJava, readSource] at h
  cases hsize : fs.size path with
  | error e => rw [hsize] at h; cases h
  | ok size =>
    simp only [hsize] at h
    split at h
    · cases h
    · cases htext : fs.readText path with
      | error e => rw [htext] at h; cases h
      | ok text =>
        rw [htext] at h
        refine ⟨text, ?_, (Except.ok.inj h).symm⟩
        rw [readText] at htext
        cases hread : fs.read path with
        | error e => rw [hread] at htext; cases htext
        | ok contents =>
          rw [hread] at htext
          rw [(read_eq_ok_iff.1 hread).2]
          cases contents with
          | text s => rw [Except.ok.inj htext]
          | bytes raw => cases htext

/-- Two paths of one Java file give the same declaration file at the same place. -/
theorem SourcePath.declaration?_unique {s t : SourcePath} {file other : OutputFile}
    (hpath : components s.path = components t.path) (houtput : s.output = t.output)
    (hfile : s.declaration? c fs = some file) (hother : t.declaration? c fs = some other) :
    file = other := by
  obtain ⟨info, hread, hfile⟩ := declaration?_eq_some hfile
  obtain ⟨info', hread', hother⟩ := declaration?_eq_some hother
  obtain ⟨text, htext, rfl⟩ := readJava_eq_ok hread
  obtain ⟨text', htext', rfl⟩ := readJava_eq_ok hread'
  rw [locationOf_of_components hpath, htext'] at htext
  cases htext
  rw [houtput] at hfile
  exact Option.some.inj (hfile.symm.trans hother)

-- ---------------------------------------------------------------------------
-- Runs
-- ---------------------------------------------------------------------------

theorem spares_discover (hwf : fs.WellFormed) (h : discover c fs = .ok sources start) :
    Spares (c.Cleans fs) fs start := by
  obtain ⟨⟨cleaned, hprepare⟩, -⟩ := discover_eq_ok h
  have hspares := @spares_prepare fs c hwf
  rwa [leaves_of_ok hprepare] at hspares

theorem exists_isDir_of_mem_discover (h : discover c fs = .ok sources start) {s : SourcePath}
    (hs : s ∈ sources) : ∃ dir ∈ c.sourceDirs, fs.isDir dir = true := by
  obtain ⟨-, found, hfound, rfl⟩ := discover_eq_ok h
  obtain ⟨inner, hinner, -⟩ := List.mem_flatten.1 hs
  obtain ⟨dir, hdir, -⟩ := exists_of_mem_mapM hfound hinner
  obtain ⟨hmem, hisDir⟩ := List.mem_filter.1 hdir
  exact ⟨dir, hmem, hisDir⟩

/-- The declaration file of a Java file is at its own place after a run, if no other Java file, nor
the index, the hooks file or the copy of the hand-written declarations, has that place, and the
source directory that gives it the place is the last one that holds the Java file. -/
theorem run_places_declaration {r : Report} {s : SourcePath} (hwf : fs.WellFormed)
    (h : run c fs = .ok r after) (hdiscover : discover c fs = .ok sources start)
    (hs : s ∈ sources) (hlast : outputFor? sources s.path = some s.output)
    (hown : ∀ t ∈ sources, t.output = s.output → components t.path = components s.path)
    (hindex : c.placeOf fs s.output ≠ c.placeOf fs c.indexFile)
    (hhooks : c.placeOf fs s.output ≠ c.placeOf fs c.hooksFile)
    (hpatches : c.patchDir.isSome →
      ¬ patchLocation (fs.locationOf c.outputDir) <+: c.placeOf fs s.output)
    (hfile : s.declaration? c start = some file) :
    after.read (join c.outputDir s.output) = .ok (.text file.contents) := by
  obtain ⟨_, start', sources', written, _, -, hdiscover', hwritten, hcopied, -⟩ :=
    run_stages h (exists_isDir_of_mem_discover hdiscover hs)
  obtain ⟨rfl, rfl⟩ : sources = sources' ∧ start = start' := by
    simpa [hdiscover] using hdiscover'
  rw [planOf_outputs] at hwritten
  have hplain := plain_of_mem_discover hdiscover hs
  have hstart := spares_discover hwf hdiscover
  have hspares := spares_writeOutputs c start
    (declarationFiles c start sources ++ (catalogOf c start sources).finish)
  rw [leaves_of_ok hwritten] at hspares
  have hcwd : written.cwd = fs.cwd := hspares.cwd.trans hstart.cwd
  refine read_of_copyAllPatches (hspares.wellFormed (hstart.wellFormed hwf)) hplain.leadsDown
    (by rwa [locationOf_congr hcwd, placeOf_congr hcwd]) hcopied ?_
  rw [← SourcePath.path_of_declaration? hfile]
  refine read_of_forM hwritten (List.mem_append_left _ ?_) fun other hother hplace => ?_
  · exact List.mem_filterMap.2 ⟨s, hs, by rw [hlast]; exact hfile⟩
  rw [placeOf_congr hstart.cwd, placeOf_congr hstart.cwd,
    SourcePath.path_of_declaration? hfile] at hplace
  rcases List.mem_append.1 hother with hother | hother
  · -- only the same Java file has the same place
    obtain ⟨t, -, hother⟩ := List.mem_filterMap.1 hother
    obtain ⟨output, houtput, hother⟩ := Option.bind_eq_some_iff.1 hother
    obtain ⟨u, hu, hcomponents, rfl⟩ := mem_of_outputFor? houtput
    rw [SourcePath.path_of_declaration? hother] at hplace
    have hsame := eq_of_placeOf (plain_of_mem_discover hdiscover hu) hplain hplace
    have hpath := hcomponents.symm.trans (hown u hu hsame)
    rw [SourcePath.declaration?_unique (s := ⟨t.path, u.output⟩) hpath hsame hother hfile]
  · rw [Catalog.finish, List.mem_pair] at hother
    rcases hother with rfl | rfl
    · rw [path_indexFile_catalogOf] at hplace
      exact absurd hplace.symm hindex
    · rw [path_hooksFile_catalogOf] at hplace
      exact absurd hplace.symm hhooks

/-- A source directory inside another one. -/
def overlappingFiles : FileSystem where
  root :=
    .sub "hand" (.file "x.d.ts" (.text "mine") .empty)
      (.sub "src" (.sub "a" (.file "B.java" (.text "public class B{}") .empty) .empty) .empty)

def overlappingConfig : RunConfig where
  sourceDirs := ["src", "src/a"]
  outputDir := "out"
  patchDir := some "hand"
  hookReferences := []

/-- The Java file is found below both source directories. Its declaration file is at the place that
the second one gives, and at that of the first one there is nothing. -/
theorem run_places_declaration_overlappingFiles :
    overlappingFiles.WellFormed ∧ overlappingConfig.Valid ∧
      ∃ r after file,
        discover overlappingConfig overlappingFiles =
          .ok [⟨"src/a/B.java", "a/B.d.ts"⟩, ⟨"src/a/B.java", "B.d.ts"⟩] overlappingFiles ∧
        run overlappingConfig overlappingFiles = .ok r after ∧ r.written = 2 ∧
        SourcePath.declaration? overlappingConfig overlappingFiles ⟨"src/a/B.java", "B.d.ts"⟩ =
          some file ∧
        after.read "out/B.d.ts" = .ok (.text file.contents) ∧
        after.pathExists "out/a/B.d.ts" = false := by
  have hwf : overlappingFiles.WellFormed := by decide +kernel
  have hdiscover : discover overlappingConfig overlappingFiles =
      .ok [⟨"src/a/B.java", "a/B.d.ts"⟩, ⟨"src/a/B.java", "B.d.ts"⟩] overlappingFiles := by
    decide +kernel
  obtain ⟨file, hfile⟩ : ∃ file,
      SourcePath.declaration? overlappingConfig overlappingFiles ⟨"src/a/B.java", "B.d.ts"⟩ =
        some file :=
    Option.isSome_iff_exists.1 (by decide +kernel)
  have hresult : (match run overlappingConfig overlappingFiles with
      | .ok r after => some (r.written, after.pathExists "out/a/B.d.ts")
      | .error _ _ => none) = some (2, false) := by
    decide +kernel
  cases hrun : run overlappingConfig overlappingFiles with
  | error e fs => rw [hrun] at hresult; cases hresult
  | ok r after =>
    rw [hrun] at hresult
    obtain ⟨hcount, hmissing⟩ := Prod.mk.inj (Option.some.inj hresult)
    have hread := run_places_declaration hwf hrun hdiscover (by decide) (by decide +kernel)
      (by decide +kernel) (by decide +kernel) (by decide +kernel) (by decide +kernel) hfile
    have hpath : join overlappingConfig.outputDir "B.d.ts" = "out/B.d.ts" := by decide +kernel
    rw [hpath] at hread
    exact ⟨hwf, by decide, r, after, file, hdiscover, rfl, hcount, hfile, hread, hmissing⟩

end Typings
