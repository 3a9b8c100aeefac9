import Typings.Proofs.Run.Placement

/-!
# What a run does to its inputs

A run, whether it succeeds or fails, changes no file but those that it cleans, those that it writes,
and those in the copy of the hand-written declarations, if it gets to copy some. So it leaves its
inputs as they are, unless they lie at one of those locations. A Java file is never taken for an
earlier declaration. Nothing is said about hand-written declarations that are kept in the place of
their own copy. Main statement: `run_keeps_inputs`.
-/

namespace Typings

open Typings.FileSystem Typings.Path Typings.Step

variable {touched : List String → Prop} {above location : List String} {c : RunConfig}
  {fs start declared after : FileSystem} {sources : List SourcePath} {name : String}

-- ---------------------------------------------------------------------------
-- Places
-- ---------------------------------------------------------------------------

/-- Whether a run has something to do: its configuration can be used, and a source directory is
there. -/
def RunConfig.Starts (c : RunConfig) (fs : FileSystem) : Prop :=
  c.Valid ∧ ∃ dir ∈ c.sourceDirs, fs.isDir dir = true

/-- Whether a run finds its Java files and gets to write a file for them. -/
def RunConfig.Writes (c : RunConfig) (fs : FileSystem) (file : OutputFile) : Prop :=
  ∃ sources start, discover c fs = .ok sources start ∧
    c.GetsTo start (planOf c start sources).outputs file

/-- Whether a run writes all its files and then finds a directory of hand-written declarations. -/
def RunConfig.Copies (c : RunConfig) (fs : FileSystem) : Prop :=
  ∃ sources start written, discover c fs = .ok sources start ∧
    (planOf c start sources).outputs.forM (writeOutput c) start = .ok () written ∧
    ∃ dir ∈ c.patchDir, written.isDir dir = true

/-- The locations of what a run takes for declarations that it has generated before: files that it
cleans, and those in the places of the declaration files that it writes. -/
def RunConfig.Regenerates (c : RunConfig) (fs : FileSystem) (location : List String) : Prop :=
  c.Starts fs ∧ (c.Cleans fs location ∨ ∃ file, c.Writes fs file ∧
    file.path ∉ [c.indexFile, c.hooksFile] ∧ location = c.placeOf fs file.path)

/-- The locations of what a run replaces whatever it is: those of the index and of the hooks file,
if it writes them, and of what lies in the copy of the hand-written declarations. -/
def RunConfig.Replaces (c : RunConfig) (fs : FileSystem) (location : List String) : Prop :=
  c.Starts fs ∧ ((∃ file, c.Writes fs file ∧
      file.path ∈ [c.indexFile, c.hooksFile] ∧ location = c.placeOf fs file.path) ∨
    c.Copies fs ∧ LiesIn (patchLocation (fs.locationOf c.outputDir)) location)

-- ---------------------------------------------------------------------------
-- Runs
-- ---------------------------------------------------------------------------

theorem spares_findSources (roots : List String) (fs : FileSystem) :
    Spares touched fs ((findSources roots).leaves fs) := by
  rw [findSources, leaves_get_bind]
  cases roots.mapM fs.sourcePaths with
  | error e => exact .refl touched fs
  | ok found => exact .refl touched fs

/-- Once it has prepared, a run touches the places of the files that get written, and what lies in
the copy of the hand-written declarations, if it gets to copy some. -/
theorem spares_generateFrom {roots : List String} {cleaned : Nat} (hwf : fs.WellFormed)
    (hwritten : ∀ sources file, findSources roots fs = .ok sources fs →
      c.GetsTo fs (planOf c fs sources).outputs file → touched (c.placeOf fs file.path))
    (hcopied : ∀ sources written, findSources roots fs = .ok sources fs →
      (planOf c fs sources).outputs.forM (writeOutput c) fs = .ok () written →
      (∃ dir ∈ c.patchDir, written.isDir dir = true) →
      ∀ location, LiesIn (patchLocation (fs.locationOf c.outputDir)) location → touched location) :
    Spares touched fs ((generateFrom c roots cleaned).leaves fs) := by
  rw [generateFrom_eq]
  refine leaves_bind (R := Spares _) Spares.trans (spares_findSources roots fs)
    fun sources mid hfound _ => ?_
  obtain rfl := (findSources_eq_ok hfound).1
  rw [leaves_get_bind]
  refine leaves_bind (R := Spares _) Spares.trans ?_ fun u written houtputs hmid => ?_
  · refine (spares_writeOutputs c mid _).mono ?_
    rintro _ ⟨file, hfile, rfl⟩
    exact hwritten sources file hfound hfile
  refine leaves_bind (R := Spares _) Spares.trans ?_ fun patches after _ _ => .refl _ after
  refine (spares_copyAllPatches (hmid.wellFormed hwf)).mono fun location h => ?_
  rw [locationOf_congr hmid.cwd] at h
  exact hcopied sources written hfound houtputs h.1 location h.2

/-- A run, whether it succeeds or fails, changes no file but at the locations of what it generates
again and of what it replaces. -/
theorem spares_run (hwf : fs.WellFormed) :
    Spares (fun location => c.Regenerates fs location ∨ c.Replaces fs location) fs
      ((run c).leaves fs) := by
  rw [run]
  cases hfault : c.fault? with
  | some fault => exact .refl _ fs
  | none =>
    dsimp only
    rw [leaves_get_bind]
    cases hroots : c.sourceDirs.filter fs.isDir with
    | nil => exact .refl _ fs
    | cons dir roots =>
      have hmem : dir ∈ c.sourceDirs.filter fs.isDir := hroots ▸ List.mem_cons_self
      have hstarts : c.Starts fs := ⟨hfault, dir, List.mem_filter.1 hmem⟩
      show Spares _ fs (leaves (generate c (dir :: roots)) fs)
      rw [generate_eq]
      refine leaves_bind (R := Spares _) Spares.trans
        ((spares_prepare hwf).mono fun _ h => .inl ⟨hstarts, .inl h⟩)
        fun cleaned start hprepare hstart => ?_
      have hdiscover {sources} (hfound : findSources (dir :: roots) start = .ok sources start) :
          discover c fs = .ok sources start := by
        rw [discover, Step.get_bind, hroots]
        exact Step.bind_eq_ok.2 ⟨cleaned, start, hprepare, hfound⟩
      refine spares_generateFrom (hstart.wellFormed hwf) (fun sources file hfound hfile => ?_)
        fun sources written hfound hwritten hdir location hlocation => ?_
      · have hwrites : c.Writes fs file := ⟨sources, start, hdiscover hfound, hfile⟩
        rw [placeOf_congr hstart.cwd]
        by_cases hlist : file.path ∈ [c.indexFile, c.hooksFile]
        · exact .inr ⟨hstarts, .inl ⟨file, hwrites, hlist, rfl⟩⟩
        · exact .inl ⟨hstarts, .inr ⟨file, hwrites, hlist, rfl⟩⟩
      · rw [locationOf_congr hstart.cwd] at hlocation
        exact .inr ⟨hstarts, .inr ⟨⟨sources, start, written, hdiscover hfound, hwritten, hdir⟩,
          hlocation⟩⟩

-- ---------------------------------------------------------------------------
-- Inputs
-- ---------------------------------------------------------------------------

/-- Whether a location is that of a Java file, by the ending of its name. -/
def IsJavaLocation (location : List String) : Prop :=
  location.getLast?.any (fun name => Text.endsWith ".java".toList name.toList) = true

instance (location : List String) : Decidable (IsJavaLocation location) :=
  inferInstanceAs (Decidable (_ = true))

/-- Whether a location is that of a Java file below a source directory. -/
def RunConfig.IsSource (c : RunConfig) (fs : FileSystem) (location : List String) : Prop :=
  (∃ dir ∈ c.sourceDirs, fs.locationOf dir <+: location) ∧ IsJavaLocation location

/-- Whether a location is below the directory of hand-written declarations, unless they are kept in
the place of their own copy. -/
def RunConfig.IsHandWritten (c : RunConfig) (fs : FileSystem) (location : List String) : Prop :=
  ∃ dir ∈ c.patchDir, fs.locationOf dir <+: location ∧
    ¬ patchLocation (fs.locationOf c.outputDir) <+: fs.locationOf dir

/-- No Java file has the ending of declaration files. -/
theorem not_isJavaLocation_concat {text : Text}
    (hname : name.toList = text ++ ModulePath.extension.toList) :
    ¬ IsJavaLocation (above ++ [name]) := by
  rw [IsJavaLocation, List.getLast?_concat, Option.any_some, Text.endsWith_eq_true_iff]
  rintro ⟨stem, hstem⟩
  have hlast := congrArg List.getLast? (hstem.trans hname)
  simp [ModulePath.extension] at hlast

theorem not_isJavaLocation_of_cleans (h : c.Cleans fs location) : ¬ IsJavaLocation location := by
  obtain ⟨-, -, ⟨below, rfl⟩, hcleaned⟩ := h
  rw [List.drop_left, RunConfig.isCleanedAt, Option.any_eq_true] at hcleaned
  obtain ⟨name, hlast, hcleaned⟩ := hcleaned
  obtain ⟨⟨stem, rfl⟩, -⟩ := RunConfig.isCleaned_iff.1 hcleaned
  obtain ⟨inner, rfl⟩ := List.getLast?_eq_some_iff.1 hlast
  rw [← List.append_assoc]
  exact not_isJavaLocation_concat (String.toList_append ..)

/-- The place of a declaration file has the ending of declaration files. -/
theorem not_isJavaLocation_placeOf (source : String) :
    ¬ IsJavaLocation (c.placeOf fs (ModulePath.ofSource source)) := by
  obtain ⟨init, last, hsegments, -⟩ := ModulePath.segments_ofSource source
  have hplain := ModulePath.plain_ofSource source
  rw [RunConfig.placeOf, locationOf_join hplain.leadsDown.1, resolve_of_down hplain.leadsDown.2,
    hplain.names_steps, hsegments, List.map_append, ← List.append_assoc]
  exact not_isJavaLocation_concat String.toList_ofList

theorem mem_of_getsTo {outputs : List OutputFile} {file : OutputFile}
    (h : c.GetsTo fs outputs file) : file ∈ outputs := by
  obtain ⟨earlier, -, hprefix, -⟩ := h
  exact hprefix.subset (List.mem_append_right _ (List.mem_singleton_self file))

/-- What a run writes beside the index and the hooks file are declaration files. -/
theorem exists_ofSource_of_writes {file : OutputFile} (h : c.Writes fs file)
    (hlist : file.path ∉ [c.indexFile, c.hooksFile]) :
    ∃ source, file.path = ModulePath.ofSource source := by
  obtain ⟨sources, start, hdiscover, hgets⟩ := h
  have hmem := mem_of_getsTo hgets
  rw [planOf_outputs, List.mem_append] at hmem
  rcases hmem with hmem | hmem
  · obtain ⟨t, -, hfile⟩ := List.mem_filterMap.1 hmem
    obtain ⟨output, houtput, hfile⟩ := Option.bind_eq_some_iff.1 hfile
    obtain ⟨s, hs, -, rfl⟩ := mem_of_outputFor? houtput
    obtain ⟨dir, found, hfound, hs⟩ := exists_of_mem_discover hdiscover hs
    obtain ⟨d, names, -, -, rfl⟩ := mem_sourcePaths hfound hs
    exact ⟨_, SourcePath.path_of_declaration? hfile⟩
  · rw [Catalog.finish, List.mem_pair] at hmem
    rcases hmem with rfl | rfl <;> simp at hlist

/-- No Java file is taken for a declaration. -/
theorem not_regenerates_of_isJavaLocation (hjava : IsJavaLocation location) :
    ¬ c.Regenerates fs location := by
  rintro ⟨-, hcleans | ⟨file, hwrites, hlist, rfl⟩⟩
  · exact not_isJavaLocation_of_cleans hcleans hjava
  · obtain ⟨source, hpath⟩ := exists_ofSource_of_writes hwrites hlist
    rw [hpath] at hjava
    exact not_isJavaLocation_placeOf source hjava

/-- A run, whether it succeeds or fails, leaves every hand-written declaration and every Java file
as it is, unless it replaces what lies there by the index, the hooks file or the copy of the
hand-written declarations, or takes a hand-written declaration for one that was generated before. -/
theorem run_keeps_inputs {contents : Contents} (hwf : fs.WellFormed)
    (hfile : fs.fileAt? location = some contents)
    (hinput : c.IsHandWritten fs location ∧ ¬ c.Regenerates fs location ∨ c.IsSource fs location)
    (hfree : ¬ c.Replaces fs location) :
    ((run c).leaves fs).fileAt? location = some contents := by
  have hkept : ¬ c.Regenerates fs location := by
    rcases hinput with ⟨-, hkept⟩ | ⟨-, hjava⟩
    · exact hkept
    · exact not_regenerates_of_isJavaLocation hjava
  rw [(spares_run hwf).files location (by simp [hkept, hfree]), hfile]

/-- An output directory that holds the source directory, the hand-written declarations and an
earlier declaration. -/
def nestedFiles : FileSystem where
  root :=
    .sub "out"
      (.file "Old.d.ts" (.text "old")
        (.sub "hand" (.file "notes.txt" (.text "mine") .empty)
          (.sub "java"
            (.file "A.java" (.bytes [255]) (.file "B.java" (.text "public class B{}") .empty))
            .empty)))
      .empty

def nestedConfig : RunConfig where
  sourceDirs := ["out/java"]
  outputDir := "out"
  cleanOutput := true
  patchDir := some "out/hand"
  hookReferences := []

/-- The files of `nestedFiles` after cleaning. -/
def nestedCleaned : FileSystem where
  root :=
    .sub "out"
      (.sub "hand" (.file "notes.txt" (.text "mine") .empty)
        (.sub "java"
          (.file "A.java" (.bytes [255]) (.file "B.java" (.text "public class B{}") .empty))
          .empty))
      .empty

theorem run_keeps_inputs_nestedFiles :
    nestedFiles.WellFormed ∧ nestedConfig.Valid ∧
      (∃ r after, run nestedConfig nestedFiles = .ok r after ∧
        r.cleaned = 1 ∧ r.written = 1 ∧ r.patches = 1) ∧
      ((run nestedConfig).leaves nestedFiles).fileAt? ["out", "java", "A.java"] =
        some (.bytes [255]) ∧
      ((run nestedConfig).leaves nestedFiles).fileAt? ["out", "hand", "notes.txt"] =
        some (.text "mine") := by
  have hwf : nestedFiles.WellFormed := by decide +kernel
  have hdiscover : discover nestedConfig nestedFiles =
      .ok [⟨"out/java/A.java", "A.d.ts"⟩, ⟨"out/java/B.java", "B.d.ts"⟩] nestedCleaned := by
    decide +kernel
  have hnotes : ¬ nestedConfig.Regenerates nestedFiles ["out", "hand", "notes.txt"] := by
    rintro ⟨-, ⟨-, -, -, hcleaned⟩ | ⟨file, ⟨sources, start, hfound, hgets⟩, -, hplace⟩⟩
    · exact absurd hcleaned (by decide +kernel)
    · rw [hdiscover] at hfound
      cases hfound
      have hplaces : ∀ file ∈ (planOf nestedConfig nestedCleaned
          [⟨"out/java/A.java", "A.d.ts"⟩, ⟨"out/java/B.java", "B.d.ts"⟩]).outputs,
          ["out", "hand", "notes.txt"] ≠ nestedConfig.placeOf nestedFiles file.path := by
        decide +kernel
      exact hplaces file (mem_of_getsTo hgets) hplace
  have hreplaces (location : List String) (h : location ≠ ["out", "index.d.ts"] ∧
      location ≠ ["out", "hooks.d.ts"] ∧ ¬ LiesIn ["out", "patches"] location) :
      ¬ nestedConfig.Replaces nestedFiles location := by
    rintro ⟨-, ⟨file, -, hlist, hplace⟩ | ⟨-, hpatches⟩⟩
    · rw [List.mem_pair] at hlist
      rcases hlist with hpath | hpath
      · exact h.1 (hplace.trans (by rw [hpath]; decide +kernel))
      · exact h.2.1 (hplace.trans (by rw [hpath]; decide +kernel))
    · exact h.2.2 hpatches
  refine ⟨hwf, by decide, ?_, ?_, ?_⟩
  · have hcounts : (match run nestedConfig nestedFiles with
        | .ok r _ => some (r.cleaned, r.written, r.patches)
        | .error _ _ => none) = some (1, 1, 1) := by
      decide +kernel
    cases hrun : run nestedConfig nestedFiles with
    | error e fs => rw [hrun] at hcounts; cases hcounts
    | ok r after =>
      rw [hrun] at hcounts
      obtain ⟨hcleaned, hcounts⟩ := Prod.mk.inj (Option.some.inj hcounts)
      obtain ⟨hwritten, hpatches⟩ := Prod.mk.inj hcounts
      exact ⟨r, after, rfl, hcleaned, hwritten, hpatches⟩
  · exact run_keeps_inputs hwf (by decide +kernel)
      (.inr ⟨⟨"out/java", by decide, by decide +kernel⟩, by decide +kernel⟩)
      (hreplaces _ (by decide))
  · exact run_keeps_inputs hwf (by decide +kernel)
      (.inl ⟨⟨"out/hand", by decide, by decide +kernel, by decide +kernel⟩, hnotes⟩)
      (hreplaces _ (by decide))

/-- Whether a run with a configuration that can be used changes or removes the input at a
location. -/
def RunConfig.Destroys (c : RunConfig) (fs : FileSystem) (location : List String) : Prop :=
  c.Valid ∧ (c.IsHandWritten fs location ∨ c.IsSource fs location) ∧
    (fs.fileAt? location).isSome ∧ ((run c).leaves fs).fileAt? location ≠ fs.fileAt? location

/-- Inputs in and beside an output directory. -/
def exposedFiles : FileSystem where
  root :=
    .sub "hand" (.file "a.txt" (.text "mine") .empty)
      (.sub "out"
        (.sub "a" (.file "B.d.ts" (.text "mine") .empty)
          (.sub "patches" (.file "A.java" (.bytes [255]) .empty) .empty))
        (.sub "src"
          (.file "A.java" (.bytes [255])
            (.sub "a" (.file "B.java" (.text "public class B{}") .empty) .empty))
          .empty))

/-- Cleans the directory of hand-written declarations. -/
def cleaningConfig : RunConfig where
  sourceDirs := ["hand"]
  outputDir := "out"
  cleanOutput := true
  patchDir := some "out/a"
  hookReferences := []

/-- Writes declarations where there are hand-written ones. -/
def declaringConfig : RunConfig where
  sourceDirs := ["src"]
  outputDir := "out"
  patchDir := some "out/a"
  hookReferences := []

/-- Writes the index and the hooks file where there are Java files. -/
def listingConfig : RunConfig where
  sourceDirs := ["src"]
  outputDir := "out"
  indexFile := "../src/A.java"
  hooksFile := "../src/a/B.java"
  hookReferences := []

/-- Copies the hand-written declarations to where there are Java files. -/
def copyingConfig : RunConfig where
  sourceDirs := ["out"]
  outputDir := "out"
  patchDir := some "hand"
  hookReferences := []

/-- An input at any of the places that `run_keeps_inputs` leaves out may be lost. -/
theorem run_destroys_exposedFiles :
    exposedFiles.WellFormed ∧ cleaningConfig.Destroys exposedFiles ["out", "a", "B.d.ts"] ∧
      declaringConfig.Destroys exposedFiles ["out", "a", "B.d.ts"] ∧
      listingConfig.Destroys exposedFiles ["src", "A.java"] ∧
      listingConfig.Destroys exposedFiles ["src", "a", "B.java"] ∧
      copyingConfig.Destroys exposedFiles ["out", "patches", "A.java"] := by
  refine ⟨by decide +kernel, ⟨by decide, .inl ?_, by decide +kernel, by decide +kernel⟩,
    ⟨by decide, .inl ?_, by decide +kernel, by decide +kernel⟩,
    ⟨by decide, .inr ⟨?_, by decide +kernel⟩, by decide +kernel, by decide +kernel⟩,
    ⟨by decide, .inr ⟨?_, by decide +kernel⟩, by decide +kernel, by decide +kernel⟩,
    ⟨by decide, .inr ⟨?_, by decide +kernel⟩, by decide +kernel, by decide +kernel⟩⟩
  · exact ⟨"out/a", by decide, by decide +kernel, by decide +kernel⟩
  · exact ⟨"out/a", by decide, by decide +kernel, by decide +kernel⟩
  · exact ⟨"src", by decide, by decide +kernel⟩
  · exact ⟨"src", by decide, by decide +kernel⟩
  · exact ⟨"out", by decide, by decide +kernel⟩

end Typings
