import Typings.Proofs.Run.Cleaning
import Typings.Proofs.Run.Patching
import Typings.Proofs.Run.Sources

/-!
# Generating again

The files after a run that cleans first are told from the files before it: those to be cleaned are
gone, the planned ones are written over the rest, and the copy of the hand-written declarations
replaces what was in its place. What is written depends only on what lies apart from the output
directory, which a run does not change, and the way to the hand-written declarations is there in the
second run when it is in the first. So a second run leaves every file as it is.
-/

namespace Typings

open Typings.FileSystem Typings.Path

-- ---------------------------------------------------------------------------
-- Overlays
-- ---------------------------------------------------------------------------

/-- Whether a change of files decides at each location, whatever the files are, to leave the file
there or to set it. -/
def Overlay (change : (List String → Option Contents) → List String → Option Contents) : Prop :=
  ∀ location, (∀ files, change files location = files location) ∨
    ∃ contents, ∀ files, change files location = contents

namespace Overlay

variable {first second : (List String → Option Contents) → List String → Option Contents}
  {out : List String}

theorem comp (h : Overlay first) (h' : Overlay second) :
    Overlay fun files => second (first files) := by
  intro location
  rcases h' location with hkeeps | ⟨contents, hsets⟩
  · rcases h location with hkeeps' | ⟨contents, hsets⟩
    · exact .inl fun files => (hkeeps _).trans (hkeeps' files)
    · exact .inr ⟨contents, fun files => (hkeeps _).trans (hsets files)⟩
  · exact .inr ⟨contents, fun files => hsets _⟩

theorem withFile (location : List String) (contents : Contents) :
    Overlay fun files => FileSystem.withFile files location contents := by
  intro other
  by_cases h : other = location
  · exact .inr ⟨some contents, fun files => if_pos h⟩
  · exact .inl fun files => if_neg h

theorem withOutputs (outputs : List OutputFile) :
    Overlay fun files => Typings.withOutputs out files outputs := by
  induction outputs with
  | nil => exact fun location => .inl fun files => rfl
  | cons file outputs ih => exact (withFile _ _).comp ih

theorem patchedFiles (d : Directory) : Overlay (Typings.patchedFiles out d) := by
  intro location
  by_cases h : patchLocation out <+: location
  · exact .inr ⟨_, fun files => if_pos h⟩
  · exact .inl fun files => if_neg h

end Overlay

-- ---------------------------------------------------------------------------
-- The files after a run
-- ---------------------------------------------------------------------------

/-- The files that a run starts from, after cleaning. -/
def startingFiles (c : RunConfig) (fs : FileSystem) : List String → Option Contents :=
  if fs.isDir c.outputDir then cleanedFiles c (fs.locationOf c.outputDir) fs.fileAt? else fs.fileAt?

/-- The directory of hand-written declarations. -/
def RunConfig.patches? (c : RunConfig) (fs : FileSystem) : Option Directory :=
  c.patchDir.bind fs.directory?

/-- The files after the planned ones and the hand-written ones have been put in place. -/
def publishedFiles (out : List String) (plan : Plan) (patches : Option Directory)
    (files : List String → Option Contents) : List String → Option Contents :=
  match patches with
  | some d => patchedFiles out d (withOutputs out files plan.outputs)
  | none => withOutputs out files plan.outputs

theorem overlay_publishedFiles (out : List String) (plan : Plan) (patches : Option Directory) :
    Overlay (publishedFiles out plan patches) := by
  cases patches with
  | none => exact .withOutputs plan.outputs
  | some d => exact (Overlay.withOutputs plan.outputs).comp (.patchedFiles d)

/-- The directories that a run reads. -/
def RunConfig.inputDirs (c : RunConfig) : List String := c.sourceDirs ++ c.patchDir.toList

/-- Whether a run reads nothing at, below or above the output directory, and the paths of the source
directories and the output directory do not come to mean something else by what it changes: they
step up only out of directories that are there and not below the output directory. -/
structure RunConfig.Settled (c : RunConfig) (fs : FileSystem) : Prop where
  apart : ∀ dir ∈ c.inputDirs, Apart (fs.locationOf dir) (fs.locationOf c.outputDir)
  steady : ∀ dir ∈ c.outputDir :: c.sourceDirs, fs.Steady (fs.locationOf c.outputDir) dir
  index : LeadsDown c.indexFile
  hooks : LeadsDown c.hooksFile

namespace RunConfig.Settled

variable {c : RunConfig} {fs after : FileSystem} {dir : String}

theorem of_keeps (h : c.Settled fs) (hkeeps : Keeps (fs.locationOf c.outputDir) fs after) :
    c.Settled after where
  apart := by
    simp only [locationOf_congr hkeeps.cwd]
    exact h.apart
  steady dir hdir := by
    rw [locationOf_congr hkeeps.cwd]
    exact (h.steady dir hdir).of_keeps hkeeps
  index := h.index
  hooks := h.hooks

theorem output (h : c.Settled fs) : fs.Steady (fs.locationOf c.outputDir) c.outputDir :=
  h.steady _ List.mem_cons_self

theorem source (h : c.Settled fs) (hdir : dir ∈ c.sourceDirs) :
    fs.Steady (fs.locationOf c.outputDir) dir ∧
      Apart (fs.locationOf dir) (fs.locationOf c.outputDir) :=
  ⟨h.steady dir (List.mem_cons_of_mem _ hdir), h.apart dir (List.mem_append_left _ hdir)⟩

theorem patch (h : c.Settled fs) (hdir : c.patchDir = some dir) :
    Apart (fs.locationOf dir) (fs.locationOf c.outputDir) :=
  h.apart dir (List.mem_append_right _ (by simp [hdir]))

theorem roots_eq (h : c.Settled fs) (hkeeps : Keeps (fs.locationOf c.outputDir) fs after) :
    c.sourceDirs.filter after.isDir = c.sourceDirs.filter fs.isDir :=
  List.filter_congr fun _ hdir => hkeeps.isDir_eq (h.source hdir).1 (h.source hdir).2

end RunConfig.Settled

variable {c : RunConfig} {fs written after again : FileSystem} {roots : List String} {plan : Plan}

/-- What a run has done before it copies the hand-written declarations. The directories below the
output directory have files in them, if those that were there have been cleaned. -/
structure Generated (c : RunConfig) (plan : Plan) (before after : FileSystem) : Prop extends
    Becomes (before.locationOf c.outputDir) before after
      (withOutputs (before.locationOf c.outputDir) (startingFiles c before) plan.outputs) where
  kept : before.isDir c.outputDir = false →
    ∀ location, before.HasDir location → after.HasDir location
  made : ∀ location, after.HasDir location → before.HasDir location ∨
    ∃ file ∈ plan.outputs, location <+: file.locationIn (before.locationOf c.outputDir)
  filled : before.isDir c.outputDir = true → after.Filled (before.locationOf c.outputDir)

/-- A directory on the way to a file that was written has that file in it. -/
theorem exists_file_of_output {out location : List String} {outputs : List OutputFile}
    {files : List String → Option Contents} (hfiles : after.fileAt? = withOutputs out files outputs)
    {file : OutputFile} (hfile : file ∈ outputs) (hp : location <+: file.locationIn out) :
    ∃ below contents, after.fileAt? (location ++ below) = some contents := by
  obtain ⟨below, hbelow⟩ := hp
  have hsome : (after.fileAt? (location ++ below)).isSome := by
    rw [hfiles, hbelow]
    exact isSome_withOutputs_of_mem hfile
  exact ⟨below, Option.isSome_iff_exists.1 hsome⟩

theorem generated {cleaned : Nat} {mid : FileSystem} (hwf : fs.WellFormed) (hsettled : c.Settled fs)
    (hcleaned : cleanOutput c fs = .ok cleaned mid)
    (hdown : ∀ file ∈ plan.outputs, LeadsDown file.path)
    (hwritten : plan.outputs.forM (writeOutput c) mid = .ok () written) :
    Generated c plan fs written := by
  rcases cleanOutput_eq_ok hwf rfl hcleaned with ⟨hdir, hmid⟩ | ⟨hdir, rfl⟩
  · have hlocation := locationOf_congr hmid.cwd c.outputDir
    have hwrites := writesOutputs (hsettled.output.of_keeps hmid.toKeeps) hlocation hdown hwritten
    have hfiles : written.fileAt? =
        withOutputs (fs.locationOf c.outputDir) (startingFiles c fs) plan.outputs := by
      rw [hwrites.files, hmid.files, startingFiles, if_pos hdir]
    refine ⟨⟨hmid.toKeeps.trans hwrites.toKeeps, hfiles⟩, by simp [hdir], fun location hhas => ?_,
      fun _ location hp hne hhas => ?_⟩
    · exact (hwrites.made location hhas).imp (hmid.hasDir_of location) id
    · rcases hwrites.made location hhas with hhas | ⟨file, hfile, hp⟩
      · obtain ⟨below, contents, hfile⟩ := hmid.filled location hp hne hhas
        have hsome : (written.fileAt? (location ++ below)).isSome := by
          rw [hwrites.files]
          exact isSome_withOutputs (by rw [hfile, Option.isSome_some])
        exact ⟨below, Option.isSome_iff_exists.1 hsome⟩
      · exact exists_file_of_output hwrites.files hfile hp
  · have hwrites := writesOutputs hsettled.output rfl hdown hwritten
    refine ⟨⟨hwrites.toKeeps, ?_⟩, fun _ => hwrites.kept, hwrites.made, by simp [hdir]⟩
    rw [hwrites.files, startingFiles, hdir]
    rfl

/-- The hand-written declarations are copied if there are any. Their path does not lead through the
copy. -/
theorem copyAllPatches_eq_ok {count : Nat} (hwf : fs.WellFormed) (hsettled : c.Settled fs)
    (h : copyAllPatches c fs = .ok count after) :
    c.patches? fs = none ∧ count = 0 ∧ after = fs ∨
      ∃ dir d, c.patchDir = some dir ∧ fs.directory? dir = some d ∧ count = d.files.length ∧
        Copied (fs.locationOf c.outputDir) d fs after ∧
        ∀ exit ∈ fs.exitsOf dir,
          fs.HasDir exit ∧ ¬ patchLocation (fs.locationOf c.outputDir) <+: exit := by
  rw [copyAllPatches] at h
  rw [RunConfig.patches?]
  cases hdir : c.patchDir with
  | none =>
    simp only [hdir] at h
    cases h
    exact .inl ⟨rfl, rfl, rfl⟩
  | some dir =>
    simp only [hdir] at h
    rcases copyPatches_eq_ok hwf hsettled.output rfl (hsettled.patch hdir) h with
      hnone | ⟨d, hsome⟩
    · exact .inl hnone
    · exact .inr ⟨dir, d, rfl, hsome⟩

theorem Generated.becomes_copyAllPatches {count : Nat} (hwf : fs.WellFormed)
    (hsettled : c.Settled fs) (h : Generated c plan fs written)
    (hcopy : copyAllPatches c written = .ok count after) :
    count = (c.patches? written).elim 0 (·.files.length) ∧
      Becomes (fs.locationOf c.outputDir) fs after (publishedFiles (fs.locationOf c.outputDir) plan
        (c.patches? written) (startingFiles c fs)) := by
  have hcopied := copyAllPatches_eq_ok (h.wellFormed hwf) (hsettled.of_keeps h.toKeeps) hcopy
  rw [locationOf_congr h.cwd] at hcopied
  rcases hcopied with ⟨hnone, rfl, rfl⟩ | ⟨dir, d, hdir, hsome, rfl, hcopied, -⟩
  · rw [hnone]
    exact ⟨rfl, h.toBecomes⟩
  · rw [RunConfig.patches?, hdir, Option.bind_some, hsome]
    refine ⟨rfl, h.toKeeps.trans hcopied.toKeeps, ?_⟩
    rw [hcopied.files, h.files]
    rfl

/-- What a run does to the files, and what it reports. -/
theorem generated_of_generate {r : Report} (hwf : fs.WellFormed) (hclean : c.cleanOutput = true)
    (hsettled : c.Settled fs) (hroots : roots ⊆ c.sourceDirs)
    (h : generate c roots fs = .ok r after) :
    ∃ plan cleaned written patches, plan? c fs roots = some plan ∧ Generated c plan fs written ∧
      copyAllPatches c written = .ok patches after ∧ r = { plan.report with cleaned, patches } := by
  obtain ⟨cleaned, mid, plan, written, patches, hcleaned, hplan, hwritten, hpatches, rfl⟩ :=
    generate_eq_ok hclean h
  have hkeeps : Keeps (fs.locationOf c.outputDir) fs mid := by
    rcases cleanOutput_eq_ok hwf rfl hcleaned with ⟨-, hmid⟩ | ⟨-, rfl⟩
    · exact hmid.toKeeps
    · exact .refl _ mid
  rw [hkeeps.plan?_eq hwf fun dir hdir => hsettled.source (hroots hdir)] at hplan
  exact ⟨plan, cleaned, written, patches, hplan, generated hwf hsettled hcleaned
    (leadsDown_of_plan hsettled.index hsettled.hooks hplan) hwritten, hpatches, rfl⟩

-- ---------------------------------------------------------------------------
-- A second run
-- ---------------------------------------------------------------------------

/-- A directory for the output that a run finds at the end, it has found at the beginning, if there
was one. -/
theorem isDir_of_hasDir (hsettled : c.Settled fs)
    (hkeeps : Keeps (fs.locationOf c.outputDir) fs after)
    (hdir : fs.HasDir (fs.locationOf c.outputDir)) (h : after.isDir c.outputDir = true) :
    fs.isDir c.outputDir = true := by
  have hdir' : after.HasDir (fs.locationOf c.outputDir) :=
    hkeeps.dirs _ (fun _ => rfl) hdir
  have hlocate : fs.locate c.outputDir = after.locate c.outputDir :=
    locate_congr hkeeps.cwd (hkeeps.exits hsettled.output) hdir.isSome
      hdir'.isSome (iff_of_true hdir hdir')
  rw [isDir, directory?, stat_eq] at h ⊢
  rw [hlocate]
  cases hafter : after.locate c.outputDir with
  | error e => simp [hafter] at h
  | ok location =>
    obtain rfl := (reached_of_locate (hlocate.trans hafter)).eq
    obtain ⟨d, hd⟩ := hdir
    simp [hd]

/-- After a run, cleaning takes away nothing that the run has left as it was. -/
theorem startingFiles_of_becomes (hsettled : c.Settled fs)
    {change : (List String → Option Contents) → List String → Option Contents}
    (h : Becomes (fs.locationOf c.outputDir) fs after (change (startingFiles c fs)))
    {location : List String} (hkept : ∀ files, change files location = files location) :
    startingFiles c after location = after.fileAt? location := by
  have hsame : after.fileAt? location = startingFiles c fs location := by rw [h.files, hkept]
  rw [startingFiles, locationOf_congr h.cwd]
  split
  · rename_i hafter
    rw [cleanedFiles]
    split
    · rename_i hcleaned
      by_cases hbefore : fs.isDir c.outputDir
      · rw [hsame, startingFiles, if_pos hbefore, cleanedFiles, if_pos hcleaned]
      -- the first run has not cleaned, because there was no directory to clean
      · have hnodir : ¬ fs.HasDir (fs.locationOf c.outputDir) := fun hdir =>
          hbefore (isDir_of_hasDir hsettled h.toKeeps hdir hafter)
        have hne : fs.locationOf c.outputDir ≠ location := by
          rintro rfl
          simp [RunConfig.isCleanedAt] at hcleaned
        rw [hsame, startingFiles, if_neg hbefore, fileAt?_of_not_hasDir hnodir hcleaned.1 hne]
    · rfl
  · rfl

theorem publishedFiles_of_beside {out location : List String} {patches : Option Directory}
    (h : patches = none ∨ ¬ patchLocation out <+: location)
    (files : List String → Option Contents) :
    publishedFiles out plan patches files location =
      withOutputs out files plan.outputs location := by
  cases patches with
  | none => rfl
  | some d => exact if_neg (h.resolve_left (by simp))

variable {patches : Option Directory}

/-- Publishing the same once more changes no file. -/
theorem publishedFiles_again (hsettled : c.Settled fs)
    (h : Becomes (fs.locationOf c.outputDir) fs after
      (publishedFiles (fs.locationOf c.outputDir) plan patches (startingFiles c fs))) :
    publishedFiles (fs.locationOf c.outputDir) plan patches (startingFiles c after) =
      after.fileAt? := by
  funext location
  rcases overlay_publishedFiles _ plan patches location with hkept | ⟨contents, hset⟩
  · rw [hkept, startingFiles_of_becomes hsettled h hkept]
  · rw [h.files, hset, hset]

/-- The first run leaves a file in each directory below the output directory, if the second run
cleans it. -/
theorem Generated.filled_of_isDir (hsettled : c.Settled fs) (h : Generated c plan fs written)
    (hkeeps : Keeps (fs.locationOf c.outputDir) fs after)
    (hclean : after.isDir c.outputDir = true) : written.Filled (fs.locationOf c.outputDir) := by
  by_cases hbefore : fs.isDir c.outputDir = true
  · exact h.filled hbefore
  · intro location hp _ hdir
    have hnodir : ¬ fs.HasDir (fs.locationOf c.outputDir) := fun hdir =>
      hbefore (isDir_of_hasDir hsettled hkeeps hdir hclean)
    rcases h.made location hdir with hdir | ⟨file, hfile, hp⟩
    · exact absurd (hdir.of_below hp) hnodir
    · exact exists_file_of_output h.files hfile hp

/-- What is below a location below `out` is in the copy only if the location itself is. -/
theorem not_patchLocation_prefix {out location : List String} (hp : out <+: location)
    (hne : location ≠ out) (hbeside : ¬ patchLocation out <+: location) (below : List String) :
    ¬ patchLocation out <+: location ++ below := by
  intro hcopy
  rcases List.prefix_or_prefix_of_prefix hcopy (List.prefix_append location below) with h | h
  · exact hbeside h
  · rcases List.prefix_concat_iff.1 h with rfl | h
    · exact hbeside List.prefix_rfl
    · exact hne (h.eq_of_length_le hp.length_le)

section Again

variable (hsettled : c.Settled fs) (hfirst : Generated c plan fs written)
  (hagain : Generated c plan after again)
  (hafter : Becomes (fs.locationOf c.outputDir) fs after
    (publishedFiles (fs.locationOf c.outputDir) plan patches (startingFiles c fs)))
  {location : List String}
  (hbeside : patches = none ∨ ¬ patchLocation (fs.locationOf c.outputDir) <+: location)

include hsettled hfirst hagain hafter hbeside

/-- Apart from the copy of the hand-written declarations, the second run writes the same files. -/
theorem fileAt?_again : again.fileAt? location = written.fileAt? location := by
  rw [hagain.files, hfirst.files, locationOf_congr hafter.cwd, ← publishedFiles_of_beside hbeside,
    ← publishedFiles_of_beside hbeside, publishedFiles_again hsettled hafter, hafter.files]

/-- A directory of the first run is there in the second one, unless it is in the copy of the
hand-written declarations. -/
theorem hasDir_again (hdir : written.HasDir location) (hdir' : after.HasDir location) :
    again.HasDir location := by
  cases hclean : after.isDir c.outputDir with
  | false => exact hagain.kept hclean location hdir'
  | true =>
    by_cases hout : fs.locationOf c.outputDir <+: location → location = fs.locationOf c.outputDir
    · exact hagain.dirs location (by rwa [locationOf_congr hafter.cwd]) hdir'
    · obtain ⟨hp, hne⟩ := Classical.not_imp.1 hout
      obtain ⟨below, contents, hfile⟩ :=
        hfirst.filled_of_isDir hsettled hafter.toKeeps hclean location hp hne hdir
      have hbelow : location ≠ location ++ below := by
        intro heq
        rw [← heq, hdir.fileAt?] at hfile
        cases hfile
      have hsome : (again.fileAt? (location ++ below)).isSome := by
        rw [fileAt?_again hsettled hfirst hagain hafter
          (hbeside.imp id fun h => not_patchLocation_prefix hp hne h below), hfile,
          Option.isSome_some]
      exact hasDir_of_fileAt? hsome (List.prefix_append _ _) hbelow

end Again

/-- Without hand-written declarations the second run makes no directory that the first one has not
made. -/
theorem Generated.hasDir_of_again (h : Generated c plan fs written)
    (hagain : Generated c plan written again) {location : List String}
    (hdir : again.HasDir location) : written.HasDir location := by
  rcases hagain.made location hdir with hdir | ⟨file, hfile, hp⟩
  · exact hdir
  · rw [locationOf_congr h.cwd] at hp
    refine hasDir_of_fileAt? (h.files ▸ isSome_withOutputs_of_mem hfile) hp ?_
    rintro rfl
    have hsome : (again.fileAt? (file.locationIn (fs.locationOf c.outputDir))).isSome := by
      rw [hagain.files, locationOf_congr h.cwd]
      exact isSome_withOutputs_of_mem hfile
    rw [hdir.fileAt?] at hsome
    cases hsome

/-- The second run finds the same hand-written declarations as the first one. -/
theorem patches?_again {count : Nat} (hwf : fs.WellFormed) (hsettled : c.Settled fs)
    (hfirst : Generated c plan fs written) (hcopy : copyAllPatches c written = .ok count after)
    (hagain : Generated c plan after again) : c.patches? again = c.patches? written := by
  have hafter := (hfirst.becomes_copyAllPatches hwf hsettled hcopy).2
  have hkeeps : Keeps (fs.locationOf c.outputDir) fs again :=
    hafter.toKeeps.trans (locationOf_congr hafter.cwd c.outputDir ▸ hagain.toKeeps)
  have hcwd : again.cwd = written.cwd := hkeeps.cwd.trans hfirst.cwd.symm
  -- when the way to it is there both times, the directory is the same
  have hcongr (dir : String) (hdir : c.patchDir = some dir)
      (hexits : ∀ exit ∈ written.exitsOf dir, written.HasDir exit ∧ again.HasDir exit) :
      again.directory? dir = written.directory? dir := by
    refine directory?_congr hcwd hexits ?_
    rw [locationOf_congr hfirst.cwd, hkeeps.apart _ (hsettled.patch hdir),
      hfirst.apart _ (hsettled.patch hdir)]
  have hcopied := copyAllPatches_eq_ok (hfirst.wellFormed hwf)
    (hsettled.of_keeps hfirst.toKeeps) hcopy
  rw [locationOf_congr hfirst.cwd] at hcopied
  rcases hcopied with ⟨hnone, -, rfl⟩ | ⟨dir, d, hdir, -, -, hcopied, hexits⟩
  · rw [RunConfig.patches?, RunConfig.patches?] at *
    cases hdir : c.patchDir with
    | none => rfl
    | some dir =>
      rw [hdir, Option.bind_some] at hnone
      rw [Option.bind_some, Option.bind_some]
      cases hfound : again.directory? dir with
      | none => exact hnone.symm
      | some d =>
        rw [← hfound]
        refine hcongr dir hdir fun exit hexit => ?_
        have hexitDir : again.HasDir exit :=
          hasDir_exits_of_stat (stat_of_directory? hfound) exit (by rwa [exitsOf_congr hcwd])
        exact ⟨hfirst.hasDir_of_again hagain hexitDir, hexitDir⟩
  · rw [RunConfig.patches?, RunConfig.patches?, hdir, Option.bind_some, Option.bind_some]
    refine hcongr dir hdir fun exit hexit => ?_
    obtain ⟨hexitDir, hbeside⟩ := hexits exit hexit
    exact ⟨hexitDir, hasDir_again hsettled hfirst hagain hafter (.inr hbeside) hexitDir
      (hcopied.kept exit hbeside hexitDir)⟩

/-- A second run changes no file, and reports the same as the first one but for the number of files
deleted. -/
theorem run_again {r r' : Report} (hwf : fs.WellFormed) (hclean : c.cleanOutput = true)
    (hsettled : c.Settled fs) (h : run c fs = .ok r after) (h' : run c after = .ok r' again) :
    again.fileAt? = after.fileAt? ∧ { r' with cleaned := r.cleaned } = r := by
  rcases run_eq_ok h with ⟨hroots, rfl, rfl⟩ | ⟨hroots, h⟩
  · rcases run_eq_ok h' with ⟨-, rfl, rfl⟩ | ⟨hroots', -⟩
    · exact ⟨rfl, rfl⟩
    · exact absurd hroots hroots'
  · have hsources : c.sourceDirs.filter fs.isDir ⊆ c.sourceDirs := List.filter_subset_self _
    obtain ⟨plan, cleaned, written, count, hplan, hfirst, hcopy, rfl⟩ :=
      generated_of_generate hwf hclean hsettled hsources h
    obtain ⟨hcount, hafter⟩ := hfirst.becomes_copyAllPatches hwf hsettled hcopy
    -- the second run has the same source directories, the same plan and the same patches
    have hkeeps := hafter.toKeeps
    have hsettled' := hsettled.of_keeps hkeeps
    have hwf' := hkeeps.wellFormed hwf
    rcases run_eq_ok h' with ⟨hnone, -, -⟩ | ⟨-, h'⟩
    · exact absurd ((hsettled.roots_eq hkeeps).symm.trans hnone) hroots
    rw [hsettled.roots_eq hkeeps] at h'
    obtain ⟨plan', cleaned', written', count', hplan', hsecond, hcopy', rfl⟩ :=
      generated_of_generate hwf' hclean hsettled' hsources h'
    rw [hkeeps.plan?_eq hwf fun dir hdir => hsettled.source (hsources hdir), hplan] at hplan'
    obtain rfl := Option.some.inj hplan'
    obtain ⟨hcount', hagain⟩ := hsecond.becomes_copyAllPatches hwf' hsettled' hcopy'
    rw [patches?_again hwf hsettled hfirst hcopy hsecond] at hcount' hagain
    refine ⟨?_, by rw [hcount, hcount']⟩
    rw [hagain.files, locationOf_congr hkeeps.cwd, publishedFiles_again hsettled hafter]

/-- An output directory with an earlier declaration, a preserved one and an earlier copy of the
hand-written ones. -/
def staleFiles : FileSystem where
  root :=
    .sub "lib"
      (.sub "hand" (.file "a.d.ts" (.text "new") .empty)
        (.sub "out"
          (.file "minecraft-raw.d.ts" (.text "raw")
            (.sub "old" (.file "A.d.ts" (.text "old") .empty)
              (.sub "patches" (.file "b.txt" (.text "old") .empty) .empty)))
          .empty))
      (.sub "src" (.file "A.java" (.text "public class A{}") .empty) .empty)

def staleConfig : RunConfig where
  sourceDirs := ["lib/../src"]
  outputDir := "lib/out"
  patchDir := some "lib/out/../hand"
  cleanOutput := true
  hookReferences := []

/-- An index or a hooks file without entries. -/
def emptyGlobal : Contents := .text "declare global \x7b\n\x7d\n\nexport \x7b\x7d;\n"

/-- The files after a run with `staleFiles`. -/
def freshFiles : FileSystem where
  root :=
    .sub "lib"
      (.sub "hand" (.file "a.d.ts" (.text "new") .empty)
        (.sub "out"
          (.file "A.d.ts"
            (.text ("// Type definitions for \n" ++
              "// Generated by javadecl from Java sources. Do not edit.\n\n" ++
              "export class A \x7b\n\x7d\n"))
            (.file "hooks.d.ts" emptyGlobal
              (.file "index.d.ts"
                (.text
                  "declare global \x7b\n    type A = import(\"./A\").A;\n\x7d\n\nexport \x7b\x7d;\n")
                (.file "minecraft-raw.d.ts" (.text "raw")
                  (.sub "patches" (.file "a.d.ts" (.text "new") .empty) .empty)))))
          .empty))
      (.sub "src" (.file "A.java" (.text "public class A{}") .empty) .empty)

/-- The first run replaces what was there, and the second one changes nothing. -/
theorem run_again_staleFiles :
    staleFiles.WellFormed ∧ staleConfig.cleanOutput = true ∧ staleConfig.Settled staleFiles ∧
      ∃ r r' after again, run staleConfig staleFiles = .ok r after ∧
        run staleConfig after = .ok r' again ∧ r.cleaned = 1 ∧ r'.cleaned = 4 ∧
        again.fileAt? = after.fileAt? ∧ { r' with cleaned := r.cleaned } = r := by
  have hwf : staleFiles.WellFormed := by decide +kernel
  have hsettled : staleConfig.Settled staleFiles :=
    ⟨by decide +kernel, by decide +kernel, by decide +kernel, by decide +kernel⟩
  have hfirst : run staleConfig staleFiles =
      .ok { parsed := 1, written := 1, types := 1, cleaned := 1, patches := 1 } freshFiles := by
    decide +kernel
  have hsecond : run staleConfig freshFiles =
      .ok { parsed := 1, written := 1, types := 1, cleaned := 4, patches := 1 } freshFiles := by
    decide +kernel
  exact ⟨hwf, rfl, hsettled, _, _, _, _, hfirst, hsecond, rfl, rfl,
    run_again hwf rfl hsettled hfirst hsecond⟩

/-- A source directory and an output directory with paths that step up out of a directory which is
not there. -/
def lateConfig : RunConfig where
  sourceDirs := ["src", "gen/../more"]
  outputDir := "gen/../out"
  cleanOutput := true
  hookReferences := []

def lateFiles : FileSystem where
  root :=
    .sub "more" (.file "Late.java" (.text "") .empty)
      (.sub "out" (.file "Stale.d.ts" (.text "stale") .empty)
        (.sub "src" .empty .empty))

/-- The files after a run with `lateFiles`, and what the output directory holds before the hooks. -/
def lateFilesWith (stale : Directory → Directory) : FileSystem where
  root :=
    .sub "gen" .empty
      (.sub "more" (.file "Late.java" (.text "") .empty)
        (.sub "out"
          (stale (.file "hooks.d.ts" emptyGlobal (.file "index.d.ts" emptyGlobal .empty)))
          (.sub "src" .empty .empty)))

/-- The first run makes the directory to step up out of, so the second one finds another source
directory, and an output directory to clean. -/
theorem run_changes_lateFiles :
    lateFiles.WellFormed ∧ lateConfig.cleanOutput = true ∧
      (lateConfig.outputDir :: lateConfig.inputDirs).Pairwise
        (fun dir dir' => Apart (lateFiles.locationOf dir) (lateFiles.locationOf dir')) ∧
      LeadsDown lateConfig.indexFile ∧ LeadsDown lateConfig.hooksFile ∧
      ∃ r r' after again, run lateConfig lateFiles = .ok r after ∧
        run lateConfig after = .ok r' again ∧
        after.fileAt? ["out", "Stale.d.ts"] = some (.text "stale") ∧
        again.fileAt? ["out", "Stale.d.ts"] = none ∧ r.parsed = 0 ∧ r'.parsed = 1 := by
  have hfirst : run lateConfig lateFiles =
      .ok {} (lateFilesWith (.file "Stale.d.ts" (.text "stale"))) := by
    decide +kernel
  have hsecond : run lateConfig (lateFilesWith (.file "Stale.d.ts" (.text "stale"))) =
      .ok { parsed := 1, skipped := 1, cleaned := 3 } (lateFilesWith id) := by
    decide +kernel
  exact ⟨by decide +kernel, rfl, by decide +kernel, by decide +kernel, by decide +kernel,
    _, _, _, _, hfirst, hsecond, by decide +kernel, by decide +kernel, rfl, rfl⟩

end Typings
