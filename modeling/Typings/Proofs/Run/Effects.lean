import Typings.Proofs.FileSystem.Growth
import Typings.Proofs.Run.Cleaning
import Typings.Proofs.Run.Patching
import Typings.Proofs.Run.Sources

/-!
# What a run changes

What the stages of a run change, whether they succeed or fail: cleaning changes nothing but earlier
declarations in the output directory, writing nothing but the files that get written, and copying
nothing but what is in the copy of the hand-written declarations, if there are any to be copied.
Main statements: `spares_prepare`, `spares_writeOutputs` and `spares_copyAllPatches`.
-/

namespace Typings

open Typings.FileSystem Typings.Path

variable {α β : Type} {touched other : List String → Prop} {cwd out above location : List String}
  {fs mid after : FileSystem} {path name : String}

-- ---------------------------------------------------------------------------
-- Files that a change spares
-- ---------------------------------------------------------------------------

namespace FileSystem

/-- Whether a change leaves every file as it is that is not at one of the touched locations. -/
structure Spares (touched : List String → Prop) (before after : FileSystem) : Prop where
  cwd : after.cwd = before.cwd
  wellFormed : before.WellFormed → after.WellFormed
  files : ∀ location, ¬ touched location → after.fileAt? location = before.fileAt? location

namespace Spares

theorem refl (touched : List String → Prop) (fs : FileSystem) : Spares touched fs fs :=
  ⟨rfl, id, fun _ _ => rfl⟩

theorem trans (h : Spares touched fs mid) (h' : Spares touched mid after) :
    Spares touched fs after where
  cwd := h'.cwd.trans h.cwd
  wellFormed hwf := h'.wellFormed (h.wellFormed hwf)
  files location hfree := (h'.files location hfree).trans (h.files location hfree)

theorem mono (h : Spares touched fs after) (hsub : ∀ location, touched location → other location) :
    Spares other fs after :=
  ⟨h.cwd, h.wellFormed, fun location hfree => h.files location fun ht => hfree (hsub location ht)⟩

end Spares

theorem Grows.spares {files : List String → Option Contents} (h : Grows fs after files)
    (hfiles : ∀ location, ¬ touched location → files location = fs.fileAt? location) :
    Spares touched fs after :=
  ⟨h.cwd, h.wellFormed, fun location hfree => by rw [h.files, hfiles location hfree]⟩

end FileSystem

-- ---------------------------------------------------------------------------
-- Steps that succeed or fail
-- ---------------------------------------------------------------------------

namespace Step

/-- The file system after a step, whether the step succeeds or fails. -/
def leaves (x : Step α) (fs : FileSystem) : FileSystem :=
  match x fs with
  | .ok _ after => after
  | .error _ after => after

theorem leaves_of_ok {x : Step α} {a : α} (h : x fs = .ok a after) : x.leaves fs = after := by
  rw [leaves, h]

theorem leaves_of_error {x : Step α} {e : RunError} (h : x fs = .error e after) :
    x.leaves fs = after := by
  rw [leaves, h]

theorem leaves_get_bind (f : FileSystem → Step α) :
    (get >>= f : Step α).leaves fs = (f fs).leaves fs := rfl

/-- A sequence of steps does what its steps do, as far as it gets. -/
theorem leaves_bind {R : FileSystem → FileSystem → Prop}
    (htrans : ∀ {fs mid after}, R fs mid → R mid after → R fs after) {x : Step α} {f : α → Step β}
    (hx : R fs (x.leaves fs))
    (hf : ∀ a mid, x fs = .ok a mid → R fs mid → R mid ((f a).leaves mid)) :
    R fs ((x >>= f).leaves fs) := by
  rw [leaves] at hx
  show R fs (leaves (EStateM.bind x f) fs)
  unfold leaves EStateM.bind
  cases hstep : x fs with
  | error e mid => rwa [hstep] at hx
  | ok a mid =>
    rw [hstep] at hx
    exact htrans hx (hf a mid hstep hx)

/-- Whether a step touches files only at given locations, whatever well-formed file system with a
given working directory it starts from, and whether it succeeds or fails. -/
def Confined (cwd : List String) (touched : List String → Prop) (x : Step α) : Prop :=
  ∀ fs, fs.WellFormed → fs.cwd = cwd → Spares touched fs (x.leaves fs)

theorem confined_pure (a : α) : Confined cwd touched (pure a) := fun fs _ _ => .refl touched fs

theorem confined_throw (e : RunError) : Confined cwd touched (throw e : Step α) :=
  fun fs _ _ => .refl touched fs

theorem Confined.bind {x : Step α} {f : α → Step β} (hx : Confined cwd touched x)
    (hf : ∀ fs a mid, x fs = .ok a mid → Confined cwd touched (f a)) :
    Confined cwd touched (x >>= f) := fun fs hwf hcwd =>
  leaves_bind (R := Spares touched) Spares.trans (hx fs hwf hcwd) fun a mid hstep hmid =>
    hf fs a mid hstep mid (hmid.wellFormed hwf) (hmid.cwd.trans hcwd)

theorem confined_get_bind {f : FileSystem → Step α}
    (h : ∀ fs, fs.WellFormed → fs.cwd = cwd → Confined cwd touched (f fs)) :
    Confined cwd touched (get >>= f) := fun fs hwf hcwd => h fs hwf hcwd fs hwf hcwd

theorem confined_mapM {f : α → Step β} {xs : List α} (h : ∀ x ∈ xs, Confined cwd touched (f x)) :
    Confined cwd touched (xs.mapM f) := by
  induction xs with
  | nil => exact confined_pure []
  | cons x xs ih =>
    rw [List.forall_mem_cons] at h
    rw [List.mapM_cons]
    exact h.1.bind fun _ _ _ _ => (ih h.2).bind fun _ _ _ _ => confined_pure _

theorem eq_of_change_eq_error {f : FileSystem → Except OsError FileSystem} {e : RunError}
    (h : change path f fs = .error e after) : after = fs := by
  rw [change, get_bind] at h
  cases hf : f fs with
  | ok mid => simp only [hf] at h; cases h
  | error cause => simp only [hf] at h; cases h; rfl

theorem confined_change {f : FileSystem → Except OsError FileSystem}
    (h : ∀ fs after, fs.WellFormed → fs.cwd = cwd → f fs = .ok after → Spares touched fs after) :
    Confined cwd touched (change path f) := by
  intro fs hwf hcwd
  cases hstep : change path f fs with
  | ok u after =>
    rw [leaves_of_ok hstep]
    exact h fs after hwf hcwd (change_eq_ok hstep)
  | error e after =>
    rw [leaves_of_error hstep, eq_of_change_eq_error hstep]
    exact .refl touched fs

/-- Making directories changes no file, also when it fails. -/
theorem grows_leaves_makeDirs (fs : FileSystem) (path : String) :
    Grows fs ((makeDirs path).leaves fs) fs.fileAt? := by
  have hleaves : (makeDirs path).leaves fs = (fs.makeDirs path).1 := by
    rw [makeDirs, leaves_get_bind]
    cases hmade : fs.makeDirs path with
    | mk after failure => cases failure <;> rfl
  rw [hleaves]
  exact grows_makeDirs fs path

theorem confined_makeDirs (path : String) : Confined cwd touched (makeDirs path) := fun fs _ _ =>
  (grows_leaves_makeDirs fs path).spares fun _ _ => rfl

theorem confined_write {contents : Contents}
    (h : ∀ fs : FileSystem, fs.cwd = cwd → touched (fs.locationOf path)) :
    Confined cwd touched (change path (·.write path contents)) := by
  refine confined_change fun fs after _ hcwd hwrite => ?_
  refine (grows_write hwrite).spares fun location hfree => if_neg ?_
  rintro rfl
  exact hfree (h fs hcwd)

end Step

open Typings.Step

-- ---------------------------------------------------------------------------
-- Writing
-- ---------------------------------------------------------------------------

variable {c : RunConfig} {sources : List SourcePath}

/-- Where the file at a path relative to the output directory is written. -/
def RunConfig.placeOf (c : RunConfig) (fs : FileSystem) (path : String) : List String :=
  fs.locationOf (join c.outputDir path)

theorem placeOf_congr (hcwd : after.cwd = fs.cwd) (path : String) :
    c.placeOf after path = c.placeOf fs path :=
  locationOf_congr hcwd _

theorem grows_of_writeOutput {file : OutputFile} {u : Unit}
    (h : writeOutput c file fs = .ok u after) :
    ∃ mid, Grows fs mid fs.fileAt? ∧
      mid.write (join c.outputDir file.path) (.text file.contents) = .ok after := by
  obtain ⟨mid, hmade, hwrite⟩ := writeOutput_eq_ok h
  refine ⟨mid, ?_, hwrite⟩
  rcases hmade with rfl | ⟨above, -, hmade⟩
  · exact .refl mid
  · have hgrows := grows_makeDirs fs above
    rwa [hmade] at hgrows

/-- A file that cannot be written may leave directories behind. -/
theorem grows_of_writeOutput_eq_error {file : OutputFile} {e : RunError}
    (h : writeOutput c file fs = .error e after) : Grows fs after fs.fileAt? := by
  rw [writeOutput] at h
  cases hparent : parent? (join c.outputDir file.path) with
  | none =>
    simp only [hparent] at h
    rw [eq_of_change_eq_error h]
    exact .refl fs
  | some holder =>
    simp only [hparent] at h
    have hmade := grows_leaves_makeDirs fs holder
    rcases bind_eq_error.1 h with hfailed | ⟨u, mid, hdirs, hwrite⟩
    · rwa [leaves_of_error hfailed] at hmade
    · rw [leaves_of_ok hdirs] at hmade
      rwa [eq_of_change_eq_error hwrite]

/-- Writing a file touches its place, and nothing if it fails. -/
theorem spares_writeOutput (c : RunConfig) (fs : FileSystem) (file : OutputFile) :
    Spares (fun location => (∃ written, writeOutput c file fs = .ok () written) ∧
      location = c.placeOf fs file.path) fs ((writeOutput c file).leaves fs) := by
  cases hstep : writeOutput c file fs with
  | error e after =>
    rw [leaves_of_error hstep]
    exact (grows_of_writeOutput_eq_error hstep).spares fun _ _ => rfl
  | ok u after =>
    rw [leaves_of_ok hstep]
    obtain ⟨mid, hmid, hwrite⟩ := grows_of_writeOutput hstep
    have hafter := grows_write hwrite
    rw [hmid.files, locationOf_congr hmid.cwd] at hafter
    refine (hmid.trans hafter).spares fun location hfree => if_neg fun hplace => ?_
    exact hfree ⟨⟨after, rfl⟩, hplace⟩

/-- Whether writing files one after another gets to write one of them. -/
def RunConfig.GetsTo (c : RunConfig) (fs : FileSystem) (outputs : List OutputFile)
    (file : OutputFile) : Prop :=
  ∃ earlier written, earlier ++ [file] <+: outputs ∧
    (earlier ++ [file]).forM (writeOutput c) fs = .ok () written

/-- Writing files touches the places of those that get written. -/
theorem spares_writeOutputs (c : RunConfig) (fs : FileSystem) (outputs : List OutputFile) :
    Spares (fun location => ∃ file, c.GetsTo fs outputs file ∧ location = c.placeOf fs file.path)
      fs ((outputs.forM (writeOutput c)).leaves fs) := by
  induction outputs generalizing fs with
  | nil => exact .refl _ fs
  | cons file outputs ih =>
    refine leaves_bind (R := Spares _) Spares.trans ?_ fun u mid hfirst hmid => ?_
    · refine (spares_writeOutput c fs file).mono fun location ⟨⟨written, hwritten⟩, hplace⟩ => ?_
      refine ⟨file, ⟨[], written, List.cons_prefix_cons.2 ⟨rfl, List.nil_prefix⟩, ?_⟩, hplace⟩
      exact bind_eq_ok.2 ⟨(), written, hwritten, rfl⟩
    · refine (ih mid).mono fun location ⟨last, ⟨earlier, written, hprefix, hwritten⟩, hplace⟩ => ?_
      refine ⟨last, ⟨file :: earlier, written, List.cons_prefix_cons.2 ⟨rfl, hprefix⟩, ?_⟩, ?_⟩
      · exact bind_eq_ok.2 ⟨(), mid, hfirst, hwritten⟩
      · rwa [placeOf_congr hmid.cwd] at hplace

theorem mem_of_outputFor? {output : String} (h : outputFor? sources path = some output) :
    ∃ s ∈ sources, components s.path = components path ∧ s.output = output := by
  obtain ⟨s, hs, rfl⟩ := Option.map_eq_some_iff.1 h
  exact ⟨s, List.mem_reverse.1 (List.mem_of_find?_eq_some hs),
    by simpa using List.find?_some hs, rfl⟩

theorem Catalog.path_of_outputFor? {catalog : Catalog} {source : SourceFile} {file : OutputFile}
    (h : catalog.outputFor? source path = some file) : file.path = path := by
  rw [Catalog.outputFor?] at h
  obtain ⟨-, hfile⟩ := Option.ite_none_left_eq_some.1 h
  rw [← Option.some.inj hfile]

-- ---------------------------------------------------------------------------
-- Copying
-- ---------------------------------------------------------------------------

/-- Whether a location is that of something in the directory at another location. -/
def LiesIn (dir location : List String) : Prop := dir <+: location ∧ location ≠ dir

instance (dir location : List String) : Decidable (LiesIn dir location) :=
  inferInstanceAs (Decidable (dir <+: location ∧ location ≠ dir))

/-- Copying an entry touches what lies in the copy, and, if it is a file, the place of the copy. -/
theorem confined_copyEntry {target : List String} (fuel : Nat) {src dest : String} {e : Entry}
    (hdest : ∀ fs : FileSystem, fs.cwd = cwd → target <+: fs.locationOf dest)
    (hfile : ∀ contents, e = .file contents → ∀ fs : FileSystem, fs.cwd = cwd →
      fs.locationOf dest ≠ target) :
    Confined cwd (LiesIn target) (copyEntry fuel src dest e) := by
  induction fuel generalizing src dest e with
  | zero => exact confined_throw _
  | succ fuel ih =>
    cases e with
    | file contents =>
      rw [copyEntry]
      refine confined_get_bind fun fs _ _ => ?_
      cases fs.read src with
      | error e => exact confined_throw _
      | ok copied =>
        refine (confined_write fun fs hcwd => ?_).bind fun _ _ _ _ => confined_pure _
        exact ⟨hdest fs hcwd, hfile contents rfl fs hcwd⟩
    | dir d =>
      rw [copyEntry]
      refine confined_get_bind fun fs hwf _ => ?_
      cases hstat : fs.stat src with
      | error e => exact (confined_makeDirs dest).bind fun _ _ _ _ => confined_throw _
      | ok entry =>
        cases entry with
        | file contents => exact confined_throw _
        | dir listed =>
          have hlisted : listed.WellFormed := Directory.WellFormed.find? hwf (stat_eq_ok hstat)
          refine (confined_makeDirs dest).bind fun _ _ _ _ => ?_
          refine (confined_mapM fun entry hentry => ?_).bind fun _ _ _ _ => confined_pure _
          have hbelow (fs : FileSystem) := @locationOf_join_name fs dest _ (hlisted.of_mem hentry).1
          refine ih (fun fs hcwd => ?_) fun _ _ fs hcwd heq => ?_
          · rw [hbelow]
            exact (hdest fs hcwd).trans (List.prefix_append _ _)
          · have hle := (hdest fs hcwd).length_le
            rw [← heq, hbelow, List.length_append] at hle
            simp at hle

/-- Copying what is not a file touches what lies in the copy. -/
theorem spares_copyTree {src dest : String} (hwf : fs.WellFormed)
    (hsrc : fs.fileAt? (fs.locationOf src) = none) :
    Spares (LiesIn (fs.locationOf dest)) fs ((copyTree src dest).leaves fs) := by
  rw [copyTree, leaves_get_bind]
  cases hstat : fs.stat src with
  | error e => exact .refl _ fs
  | ok entry =>
    have hdest (later : FileSystem) (hcwd : later.cwd = fs.cwd) := locationOf_congr hcwd dest
    refine confined_copyEntry _ (fun later hcwd => by rw [hdest later hcwd]) ?_ fs hwf rfl
    rintro contents rfl
    rw [fileAt?_eq_some_iff.2 (stat_eq_ok hstat)] at hsrc
    cases hsrc

/-- Removing the copy touches what lies in it. -/
theorem spares_removeTree (hwf : fs.WellFormed) (hout : fs.locationOf c.outputDir = out)
    (h : fs.removeTree (patchTarget c) = .ok after) :
    Spares (LiesIn (patchLocation out)) fs after := by
  have hcleared := cleared_of_removeTree hwf hout h
  refine ⟨hcleared.cwd, hcleared.wellFormed, fun location hfree => ?_⟩
  by_cases hlocation : location = patchLocation out
  · have hdir := fileAt?_of_removeTree h
    rw [locationOf_patchTarget hout] at hdir
    rw [hlocation, hdir, FileSystem.fileAt?, hcleared.none]
    rfl
  · rw [hcleared.files, withoutFiles, if_neg fun hp => hfree ⟨hp, hlocation⟩]

/-- Without a directory of hand-written declarations nothing is copied. -/
theorem spares_copyAllPatches (hwf : fs.WellFormed) :
    Spares (fun location => (∃ dir ∈ c.patchDir, fs.isDir dir = true) ∧
      LiesIn (patchLocation (fs.locationOf c.outputDir)) location) fs
      ((copyAllPatches c).leaves fs) := by
  rw [copyAllPatches]
  cases c.patchDir with
  | none => exact .refl _ fs
  | some dir =>
    dsimp only
    rw [copyPatches, leaves_get_bind]
    cases hdir : fs.isDir dir with
    | false => exact .refl _ fs
    | true =>
      have hsrc : fs.fileAt? (fs.locationOf dir) = none := by
        obtain ⟨d, hd⟩ := Option.isSome_iff_exists.1 hdir
        exact HasDir.fileAt? ⟨d, directory?_eq_some hd⟩
      have hcopy (mid : FileSystem) (hcwd : mid.cwd = fs.cwd) (hwf : mid.WellFormed)
          (hsrc : mid.fileAt? (fs.locationOf dir) = none) :
          Spares (LiesIn (patchLocation (fs.locationOf c.outputDir))) mid
            ((copyTree dir (patchTarget c ++ "/")).leaves mid) := by
        have hspares := @spares_copyTree mid dir (patchTarget c ++ "/") hwf
          (by rwa [locationOf_congr hcwd])
        rwa [locationOf_append_slash patchTarget_ne_empty,
          locationOf_patchTarget (locationOf_congr hcwd _)] at hspares
      have hall : Spares (LiesIn (patchLocation (fs.locationOf c.outputDir))) fs (leaves (do
          if (← get).pathExists (patchTarget c) then
            Step.change (patchTarget c) (·.removeTree (patchTarget c))
          copyTree dir (patchTarget c ++ "/")) fs) := by
        rw [leaves_get_bind]
        split
        · refine leaves_bind (R := Spares _) Spares.trans ?_ fun u mid hremoved hmid => ?_
          · exact confined_change (fun later after hwf hcwd h =>
              spares_removeTree hwf (locationOf_congr hcwd _) h) fs hwf rfl
          · have hcleared := cleared_of_removeTree hwf rfl (change_eq_ok hremoved)
            refine hcopy mid hmid.cwd (hmid.wellFormed hwf) ?_
            rw [hcleared.files, withoutFiles, hsrc, ite_self]
        · exact hcopy fs rfl hwf hsrc
      exact hall.mono fun location h => ⟨⟨dir, rfl, hdir⟩, h⟩

-- ---------------------------------------------------------------------------
-- Cleaning
-- ---------------------------------------------------------------------------

/-- Whether a change spares every file that is not at one of the touched locations, and makes no
directory. -/
structure FileSystem.Prunes (touched : List String → Prop) (before after : FileSystem) : Prop
    extends Spares touched before after where
  dirs : ∀ location, after.HasDir location → before.HasDir location

namespace FileSystem.Prunes

theorem refl (touched : List String → Prop) (fs : FileSystem) : Prunes touched fs fs :=
  ⟨.refl touched fs, fun _ h => h⟩

theorem trans (h : Prunes touched fs mid) (h' : Prunes touched mid after) :
    Prunes touched fs after :=
  ⟨h.toSpares.trans h'.toSpares, fun location hdir => h.dirs location (h'.dirs location hdir)⟩

end FileSystem.Prunes

/-- Removing an entry that holds no file but at touched locations. -/
theorem prunes_discard (hwf : fs.WellFormed) (hsome : (fs.entry? (above ++ [name])).isSome)
    (hfiles : ∀ location, above ++ [name] <+: location → ¬ touched location →
      fs.fileAt? location = none) : Prunes touched fs (fs.discard (above ++ [name])) := by
  have hdiscard := becomes_discard hwf hsome List.prefix_rfl
  refine ⟨⟨hdiscard.cwd, hdiscard.wellFormed, fun location hfree => ?_⟩, fun location hdir => ?_⟩
  · rw [hdiscard.files, withoutFiles]
    split
    · rename_i hp
      exact (hfiles location hp hfree).symm
    · rfl
  · by_cases hp : above ++ [name] <+: location
    · obtain ⟨d, hd⟩ := hdir
      rw [entry?_discard hwf (hasDir_of_isSome hsome) hp] at hd
      cases hd
    · exact (sameBeside_discard hp).hasDir_iff.1 hdir

theorem prunes_cleanFile (hwf : fs.WellFormed) (hpath : fs.locationOf path = above ++ [name])
    (hnodir : ¬ fs.HasDir (above ++ [name]))
    (htouched : c.isCleaned name = true → touched (above ++ [name])) :
    Prunes touched fs ((cleanFile c path name (above ++ [name])).leaves fs) := by
  rw [cleanFile]
  by_cases hcleaned : c.isCleaned name
  · rw [if_pos hcleaned, leaves_get_bind]
    cases hstat : fs.stat path with
    | error e => exact .refl touched fs
    | ok entry =>
      have hentry := stat_eq_ok hstat
      rw [hpath] at hentry
      refine prunes_discard hwf (by rw [hentry, Option.isSome_some]) fun location hp hfree => ?_
      refine fileAt?_of_not_hasDir hnodir hp ?_
      rintro rfl
      exact hfree (htouched hcleaned)
  · rw [if_neg hcleaned]
    exact .refl touched fs

theorem prunes_cleanDir {inside : Step Nat} (hwf : fs.WellFormed)
    (hpath : fs.locationOf path = above ++ [name])
    (hinside : Prunes touched fs (inside.leaves fs)) :
    Prunes touched fs ((cleanDir path (above ++ [name]) inside).leaves fs) := by
  rw [cleanDir, leaves_get_bind]
  cases fs.stat path with
  | error e => exact .refl touched fs
  | ok _ =>
    refine leaves_bind (R := Prunes touched) Prunes.trans hinside fun count mid _ hmid => ?_
    rw [leaves_get_bind]
    cases hstat : mid.stat path with
    | error e => exact .refl touched mid
    | ok entry =>
      have hentry := stat_eq_ok hstat
      rw [locationOf_congr hmid.cwd, hpath] at hentry
      by_cases hempty : entry.isEmptyDir
      · simp only [hempty, if_true]
        refine prunes_discard (hmid.wellFormed hwf) (by rw [hentry, Option.isSome_some])
          fun location hp _ => ?_
        obtain ⟨below, rfl⟩ := hp
        obtain rfl : entry = .dir .empty := by
          cases entry with
          | file contents => cases hempty
          | dir d => cases d <;> first | rfl | cases hempty
        rw [fileAt?_append, hentry, Option.bind_some, Directory.fileAt?_empty]
      · simp only [hempty]
        exact .refl touched mid

/-- Cleaning takes away files to be cleaned, and directories with no file in them. What it goes
through was listed before, and there is no directory where a file was listed. -/
theorem prunes_cleanBelow {d : Directory} {inner : List String} (hwf : fs.WellFormed)
    (hd : d.WellFormed) (hpath : fs.locationOf path = out ++ inner)
    (hfiles : ∀ entry ∈ d.files, ¬ fs.HasDir (out ++ inner ++ entry.1)) :
    Prunes (fun location => out <+: location ∧ c.isCleanedAt (location.drop out.length)) fs
      ((cleanBelow c path (out ++ inner) d).leaves fs) := by
  induction d generalizing fs path inner with
  | empty => exact .refl _ fs
  | file name contents rest ih =>
    obtain ⟨hname, -, hrest⟩ := hd
    rw [Directory.files, List.forall_mem_cons] at hfiles
    rw [cleanBelow]
    refine leaves_bind (R := Prunes _) Prunes.trans (prunes_cleanFile hwf ?_ hfiles.1 ?_)
      fun count mid _ hmid => ?_
    · rw [locationOf_join_name hname, hpath]
    · intro hcleaned
      rw [List.append_assoc, List.drop_left, RunConfig.isCleanedAt, List.getLast?_concat]
      exact ⟨List.prefix_append _ _, hcleaned⟩
    · refine leaves_bind (R := Prunes _) Prunes.trans ?_ fun _ mid _ _ => .refl _ mid
      refine ih (hmid.wellFormed hwf) hrest ((locationOf_congr hmid.cwd _).trans hpath) ?_
      exact fun entry hentry hdir => hfiles.2 entry hentry (hmid.dirs _ hdir)
  | sub name inside rest ihInside ihRest =>
    obtain ⟨hname, -, hinside, hrest⟩ := hd
    rw [Directory.files, List.forall_mem_append, List.forall_mem_map] at hfiles
    have hpath' : fs.locationOf (join path name) = out ++ (inner ++ [name]) := by
      rw [locationOf_join_name hname, hpath, List.append_assoc]
    rw [cleanBelow]
    refine leaves_bind (R := Prunes _) Prunes.trans (prunes_cleanDir hwf ?_ ?_)
      fun count mid _ hmid => ?_
    · rw [hpath', List.append_assoc]
    · rw [List.append_assoc]
      refine ihInside hwf hinside hpath' fun entry hentry => ?_
      simpa using hfiles.1 entry hentry
    · refine leaves_bind (R := Prunes _) Prunes.trans ?_ fun _ mid _ _ => .refl _ mid
      refine ihRest (hmid.wellFormed hwf) hrest ((locationOf_congr hmid.cwd _).trans hpath) ?_
      exact fun entry hentry hdir => hfiles.2 entry hentry (hmid.dirs _ hdir)

/-- The locations of files that are cleaned: those of earlier declarations in the output directory,
if that is there. -/
def RunConfig.Cleans (c : RunConfig) (fs : FileSystem) (location : List String) : Prop :=
  c.cleanOutput = true ∧ fs.isDir c.outputDir = true ∧ fs.locationOf c.outputDir <+: location ∧
    c.isCleanedAt (location.drop (fs.locationOf c.outputDir).length) = true

theorem spares_prepare (hwf : fs.WellFormed) :
    Spares (c.Cleans fs) fs ((prepare c).leaves fs) := by
  rw [prepare]
  split
  · rename_i hclean
    rw [cleanOutput, leaves_get_bind]
    split
    · rename_i location d hlocate hdir
      obtain rfl := (reached_of_locate hlocate).eq
      have hentry := directory?_eq_some hdir
      have hd : d.WellFormed := Directory.WellFormed.find? hwf hentry
      have hpruned := @prunes_cleanBelow (fs.locationOf c.outputDir) fs c.outputDir c d [] hwf hd
        (List.append_nil _).symm fun entry hmem hhas => by
          have hfile : fs.fileAt? (fs.locationOf c.outputDir ++ entry.1) = some entry.2 := by
            rw [fileAt?_append, hentry, Option.bind_some, Entry.fileAt?, Entry.find?_dir]
            exact hd.mem_files_iff.1 hmem
          rw [List.append_nil, HasDir, fileAt?_eq_some_iff.1 hfile] at hhas
          obtain ⟨_, hhas⟩ := hhas
          cases hhas
      rw [List.append_nil] at hpruned
      have hisDir : fs.isDir c.outputDir = true := by rw [isDir, hdir, Option.isSome_some]
      exact hpruned.toSpares.mono fun location h => ⟨hclean, hisDir, h⟩
    · exact .refl _ fs
  · exact .refl _ fs

end Typings
