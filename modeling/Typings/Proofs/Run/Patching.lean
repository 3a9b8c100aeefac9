import Typings.Proofs.FileSystem.Growth
import Typings.Proofs.Run.Writing

/-!
# Copying hand-written declarations

The copy of the hand-written declarations replaces what was in its place: a file is there after it
exactly when the directory of hand-written declarations has it, with the same contents.
-/

namespace Typings

open Typings.FileSystem Typings.Path

/-- The files with those of an entry copied to a location. -/
def withCopy (target : List String) (e : Entry) (files : List String → Option Contents)
    (location : List String) : Option Contents :=
  if target <+: location then (e.fileAt? (location.drop target.length)).or (files location)
  else files location

variable {out : List String} {fs mid after : FileSystem} {src dest name : String} {e : Entry}
  {files : List String → Option Contents} {target : List String}

theorem withCopy_append (below : List String) :
    withCopy target e files (target ++ below) = (e.fileAt? below).or (files (target ++ below)) := by
  rw [withCopy, if_pos (List.prefix_append _ _), List.drop_left]

theorem withCopy_of_not_below {location : List String} (h : ¬ target <+: location) :
    withCopy target e files location = files location := by
  rw [withCopy, if_neg h]

theorem withCopy_file {contents : Contents} :
    withCopy target (.file contents) files = withFile files target contents := by
  funext location
  by_cases hp : target <+: location
  · obtain ⟨below, rfl⟩ := hp
    rw [withCopy_append, withFile]
    cases below with
    | nil => simp [Entry.fileAt?, Entry.contents?]
    | cons n below => simp [Entry.fileAt?]
  · rw [withCopy_of_not_below hp, withFile, if_neg]
    rintro rfl
    exact hp List.prefix_rfl

theorem withCopy_cons {d : Directory} (hd : (Directory.cons name e d).WellFormed) :
    withCopy target (.dir (Directory.cons name e d)) files =
      withCopy target (.dir d) (withCopy (target ++ [name]) e files) := by
  obtain ⟨-, hlt, -, -⟩ := Directory.wellFormed_cons.1 hd
  funext location
  by_cases hp : target <+: location
  · obtain ⟨below, rfl⟩ := hp
    rw [withCopy_append, withCopy_append]
    cases below with
    | nil =>
      have hp : ¬ target ++ [name] <+: target ++ [] := fun h => by simpa using h.length_le
      rw [withCopy_of_not_below hp]
      rfl
    | cons n below =>
      rw [Directory.fileAt?_dir_cons, Directory.fileAt?_dir_cons, Directory.get?_cons]
      by_cases hn : name = n
      · subst hn
        have hnone : d.get? name = none := Directory.get?_eq_none_iff.2 fun e he => (hlt e he).ne'
        rw [hnone, if_pos rfl, List.append_cons, withCopy_append]
        rfl
      · rw [if_neg hn, withCopy_of_not_below]
        simp [List.prefix_append_right_inj, List.cons_prefix_cons, hn]
  · have hp' : ¬ target ++ [name] <+: location := fun h => hp ((List.prefix_append _ _).trans h)
    rw [withCopy_of_not_below hp, withCopy_of_not_below hp, withCopy_of_not_below hp']

/-- Copying a directory is copying its entries. -/
theorem withCopy_dir {d : Directory} (hd : d.WellFormed) :
    withCopy target (.dir d) files =
      d.entries.foldl (fun files entry => withCopy (target ++ [entry.1]) entry.2 files) files := by
  induction d using Directory.cons_induction generalizing files with
  | empty =>
    funext location
    by_cases hp : target <+: location
    · obtain ⟨below, rfl⟩ := hp
      rw [withCopy_append]
      cases below with
      | nil => rfl
      | cons n below => rw [Directory.fileAt?_dir_cons]; rfl
    · exact withCopy_of_not_below hp
  | cons name e rest _ ih =>
    rw [withCopy_cons hd, Directory.entries_cons, List.foldl_cons]
    exact ih (Directory.wellFormed_cons.1 hd).2.2.2

theorem foldl_length_files (d : Directory) (n : Nat) :
    (d.entries.map fun entry => entry.2.files.length).foldl (· + ·) n = n + d.files.length := by
  induction d using Directory.cons_induction generalizing n with
  | empty => rfl
  | cons name e rest _ ih =>
    rw [Directory.entries_cons, List.map_cons, List.foldl_cons, ih, Directory.files_cons,
      List.length_append, List.length_map, Nat.add_assoc]

/-- What has to hold to copy an entry: it is at a location apart from `out`, and the path of the
copy leads to a location below `out`. -/
structure Copyable (out : List String) (fs : FileSystem) (src dest : String) (e : Entry) :
    Prop where
  apart : Apart (fs.locationOf src) out
  entry : fs.entry? (fs.locationOf src) = some e
  steady : fs.Steady out dest
  below : out <+: fs.locationOf dest

theorem Copyable.of_keeps (h : Copyable out fs src dest e) (hkeeps : Keeps out fs after) :
    Copyable out after src dest e where
  apart := by rw [locationOf_congr hkeeps.cwd]; exact h.apart
  entry := by rw [locationOf_congr hkeeps.cwd, hkeeps.apart _ h.apart]; exact h.entry
  steady := h.steady.of_keeps hkeeps
  below := by rw [locationOf_congr hkeeps.cwd]; exact h.below

theorem Copyable.child {d : Directory} (hwf : fs.WellFormed)
    (h : Copyable out fs src dest (.dir d)) (hmem : (name, e) ∈ d.entries) :
    Copyable out fs (join src name) (join dest name) e := by
  have hd : d.WellFormed := Directory.WellFormed.find? hwf h.entry
  have hname := (hd.of_mem hmem).1
  refine ⟨?_, ?_, ?_, ?_⟩
  · rw [locationOf_join_name hname]
    exact h.apart.below [name]
  · rw [locationOf_join_name hname, entry?_concat h.entry]
    exact hd.get?_eq_some_iff.2 hmem
  · rw [Steady, exitsOf_join_name hname]
    exact h.steady
  · rw [locationOf_join_name hname]
    exact h.below.trans (List.prefix_append _ _)

-- ---------------------------------------------------------------------------
-- Steps
-- ---------------------------------------------------------------------------

theorem copyEntry_file {fuel count : Nat} {contents : Contents}
    (h : copyEntry fuel src dest (.file contents) fs = .ok count after) :
    count = 1 ∧ ∃ copied, fs.read src = .ok copied ∧ fs.write dest copied = .ok after := by
  cases fuel with
  | zero => cases h
  | succ fuel =>
    rw [copyEntry, Step.get_bind] at h
    cases hread : fs.read src with
    | error e => simp only [hread] at h; cases h
    | ok copied =>
      simp only [hread] at h
      obtain ⟨_, _, hchange, hpure⟩ := Step.bind_eq_ok.1 h
      cases hpure
      exact ⟨rfl, copied, rfl, Step.change_eq_ok hchange⟩

theorem copyEntry_dir {fuel count : Nat} {d : Directory}
    (h : copyEntry (fuel + 1) src dest (.dir d) fs = .ok count after) :
    ∃ listed mid counts, fs.stat src = .ok (.dir listed) ∧ fs.makeDirs dest = (mid, none) ∧
      listed.entries.mapM (fun entry =>
        copyEntry fuel (join src entry.1) (join dest entry.1) entry.2) mid = .ok counts after ∧
      count = counts.foldl (· + ·) 0 := by
  rw [copyEntry, Step.get_bind] at h
  cases hstat : fs.stat src with
  | error e =>
    simp only [hstat] at h
    obtain ⟨_, _, -, hthrow⟩ := Step.bind_eq_ok.1 h
    cases hthrow
  | ok entry =>
    cases entry with
    | file contents => simp only [hstat] at h; cases h
    | dir listed =>
      simp only [hstat] at h
      obtain ⟨_, mid, hdirs, h⟩ := Step.bind_eq_ok.1 h
      obtain ⟨counts, _, hcopied, hpure⟩ := Step.bind_eq_ok.1 h
      cases hpure
      exact ⟨listed, mid, counts, rfl, Step.makeDirs_eq_ok hdirs, hcopied, rfl⟩

-- ---------------------------------------------------------------------------
-- Whole trees
-- ---------------------------------------------------------------------------

theorem becomes_copyFile {contents copied : Contents}
    (h : Copyable out fs src dest (.file contents)) (hread : fs.read src = .ok copied)
    (hwrite : fs.write dest copied = .ok after) :
    Becomes out fs after (withCopy (fs.locationOf dest) (.file contents) fs.fileAt?) := by
  obtain rfl : copied = contents := by
    have hfile := (read_eq_ok_iff.1 hread).2
    rw [fileAt?_eq_some_iff, h.entry] at hfile
    cases hfile
    rfl
  rw [withCopy_file]
  exact (places_write h.below hwrite).toBecomes

/-- The entries of a directory are copied one after another. -/
theorem becomes_copyEntries {copy : String × Entry → Step Nat} {entries : List (String × Entry)}
    {counts : List Nat}
    (hcopy : ∀ fs count after entry, entry ∈ entries → fs.WellFormed →
      Copyable out fs (join src entry.1) (join dest entry.1) entry.2 →
      copy entry fs = .ok count after →
      count = entry.2.files.length ∧
        Becomes out fs after (withCopy (fs.locationOf (join dest entry.1)) entry.2 fs.fileAt?))
    (hwf : fs.WellFormed) (hdest : fs.locationOf dest = target)
    (hentries : ∀ entry ∈ entries, IsName entry.1 ∧
      Copyable out fs (join src entry.1) (join dest entry.1) entry.2)
    (h : entries.mapM copy fs = .ok counts after) :
    counts = entries.map (fun entry => entry.2.files.length) ∧
      Becomes out fs after (entries.foldl
        (fun files entry => withCopy (target ++ [entry.1]) entry.2 files) fs.fileAt?) := by
  induction entries generalizing fs counts with
  | nil =>
    cases h
    exact ⟨rfl, becomes_refl out _⟩
  | cons entry entries ih =>
    rw [List.mapM_cons] at h
    obtain ⟨count, mid, hfirst, h⟩ := Step.bind_eq_ok.1 h
    obtain ⟨counts', _, hrest, hpure⟩ := Step.bind_eq_ok.1 h
    cases hpure
    obtain ⟨⟨hname, hcopyable⟩, hentries⟩ := List.forall_mem_cons.1 hentries
    obtain ⟨hcount, hmid⟩ := hcopy fs count mid entry List.mem_cons_self hwf hcopyable hfirst
    rw [locationOf_join_name hname, hdest] at hmid
    obtain ⟨hcounts, hafter⟩ := ih
      (fun fs count after entry hmem => hcopy fs count after entry (List.mem_cons_of_mem _ hmem))
      (hmid.wellFormed hwf) ((locationOf_congr hmid.cwd _).trans hdest)
      (fun entry hmem => ⟨(hentries entry hmem).1, (hentries entry hmem).2.of_keeps hmid.toKeeps⟩)
      hrest
    rw [hmid.files] at hafter
    exact ⟨by rw [hcount, hcounts, List.map_cons], hmid.toKeeps.becomes hafter⟩

theorem becomes_copyEntry {fuel count : Nat} (hwf : fs.WellFormed)
    (h : Copyable out fs src dest e) (hcopy : copyEntry fuel src dest e fs = .ok count after) :
    count = e.files.length ∧
      Becomes out fs after (withCopy (fs.locationOf dest) e fs.fileAt?) := by
  induction fuel generalizing fs src dest e count after with
  | zero => cases hcopy
  | succ fuel ih =>
    cases e with
    | file contents =>
      obtain ⟨rfl, copied, hread, hwrite⟩ := copyEntry_file hcopy
      exact ⟨rfl, becomes_copyFile h hread hwrite⟩
    | dir d =>
      obtain ⟨listed, mid, counts, hstat, hdirs, hcopied, rfl⟩ := copyEntry_dir hcopy
      have hentry := stat_eq_ok hstat
      rw [h.entry] at hentry
      cases hentry
      have hd : d.WellFormed := Directory.WellFormed.find? hwf h.entry
      have hmid : Becomes out fs mid fs.fileAt? := by
        have hmade := places_makeDirs (Towards.of_steady h.steady h.below)
        rw [hdirs] at hmade
        exact hmade.toBecomes
      have hwf' := hmid.wellFormed hwf
      obtain ⟨hcounts, hafter⟩ := becomes_copyEntries
        (fun _ _ _ _ _ hwf hcopyable hcopy => ih hwf hcopyable hcopy) hwf'
        (locationOf_congr hmid.cwd dest)
        (fun entry hmem => ⟨(hd.of_mem hmem).1, (h.of_keeps hmid.toKeeps).child hwf' hmem⟩) hcopied
      rw [hmid.files, ← withCopy_dir hd] at hafter
      exact ⟨by rw [hcounts, Entry.files, foldl_length_files, Nat.zero_add],
        hmid.toKeeps.becomes hafter⟩

-- ---------------------------------------------------------------------------
-- The copy of the hand-written declarations
-- ---------------------------------------------------------------------------

/-- The location of the copy. -/
def patchLocation (out : List String) : List String := out ++ ["patches"]

/-- The files after the files of a directory have replaced those of the copy. -/
def patchedFiles (out : List String) (d : Directory) (files : List String → Option Contents)
    (location : List String) : Option Contents :=
  if patchLocation out <+: location then
    (Entry.dir d).fileAt? (location.drop (patchLocation out).length)
  else files location

theorem withCopy_withoutFiles {d : Directory} :
    withCopy (patchLocation out) (.dir d) (withoutFiles files (patchLocation out)) =
      patchedFiles out d files := by
  funext location
  rw [withCopy, patchedFiles, withoutFiles]
  split
  · rw [Option.or_none]
  · rfl

variable {c : RunConfig} {dir : String} {count : Nat}

theorem isName_patches : IsName "patches" := by decide

theorem locationOf_patchTarget (hout : fs.locationOf c.outputDir = out) :
    fs.locationOf (patchTarget c) = patchLocation out := by
  rw [patchTarget, locationOf_join_name isName_patches, hout, patchLocation]

theorem patchTarget_ne_empty : patchTarget c ≠ "" := by
  intro h
  have hsteps : steps (patchTarget c) = steps c.outputDir ++ steps "patches" :=
    steps_join (isAbsolute_name isName_patches)
  rw [h, steps_name isName_patches] at hsteps
  simp [steps_eq] at hsteps

/-- What is in the place of the copy is found there when a directory can be made for the copy. -/
theorem pathExists_patchTarget {made : FileSystem} (hsteady : fs.Steady out c.outputDir)
    (hout : fs.locationOf c.outputDir = out)
    (hsome : (fs.entry? (patchLocation out)).isSome)
    (hmade : mid.makeDirs (patchTarget c ++ "/") = (made, none)) :
    fs.pathExists (patchTarget c) = true := by
  have hfollow : Followable (patchTarget c) :=
    (followable_of_makeDirs (by simp) hmade).of_append_slash patchTarget_ne_empty
  have hlocate : fs.locate (patchTarget c) = .ok (patchLocation out) := by
    rw [patchTarget, locate_join_name isName_patches (hout ▸ hasDir_of_isSome hsome)
      (fun exit hexit => (hsteady exit hexit).1) hfollow, hout, patchLocation]
  obtain ⟨entry, hentry⟩ := Option.isSome_iff_exists.1 hsome
  rw [pathExists, stat_eq]
  simp [hlocate, hentry, Except.isOk, Except.toBool]

/-- Whether a change leaves nothing in the place of the copy, and everything else as it was. -/
structure Cleared (out : List String) (before after : FileSystem) : Prop extends
    Becomes out before after (withoutFiles before.fileAt? (patchLocation out)) where
  none : after.entry? (patchLocation out) = none
  kept : ∀ location, ¬ patchLocation out <+: location → before.HasDir location →
    after.HasDir location

theorem cleared_of_none (h : fs.entry? (patchLocation out) = none) : Cleared out fs fs where
  toKeeps := .refl out fs
  files := by
    funext other
    rw [withoutFiles]
    split
    · rename_i hp
      obtain ⟨below, rfl⟩ := hp
      rw [fileAt?_append, h, Option.bind_none]
    · rfl
  none := h
  kept _ _ hdir := hdir

/-- What was in the place of the copy is removed. -/
theorem cleared_of_removeTree (hwf : fs.WellFormed) (hout : fs.locationOf c.outputDir = out)
    (h : fs.removeTree (patchTarget c) = .ok after) : Cleared out fs after := by
  rw [removeTree] at h
  cases hlocate : fs.locate (patchTarget c) with
  | error e => rw [hlocate] at h; cases h
  | ok location =>
    rw [hlocate] at h
    obtain rfl := (reached_of_locate hlocate).eq.trans (locationOf_patchTarget hout)
    dsimp only [bind, Except.bind] at h
    split at h
    · cases h
    · cases h
    · rename_i hentry
      cases h
      have hsome : (fs.entry? (out ++ ["patches"])).isSome := by
        rw [← patchLocation, hentry, Option.isSome_some]
      exact ⟨becomes_discard hwf hsome List.prefix_rfl,
        entry?_discard hwf (hasDir_of_isSome hsome) List.prefix_rfl,
        fun location hbeside hdir => (sameBeside_discard hbeside).hasDir_iff.2 hdir⟩

/-- What is removed is a directory. -/
theorem fileAt?_of_removeTree {path : String} (h : fs.removeTree path = .ok after) :
    fs.fileAt? (fs.locationOf path) = none := by
  rw [removeTree] at h
  cases hlocate : fs.locate path with
  | error e => rw [hlocate] at h; cases h
  | ok location =>
    rw [hlocate] at h
    obtain rfl := (reached_of_locate hlocate).eq
    dsimp only [bind, Except.bind] at h
    split at h
    · cases h
    · cases h
    · rename_i hentry
      exact HasDir.fileAt? ⟨_, hentry⟩

theorem copyTree_eq_ok (h : copyTree src dest fs = .ok count after) :
    ∃ entry, fs.stat src = .ok entry ∧
      copyEntry (maxPathBytes + 1) src dest entry fs = .ok count after := by
  rw [copyTree, Step.get_bind] at h
  cases hstat : fs.stat src with
  | error e => simp only [hstat] at h; cases h
  | ok entry => exact ⟨entry, rfl, by simpa only [hstat] using h⟩

theorem copyPatches_of_isSome {d : Directory} (hdir : fs.directory? dir = some d)
    (h : copyPatches c dir fs = .ok count after) :
    ∃ mid, (fs.pathExists (patchTarget c) = false ∧ mid = fs ∨
        fs.removeTree (patchTarget c) = .ok mid) ∧
      copyTree dir (patchTarget c ++ "/") mid = .ok count after := by
  rw [copyPatches, Step.get_bind] at h
  simp only [isDir, hdir, Option.isSome_some, Bool.not_true, Bool.false_eq_true, if_false,
    Step.get_bind] at h
  cases hexists : fs.pathExists (patchTarget c) with
  | true =>
    simp only [hexists, if_true] at h
    obtain ⟨_, mid, hchange, h⟩ := Step.bind_eq_ok.1 h
    exact ⟨mid, .inr (Step.change_eq_ok hchange), h⟩
  | false =>
    simp only [hexists, Bool.false_eq_true, if_false] at h
    exact ⟨fs, .inl ⟨rfl, rfl⟩, h⟩

/-- What replacing the copy by the files of a directory does. -/
structure Copied (out : List String) (d : Directory) (before after : FileSystem) : Prop extends
    Becomes out before after (patchedFiles out d before.fileAt?) where
  kept : ∀ location, ¬ patchLocation out <+: location → before.HasDir location →
    after.HasDir location

theorem Cleared.copied {d : Directory} {fuel : Nat} (hwf : fs.WellFormed)
    (hsteady : fs.Steady out c.outputDir) (hout : fs.locationOf c.outputDir = out)
    (hapart : Apart (fs.locationOf dir) out) (hdir : fs.directory? dir = some d)
    (h : Cleared out fs mid)
    (hcopy : copyEntry fuel dir (patchTarget c ++ "/") (.dir d) mid = .ok count after) :
    count = d.files.length ∧ Copied out d fs after := by
  have hbelow : out <+: patchLocation out := List.prefix_append _ _
  have hlocation : mid.locationOf (patchTarget c ++ "/") = patchLocation out := by
    rw [locationOf_append_slash patchTarget_ne_empty,
      locationOf_patchTarget ((locationOf_congr h.cwd _).trans hout)]
  have hcopyable : Copyable (patchLocation out) mid dir (patchTarget c ++ "/") (.dir d) := by
    refine ⟨?_, ?_, fun exit hexit => ?_, by rw [hlocation]⟩
    · rw [locationOf_congr h.cwd]
      exact (hapart.symm.below ["patches"]).symm
    · rw [locationOf_congr h.cwd, h.apart _ hapart]
      exact directory?_eq_some hdir
    · rw [exitsOf_append_slash patchTarget_ne_empty, patchTarget,
        exitsOf_join_name isName_patches] at hexit
      obtain ⟨hexitDir, hexitOut⟩ := hsteady.of_keeps h.toKeeps exit hexit
      refine ⟨hexitDir, fun hp => ?_⟩
      obtain rfl := hexitOut (hbelow.trans hp)
      exact hbelow.eq_of_length_le hp.length_le
  obtain ⟨hcount, hcopied⟩ := becomes_copyEntry (h.wellFormed hwf) hcopyable hcopy
  rw [hlocation, h.files, withCopy_withoutFiles] at hcopied
  refine ⟨hcount, ⟨h.toKeeps.trans (hcopied.toKeeps.of_below hbelow), hcopied.files⟩,
    fun location hbeside hdir => ?_⟩
  exact hcopied.dirs location (fun hp => absurd hp hbeside) (h.kept location hbeside hdir)

/-- A directory of hand-written declarations replaces its copy, which its path does not lead
through; without one nothing happens. -/
theorem copyPatches_eq_ok (hwf : fs.WellFormed) (hsteady : fs.Steady out c.outputDir)
    (hout : fs.locationOf c.outputDir = out) (hapart : Apart (fs.locationOf dir) out)
    (h : copyPatches c dir fs = .ok count after) :
    fs.directory? dir = none ∧ count = 0 ∧ after = fs ∨
      ∃ d, fs.directory? dir = some d ∧ count = d.files.length ∧ Copied out d fs after ∧
        ∀ exit ∈ fs.exitsOf dir, fs.HasDir exit ∧ ¬ patchLocation out <+: exit := by
  cases hdir : fs.directory? dir with
  | none =>
    rw [copyPatches, Step.get_bind] at h
    simp only [isDir, hdir] at h
    cases h
    exact .inl ⟨rfl, rfl, rfl⟩
  | some d =>
    refine .inr ⟨d, rfl, ?_⟩
    obtain ⟨mid, hremoved, hcopy⟩ := copyPatches_of_isSome hdir h
    obtain ⟨entry, hstat, hcopy⟩ := copyTree_eq_ok hcopy
    have hkeeps : Keeps out fs mid := by
      rcases hremoved with ⟨-, rfl⟩ | hremoved
      · exact .refl out mid
      · exact (cleared_of_removeTree hwf hout hremoved).toKeeps
    obtain rfl : entry = .dir d := by
      have hentry := stat_eq_ok hstat
      rw [locationOf_congr hkeeps.cwd, hkeeps.apart _ hapart, directory?_eq_some hdir] at hentry
      exact (Option.some.inj hentry).symm
    have hcleared : Cleared out fs mid := by
      rcases hremoved with ⟨hmissing, rfl⟩ | hremoved
      · refine cleared_of_none (Option.not_isSome_iff_eq_none.1 fun hsome => ?_)
        obtain ⟨-, made, -, -, hmade, -⟩ := copyEntry_dir hcopy
        rw [pathExists_patchTarget hsteady hout hsome hmade] at hmissing
        cases hmissing
      · exact cleared_of_removeTree hwf hout hremoved
    obtain ⟨hcount, hcopied⟩ := hcleared.copied hwf hsteady hout hapart hdir hcopy
    refine ⟨hcount, hcopied, fun exit hexit => ⟨?_, fun hp => ?_⟩⟩
    · exact hasDir_exits_of_stat (stat_of_directory? hdir) exit hexit
    · have hexitDir := hasDir_exits_of_stat hstat exit (by rwa [exitsOf_congr hkeeps.cwd])
      obtain ⟨e, he⟩ := hexitDir.of_below hp
      rw [hcleared.none] at he
      cases he

end Typings
