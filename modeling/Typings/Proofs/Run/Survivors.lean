import Typings.Proofs.Run.Cleaning

/-!
# What survives cleaning

Cleaning gives the number of files it takes away. The files that are left in the output directory
are exactly those that are no declarations or are preserved, and a directory below it is left
exactly if one of them is in it.
-/

namespace Typings

open Typings.FileSystem Typings.Path

variable {c : RunConfig} {out location : List String} {fs after : FileSystem} {path : String}
  {d : Directory} {count : Nat}

-- ---------------------------------------------------------------------------
-- The number of files
-- ---------------------------------------------------------------------------

theorem RunConfig.isCleanedAt_concat (above : List String) (name : String) :
    c.isCleanedAt (above ++ [name]) = c.isCleaned name := by
  rw [isCleanedAt, List.getLast?_concat, Option.any_some]

/-- Only the name of the file itself counts. -/
theorem RunConfig.isCleanedAt_cons {name : String} {names : List String} (h : names ≠ []) :
    c.isCleanedAt (name :: names) = c.isCleanedAt names := by
  obtain ⟨first, rest, rfl⟩ := List.exists_cons_of_ne_nil h
  rfl

/-- The number of files to be cleaned in a directory. -/
def Directory.cleanedCount (c : RunConfig) (d : Directory) : Nat :=
  d.files.countP fun file => c.isCleanedAt file.1

theorem Directory.cleanedCount_file {name : String} {contents : Contents} {rest : Directory} :
    (Directory.file name contents rest).cleanedCount c =
      (if c.isCleaned name then 1 else 0) + rest.cleanedCount c := by
  rw [cleanedCount, files, List.countP_cons, Nat.add_comm]
  rfl

theorem Directory.cleanedCount_sub {name : String} {inside rest : Directory} :
    (Directory.sub name inside rest).cleanedCount c =
      inside.cleanedCount c + rest.cleanedCount c := by
  rw [cleanedCount, files, List.countP_append, List.countP_map]
  congr 1
  refine List.countP_congr fun file hfile => ?_
  rw [Function.comp_apply, RunConfig.isCleanedAt_cons (ne_nil_of_mem_files hfile)]

/-- Cleaning a directory gives the number of files that were to be cleaned in it. -/
theorem cleanBelow_count (h : cleanBelow c path location d fs = .ok count after) :
    count = d.cleanedCount c := by
  induction d generalizing fs after path location count with
  | empty =>
    cases h
    rfl
  | file name contents rest ih =>
    rw [cleanBelow] at h
    obtain ⟨first, mid, hfirst, h⟩ := Step.bind_eq_ok.1 h
    obtain ⟨others, last, hothers, hpure⟩ := Step.bind_eq_ok.1 h
    cases hpure
    rw [Directory.cleanedCount_file, ← ih hothers, (cleanFile_eq_ok hfirst).2]
  | sub name inside rest ihInside ihRest =>
    rw [cleanBelow] at h
    obtain ⟨first, mid, hfirst, h⟩ := Step.bind_eq_ok.1 h
    obtain ⟨others, last, hothers, hpure⟩ := Step.bind_eq_ok.1 h
    cases hpure
    obtain ⟨_, _, hinside, -⟩ := cleanDir_eq_ok hfirst
    rw [Directory.cleanedCount_sub, ← ihRest hothers, ← ihInside hinside]

-- ---------------------------------------------------------------------------
-- What survives
-- ---------------------------------------------------------------------------

/-- What is left after cleaning the directory at `out`, when `count` files are gone. -/
structure Survivors (c : RunConfig) (out : List String) (before after : FileSystem)
    (count : Nat) : Prop where
  /-- The files that are left are those that are no declarations or are preserved. -/
  files : ∀ above name contents, after.fileAt? (out ++ above ++ [name]) = some contents ↔
    before.fileAt? (out ++ above ++ [name]) = some contents ∧
      ((¬ ∃ stem : String, name = stem ++ ".d.ts") ∨ name ∈ c.preservedFiles)
  /-- The number given is that of the files which are gone. -/
  removed : ∃ gone : List (List String), gone.Nodup ∧ gone.length = count ∧
    ∀ location, location ∈ gone ↔
      (before.fileAt? location).isSome ∧ after.fileAt? location = none
  /-- The directories that are left are those with a file that is left. -/
  dirs : ∀ below ≠ [], after.HasDir (out ++ below) ↔ before.HasDir (out ++ below) ∧
    ∃ rest contents, after.fileAt? (out ++ below ++ rest) = some contents
  root : after.HasDir out
  /-- Everything outside is as it was. -/
  outside : ∀ location, ¬ out <+: location →
    after.fileAt? location = before.fileAt? location ∧
      (after.HasDir location ↔ before.HasDir location)
  cwd : after.cwd = before.cwd

theorem Cleaned.file_iff {before : FileSystem} (h : Cleaned c out before after)
    (above : List String) (name : String) (contents : Contents) :
    after.fileAt? (out ++ above ++ [name]) = some contents ↔
      before.fileAt? (out ++ above ++ [name]) = some contents ∧ ¬ c.isCleaned name := by
  rw [h.files, cleanedFiles, List.append_assoc, List.drop_left, c.isCleanedAt_concat]
  simp [List.prefix_append, and_comm]

theorem Cleaned.dir_iff {before : FileSystem} (h : Cleaned c out before after)
    {below : List String} (hne : below ≠ []) :
    after.HasDir (out ++ below) ↔ before.HasDir (out ++ below) ∧
      ∃ rest contents, after.fileAt? (out ++ below ++ rest) = some contents := by
  constructor
  · intro hdir
    exact ⟨h.hasDir_of _ hdir, h.filled _ (List.prefix_append _ _) (by simpa using hne) hdir⟩
  · rintro ⟨hdir, rest, contents, hfile⟩
    refine hasDir_of_fileAt? (by rw [hfile, Option.isSome_some]) (List.prefix_append _ rest) ?_
    -- the file is not at the place of the directory itself
    intro heq
    rw [← heq, h.files, cleanedFiles, hdir.fileAt?, ite_self] at hfile
    cases hfile

/-- The files that cleaning takes away, each of them once. -/
theorem Cleaned.exists_gone {before : FileSystem} (h : Cleaned c out before after)
    (hd : d.WellFormed) (hentry : before.entry? out = some (.dir d)) :
    ∃ gone : List (List String), gone.Nodup ∧ gone.length = d.cleanedCount c ∧
      ∀ location, location ∈ gone ↔
        (before.fileAt? location).isSome ∧ after.fileAt? location = none := by
  refine ⟨(d.files.filter fun file => c.isCleanedAt file.1).map (out ++ ·.1), ?_, ?_, ?_⟩
  · have hways : ((d.files.filter fun file => c.isCleanedAt file.1).map (·.1)).Nodup :=
      hd.nodup_files.sublist (List.filter_sublist.map _)
    have hnodup := hways.map (List.append_right_injective out)
    rwa [List.map_map] at hnodup
  · rw [List.length_map, Directory.cleanedCount, List.countP_eq_length_filter]
  · intro location
    rw [h.files, cleanedFiles, List.mem_map]
    constructor
    · rintro ⟨⟨way, contents⟩, hmem, rfl⟩
      obtain ⟨hfile, hcleaned⟩ := List.mem_filter.1 hmem
      have hbefore : before.fileAt? (out ++ way) = some contents := by
        rw [fileAt?_append, hentry, Option.bind_some, Entry.fileAt?, Entry.find?_dir,
          hd.mem_files_iff.1 hfile]
      rw [hbefore, List.drop_left, if_pos ⟨List.prefix_append _ _, hcleaned⟩]
      exact ⟨rfl, rfl⟩
    · rintro ⟨hsome, hnone⟩
      obtain ⟨contents, hfile⟩ := Option.isSome_iff_exists.1 hsome
      rw [hfile, ite_eq_left_iff] at hnone
      obtain ⟨⟨way, rfl⟩, hcleaned⟩ := not_imp_comm.1 hnone (by simp)
      rw [List.drop_left] at hcleaned
      rw [fileAt?_append, hentry, Option.bind_some, Entry.fileAt?, Entry.find?_dir] at hfile
      exact ⟨⟨way, contents⟩, List.mem_filter.2 ⟨hd.mem_files_iff.2 hfile, hcleaned⟩, rfl⟩

theorem Cleaned.outside {before : FileSystem} (h : Cleaned c out before after)
    (hout : ¬ out <+: location) :
    after.fileAt? location = before.fileAt? location ∧
      (after.HasDir location ↔ before.HasDir location) := by
  refine ⟨?_, h.hasDir_of location, h.dirs location fun hp => absurd hp hout⟩
  rw [h.files, cleanedFiles, if_neg fun hbelow => hout hbelow.1]

/-- Cleaning takes away exactly the declarations that are not preserved and the directories without
a file that is left, and gives the number of the files. -/
theorem cleanOutput_survivors (hwf : fs.WellFormed) (hdir : fs.isDir c.outputDir = true)
    (h : cleanOutput c fs = .ok count after) :
    Survivors c (fs.locationOf c.outputDir) fs after count := by
  obtain ⟨-, hcleaned⟩ | ⟨hnone, -⟩ := cleanOutput_eq_ok hwf rfl h
  swap
  · rw [hdir] at hnone
    cases hnone
  obtain ⟨-, d, hentry, hbelow⟩ | ⟨hnone, -⟩ := cleanOutput_cases rfl h
  swap
  · rw [hdir] at hnone
    cases hnone
  have hd : d.WellFormed := Directory.WellFormed.find? hwf hentry
  refine ⟨fun above name contents => ?files, ?removed, fun _ => hcleaned.dir_iff, ?root,
    fun _ => hcleaned.outside, hcleaned.cwd⟩
  case files =>
    rw [hcleaned.file_iff, c.isCleaned_iff]
    tauto
  case removed =>
    rw [cleanBelow_count hbelow]
    exact hcleaned.exists_gone hd hentry
  case root => exact hcleaned.dirs _ (fun _ => rfl) ⟨d, hentry⟩

/-- An output directory with declarations, hand-written files and preserved ones at several depths,
and a directory with the name of a declaration. -/
def sweptFiles : FileSystem where
  root :=
    .sub "lib"
      (.file "Beside.d.ts" (.text "beside")
        (.sub "out"
          (.file "A.d.ts" (.text "a")
            (.sub "empty" (.sub "inner" .empty .empty)
              (.sub "hand"
                (.file "B.d.ts" (.text "b") (.file "notes.txt" (.text "mine") .empty))
                (.sub "raw" (.sub "deep" (.file "minecraft-raw.d.ts" (.text "raw") .empty) .empty)
                  (.sub "stale.d.ts" (.file "C.d.ts" (.text "c") .empty) .empty)))))
          .empty))
      .empty

def sweptConfig : RunConfig where
  sourceDirs := ["src"]
  outputDir := "lib/out"

/-- The files of `sweptFiles` after cleaning. -/
def sweptCleaned : FileSystem where
  root :=
    .sub "lib"
      (.file "Beside.d.ts" (.text "beside")
        (.sub "out"
          (.sub "hand" (.file "notes.txt" (.text "mine") .empty)
            (.sub "raw" (.sub "deep" (.file "minecraft-raw.d.ts" (.text "raw") .empty) .empty)
              .empty))
          .empty))
      .empty

theorem cleanOutput_survivors_sweptFiles :
    sweptFiles.WellFormed ∧ sweptFiles.isDir sweptConfig.outputDir = true ∧
      cleanOutput sweptConfig sweptFiles = .ok 3 sweptCleaned ∧
      Survivors sweptConfig (sweptFiles.locationOf sweptConfig.outputDir) sweptFiles
        sweptCleaned 3 := by
  have hwf : sweptFiles.WellFormed := by decide +kernel
  have hdir : sweptFiles.isDir sweptConfig.outputDir = true := by decide +kernel
  have hclean : cleanOutput sweptConfig sweptFiles = .ok 3 sweptCleaned := by decide +kernel
  exact ⟨hwf, hdir, hclean, cleanOutput_survivors hwf hdir hclean⟩

end Typings
