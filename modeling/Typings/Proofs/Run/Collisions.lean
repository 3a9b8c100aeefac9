import Typings.Proofs.Run.Placement

/-!
# Files at different places

Below one source directory, different Java files have declaration files at different places. So all
files that a run writes are at different places exactly when neither the index nor the hooks file is
at the place of the other or of a declaration file, and then each of them is as it was written when
the last one has been written.
-/

namespace Typings

open Typings.FileSystem Typings.Path Typings.Step

variable {d : Directory} {dir : String} {way other : List String}

-- ---------------------------------------------------------------------------
-- The ways to Java files
-- ---------------------------------------------------------------------------

/-- The names on the way to a Java file. -/
structure IsJavaWay (way : List String) : Prop where
  isName : ∀ name ∈ way, IsName name
  java : ∃ above name, way = above ++ [name] ∧ isJavaPath name = true

theorem Directory.WellFormed.isJavaWay (h : d.WellFormed) (hmem : way ∈ d.javaFiles) :
    IsJavaWay way := by
  obtain ⟨contents, hfile⟩ := exists_of_mem_javaFiles hmem
  refine ⟨h.isName_of_mem_files hfile, ?_⟩
  rw [javaFiles, (Order.sort_perm _ _).mem_iff, List.mem_filter] at hmem
  rcases List.eq_nil_or_concat way with rfl | ⟨above, name, rfl⟩
  · cases hmem.2
  · refine ⟨above, name, List.concat_eq_append, ?_⟩
    simp_all

theorem Directory.WellFormed.nodup_javaFiles (h : d.WellFormed) : d.javaFiles.Nodup :=
  (Order.sort_perm _ _).nodup_iff.2 (h.nodup_files.filter _)

namespace IsJavaWay

theorem ne_nil (h : IsJavaWay way) : way ≠ [] := by
  obtain ⟨above, name, rfl, -⟩ := h.java
  simp

theorem splitOn_intercalate (h : IsJavaWay way) :
    (['/'].intercalate (way.map String.toList)).splitOn '/' = way.map String.toList := by
  refine List.splitOn_intercalate '/' (fun s hs => ?_) (by simpa using h.ne_nil)
  obtain ⟨name, hname, rfl⟩ := List.mem_map.1 hs
  exact (h.isName name hname).2.2.2

/-- Every name on the way counts for the name of the declaration file. -/
theorem segments_eq (h : IsJavaWay way) :
    (ModulePath.segments (String.intercalate "/" way).toList).filter (· ≠ ['.', '.']) =
      way.map String.toList := by
  have hplain : ∀ s ∈ way.map String.toList, s ≠ [] ∧ s ≠ ['.'] ∧ s ≠ ['.', '.'] := by
    intro s hs
    obtain ⟨name, hname, rfl⟩ := List.mem_map.1 hs
    obtain ⟨hempty, hdot, hdots, -⟩ := h.isName name hname
    refine ⟨fun heq => hempty ?_, fun heq => hdot ?_, fun heq => hdots ?_⟩ <;>
      exact String.toList_injective heq
  have hsegments : ModulePath.segments (String.intercalate "/" way).toList =
      way.map String.toList := by
    rw [ModulePath.segments, String.toList_intercalate, show "/".toList = ['/'] from rfl,
      h.splitOn_intercalate]
    exact List.filter_eq_self.2 fun s hs => by simp [(hplain s hs).1, (hplain s hs).2.1]
  rw [hsegments]
  exact List.filter_eq_self.2 fun s hs => by simp [(hplain s hs).2.2]

/-- The declaration file is named for the way, with its own ending in place of that of the Java
file. -/
theorem toList_ofSource (h : IsJavaWay way) :
    ∃ body, ['/'].intercalate (way.map String.toList) = body ++ ".java".toList ∧
      (ModulePath.ofSource (String.intercalate "/" way)).toList =
        body ++ ModulePath.extension.toList := by
  obtain ⟨above, name, hway, hjava⟩ := h.java
  obtain ⟨stem, hstem⟩ := toList_of_isJavaPath (h.isName name (by simp [hway])) hjava
  obtain ⟨body, hbody⟩ : ∃ body, ['/'].intercalate (way.map String.toList) =
      body ++ ".java".toList := by
    rw [hway, List.map_append, List.map_singleton, hstem]
    cases above with
    | nil => exact ⟨stem, by simp⟩
    | cons first above =>
      refine ⟨['/'].intercalate ((first :: above).map String.toList) ++ ['/'] ++ stem, ?_⟩
      rw [Text.intercalate_append (by simp) (by simp)]
      simp
  have hbefore := Text.beforeSuffix?_eq_some_iff.2 hbody
  refine ⟨body, hbody, ?_⟩
  rw [ModulePath.ofSource, h.segments_eq, hbefore]
  simp

/-- Different Java files below one source directory have different declaration files. -/
theorem eq_of_ofSource (h : IsJavaWay way) (hother : IsJavaWay other)
    (heq : ModulePath.ofSource (String.intercalate "/" way) =
      ModulePath.ofSource (String.intercalate "/" other)) : way = other := by
  obtain ⟨body, hbody, htext⟩ := h.toList_ofSource
  obtain ⟨body', hbody', htext'⟩ := hother.toList_ofSource
  have hsame : body = body' :=
    List.append_cancel_right (htext.symm.trans ((congrArg String.toList heq).trans htext'))
  have hjoined : ['/'].intercalate (way.map String.toList) =
      ['/'].intercalate (other.map String.toList) := by
    rw [hbody, hbody', hsame]
  refine List.map_injective_iff.2 (fun _ _ => String.toList_injective) ?_
  rw [← h.splitOn_intercalate, ← hother.splitOn_intercalate, hjoined]

end IsJavaWay

theorem steps_pathBelow (h : ∀ name ∈ way, IsName name) :
    steps (pathBelow dir way) = steps dir ++ way.map fun name => .name name.toList := by
  induction way generalizing dir with
  | nil => simp [pathBelow]
  | cons name way ih =>
    rw [List.forall_mem_cons] at h
    have hrest := @ih (join dir name) h.2
    rw [steps_join (isAbsolute_name h.1), steps_name h.1, List.append_assoc] at hrest
    exact hrest

/-- Different Java files below one source directory have paths that can be told apart. -/
theorem IsJavaWay.eq_of_components (h : IsJavaWay way) (hother : IsJavaWay other)
    (heq : components (pathBelow dir way) = components (pathBelow dir other)) : way = other := by
  have hsteps : steps (pathBelow dir way) = steps (pathBelow dir other) := by
    rw [← filter_components, ← filter_components, heq]
  rw [steps_pathBelow h.isName, steps_pathBelow hother.isName] at hsteps
  refine List.map_injective_iff.2 (fun name name' hname => ?_) (List.append_cancel_left hsteps)
  exact String.toList_injective (Component.name.inj hname)

-- ---------------------------------------------------------------------------
-- One source directory
-- ---------------------------------------------------------------------------

variable {c : RunConfig} {fs start after : FileSystem} {sources : List SourcePath}
  {ways : List (List String)}

theorem discover_single (hwf : fs.WellFormed) (hroot : c.sourceDirs = [dir])
    (hdir : fs.isDir dir = true) (h : discover c fs = .ok sources start) :
    ∃ ways : List (List String), ways.Nodup ∧ (∀ way ∈ ways, IsJavaWay way) ∧
      sources = ways.map (.below dir) := by
  have hwf' := (spares_discover hwf h).wellFormed hwf
  obtain ⟨-, found, hfound, rfl⟩ := discover_eq_ok h
  rw [hroot, List.filter_cons_of_pos hdir, List.filter_nil, List.mapM_cons] at hfound
  cases hsources : start.sourcePaths dir with
  | error e => rw [hsources] at hfound; cases hfound
  | ok sources =>
    rw [hsources] at hfound
    obtain rfl : [sources] = found := Except.ok.inj hfound
    rw [List.flatten_singleton, sourcePaths_eq_ok hsources]
    cases hfound : start.directory? dir with
    | none => exact ⟨[], List.nodup_nil, by simp, rfl⟩
    | some d =>
      have hd : d.WellFormed := Directory.WellFormed.find? hwf' (directory?_eq_some hfound)
      exact ⟨d.javaFiles, hd.nodup_javaFiles, fun way hway => hd.isJavaWay hway, rfl⟩

/-- Below one source directory, every Java file has the place that its own way gives. -/
theorem outputFor?_below (h : ∀ way ∈ ways, IsJavaWay way) (hway : way ∈ ways) :
    outputFor? (ways.map (.below dir)) (SourcePath.below dir way).path =
      some (SourcePath.below dir way).output := by
  obtain ⟨output, houtput⟩ := Option.isSome_iff_exists.1
    (isSome_outputFor? (List.mem_map_of_mem (f := SourcePath.below dir) hway))
  obtain ⟨s, hs, hcomponents, rfl⟩ := mem_of_outputFor? houtput
  obtain ⟨way', hway', rfl⟩ := List.mem_map.1 hs
  rw [houtput, (h way' hway').eq_of_components (h way hway) hcomponents]

theorem nodup_declarations (hways : ways.Nodup) (h : ∀ way ∈ ways, IsJavaWay way) :
    (((ways.map (.below dir)).filterMap (SourcePath.declaration? c start)).map fun file =>
      c.placeOf fs file.path).Nodup := by
  rw [List.Nodup, List.pairwise_map, List.pairwise_filterMap, List.pairwise_map]
  refine hways.imp_of_mem fun hway hother hne file hfile file' hfile' hplace => hne ?_
  rw [SourcePath.path_of_declaration? hfile, SourcePath.path_of_declaration? hfile'] at hplace
  have houtput := eq_of_placeOf (ModulePath.plain_ofSource _) (ModulePath.plain_ofSource _) hplace
  exact (h _ hway).eq_of_ofSource (h _ hother) houtput

/-- With one source directory, the files that a run writes are at different places exactly when the
index and the hooks file are, and neither is at the place of a declaration file. Then each of them
is as it was written when all have been written. -/
theorem run_writes_apart_iff (hwf : fs.WellFormed) (hroot : c.sourceDirs = [dir])
    (hdir : fs.isDir dir = true) (hdiscover : discover c fs = .ok sources start) :
    (planOf c start sources).outputs = sources.filterMap (SourcePath.declaration? c start) ++
        [(catalogOf c start sources).indexFile, (catalogOf c start sources).hooksFile] ∧
      (((planOf c start sources).outputs.map fun file => c.placeOf fs file.path).Nodup ↔
        c.placeOf fs c.indexFile ≠ c.placeOf fs c.hooksFile ∧
          ∀ s ∈ sources, (s.declaration? c start).isSome →
            c.placeOf fs s.output ≠ c.placeOf fs c.indexFile ∧
              c.placeOf fs s.output ≠ c.placeOf fs c.hooksFile) ∧
      ∀ r after, run c fs = .ok r after → ∃ written patches,
        (planOf c start sources).outputs.forM (writeOutput c) start = .ok () written ∧
          copyAllPatches c written = .ok patches after ∧
          (((planOf c start sources).outputs.map fun file => c.placeOf fs file.path).Nodup →
            ∀ file ∈ (planOf c start sources).outputs,
              written.read (join c.outputDir file.path) = .ok (.text file.contents)) := by
  obtain ⟨ways, hways, hjava, rfl⟩ := discover_single hwf hroot hdir hdiscover
  have houtputs : (planOf c start (ways.map (.below dir))).outputs =
      (ways.map (.below dir)).filterMap (SourcePath.declaration? c start) ++
        [(catalogOf c start (ways.map (.below dir))).indexFile,
          (catalogOf c start (ways.map (.below dir))).hooksFile] := by
    rw [planOf_outputs]
    congr 1
    refine List.filterMap_congr fun s hs => ?_
    obtain ⟨way, hway, rfl⟩ := List.mem_map.1 hs
    rw [outputFor?_below hjava hway]
    rfl
  refine ⟨houtputs, ?_, fun r after hrun => ?_⟩
  · rw [houtputs, List.map_append, List.nodup_append]
    simp only [List.map_cons, List.map_nil, path_indexFile_catalogOf, path_hooksFile_catalogOf]
    constructor
    · rintro ⟨-, hpair, hbeside⟩
      refine ⟨by simpa using hpair, fun s hs hsome => ?_⟩
      obtain ⟨file, hfile⟩ := Option.isSome_iff_exists.1 hsome
      rw [← SourcePath.path_of_declaration? hfile]
      have hmem := List.mem_map_of_mem (f := fun file : OutputFile => c.placeOf fs file.path)
        (List.mem_filterMap.2 ⟨s, hs, hfile⟩)
      exact ⟨hbeside _ hmem _ (by simp), hbeside _ hmem _ (by simp)⟩
    · rintro ⟨hpair, hbeside⟩
      refine ⟨nodup_declarations hways hjava, by simpa using hpair, ?_⟩
      intro place hplace last hlast
      obtain ⟨file, hfile, rfl⟩ := List.mem_map.1 hplace
      obtain ⟨s, hs, hdeclared⟩ := List.mem_filterMap.1 hfile
      rw [SourcePath.path_of_declaration? hdeclared]
      obtain ⟨hindex, hhooks⟩ := hbeside s hs (by rw [hdeclared, Option.isSome_some])
      rcases List.mem_pair.1 hlast with rfl | rfl
      · exact hindex
      · exact hhooks
  · obtain ⟨_, start', sources', written, patches, -, hdiscover', hwritten, hcopied, -⟩ :=
      run_stages hrun ⟨dir, by simp [hroot], hdir⟩
    obtain ⟨rfl, rfl⟩ : ways.map (.below dir) = sources' ∧ start = start' := by
      simpa [hdiscover] using hdiscover'
    refine ⟨written, patches, hwritten, hcopied, fun hnodup file hfile => ?_⟩
    have hcwd := (spares_discover hwf hdiscover).cwd
    refine read_of_forM hwritten hfile fun other hother hplace => ?_
    rw [placeOf_congr hcwd, placeOf_congr hcwd] at hplace
    rw [List.inj_on_of_nodup_map hnodup hother hfile hplace]

/-- Two Java files of one name, and one that cannot be read. -/
def namesakeFiles : FileSystem where
  root :=
    .sub "src"
      (.file "A.java" (.text "public class A{}")
        (.file "Bad.java" (.bytes [255])
          (.sub "b" (.file "A.java" (.text "public interface A{}") .empty) .empty))) .empty

def namesakeConfig : RunConfig where
  sourceDirs := ["src"]
  outputDir := "out"
  hookReferences := []

/-- The index is to be in the hooks file, under another spelling of its name. -/
def collidingConfig : RunConfig := { namesakeConfig with indexFile := "./hooks.d.ts" }

/-- The files of a run are at different places. With another spelling for the name of the index they
are not, though the names differ. -/
theorem run_writes_apart_iff_namesakeFiles :
    namesakeFiles.WellFormed ∧ namesakeConfig.Valid ∧ collidingConfig.Valid ∧
      ∃ sources written,
        discover namesakeConfig namesakeFiles = .ok sources namesakeFiles ∧
        discover collidingConfig namesakeFiles = .ok sources namesakeFiles ∧
        sources.map (·.output) = ["A.d.ts", "Bad.d.ts", "b/A.d.ts"] ∧
        (planOf namesakeConfig namesakeFiles sources).outputs.forM (writeOutput namesakeConfig)
          namesakeFiles = .ok () written ∧
        (∀ file ∈ (planOf namesakeConfig namesakeFiles sources).outputs,
          written.read (join "out" file.path) = .ok (.text file.contents)) ∧
        ¬ ((planOf collidingConfig namesakeFiles sources).outputs.map fun file =>
          collidingConfig.placeOf namesakeFiles file.path).Nodup := by
  have hwf : namesakeFiles.WellFormed := by decide +kernel
  have hdir : namesakeFiles.isDir "src" = true := by decide +kernel
  let sources : List SourcePath :=
    [⟨"src/A.java", "A.d.ts"⟩, ⟨"src/Bad.java", "Bad.d.ts"⟩, ⟨"src/b/A.java", "b/A.d.ts"⟩]
  have hdiscover : discover namesakeConfig namesakeFiles = .ok sources namesakeFiles := by
    decide +kernel
  have hdiscover' : discover collidingConfig namesakeFiles = .ok sources namesakeFiles := by
    decide +kernel
  obtain ⟨-, hiff, hwrites⟩ := run_writes_apart_iff hwf rfl hdir hdiscover
  obtain ⟨-, hiff', -⟩ := run_writes_apart_iff hwf rfl hdir hdiscover'
  have hplaces : ∀ s ∈ sources,
      namesakeConfig.placeOf namesakeFiles s.output ≠
          namesakeConfig.placeOf namesakeFiles namesakeConfig.indexFile ∧
        namesakeConfig.placeOf namesakeFiles s.output ≠
          namesakeConfig.placeOf namesakeFiles namesakeConfig.hooksFile := by
    decide +kernel
  have hapart := hiff.2 ⟨by decide +kernel, fun s hs _ => hplaces s hs⟩
  have hcollide : collidingConfig.placeOf namesakeFiles collidingConfig.indexFile =
      collidingConfig.placeOf namesakeFiles collidingConfig.hooksFile := by
    decide +kernel
  have hok : (match run namesakeConfig namesakeFiles with
      | .ok _ _ => true
      | .error _ _ => false) = true := by
    decide +kernel
  cases hrun : run namesakeConfig namesakeFiles with
  | error e fs => rw [hrun] at hok; cases hok
  | ok r after =>
    obtain ⟨written, patches, hwritten, -, hread⟩ := hwrites r after hrun
    exact ⟨hwf, by decide, by decide, sources, written, hdiscover, hdiscover', rfl, hwritten,
      hread hapart, fun hnodup => (hiff'.1 hnodup).1 hcollide⟩

end Typings
