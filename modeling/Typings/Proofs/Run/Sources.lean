import Typings.Proofs.FileSystem.Changes
import Typings.Proofs.Project.Workers
import Typings.Proofs.Run.Writing
import Typings.Proofs.Text.Splitting

/-!
# What a run reads

The Java files of a source directory apart from the output directory are found and read in the same
way whatever was changed below the output directory. So the declaration files of a run, and what it
reports of them, can be told from the file system as it was before.
-/

namespace Typings

open Typings.FileSystem Typings.Path

-- ---------------------------------------------------------------------------
-- Reading what is at a path
-- ---------------------------------------------------------------------------

variable {out : List String} {fs after : FileSystem} {config : ReadingConfig}

theorem readJava_congr {path : String} (h : after.stat path = fs.stat path) :
    after.readJava config path = fs.readJava config path := by
  simp only [readJava, readSource, size, readText, FileSystem.read, h]

theorem readFiles_congr {m : Metrics} {paths : List String}
    (h : ∀ path ∈ paths, after.readJava config path = fs.readJava config path) :
    readFiles config after m paths = readFiles config fs m paths := by
  have hmap : paths.map (after.readJava config) = paths.map (fs.readJava config) :=
    List.map_congr_left h
  have hfold (p : ProjectInfo) :
      paths.foldl (fun p path => p.add path (after.readJava config path)) p =
        paths.foldl (fun p path => p.add path (fs.readJava config path)) p :=
    List.foldl_ext _ _ _ fun p path hpath => by rw [h path hpath]
  rw [readFiles, readFiles, readByWorkers, readByWorkers, readInTurn_eq, readInTurn_eq, hmap, hfold]

-- ---------------------------------------------------------------------------
-- Names of Java files
-- ---------------------------------------------------------------------------

theorem Path.fileName?_name {name : String} (h : IsName name) :
    fileName? name = some name.toList := by
  have hdot : name.toList ≠ ['.'] := fun heq => h.2.1 (String.toList_injective heq)
  have hcomponents : components name = [.name name.toList] := by
    rw [components, isAbsolute_name h, segments_name h, List.head?_cons]
    simp [hdot, component?_name h]
  rw [fileName?, hcomponents]
  rfl

theorem toList_of_isJavaPath {name : String} (hname : IsName name) (h : isJavaPath name = true) :
    ∃ stem, name.toList = stem ++ ".java".toList := by
  have hext : extension? name = some javaExtension := of_decide_eq_true h
  rw [extension?, fileName?_name hname, Option.bind_some] at hext
  cases hsplit : Text.splitLast? '.' name.toList with
  | none => rw [hsplit] at hext; cases hext
  | some parts =>
    obtain ⟨stem, ending⟩ := parts
    simp only [hsplit] at hext
    obtain ⟨-, hending⟩ := Option.ite_none_left_eq_some.1 hext
    refine ⟨stem, ?_⟩
    rw [Text.eq_append_of_splitLast? hsplit, Option.some.inj hending]
    rfl

-- ---------------------------------------------------------------------------
-- Files below a directory
-- ---------------------------------------------------------------------------

theorem Directory.WellFormed.isName_of_mem_files {d : Directory} (h : d.WellFormed)
    {entry : List String × Contents} (hmem : entry ∈ d.files) : ∀ name ∈ entry.1, IsName name := by
  induction d using Directory.cons_induction generalizing entry with
  | empty => cases hmem
  | cons name e rest ihInside ih =>
    obtain ⟨hname, -, he, hrest⟩ := Directory.wellFormed_cons.1 h
    rw [Directory.files_cons, List.mem_append, List.mem_map] at hmem
    rcases hmem with ⟨inner, hinner, rfl⟩ | hmem
    · rw [List.forall_mem_cons]
      refine ⟨hname, ?_⟩
      cases e with
      | file contents =>
        obtain rfl := List.mem_singleton.1 hinner
        simp
      | dir inside => exact ihInside inside rfl he hinner
    · exact ih hrest hmem

theorem locationOf_pathBelow {dir : String} {names : List String}
    (h : ∀ name ∈ names, IsName name) :
    fs.locationOf (pathBelow dir names) = fs.locationOf dir ++ names := by
  induction names generalizing dir with
  | nil => simp [pathBelow]
  | cons name names ih =>
    rw [List.forall_mem_cons] at h
    have hrest := @ih (join dir name) h.2
    rw [locationOf_join_name h.1, List.append_assoc, List.singleton_append] at hrest
    exact hrest

theorem exitsOf_pathBelow {dir : String} {names : List String} (h : ∀ name ∈ names, IsName name) :
    fs.exitsOf (pathBelow dir names) = fs.exitsOf dir := by
  induction names generalizing dir with
  | nil => rfl
  | cons name names ih =>
    rw [List.forall_mem_cons] at h
    exact (ih h.2).trans (exitsOf_join_name h.1)

theorem Directory.exists_of_mem_javaFiles {d : Directory} {names : List String}
    (h : names ∈ d.javaFiles) : ∃ contents, (names, contents) ∈ d.files := by
  rw [Directory.javaFiles, (Order.sort_perm _ _).mem_iff, List.mem_filter, List.mem_map] at h
  obtain ⟨⟨entry, hentry, rfl⟩, -⟩ := h
  exact ⟨entry.2, hentry⟩

/-- The Java file with given names on the way to it from a source directory. -/
def SourcePath.below (dir : String) (names : List String) : SourcePath :=
  ⟨pathBelow dir names, ModulePath.ofSource (String.intercalate "/" names)⟩

theorem sourcePaths_eq_ok {dir : String} {sources : List SourcePath}
    (h : fs.sourcePaths dir = .ok sources) :
    sources = ((fs.directory? dir).elim [] Directory.javaFiles).map (SourcePath.below dir) := by
  rw [sourcePaths, javaFiles] at h
  cases hdir : fs.directory? dir with
  | none =>
    rw [hdir] at h
    exact (Except.ok.inj h).symm
  | some d =>
    simp only [hdir] at h
    split at h
    · cases h
    · exact (Except.ok.inj h).symm

theorem mem_sourcePaths {dir : String} {sources : List SourcePath}
    (h : fs.sourcePaths dir = .ok sources) {s : SourcePath} (hs : s ∈ sources) :
    ∃ d names, fs.directory? dir = some d ∧ names ∈ d.javaFiles ∧ s = .below dir names := by
  rw [sourcePaths_eq_ok h, List.mem_map] at hs
  obtain ⟨names, hnames, rfl⟩ := hs
  cases hdir : fs.directory? dir with
  | none =>
    rw [hdir] at hnames
    cases hnames
  | some d =>
    rw [hdir] at hnames
    exact ⟨d, names, rfl, hnames, rfl⟩

section Kept

variable {dir : String} (hkeeps : Keeps out fs after) (hsteady : fs.Steady out dir)
  (hapart : Apart (fs.locationOf dir) out)

include hkeeps hsteady

theorem FileSystem.Keeps.exits : ∀ exit ∈ fs.exitsOf dir, fs.HasDir exit ∧ after.HasDir exit :=
  fun exit hexit =>
    have ⟨hdir, hout⟩ := hsteady exit hexit
    ⟨hdir, hkeeps.dirs exit hout hdir⟩

include hapart

theorem FileSystem.Keeps.directory?_eq : after.directory? dir = fs.directory? dir :=
  directory?_congr hkeeps.cwd (hkeeps.exits hsteady) (hkeeps.apart _ hapart)

theorem FileSystem.Keeps.isDir_eq : after.isDir dir = fs.isDir dir := by
  rw [isDir, isDir, hkeeps.directory?_eq hsteady hapart]

theorem FileSystem.Keeps.sourcePaths_eq : after.sourcePaths dir = fs.sourcePaths dir := by
  rw [sourcePaths, sourcePaths, javaFiles, javaFiles, hkeeps.directory?_eq hsteady hapart]

/-- A Java file that was found is read alike. -/
theorem FileSystem.Keeps.readJava_eq (hwf : fs.WellFormed) {sources : List SourcePath}
    (hfound : fs.sourcePaths dir = .ok sources) {s : SourcePath} (hs : s ∈ sources) :
    after.readJava config s.path = fs.readJava config s.path := by
  obtain ⟨d, names, hdir, hnames, rfl⟩ := mem_sourcePaths hfound hs
  obtain ⟨contents, hmem⟩ := Directory.exists_of_mem_javaFiles hnames
  have hentry := directory?_eq_some hdir
  have hd : d.WellFormed := Directory.WellFormed.find? hwf hentry
  have hisName := hd.isName_of_mem_files hmem
  have hlocation : fs.locationOf (pathBelow dir names) = fs.locationOf dir ++ names :=
    locationOf_pathBelow hisName
  have hfile : fs.fileAt? (fs.locationOf dir ++ names) = some contents := by
    rw [fileAt?_append, hentry, Option.bind_some, Entry.fileAt?, Entry.find?_dir]
    exact hd.mem_files_iff.1 hmem
  refine readJava_congr (stat_congr hkeeps.cwd ?_ ?_ ?_) <;> rw [SourcePath.below]
  · rw [exitsOf_pathBelow hisName]
    exact hkeeps.exits hsteady
  · rw [hlocation, fileAt?_eq_some_iff.1 hfile, Option.isSome_some]
  · rw [hlocation]
    exact hkeeps.apart _ (hapart.below names)

end Kept

-- ---------------------------------------------------------------------------
-- Plans
-- ---------------------------------------------------------------------------

/-- What a run is going to write, and what it reports of that. -/
structure Plan where
  outputs : List OutputFile
  report : Report

/-- The plan for the files that were read. -/
def planFor (c : RunConfig) (sources : List SourcePath) (project : ProjectInfo) : Plan :=
  let start : Report := { parsed := project.files.length, failed := project.failed }
  let result := declarationResult sources { config := c } start project.files
  { outputs := declarationOutputs sources { config := c } project.files ++ result.1.finish
    report := { result.2 with types := result.1.types.length, hooks := result.1.hooks.length } }

/-- The plan of a run for source directories. -/
def plan? (c : RunConfig) (fs : FileSystem) (roots : List String) : Option Plan :=
  match roots.mapM fs.sourcePaths with
  | .error _ => none
  | .ok found =>
    some (planFor c found.flatten (readFiles c.reading fs {} (found.flatten.map (·.path))).2)

theorem mapM_sourcePaths_congr {roots : List String}
    (h : ∀ dir ∈ roots, after.sourcePaths dir = fs.sourcePaths dir) :
    roots.mapM after.sourcePaths = roots.mapM fs.sourcePaths := by
  induction roots with
  | nil => rfl
  | cons dir roots ih =>
    rw [List.forall_mem_cons] at h
    rw [List.mapM_cons, List.mapM_cons, h.1, ih h.2]

theorem exists_of_mem_mapM {roots : List String} {found : List (List SourcePath)}
    (h : roots.mapM fs.sourcePaths = .ok found) {sources : List SourcePath}
    (hmem : sources ∈ found) : ∃ dir ∈ roots, fs.sourcePaths dir = .ok sources := by
  induction roots generalizing found with
  | nil =>
    cases h
    cases hmem
  | cons dir roots ih =>
    rw [List.mapM_cons] at h
    cases hdir : fs.sourcePaths dir with
    | error e => rw [hdir] at h; cases h
    | ok first =>
      rw [hdir] at h
      cases hrest : roots.mapM fs.sourcePaths with
      | error e => rw [hrest] at h; cases h
      | ok rest =>
        rw [hrest] at h
        cases h
        rcases List.mem_cons.1 hmem with rfl | hmem
        · exact ⟨dir, List.mem_cons_self, hdir⟩
        · obtain ⟨dir', hmem', hdir'⟩ := ih hrest hmem
          exact ⟨dir', List.mem_cons_of_mem _ hmem', hdir'⟩

variable {c : RunConfig} {roots : List String}

/-- The plan of a run does not depend on what is below the output directory. -/
theorem FileSystem.Keeps.plan?_eq (hkeeps : Keeps out fs after) (hwf : fs.WellFormed)
    (hroots : ∀ dir ∈ roots, fs.Steady out dir ∧ Apart (fs.locationOf dir) out) :
    plan? c after roots = plan? c fs roots := by
  have hpaths : roots.mapM after.sourcePaths = roots.mapM fs.sourcePaths :=
    mapM_sourcePaths_congr fun dir hdir =>
      hkeeps.sourcePaths_eq (hroots dir hdir).1 (hroots dir hdir).2
  rw [plan?, plan?, hpaths]
  cases hfound : roots.mapM fs.sourcePaths with
  | error e => rfl
  | ok found =>
    have hread : readFiles c.reading after {} (found.flatten.map (·.path)) =
        readFiles c.reading fs {} (found.flatten.map (·.path)) := by
      refine readFiles_congr fun path hpath => ?_
      obtain ⟨s, hs, rfl⟩ := List.mem_map.1 hpath
      obtain ⟨sources, hsources, hs⟩ := List.mem_flatten.1 hs
      obtain ⟨dir, hdir, hfound⟩ := exists_of_mem_mapM hfound hsources
      exact hkeeps.readJava_eq (hroots dir hdir).1 (hroots dir hdir).2 hwf hfound hs
    simp only [hread]

theorem config_declarationResult {sources : List SourcePath} {catalog : Catalog} {r : Report}
    {infos : List FileInfo} :
    (declarationResult sources catalog r infos).1.config = catalog.config := by
  induction infos generalizing catalog r with
  | nil => rfl
  | cons info infos ih =>
    rw [declarationResult]
    split
    · exact ih
    · exact ih

/-- Everything that a run writes is below the output directory. -/
theorem leadsDown_of_plan {plan : Plan} (hindex : LeadsDown c.indexFile)
    (hhooks : LeadsDown c.hooksFile) (h : plan? c fs roots = some plan) :
    ∀ file ∈ plan.outputs, LeadsDown file.path := by
  rw [plan?] at h
  cases hfound : roots.mapM fs.sourcePaths with
  | error e => rw [hfound] at h; cases h
  | ok found =>
    rw [hfound] at h
    obtain rfl := Option.some.inj h
    rw [planFor, List.forall_mem_append]
    refine ⟨fun file hfile => ?_, ?_⟩
    · obtain ⟨s, hs, hpath⟩ := mem_declarationOutputs hfile
      obtain ⟨sources, hsources, hs⟩ := List.mem_flatten.1 hs
      obtain ⟨dir, -, hdir⟩ := exists_of_mem_mapM hfound hsources
      obtain ⟨d, names, -, -, rfl⟩ := mem_sourcePaths hdir hs
      rw [hpath]
      exact ModulePath.leadsDown_ofSource _
    · simp only [Catalog.finish, List.forall_mem_cons, Catalog.indexFile, Catalog.hooksFile,
        config_declarationResult]
      exact ⟨hindex, hhooks, by simp⟩

/-- The number of files cleaned does not matter for the rest of the report. -/
theorem declarationResult_cleaned {sources : List SourcePath} {catalog : Catalog} {r : Report}
    {infos : List FileInfo} (cleaned : Nat) :
    declarationResult sources catalog { r with cleaned } infos =
      ((declarationResult sources catalog r infos).1,
        { (declarationResult sources catalog r infos).2 with cleaned }) := by
  induction infos generalizing catalog r with
  | nil => rfl
  | cons info infos ih =>
    rw [declarationResult, declarationResult]
    split
    · exact ih
    · rw [← ih]
      split <;> rfl

theorem findSources_eq_ok {sources : List SourcePath}
    (h : findSources roots fs = .ok sources after) :
    after = fs ∧ ∃ found, roots.mapM fs.sourcePaths = .ok found ∧ sources = found.flatten := by
  rw [findSources, Step.get_bind] at h
  cases hfound : roots.mapM fs.sourcePaths with
  | error e => simp only [hfound] at h; cases h
  | ok found =>
    simp only [hfound] at h
    cases h
    exact ⟨rfl, found, rfl, rfl⟩

-- ---------------------------------------------------------------------------
-- Stages
-- ---------------------------------------------------------------------------

/-- The first stage of a run: earlier declarations are deleted, if so configured. -/
def prepare (c : RunConfig) : Step Nat := if c.cleanOutput then cleanOutput c else pure 0

/-- What a run does after it has prepared. -/
def generateFrom (c : RunConfig) (roots : List String) (cleaned : Nat) : Step Report := do
  let sources ← findSources roots
  let (_, project) := readFiles c.reading (← get) {} (sources.map (·.path))
  let start : Report := { cleaned, parsed := project.files.length, failed := project.failed }
  let (catalog, r) ← writeDeclarations c sources { config := c } start project.files
  catalog.finish.forM (writeOutput c)
  let patches ← copyAllPatches c
  return { r with types := catalog.types.length, hooks := catalog.hooks.length, patches }

theorem generate_eq (c : RunConfig) (roots : List String) :
    generate c roots = prepare c >>= generateFrom c roots := by
  rw [generate, prepare]
  split <;> rfl

/-- What a run finds before it writes anything: the Java files below each source directory that is
there, one directory after another. -/
def discover (c : RunConfig) : Step (List SourcePath) := do
  let roots := c.sourceDirs.filter (← get).isDir
  let _ ← prepare c
  findSources roots

/-- The plan for Java files that were found. -/
def planOf (c : RunConfig) (fs : FileSystem) (sources : List SourcePath) : Plan :=
  planFor c sources (readFiles c.reading fs {} (sources.map (·.path))).2

/-- Once it has prepared, a run finds the Java files, writes what it has planned for them, and
copies the hand-written declarations. -/
theorem generateFrom_eq (c : RunConfig) (roots : List String) (cleaned : Nat) :
    generateFrom c roots cleaned = (do
      let sources ← findSources roots
      let plan := planOf c (← get) sources
      plan.outputs.forM (writeOutput c)
      let patches ← copyAllPatches c
      return { plan.report with cleaned, patches }) := by
  rw [generateFrom]
  refine bind_congr fun sources => bind_congr fun fs => ?_
  cases hread : readFiles c.reading fs {} (sources.map (·.path)) with
  | mk m project =>
    let start : Report := { parsed := project.files.length, failed := project.failed }
    have hresult := @declarationResult_cleaned sources { config := c } start project.files cleaned
    simp only [writeDeclarations_eq, planOf, planFor, hread, List.forM_eq_forM, List.forM_append,
      bind_assoc, pure_bind]
    rw [hresult]

theorem generate_stages {r : Report} (h : generate c roots fs = .ok r after) :
    ∃ cleaned start sources written patches,
      prepare c fs = .ok cleaned start ∧ findSources roots start = .ok sources start ∧
      (planOf c start sources).outputs.forM (writeOutput c) start = .ok () written ∧
      copyAllPatches c written = .ok patches after ∧
      r = { (planOf c start sources).report with cleaned, patches } := by
  rw [generate_eq] at h
  obtain ⟨cleaned, start, hcleaned, h⟩ := Step.bind_eq_ok.1 h
  rw [generateFrom_eq] at h
  obtain ⟨sources, next, hsources, hplan⟩ := Step.bind_eq_ok.1 h
  obtain rfl := (findSources_eq_ok hsources).1
  rw [Step.get_bind] at hplan
  obtain ⟨_, written, hwritten, hcopy⟩ := Step.bind_eq_ok.1 hplan
  obtain ⟨patches, _, hpatches, hpure⟩ := Step.bind_eq_ok.1 hcopy
  cases hpure
  exact ⟨cleaned, next, sources, written, patches, hcleaned, hsources, hwritten, hpatches, rfl⟩

theorem generate_eq_ok {r : Report} (hclean : c.cleanOutput = true)
    (h : generate c roots fs = .ok r after) :
    ∃ cleaned mid plan written patches,
      cleanOutput c fs = .ok cleaned mid ∧ plan? c mid roots = some plan ∧
      plan.outputs.forM (writeOutput c) mid = .ok () written ∧
      copyAllPatches c written = .ok patches after ∧
      r = { plan.report with cleaned, patches } := by
  obtain ⟨cleaned, mid, sources, written, patches, hcleaned, hsources, hrest⟩ := generate_stages h
  obtain ⟨-, found, hfound, rfl⟩ := findSources_eq_ok hsources
  rw [prepare, if_pos hclean] at hcleaned
  exact ⟨cleaned, mid, _, written, patches, hcleaned, by rw [plan?, hfound, planOf], hrest⟩

theorem run_eq_ok {r : Report} (h : run c fs = .ok r after) :
    c.sourceDirs.filter fs.isDir = [] ∧ r = {} ∧ after = fs ∨
      c.sourceDirs.filter fs.isDir ≠ [] ∧
        generate c (c.sourceDirs.filter fs.isDir) fs = .ok r after := by
  rw [run] at h
  cases hfault : c.fault? with
  | some fault => simp only [hfault] at h; cases h
  | none =>
    simp only [hfault, Step.get_bind] at h
    cases hroots : c.sourceDirs.filter fs.isDir with
    | nil =>
      simp only [hroots] at h
      cases h
      exact .inl ⟨rfl, rfl, rfl⟩
    | cons dir roots =>
      simp only [hroots] at h
      exact .inr ⟨List.cons_ne_nil _ _, h⟩

/-- What is found is found below one of the source directories, after preparing. -/
theorem discover_eq_ok {sources : List SourcePath} (h : discover c fs = .ok sources after) :
    (∃ cleaned, prepare c fs = .ok cleaned after) ∧
      ∃ found, (c.sourceDirs.filter fs.isDir).mapM after.sourcePaths = .ok found ∧
        sources = found.flatten := by
  rw [discover, Step.get_bind] at h
  obtain ⟨cleaned, start, hprepare, hfound⟩ := Step.bind_eq_ok.1 h
  obtain ⟨rfl, hfound⟩ := findSources_eq_ok hfound
  exact ⟨⟨cleaned, hprepare⟩, hfound⟩

theorem exists_of_mem_discover {sources : List SourcePath} (h : discover c fs = .ok sources after)
    {s : SourcePath} (hs : s ∈ sources) :
    ∃ dir found, after.sourcePaths dir = .ok found ∧ s ∈ found := by
  obtain ⟨-, found, hfound, rfl⟩ := discover_eq_ok h
  obtain ⟨inner, hinner, hs⟩ := List.mem_flatten.1 hs
  obtain ⟨dir, -, hdir⟩ := exists_of_mem_mapM hfound hinner
  exact ⟨dir, inner, hdir, hs⟩

/-- The stages of a run with a source directory. -/
theorem run_stages {r : Report} (h : run c fs = .ok r after)
    (hroots : ∃ dir ∈ c.sourceDirs, fs.isDir dir = true) :
    ∃ cleaned start sources written patches,
      prepare c fs = .ok cleaned start ∧ discover c fs = .ok sources start ∧
      (planOf c start sources).outputs.forM (writeOutput c) start = .ok () written ∧
      copyAllPatches c written = .ok patches after ∧
      r = { (planOf c start sources).report with cleaned, patches } := by
  rcases run_eq_ok h with ⟨hnone, -, -⟩ | ⟨-, h⟩
  · obtain ⟨dir, hmem, hdir⟩ := hroots
    exact absurd hdir (List.filter_eq_nil_iff.1 hnone dir hmem)
  · obtain ⟨cleaned, start, sources, written, patches, hcleaned, hsources, hrest⟩ :=
      generate_stages h
    refine ⟨cleaned, start, sources, written, patches, hcleaned, ?_, hrest⟩
    rw [discover, Step.get_bind]
    exact Step.bind_eq_ok.2 ⟨cleaned, start, hcleaned, hsources⟩

end Typings
