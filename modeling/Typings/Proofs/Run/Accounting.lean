import Typings.Proofs.Output.CanonicalOrder
import Typings.Proofs.Run.Sources

/-!
# What a run reports

Every Java file that a run finds is either read or reported as unreadable, and a file that was read
is either written or skipped. The report counts the files of each sort, and the types and hooks of
the files that were read.
-/

namespace Typings

open Typings.FileSystem

-- ---------------------------------------------------------------------------
-- Files that were read
-- ---------------------------------------------------------------------------

variable {c : RunConfig} {config : ReadingConfig} {fs after : FileSystem}
  {sources : List SourcePath}

/-- The Java files that can be read, in the order in which they were found. -/
def parsedFiles (config : ReadingConfig) (fs : FileSystem) (sources : List SourcePath) :
    List FileInfo :=
  sources.filterMap fun s => (fs.readJava config s.path).toOption

/-- The Java files that cannot be read, each with the reason, in the order in which they were
found. -/
def unreadFiles (config : ReadingConfig) (fs : FileSystem) (sources : List SourcePath) :
    List (String × String) :=
  sources.filterMap fun s =>
    match fs.readJava config s.path with
    | .ok _ => none
    | .error e => some (s.path, e.message)

/-- Adding files to a batch one after another appends those that can be read, and those that
cannot. -/
theorem foldl_add (config : ReadingConfig) (fs : FileSystem) (p : ProjectInfo)
    (sources : List SourcePath) :
    let q := (sources.map (·.path)).foldl (fun p path => p.add path (fs.readJava config path)) p
    q.files = p.files ++ parsedFiles config fs sources ∧
      q.failed = p.failed ++ unreadFiles config fs sources := by
  induction sources generalizing p with
  | nil => simp [parsedFiles, unreadFiles]
  | cons s sources ih =>
    obtain ⟨hfiles, hfailed⟩ := ih (p.add s.path (fs.readJava config s.path))
    simp only [List.map_cons, List.foldl_cons, hfiles, hfailed]
    cases hread : fs.readJava config s.path with
    | ok info =>
      simp [ProjectInfo.add, ProjectInfo.addFile, parsedFiles, unreadFiles, hread, Except.toOption]
    | error e =>
      simp [ProjectInfo.add, ProjectInfo.addFailure, parsedFiles, unreadFiles, hread,
        Except.toOption]

theorem readFiles_project (config : ReadingConfig) (fs : FileSystem) (m : Metrics)
    (sources : List SourcePath) :
    (readFiles config fs m (sources.map (·.path))).2.files = parsedFiles config fs sources ∧
      (readFiles config fs m (sources.map (·.path))).2.failed = unreadFiles config fs sources := by
  have hfold := foldl_add config fs {} sources
  rw [readFiles, readInTurn_eq]
  split
  · exact hfold
  · exact hfold

theorem length_parsedFiles_add (sources : List SourcePath) :
    (parsedFiles config fs sources).length + (unreadFiles config fs sources).length =
      sources.length := by
  induction sources with
  | nil => rfl
  | cons s sources ih =>
    cases hread : fs.readJava config s.path <;>
      simp [parsedFiles, unreadFiles, hread, Except.toOption] at ih ⊢ <;> omega

theorem path_of_readJava {path : String} {info : FileInfo}
    (h : fs.readJava config path = .ok info) : info.path = path := by
  rw [readJava] at h
  cases hread : fs.readSource config path with
  | error e => rw [hread] at h; cases h
  | ok text =>
    rw [hread] at h
    cases h
    rfl

theorem mem_parsedFiles {info : FileInfo} :
    info ∈ parsedFiles config fs sources ↔
      ∃ s ∈ sources, fs.readJava config s.path = .ok info := by
  rw [parsedFiles, List.mem_filterMap]
  refine exists_congr fun s => and_congr_right fun _ => ?_
  cases fs.readJava config s.path <;> simp [Except.toOption]

-- ---------------------------------------------------------------------------
-- Files that are written or skipped
-- ---------------------------------------------------------------------------

/-- Every Java file that was found has a declaration file to be written. -/
theorem isSome_outputFor? {s : SourcePath} (h : s ∈ sources) :
    (outputFor? sources s.path).isSome := by
  rw [outputFor?, Option.isSome_map, List.find?_isSome]
  exact ⟨s, List.mem_reverse.2 h, by simp⟩

/-- What is fed to the catalog for files that were read. -/
def fedFiles (sources : List SourcePath) (infos : List FileInfo) : List (SourceFile × String) :=
  infos.map fun info => (info.source, (outputFor? sources info.path).getD "")

/-- A file is written if it declares a type, and skipped otherwise. -/
theorem declarationResult_eq {catalog : Catalog} {r : Report} {infos : List FileInfo}
    (h : ∀ info ∈ infos, (outputFor? sources info.path).isSome) :
    declarationResult sources catalog r infos =
      (catalog.emitAll (fedFiles sources infos),
        { r with
          written := r.written + infos.countP (!·.source.isEmpty)
          skipped := r.skipped + infos.countP (·.source.isEmpty) }) := by
  induction infos generalizing catalog r with
  | nil => rfl
  | cons info infos ih =>
    rw [List.forall_mem_cons] at h
    obtain ⟨path, hpath⟩ := Option.isSome_iff_exists.1 h.1
    have hfed : fedFiles sources (info :: infos) = (info.source, path) :: fedFiles sources infos :=
      by simp [fedFiles, hpath]
    rw [declarationResult, hpath, hfed]
    dsimp only
    rw [ih h.2]
    cases hempty : info.source.isEmpty <;>
      simp [Catalog.outputFor?, Catalog.emitAll, Catalog.emit, hempty] <;> omega

-- ---------------------------------------------------------------------------
-- Types and hooks
-- ---------------------------------------------------------------------------

/-- The pairs of an event interface and a type directly inside it whose name is more than the ending
`Event`. -/
def SourceFile.hookPairs (file : SourceFile) : List (TypeDecl × TypeDecl) :=
  (file.placed.filter Placed.isEvent).flatMap fun p =>
    (p.decl.nested.filter fun sub => !(eventStem sub.name).isEmpty).map (p.decl, ·)

theorem length_eventHooks (file : SourceFile) (path : String) :
    (file.eventHooks path).length = file.hookPairs.length := by
  simp [SourceFile.eventHooks, SourceFile.hookPairs, Placed.hooks, List.length_flatMap]

theorem length_types_emitAll (catalog : Catalog) (infos : List FileInfo) :
    (catalog.emitAll (fedFiles sources infos)).types.length =
      catalog.types.length + (infos.map fun info => info.source.typeCount).sum := by
  have hplaced (file : SourceFile) : file.placed.length = file.typeCount :=
    TypeDecl.length_placedAll [] file.types
  simp [Catalog.types_emitAll, fedFiles, List.length_flatMap, Function.comp_def, hplaced]

theorem length_hooks_emitAll (catalog : Catalog) (infos : List FileInfo) :
    (catalog.emitAll (fedFiles sources infos)).hooks.length =
      catalog.hooks.length + (infos.map fun info => info.source.hookPairs.length).sum := by
  simp [Catalog.hooks_emitAll, fedFiles, List.length_flatMap, Function.comp_def, length_eventHooks]

-- ---------------------------------------------------------------------------
-- The report
-- ---------------------------------------------------------------------------

theorem planOf_report (c : RunConfig) (fs : FileSystem) (sources : List SourcePath) :
    let parsed := parsedFiles c.reading fs sources
    (planOf c fs sources).report =
      { parsed := parsed.length
        written := parsed.countP (!·.source.isEmpty)
        skipped := parsed.countP (·.source.isEmpty)
        types := (parsed.map fun info => info.source.typeCount).sum
        hooks := (parsed.map fun info => info.source.hookPairs.length).sum
        failed := unreadFiles c.reading fs sources } := by
  intro parsed
  obtain ⟨hfiles, hfailed⟩ := readFiles_project c.reading fs {} sources
  have hpaths : ∀ info ∈ parsed, (outputFor? sources info.path).isSome := by
    intro info hinfo
    obtain ⟨s, hs, hread⟩ := mem_parsedFiles.1 hinfo
    rw [path_of_readJava hread]
    exact isSome_outputFor? hs
  simp only [planOf, planFor, hfiles, hfailed]
  rw [declarationResult_eq hpaths]
  simp [length_types_emitAll, length_hooks_emitAll, parsed]

/-- The report of a run accounts for every Java file that was found, with repetition when source
directories overlap. -/
theorem run_accounts {r : Report} (h : run c fs = .ok r after)
    (hroots : ∃ dir ∈ c.sourceDirs, fs.isDir dir = true) :
    ∃ sources start, discover c fs = .ok sources start ∧
      sources.length = r.parsed + r.failed.length ∧
      r.parsed = r.written + r.skipped ∧
      r.parsed = (parsedFiles c.reading start sources).length ∧
      r.skipped = (parsedFiles c.reading start sources).countP (·.source.isEmpty) ∧
      r.types = ((parsedFiles c.reading start sources).map fun info => info.source.typeCount).sum ∧
      r.hooks =
        ((parsedFiles c.reading start sources).map fun info => info.source.hookPairs.length).sum ∧
      r.failed = unreadFiles c.reading start sources := by
  obtain ⟨cleaned, start, sources, written, patches, -, hdiscover, -, -, rfl⟩ := run_stages h hroots
  rw [planOf_report]
  refine ⟨sources, start, hdiscover, (length_parsedFiles_add sources).symm, ?_, rfl, rfl, rfl, rfl,
    rfl⟩
  rw [Nat.add_comm]
  simpa using List.length_eq_countP_add_countP (fun info : FileInfo => info.source.isEmpty)

/-- A source directory with an event interface, a file that is not UTF-8 and one without types. -/
def mixedFiles : FileSystem where
  root :=
    .sub "src"
      (.file "A.java" (.text "public interface AEvent{interface B{}}")
        (.file "Bad.java" (.bytes [255]) (.file "N.java" (.text "") .empty))) .empty

/-- The source directory is given twice, and another one is missing. -/
def mixedConfig : RunConfig where
  sourceDirs := ["src", "none", "src/"]
  outputDir := "out"
  hookReferences := []

theorem run_accounts_mixedFiles :
    (∃ dir ∈ mixedConfig.sourceDirs, mixedFiles.isDir dir = true) ∧
      ∃ r after, run mixedConfig mixedFiles = .ok r after ∧
        (r.parsed, r.written, r.skipped, r.types, r.hooks, r.failed.length) = (4, 2, 2, 4, 2, 2) ∧
        ∃ sources start, discover mixedConfig mixedFiles = .ok sources start ∧
          sources.length = r.parsed + r.failed.length := by
  have hroots : ∃ dir ∈ mixedConfig.sourceDirs, mixedFiles.isDir dir = true :=
    ⟨"src", by decide, by decide +kernel⟩
  have hcounts : (match run mixedConfig mixedFiles with
      | .ok r _ => some (r.parsed, r.written, r.skipped, r.types, r.hooks, r.failed.length)
      | .error _ _ => none) = some (4, 2, 2, 4, 2, 2) := by
    decide +kernel
  cases hrun : run mixedConfig mixedFiles with
  | error e fs => rw [hrun] at hcounts; cases hcounts
  | ok r after =>
    rw [hrun] at hcounts
    obtain ⟨sources, start, hdiscover, hlength, -⟩ := run_accounts hrun hroots
    exact ⟨hroots, r, after, rfl, Option.some.inj hcounts, sources, start, hdiscover, hlength⟩

end Typings
