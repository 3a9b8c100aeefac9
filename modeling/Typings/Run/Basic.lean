import Typings.Output.Catalog
import Typings.Project.Reader

/-!
# Generating declarations

A run reads the Java files of its source directories and writes the declaration files, the index
and the hooks. It may delete earlier declarations first and copy hand-written ones at the end.
-/

namespace Typings

/-- Why a run failed. -/
inductive RunError where
  | io (path : String) (cause : OsError)
  /-- A directory could not be walked through. -/
  | walk (path : String) (cause : OsError)
  | config (e : ConfigError)
  /-- The Java files could not be found. -/
  | reading (e : ReadError)
deriving Repr, DecidableEq, Inhabited

/-- The failure of a walk as a text of its own. -/
def walkMessage (path : String) (cause : OsError) : String :=
  "IO error for operation on " ++ path ++ ": " ++ cause.message

def RunError.message : RunError → String
  | .io path cause => "I/O error at " ++ path ++ ": " ++ cause.message
  | .walk path cause => "Directory walk failed: " ++ walkMessage path cause
  | .config e => e.message
  | .reading e => e.message

/-- What a run did. -/
structure Report where
  /-- Java files that were read. -/
  parsed : Nat := 0
  /-- Declaration files written, without the index and the hooks. -/
  written : Nat := 0
  /-- Java files without a type. -/
  skipped : Nat := 0
  types : Nat := 0
  hooks : Nat := 0
  /-- Earlier declarations deleted. -/
  cleaned : Nat := 0
  /-- Hand-written files copied. -/
  patches : Nat := 0
  /-- Java files that could not be read, each with the reason. -/
  failed : List (String × String) := []
deriving Repr, DecidableEq, Inhabited

/-- Whether every Java file was read. -/
def Report.success (r : Report) : Bool := r.failed.isEmpty

/-- A step of a run. A step that fails keeps what it has changed. -/
abbrev Step := EStateM RunError FileSystem

namespace Step

/-- A change of the file system that fails at a path. -/
def change (path : String) (f : FileSystem → Except OsError FileSystem) : Step Unit := do
  match f (← get) with
  | .ok after => set after
  | .error e => throw (.io path e)

/-- Makes the directory at a path and those above it. -/
def makeDirs (path : String) : Step Unit := do
  let (after, failure) := (← get).makeDirs path
  set after
  match failure with
  | some e => throw (.io path e)
  | none => pure ()

end Step

-- ---------------------------------------------------------------------------
-- Cleaning
-- ---------------------------------------------------------------------------

/-- Whether cleaning removes files of a name. -/
def RunConfig.isCleaned (c : RunConfig) (name : String) : Bool :=
  Text.endsWith ModulePath.extension.toList name.toList && !c.isPreserved name

/-- Deletes the file at a path and a location if it is an earlier declaration, and gives the number
of files deleted. -/
def cleanFile (c : RunConfig) (path name : String) (location : List String) : Step Nat := do
  if c.isCleaned name then
    match (← get).stat path with
    | .error e => throw (.io path e)
    | .ok _ => modify (·.discard location)
    return 1
  else return 0

/-- Cleans the directory at a path and a location, `inside` cleaning what is in it, and deletes it
if it is left empty. -/
def cleanDir (path : String) (location : List String) (inside : Step Nat) : Step Nat := do
  match (← get).stat path with
  | .error e => throw (.walk path e)
  | .ok _ =>
    let n ← inside
    match (← get).stat path with
    | .error e => throw (.io path e)
    | .ok entry => if entry.isEmptyDir then modify (·.discard location)
    return n

/-- Cleans the directory at a path and a location, of which the entries are given: deletes the
earlier declarations in it, and each directory in it that is left empty, and gives the number of
files. Every access follows the path of its entry anew. -/
def cleanBelow (c : RunConfig) (path : String) (location : List String) : Directory → Step Nat
  | .empty => return 0
  | .file name _ rest => do
    let n ← cleanFile c (Path.join path name) name (location ++ [name])
    return n + (← cleanBelow c path location rest)
  | .sub name inside rest => do
    let n ← cleanDir (Path.join path name) (location ++ [name])
      (cleanBelow c (Path.join path name) (location ++ [name]) inside)
    return n + (← cleanBelow c path location rest)

/-- Cleans the output directory, and gives the number of files deleted. -/
def cleanOutput (c : RunConfig) : Step Nat := do
  let fs ← get
  match fs.locate c.outputDir, fs.directory? c.outputDir with
  | .ok location, some d => cleanBelow c c.outputDir location d
  | _, _ => return 0

-- ---------------------------------------------------------------------------
-- Source files
-- ---------------------------------------------------------------------------

/-- A Java file to read: its path, and the path of its declaration file. -/
structure SourcePath where
  path : String
  output : String
deriving Repr, DecidableEq, Inhabited

/-- The Java files below the directory at a path. -/
def FileSystem.sourcePaths (fs : FileSystem) (dir : String) :
    Except ReadError (List SourcePath) :=
  (fs.javaFiles dir).map fun files => files.map fun names =>
    ⟨pathBelow dir names, ModulePath.ofSource (String.intercalate "/" names)⟩

/-- The Java files below directories, one directory after another. -/
def findSources (roots : List String) : Step (List SourcePath) := do
  match roots.mapM (← get).sourcePaths with
  | .ok found => return found.flatten
  | .error e => throw (.reading e)

/-- The declaration file for a path. When source directories overlap, the last one that holds the
file decides. -/
def outputFor? (sources : List SourcePath) (path : String) : Option String :=
  (sources.reverse.find? fun s => Path.components s.path = Path.components path).map (·.output)

-- ---------------------------------------------------------------------------
-- Writing
-- ---------------------------------------------------------------------------

/-- Writes a file below the output directory. -/
def writeOutput (c : RunConfig) (file : OutputFile) : Step Unit := do
  let path := Path.join c.outputDir file.path
  match Path.parent? path with
  | some above => Step.makeDirs above
  | none => pure ()
  Step.change path (·.write path (.text file.contents))

/-- Writes the declaration files of the files that were read, one after another. -/
def writeDeclarations (c : RunConfig) (sources : List SourcePath) :
    Catalog → Report → List FileInfo → Step (Catalog × Report)
  | catalog, r, [] => return (catalog, r)
  | catalog, r, info :: rest =>
    match outputFor? sources info.path with
    | none => writeDeclarations c sources catalog r rest
    | some path => do
      let (catalog, output) := catalog.emit info.source path
      match output with
      | some file =>
        writeOutput c file
        writeDeclarations c sources catalog { r with written := r.written + 1 } rest
      | none => writeDeclarations c sources catalog { r with skipped := r.skipped + 1 } rest

-- ---------------------------------------------------------------------------
-- Patches
-- ---------------------------------------------------------------------------

/-- Copies the entry at the path `src` to the path `dest`, and gives the number of files. A
directory is listed before its copy is made. Paths grow with every level and their length is
limited, so that limit is fuel enough. -/
def copyEntry : (fuel : Nat) → (src dest : String) → Entry → Step Nat
  | 0, src, _, _ => throw (.walk src .nameTooLong)
  | _ + 1, src, dest, .file _ => do
    match (← get).read src with
    | .error e => throw (.io dest e)
    | .ok contents =>
      Step.change dest (·.write dest contents)
      return 1
  | fuel + 1, src, dest, .dir _ => do
    match (← get).stat src with
    | .ok (.dir d) =>
      Step.makeDirs dest
      let counts ← d.entries.mapM fun (name, entry) =>
        copyEntry fuel (Path.join src name) (Path.join dest name) entry
      return counts.foldl (· + ·) 0
    | .ok (.file _) => throw (.walk src .notADirectory)
    | .error e =>
      Step.makeDirs dest
      throw (.walk src e)

/-- Copies what is at the path `src` to the path `dest`, and gives the number of files. -/
def copyTree (src dest : String) : Step Nat := do
  match (← get).stat src with
  | .error e => throw (.walk src e)
  | .ok entry => copyEntry (FileSystem.maxPathBytes + 1) src dest entry

/-- The directory that hand-written declarations are copied to. -/
def patchTarget (c : RunConfig) : String := Path.join c.outputDir "patches"

/-- Replaces the copy of the hand-written declarations, and gives the number of files. -/
def copyPatches (c : RunConfig) (dir : String) : Step Nat := do
  if !(← get).isDir dir then return 0
  let target := patchTarget c
  if (← get).pathExists target then Step.change target (·.removeTree target)
  copyTree dir (target ++ "/")

/-- Copies the hand-written declarations, if the configuration names a directory. -/
def copyAllPatches (c : RunConfig) : Step Nat :=
  match c.patchDir with
  | some dir => copyPatches c dir
  | none => pure 0

-- ---------------------------------------------------------------------------
-- Runs
-- ---------------------------------------------------------------------------

/-- Generates the declarations for the source directories that exist. -/
def generate (c : RunConfig) (roots : List String) : Step Report := do
  let cleaned ← if c.cleanOutput then cleanOutput c else pure 0
  let sources ← findSources roots
  let (_, project) := readFiles c.reading (← get) {} (sources.map (·.path))
  let start : Report := { cleaned, parsed := project.files.length, failed := project.failed }
  let (catalog, r) ← writeDeclarations c sources { config := c } start project.files
  catalog.finish.forM (writeOutput c)
  let patches ← copyAllPatches c
  return { r with types := catalog.types.length, hooks := catalog.hooks.length, patches }

/-- Runs with a configuration that can be used. Without a source directory nothing happens. -/
def run (c : RunConfig) : Step Report := do
  match c.fault? with
  | some fault => throw (.config (.invalid fault))
  | none =>
    match c.sourceDirs.filter (← get).isDir with
    | [] => return {}
    | roots => generate c roots

end Typings
