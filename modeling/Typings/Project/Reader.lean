import Typings.Config.Basic
import Typings.FileSystem.Basic
import Typings.Project.Basic
import Typings.Source.Extract

/-!
# Reading files

Finds and reads the Java files of a file system and counts what was read. Several files may be
read in parallel; their results keep the order of the paths.
-/

namespace Typings

/-- Why a Java file could not be read. -/
inductive ReadError where
  | io (path : String) (cause : OsError)
  | tooLarge (path : String) (size : Nat)
deriving Repr, DecidableEq, Inhabited

def ReadError.message : ReadError → String
  | .io path cause => "IO error reading " ++ path ++ ": " ++ cause.message
  | .tooLarge path size =>
    "File " ++ path ++ " exceeds maximum size (" ++ toString size ++ " bytes)"

/-- What came of reading a file. -/
abbrev Outcome := Except ReadError FileInfo

-- ---------------------------------------------------------------------------
-- Files to read
-- ---------------------------------------------------------------------------

/-- The ending of Java files, without its dot. -/
def javaExtension : Text := "java".toList

/-- Whether a path has the ending of Java files. -/
def isJavaPath (path : String) : Bool := Path.extension? path = some javaExtension

/-- Whether a path names a file that only describes a package. -/
def isPackageInfo (path : String) : Bool :=
  Path.fileName? path = some "package-info.java".toList

/-- The Java files below a directory, those that only describe a package left out: the names on
the way to each, in order. -/
def Directory.javaFiles (d : Directory) : List (List String) :=
  Order.sort Path.namesBefore <| (d.files.map (·.1)).filter fun names =>
    match names.getLast? with
    | some name => isJavaPath name && !isPackageInfo name
    | none => false

/-- The path of a file below a directory. -/
def pathBelow (dir : String) (names : List String) : String := names.foldl Path.join dir

/-- The first directory below the one at a path whose own path cannot be followed, with the
reason. -/
def Directory.outOfReach? (path : String) : Directory → Option (String × OsError)
  | .empty => none
  | .file _ _ rest => rest.outOfReach? path
  | .sub name inside rest =>
    match FileSystem.checkPath (Path.join path name) with
    | .error e => some (Path.join path name, e)
    | .ok () =>
      match inside.outOfReach? (Path.join path name) with
      | some found => some found
      | none => rest.outOfReach? path

/-- The Java files below the directory at a path: the names on the way to each, in order; none
when there is no directory. Every directory on the way has to be within reach. -/
def FileSystem.javaFiles (fs : FileSystem) (dir : String) :
    Except ReadError (List (List String)) :=
  match fs.directory? dir with
  | none => .ok []
  | some d =>
    match d.outOfReach? dir with
    | some (path, e) => .error (.io path e)
    | none => .ok d.javaFiles

/-- The paths of the Java files below the directory at a path. -/
def FileSystem.javaPaths (fs : FileSystem) (dir : String) : Except ReadError (List String) :=
  (fs.javaFiles dir).map fun files => files.map (pathBelow dir)

-- ---------------------------------------------------------------------------
-- Reading
-- ---------------------------------------------------------------------------

/-- What is known of a Java file with a text. -/
def FileInfo.ofText (config : ReadingConfig) (path source : String) : FileInfo where
  path := path
  source := Source.extract config.includeDocs source
  lines := (Text.lines source.toList).length.toUInt64
  bytes := source.utf8ByteSize.toUInt64

/-- The text of a Java file. Its size is looked at first. -/
def FileSystem.readSource (config : ReadingConfig) (fs : FileSystem) (path : String) :
    Except ReadError String :=
  match fs.size path with
  | .error e => .error (.io path e)
  | .ok size =>
    if config.maxFileSize.toNat < size then .error (.tooLarge path size)
    else
      match fs.readText path with
      | .error e => .error (.io path e)
      | .ok source => .ok source

/-- Reads a Java file. -/
def FileSystem.readJava (config : ReadingConfig) (fs : FileSystem) (path : String) : Outcome :=
  (fs.readSource config path).map (FileInfo.ofText config path)

/-- Counts a file. -/
def Metrics.record (m : Metrics) : Outcome → Metrics
  | .ok info =>
    { m with
      attempted := m.attempted + 1
      time := m.time + info.time
      succeeded := m.succeeded + 1
      types := m.types + info.typeCount.toUInt64
      methods := m.methods + info.source.methodCount.toUInt64
      withoutTypes := if info.source.isEmpty then m.withoutTypes + 1 else m.withoutTypes }
  | .error _ => { m with attempted := m.attempted + 1, failed := m.failed + 1 }

/-- Adds what came of reading the file at a path to a batch. -/
def ProjectInfo.add (p : ProjectInfo) (path : String) : Outcome → ProjectInfo
  | .ok info => p.addFile info
  | .error e => p.addFailure path e.message

/-- Reads files one after another and counts each of them as it is read. -/
def readInTurn (config : ReadingConfig) (fs : FileSystem) :
    Metrics → ProjectInfo → List String → Metrics × ProjectInfo
  | m, p, [] => (m, p)
  | m, p, path :: paths =>
    let outcome := fs.readJava config path
    readInTurn config fs (m.record outcome) (p.add path outcome) paths

/-- The batch of files read by several workers. Each file is counted when its worker is done, and
`finished` lists what came of them in that order; the batch is put together afterwards. -/
def readByWorkers (config : ReadingConfig) (fs : FileSystem) (m : Metrics) (paths : List String)
    (finished : List Outcome) : Metrics × ProjectInfo :=
  (finished.foldl Metrics.record m,
    paths.foldl (fun p path => p.add path (fs.readJava config path)) {})

/-- Reads files, in parallel if so configured. -/
def readFiles (config : ReadingConfig) (fs : FileSystem) (m : Metrics) (paths : List String) :
    Metrics × ProjectInfo :=
  if config.parallel then
    readByWorkers config fs m paths (paths.map (fs.readJava config))
  else readInTurn config fs m {} paths

/-- Reads the Java files below the directory at a path. -/
def readDirectory (config : ReadingConfig) (fs : FileSystem) (m : Metrics) (dir : String) :
    Except ReadError (Metrics × ProjectInfo) :=
  (fs.javaPaths dir).map (readFiles config fs m)

end Typings
