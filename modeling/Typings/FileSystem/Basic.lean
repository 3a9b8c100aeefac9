import Typings.FileSystem.Directory
import Typings.FileSystem.Error
import Typings.FileSystem.Path

/-!
# The file system

A tree of files with a working directory, and the operations on it that a run needs. An operation
fails for the reason for which an operating system would; it may then have changed the tree.
-/

namespace Typings

/-- A file tree and the location of the working directory in it. -/
structure FileSystem where
  root : Directory := .empty
  cwd : List String := []
deriving Repr, DecidableEq, Inhabited

namespace FileSystem

/-- The longest path, and the longest name, in bytes. -/
def maxPathBytes : Nat := 4095

def maxNameBytes : Nat := 255

/-- The entry at a location. -/
def entry? (fs : FileSystem) (location : List String) : Option Entry := fs.root.find? location

-- ---------------------------------------------------------------------------
-- Finding what a path names
-- ---------------------------------------------------------------------------

/-- Follows the segments of a path. `trail` holds the names on the way so far, the last one first,
and `here` what they lead to, which has to be a directory to go on. -/
def walk (fs : FileSystem) : (trail : List String) → (here : Option Entry) → List Text →
    Except OsError (List String)
  | trail, _, [] => .ok trail.reverse
  | _, none, _ :: _ => .error .notFound
  | _, some (.file _), _ :: _ => .error .notADirectory
  | trail, some (.dir d), segment :: rest =>
    match Path.component? segment with
    | some .parent => fs.walk trail.tail (fs.entry? trail.tail.reverse) rest
    | some (.name text) =>
      if maxNameBytes < Text.byteLength text then .error .nameTooLong
      else fs.walk (String.ofList text :: trail) (d.get? (String.ofList text)) rest
    | _ => fs.walk trail (some (.dir d)) rest

/-- Refuses what can be no path, before any of it is followed. -/
def checkPath (path : String) : Except OsError Unit :=
  if path.toList.contains '\x00' then .error .nulInPath
  else if path = "" then .error .notFound
  else if maxPathBytes < path.utf8ByteSize then .error .nameTooLong
  else .ok ()

/-- Follows segments from where a path starts: the root, or the working directory. -/
def follow (fs : FileSystem) (path : String) (segments : List Text) :
    Except OsError (List String) :=
  let start := if Path.isAbsolute path then [] else fs.cwd
  fs.walk start.reverse (fs.entry? start) segments

/-- The location that a path names. Something may or may not be there, but a directory to hold it
is. -/
def locate (fs : FileSystem) (path : String) : Except OsError (List String) := do
  checkPath path
  fs.follow path (Path.segments path)

/-- The location of a directory to be made at a path, which may have slashes at its end. -/
def locateDir (fs : FileSystem) (path : String) : Except OsError (List String) := do
  checkPath path
  fs.follow path (Path.segments (Path.trimSlashes path))

/-- The location of a file to be written at a path. A path with a slash at its end names a
directory, whether there is one or not; only the way to it is followed. -/
def locateFile (fs : FileSystem) (path : String) : Except OsError (List String) := do
  checkPath path
  let segments := Path.segments (Path.trimSlashes path)
  if path = Path.trimSlashes path then fs.follow path segments
  else
    let _ ← fs.follow path (segments.dropLast ++ [[]])
    throw .isADirectory

/-- What is at a path. -/
def stat (fs : FileSystem) (path : String) : Except OsError Entry := do
  match fs.entry? (← fs.locate path) with
  | some entry => return entry
  | none => throw .notFound

/-- The directory at a path. -/
def directory? (fs : FileSystem) (path : String) : Option Directory :=
  match fs.stat path with
  | .ok (.dir d) => some d
  | _ => none

def isDir (fs : FileSystem) (path : String) : Bool := (fs.directory? path).isSome

def pathExists (fs : FileSystem) (path : String) : Bool := (fs.stat path).isOk

/-- The size of what is at a path. A directory has a size of its own. -/
def size (fs : FileSystem) (path : String) : Except OsError Nat := do
  match ← fs.stat path with
  | .file contents => return contents.size
  | .dir _ => return 4096

/-- The contents of the file at a path. -/
def read (fs : FileSystem) (path : String) : Except OsError Contents := do
  match ← fs.stat path with
  | .file contents => return contents
  | .dir _ => throw .isADirectory

/-- The text in the file at a path. -/
def readText (fs : FileSystem) (path : String) : Except OsError String := do
  match ← fs.read path with
  | .text s => return s
  | .bytes _ => throw .invalidUtf8

-- ---------------------------------------------------------------------------
-- Changing the tree
-- ---------------------------------------------------------------------------

/-- The file system with an entry set at a location. -/
def store (fs : FileSystem) (location : List String) (entry : Entry) : FileSystem :=
  { fs with root := fs.root.store entry location }

/-- The file system without the entry at a location. -/
def discard (fs : FileSystem) (location : List String) : FileSystem :=
  { fs with root := fs.root.discard location }

/-- Writes a file. Its directory has to be there. -/
def write (fs : FileSystem) (path : String) (contents : Contents) :
    Except OsError FileSystem := do
  let location ← fs.locateFile path
  match fs.entry? location with
  | some (.dir _) => throw .isADirectory
  | _ => return fs.store location (.file contents)

/-- Makes a directory in one that is there. -/
def makeDir (fs : FileSystem) (path : String) : Except OsError FileSystem := do
  let location ← fs.locateDir path
  match fs.entry? location with
  | some _ => throw .alreadyExists
  | none => return fs.store location (.dir .empty)

/-- Makes a directory unless it is there. -/
def ensureDir (fs : FileSystem) (path : String) : FileSystem × Option OsError :=
  match fs.makeDir path with
  | .ok after => (after, none)
  | .error e => (fs, if fs.isDir path then none else some e)

/-- Makes a directory and those above it unless they are there. Each path is that of the directory
of the one before, so the length of the path is fuel enough. -/
def ensureDirs : (fuel : Nat) → FileSystem → (path : String) → FileSystem × Option OsError
  | 0, fs, _ => (fs, none)
  | fuel + 1, fs, path =>
    if path = "" then (fs, none)
    else
      match fs.makeDir path with
      | .error .notFound =>
        match Path.parent? path with
        | none => (fs, some .notFound)
        | some above =>
          match ensureDirs fuel fs above with
          | (after, some e) => (after, some e)
          | (after, none) => after.ensureDir path
      | _ => fs.ensureDir path

/-- Makes the directory at a path and those above it. -/
def makeDirs (fs : FileSystem) (path : String) : FileSystem × Option OsError :=
  ensureDirs (path.length + 1) fs path

/-- Removes the directory at a path with all that is in it. -/
def removeTree (fs : FileSystem) (path : String) : Except OsError FileSystem := do
  let location ← fs.locate path
  match fs.entry? location with
  | none => throw .notFound
  | some (.file _) => throw .notADirectory
  | some (.dir _) => return fs.discard location

/-- Removes the file at a path. -/
def removeFile (fs : FileSystem) (path : String) : Except OsError FileSystem := do
  let location ← fs.locate path
  match fs.entry? location with
  | none => throw .notFound
  | some (.dir _) => throw .isADirectory
  | some (.file _) => return fs.discard location

/-- Writes a file and makes the directories for it. -/
def writeDeep (fs : FileSystem) (path : String) (contents : Contents) :
    Except OsError FileSystem :=
  match fs.makeDirs ((Path.parent? path).getD "") with
  | (_, some e) => .error e
  | (after, none) => after.write path contents

end FileSystem

end Typings
