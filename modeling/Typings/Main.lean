import Std.Data.HashMap
import Typings.Run.CommandLine

/-!
# The command

Carries out the command on the disk: the part of the disk that a run can see is read into a file
tree, the run works on the tree, and what it changed is written back.
-/

namespace Typings.Main

/-- What an absolute path names on the disk. -/
def onDisk (path : String) : IO.FS.DirEntry := { root := "", fileName := path }

/-- The absolute path of a location. -/
def diskPath (location : List String) : String := "/" ++ String.intercalate "/" location

/-- Reads the entry at an absolute path with all that is below it. -/
partial def loadEntry (path : String) : IO Entry := do
  if ← (onDisk path).path.isDir then
    let mut inside := Directory.empty
    for e in ← (onDisk path).path.readDir do
      inside := inside.put e.fileName (← loadEntry (path ++ "/" ++ e.fileName))
    return .dir inside
  else
    return .file (.ofBytes (← IO.FS.readBinFile path).toList)

/-- The location of a path, steps up taken away. -/
def locationOf (cwd : List String) (path : String) : List String :=
  let step (location : List String) (segment : Text) : List String :=
    match Path.component? segment with
    | some .parent => location.dropLast
    | some (.name text) => location ++ [String.ofList text]
    | _ => location
  (Path.segments path).foldl step (if Path.isAbsolute path then [] else cwd)

/-- Puts what is above a location on the disk into the tree: directories without what is in them,
or a file in the way. -/
def loadAbove (fs : FileSystem) (location : List String) : IO FileSystem := do
  let mut fs := fs
  for n in List.range location.length do
    let above := location.take n
    let path := (onDisk (diskPath above)).path
    if (← path.pathExists) && (fs.entry? above).isNone then
      let isDir ← path.isDir
      fs := fs.store above (if isDir then .dir .empty else .file (.text ""))
  return fs

/-- Puts what is at a location on the disk into the tree. -/
def load (fs : FileSystem) (location : List String) : IO FileSystem := do
  let fs ← loadAbove fs location
  if ← (onDisk (diskPath location)).path.pathExists then
    match location, ← loadEntry (diskPath location) with
    | [], .dir root => return { fs with root }
    | _, entry => return fs.store location entry
  else return fs

/-- Puts what paths name into the tree. -/
def loadAll (fs : FileSystem) (paths : List String) : IO FileSystem :=
  paths.foldlM (fun fs path => load fs (locationOf fs.cwd path)) fs

/-- Writes the differences between two trees to the disk. -/
def apply (before after : FileSystem) : IO Unit := do
  let old := before.root.listing "/"
  let new := after.root.listing "/"
  let oldEntries := Std.HashMap.ofList old
  let newEntries := Std.HashMap.ofList new
  for (path, contents) in old.reverse do
    unless newEntries.contains path do
      if contents.isSome then IO.FS.removeFile path else IO.FS.removeDir path
  for (path, contents) in new do
    unless oldEntries[path]? == some contents do
      match contents with
      | none => IO.FS.createDirAll path
      | some (.text s) => IO.FS.writeFile path s
      | some (.bytes raw) => IO.FS.writeBinFile path ⟨raw.toArray⟩

/-- How the command is used. -/
def usage : String :=
  "Usage: typings [--config FILE] [-s|--source DIR]... [-o|--output DIR]\n" ++
  "               [-p|--api-package PKG]... [--clean] [--patches DIR] [--parallel] [-v]..."

end Typings.Main

open Typings Typings.Main in
def main (args : List String) : IO UInt32 := do
  let cwd := ((← IO.currentDir).toString.splitOn "/").filter (· ≠ "")
  let above : FileSystem ← loadAbove { cwd } cwd
  let mut fs := above.store cwd (.dir .empty)
  match Arguments.ofList args with
  | .error .information => IO.println usage
  | .error .misuse => IO.eprintln usage
  | .ok a =>
    fs ← loadAll fs a.config.toList
    match a.config? fs with
    | .error _ => pure ()
    | .ok c => fs ← loadAll fs (c.sourceDirs ++ [c.outputDir] ++ c.patchDir.toList)
  let (after, result) := command args fs
  apply fs after
  match result with
  | .failed line => IO.eprintln line
  | _ => pure ()
  return result.exitCode.toUInt32
