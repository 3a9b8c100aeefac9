import Typings.Model.Basic
import Typings.Project.Metrics

/-!
# Read files

What is known of a file that was read, and of a batch of files of which some could not be read.
-/

namespace Typings

/-- A file that was read. -/
structure FileInfo where
  path : String
  source : SourceFile
  time : Duration := {}
  lines : UInt64
  bytes : UInt64
deriving Repr, DecidableEq, Inhabited

def FileInfo.typeCount (i : FileInfo) : Nat := i.source.typeCount

/-- A batch of files, in the order in which they were given. -/
structure ProjectInfo where
  files : List FileInfo := []
  totalTypes : UInt64 := 0
  time : Duration := {}
  /-- Files that could not be read, each with the reason. -/
  failed : List (String × String) := []
deriving Repr, DecidableEq, Inhabited

namespace ProjectInfo

def addFile (p : ProjectInfo) (info : FileInfo) : ProjectInfo :=
  { p with
    files := p.files ++ [info]
    totalTypes := p.totalTypes + info.typeCount.toUInt64
    time := p.time + info.time }

/-- The batch with one more file, when its time can be kept. -/
def addFile? (p : ProjectInfo) (info : FileInfo) : Option ProjectInfo :=
  if (p.addFile info).time.fits then some (p.addFile info) else none

def addFailure (p : ProjectInfo) (path reason : String) : ProjectInfo :=
  { p with failed := p.failed ++ [(path, reason)] }

/-- Number of files, read or not. -/
def totalFiles (p : ProjectInfo) : Nat := p.files.length + p.failed.length

def successRate (p : ProjectInfo) : Float :=
  Typings.successRate p.files.length.toUInt64 p.totalFiles.toUInt64

/-- Average time for a file that was read. -/
def averageTime? (p : ProjectInfo) : Option Duration :=
  p.time.average? p.files.length.toUInt64

end ProjectInfo

end Typings
