/-!
# Failures of the file system

The reasons for which reading or changing a file tree fails, with the text the operating system
gives for each.
-/

namespace Typings

inductive OsError where
  | notFound
  | alreadyExists
  | notADirectory
  | isADirectory
  | nameTooLong
  /-- A path holds the character U+0000, which no path can. -/
  | nulInPath
  /-- The bytes of a file are not UTF-8. -/
  | invalidUtf8
deriving Repr, DecidableEq, Inhabited

def OsError.message : OsError → String
  | .notFound => "No such file or directory (os error 2)"
  | .alreadyExists => "File exists (os error 17)"
  | .notADirectory => "Not a directory (os error 20)"
  | .isADirectory => "Is a directory (os error 21)"
  | .nameTooLong => "File name too long (os error 36)"
  | .nulInPath => "file name contained an unexpected NUL byte"
  | .invalidUtf8 => "stream did not contain valid UTF-8"

end Typings
