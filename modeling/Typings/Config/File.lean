import Typings.Config.Codec
import Typings.FileSystem.Basic

/-!
# Loading a configuration

Reads a configuration from a file.
-/

namespace Typings

/-- The configuration in the file at a path. -/
def RunConfig.load (fs : FileSystem) (path : String) : Except ConfigError RunConfig :=
  match fs.readText path with
  | .error e => .error (.unreadable path e)
  | .ok text => RunConfig.ofText text

end Typings
