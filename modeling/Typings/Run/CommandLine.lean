import Typings.Config.File
import Typings.Run.Basic

/-!
# The command line

The options of the command, the configuration they ask for, and what the command does with a file
system.
-/

namespace Typings

-- ---------------------------------------------------------------------------
-- Options
-- ---------------------------------------------------------------------------

/-- Options with a value. -/
inductive Setting where
  | config
  | source
  | output
  | apiPackage
  | patches
deriving Repr, DecidableEq, Inhabited

/-- Options without a value. -/
inductive Flag where
  | clean
  | parallel
  | verbose
  /-- Asks for help or for the version. -/
  | information
deriving Repr, DecidableEq, Inhabited

/-- An option. -/
inductive Switch where
  | setting (s : Setting)
  | flag (f : Flag)
deriving Repr, DecidableEq, Inhabited

/-- The option with a long name. -/
def Switch.ofLong? (name : String) : Option Switch :=
  match name with
  | "config" => some (.setting .config)
  | "source" => some (.setting .source)
  | "output" => some (.setting .output)
  | "api-package" => some (.setting .apiPackage)
  | "patches" => some (.setting .patches)
  | "clean" => some (.flag .clean)
  | "parallel" => some (.flag .parallel)
  | "verbose" => some (.flag .verbose)
  | "help" => some (.flag .information)
  | "version" => some (.flag .information)
  | _ => none

/-- The option with a letter. -/
def Switch.ofLetter? : Char → Option Switch
  | 's' => some (.setting .source)
  | 'o' => some (.setting .output)
  | 'p' => some (.setting .apiPackage)
  | 'v' => some (.flag .verbose)
  | 'h' => some (.flag .information)
  | 'V' => some (.flag .information)
  | _ => none

/-- What the arguments of the command ask for. -/
structure Arguments where
  config : Option String := none
  sources : List String := []
  output : Option String := none
  apiPackages : List String := []
  clean : Bool := false
  patches : Option String := none
  parallel : Bool := false
  verbosity : Nat := 0
deriving Repr, DecidableEq, Inhabited

/-- Why the command does nothing. -/
inductive Refusal where
  /-- Help or the version was asked for. -/
  | information
  /-- The arguments are not understood. -/
  | misuse
deriving Repr, DecidableEq, Inhabited

namespace Arguments

/-- Gives a value to a setting. A path is not empty, and a setting other than a source directory or
an API package is given once. -/
def assign (a : Arguments) (s : Setting) (value : String) : Except Refusal Arguments :=
  match s with
  | .apiPackage => .ok { a with apiPackages := a.apiPackages ++ [value] }
  | .source => if value = "" then .error .misuse else .ok { a with sources := a.sources ++ [value] }
  | .config =>
    if value = "" || a.config.isSome then .error .misuse else .ok { a with config := some value }
  | .output =>
    if value = "" || a.output.isSome then .error .misuse else .ok { a with output := some value }
  | .patches =>
    if value = "" || a.patches.isSome then .error .misuse else .ok { a with patches := some value }

/-- Raises a flag. Cleaning and parallel reading are asked for once. -/
def raise (a : Arguments) : Flag → Except Refusal Arguments
  | .clean => if a.clean then .error .misuse else .ok { a with clean := true }
  | .parallel => if a.parallel then .error .misuse else .ok { a with parallel := true }
  | .verbose => .ok { a with verbosity := a.verbosity + 1 }
  | .information => .error .information

/-- Reads a long option without its dashes: a name, or a name and a value with `=` between them.
Gives the setting whose value is still to come. -/
def readLong (a : Arguments) (body : Text) : Except Refusal (Option Setting × Arguments) :=
  let (name, value) :=
    match Text.splitFirst? '=' body with
    | some (name, value) => (name, some value)
    | none => (body, none)
  match Switch.ofLong? (String.ofList name), value with
  | some (.setting s), some v => (a.assign s (String.ofList v)).map fun after => (none, after)
  | some (.setting s), none => .ok (some s, a)
  | some (.flag f), none => (a.raise f).map fun after => (none, after)
  | _, _ => .error .misuse

/-- Reads letters after a dash. What follows a letter with a value is its value; an `=` between
them does not count. -/
def readLetters : Arguments → Text → Except Refusal (Option Setting × Arguments)
  | a, [] => .ok (none, a)
  | a, c :: cs =>
    match Switch.ofLetter? c with
    | some (.flag f) =>
      match a.raise f with
      | .ok after => readLetters after cs
      | .error r => .error r
    | some (.setting s) =>
      match cs with
      | [] => .ok (some s, a)
      | '=' :: v => (a.assign s (String.ofList v)).map fun after => (none, after)
      | v => (a.assign s (String.ofList v)).map fun after => (none, after)
    | none => .error .misuse

/-- Whether an argument looks like an option and not like a value. -/
def isOption (arg : String) : Bool := arg.toList.head? = some '-' && arg ≠ "-"

/-- Reads arguments, `pending` being the setting whose value comes next. -/
def read : (pending : Option Setting) → Arguments → List String → Except Refusal Arguments
  | none, a, [] => .ok a
  | some _, _, [] => .error .misuse
  | some s, a, value :: rest =>
    if isOption value then .error .misuse
    else
      match a.assign s value with
      | .ok after => read none after rest
      | .error r => .error r
  | none, a, arg :: rest =>
    if arg = "--" then if rest.isEmpty then .ok a else .error .misuse
    else if !isOption arg then .error .misuse
    else
      let result :=
        match arg.toList with
        | '-' :: '-' :: body => a.readLong body
        | '-' :: letters => a.readLetters letters
        | _ => .error .misuse
      match result with
      | .ok (pending, after) => read pending after rest
      | .error r => .error r

/-- What a list of arguments asks for. -/
def ofList (args : List String) : Except Refusal Arguments := read none {} args

/-- The configuration with the settings that the arguments override. -/
def override (a : Arguments) (c : RunConfig) : RunConfig :=
  { c with
    sourceDirs := if a.sources.isEmpty then c.sourceDirs else a.sources
    outputDir := a.output.getD c.outputDir
    apiPackages := if a.apiPackages.isEmpty then c.apiPackages else a.apiPackages
    cleanOutput := a.clean || c.cleanOutput
    patchDir := a.patches.orElse fun _ => c.patchDir
    reading := { c.reading with parallel := a.parallel || c.reading.parallel } }

end Arguments

-- ---------------------------------------------------------------------------
-- Failures
-- ---------------------------------------------------------------------------

/-- The message of a failure and those of its causes. -/
def ConfigError.chain (e : ConfigError) : List String :=
  match e with
  | .unreadable _ cause => [e.message, cause.message]
  | _ => [e.message]

/-- The message of a failure and those of its causes. -/
def ReadError.chain (e : ReadError) : List String :=
  match e with
  | .io _ cause => [e.message, cause.message]
  | .tooLarge _ _ => [e.message]

/-- The message of a failure and those of its causes. -/
def RunError.chain (e : RunError) : List String :=
  match e with
  | .io _ cause => [e.message, cause.message]
  | .walk path cause => [e.message, walkMessage path cause, cause.message]
  | .config inner => inner.chain
  | .reading inner => inner.chain

/-- The line that reports a failure: what was being done, and the chain of causes. -/
def errorLine (context : String) (chain : List String) : String :=
  "error: " ++ String.intercalate ": " (context :: chain)

-- ---------------------------------------------------------------------------
-- The command
-- ---------------------------------------------------------------------------

/-- How the command ends. -/
inductive CommandResult where
  | done
  | refused (r : Refusal)
  | failed (line : String)
deriving Repr, DecidableEq, Inhabited

def CommandResult.exitCode : CommandResult → UInt8
  | .done => 0
  | .refused .information => 0
  | .refused .misuse => 2
  | .failed _ => 1

/-- The configuration that arguments ask for, or the line that says why there is none. -/
def Arguments.config? (a : Arguments) (fs : FileSystem) : Except String RunConfig := do
  let start : RunConfig ←
    match a.config with
    | none => pure {}
    | some path =>
      match RunConfig.load fs path with
      | .ok c => pure c
      | .error e => throw (errorLine ("failed to load config " ++ path) e.chain)
  let c := a.override start
  match c.fault? with
  | some fault => throw (errorLine "invalid configuration" (ConfigError.invalid fault).chain)
  | none => return c

/-- Runs the command with its arguments on a file system. -/
def command (args : List String) (fs : FileSystem) : FileSystem × CommandResult :=
  match Arguments.ofList args with
  | .error r => (fs, .refused r)
  | .ok a =>
    match a.config? fs with
    | .error line => (fs, .failed line)
    | .ok c =>
      match run c fs with
      | .ok _ after => (after, .done)
      | .error e after => (after, .failed (errorLine "generation failed" e.chain))

end Typings
