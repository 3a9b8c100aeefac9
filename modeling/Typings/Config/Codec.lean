import Typings.Config.Basic
import Typings.Json.Codec
import Typings.Json.Reader

/-!
# Configuration files

The JSON form of settings. Every field has a default.
-/

namespace Typings

open Json

def ReadingConfig.encode (c : ReadingConfig) : Json :=
  .object [("max_file_size", encodeWord c.maxFileSize), ("parallel", .bool c.parallel),
    ("parallel_workers", encodeNullable encodeWord c.workers),
    ("include_docs", .bool c.includeDocs)]

def ReadingConfig.decode? : Decoder ReadingConfig
  | 0, _ => none
  | n + 1, j =>
    let default : ReadingConfig := {}
    match defaultedFields?
      ["max_file_size", "parallel", "parallel_workers", "include_docs"] j with
    | some [maxFileSize, parallel, workers, includeDocs] => do
      return {
        maxFileSize := ← withDefault default.maxFileSize decodeWord n maxFileSize
        parallel := ← withDefault default.parallel decodeBool n parallel
        workers := ← withDefault default.workers (decodeNullable decodeWord) n workers
        includeDocs := ← withDefault default.includeDocs decodeBool n includeDocs }
    | _ => none

/-- The names of the settings of a run, in order. -/
def RunConfig.fieldNames : List String :=
  ["source_dirs", "output_dir", "api_packages", "clean_output", "preserved_files", "patch_dir",
    "hook_references", "index_file", "hooks_file", "parser"]

def RunConfig.encode (c : RunConfig) : Json :=
  .object [("source_dirs", encodeList .str c.sourceDirs), ("output_dir", .str c.outputDir),
    ("api_packages", encodeList .str c.apiPackages), ("clean_output", .bool c.cleanOutput),
    ("preserved_files", encodeList .str c.preservedFiles),
    ("patch_dir", encodeNullable .str c.patchDir),
    ("hook_references", encodeList .str c.hookReferences), ("index_file", .str c.indexFile),
    ("hooks_file", .str c.hooksFile), ("parser", c.reading.encode)]

def RunConfig.decode? : Decoder RunConfig
  | 0, _ => none
  | n + 1, j =>
    let default : RunConfig := {}
    match defaultedFields? RunConfig.fieldNames j with
    | some [sourceDirs, outputDir, apiPackages, cleanOutput, preservedFiles, patchDir,
        hookReferences, indexFile, hooksFile, reading] => do
      return {
        sourceDirs := ← withDefault default.sourceDirs (decodeList decodeString) n sourceDirs
        outputDir := ← withDefault default.outputDir decodeString n outputDir
        apiPackages := ← withDefault default.apiPackages (decodeList decodeString) n apiPackages
        cleanOutput := ← withDefault default.cleanOutput decodeBool n cleanOutput
        preservedFiles := ←
          withDefault default.preservedFiles (decodeList decodeString) n preservedFiles
        patchDir := ← withDefault default.patchDir (decodeNullable decodeString) n patchDir
        hookReferences := ←
          withDefault default.hookReferences (decodeList decodeString) n hookReferences
        indexFile := ← withDefault default.indexFile decodeString n indexFile
        hooksFile := ← withDefault default.hooksFile decodeString n hooksFile
        reading := ← withDefault default.reading ReadingConfig.decode? n reading }
    | _ => none

/-- The configuration that a text holds, when it can be used. -/
def RunConfig.ofText (text : String) : Except ConfigError RunConfig :=
  match (Json.read? text).bind (RunConfig.decode? depthLimit) with
  | none => .error .malformed
  | some config =>
    match config.fault? with
    | some fault => .error (.invalid fault)
    | none => .ok config

end Typings
