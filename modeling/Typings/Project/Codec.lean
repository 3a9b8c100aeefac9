import Typings.Model.Codec
import Typings.Project.Basic

/-!
# Read files in JSON

The JSON form of read files, batches and counters. Times are whole milliseconds.
-/

namespace Typings

open Json

def Duration.encode (d : Duration) : Json := encodeWord d.millis

def Duration.decode? : Decoder Duration := fun n j => (decodeWord n j).map Duration.ofMillis

def FileInfo.encode (i : FileInfo) : Json :=
  .object [("file_path", .str i.path), ("source", i.source.encode), ("parse_time", i.time.encode),
    ("line_count", encodeWord i.lines), ("byte_count", encodeWord i.bytes)]

def FileInfo.decode? : Decoder FileInfo
  | 0, _ => none
  | n + 1, j =>
    match recordFields? ["file_path", "source", "parse_time", "line_count", "byte_count"] j with
    | some [path, source, time, lines, bytes] => do
      return {
        path := ← required decodeString n path
        source := ← required SourceFile.decode? n source
        time := ← required Duration.decode? n time
        lines := ← required decodeWord n lines
        bytes := ← required decodeWord n bytes }
    | _ => none

def ProjectInfo.encode (p : ProjectInfo) : Json :=
  .object [("files", encodeList FileInfo.encode p.files), ("total_types", encodeWord p.totalTypes),
    ("total_parse_time", p.time.encode),
    ("failed_files", encodeList (encodePair .str .str) p.failed)]

def ProjectInfo.decode? : Decoder ProjectInfo
  | 0, _ => none
  | n + 1, j =>
    match recordFields? ["files", "total_types", "total_parse_time", "failed_files"] j with
    | some [files, totalTypes, time, failed] => do
      return {
        files := ← required (decodeList FileInfo.decode?) n files
        totalTypes := ← required decodeWord n totalTypes
        time := ← required Duration.decode? n time
        failed := ← required (decodeList (decodePair decodeString decodeString)) n failed }
    | _ => none

def Metrics.encode (m : Metrics) : Json :=
  .object [("files_attempted", encodeWord m.attempted), ("files_succeeded", encodeWord m.succeeded),
    ("files_failed", encodeWord m.failed), ("files_without_types", encodeWord m.withoutTypes),
    ("total_parse_time", m.time.encode), ("total_types", encodeWord m.types),
    ("total_methods", encodeWord m.methods)]

def Metrics.decode? : Decoder Metrics
  | 0, _ => none
  | n + 1, j =>
    match recordFields?
      ["files_attempted", "files_succeeded", "files_failed", "files_without_types",
        "total_parse_time", "total_types", "total_methods"] j with
    | some [attempted, succeeded, failed, withoutTypes, time, types, methods] => do
      return {
        attempted := ← required decodeWord n attempted
        succeeded := ← required decodeWord n succeeded
        failed := ← required decodeWord n failed
        withoutTypes := ← required decodeWord n withoutTypes
        time := ← required Duration.decode? n time
        types := ← required decodeWord n types
        methods := ← required decodeWord n methods }
    | _ => none

end Typings
