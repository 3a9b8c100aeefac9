import Typings.Config.Codec
import Typings.Project.Codec
import Typings.Proofs.Json.Records

/-!
# The JSON forms of the model

Decoding undoes encoding for declarations, configurations, read files, batches and counters. Times
are encoded in whole milliseconds, of which 64 bits are kept; everything else is kept as it is.
-/

namespace Typings

open Json

-- ---------------------------------------------------------------------------
-- Imports, methods and fields
-- ---------------------------------------------------------------------------

theorem decodes_text? (o : Option String) :
    Decodes (decodeNullable decodeString) (encodeNullable .str o) o :=
  decodes_nullable decodes_str (fun _ => nofun) o

theorem decodes_texts (items : List String) :
    Decodes (decodeList decodeString) (encodeList .str items) items := by
  simpa using @decodes_list _ _ _ id decodes_str items

theorem Import.roundTrips : RoundTrips Import.encode Import.decode? id := by
  refine .of_fields (findsFields_recordFields? ["path", "is_static", "is_wildcard"] (by decide))
    (fun i => [.str i.path, .bool i.isStatic, .bool i.isWildcard]) (fun _ => rfl) (fun _ => rfl)
    (fun i n j hj _ => ?_) fun _ => rfl
  rw [Import.decode?, hj]
  rfl

theorem Parameter.roundTrips : RoundTrips Parameter.encode Parameter.decode? id := by
  refine .of_fields (findsFields_recordFields? ["name", "type_name", "is_varargs"] (by decide))
    (fun p => [.str p.name, .str p.typeName, .bool p.isVarargs]) (fun _ => rfl) (fun _ => rfl)
    (fun p n j hj _ => ?_) fun _ => rfl
  rw [Parameter.decode?, hj]
  rfl

theorem Method.roundTrips : RoundTrips Method.encode Method.decode? id := by
  refine .of_fields (findsFields_recordFields?
      ["name", "return_type", "type_parameters", "parameters", "doc_comment"] (by decide))
    (fun m => [.str m.name, .str m.returnType, encodeNullable .str m.typeParameters,
      encodeList Parameter.encode m.parameters, encodeNullable .str m.doc])
    (fun _ => rfl) (fun _ => rfl) (fun m n j hj hn => ?_) fun _ => rfl
  simp only [List.forall_mem_cons] at hn
  have hgenerics := (decodes_text? m.typeParameters).optional hn.2.2.1
  have hparameters := (decodes_list Parameter.roundTrips.object m.parameters).required hn.2.2.2.1
  have hdoc := (decodes_text? m.doc).optional hn.2.2.2.2.1
  rw [Method.decode?, hj]
  simp only [List.map_cons, List.map_nil, hgenerics, hparameters, hdoc, List.map_id]
  rfl

theorem Field.roundTrips : RoundTrips Field.encode Field.decode? id := by
  refine .of_fields (findsFields_recordFields? ["name", "type_name", "doc_comment"] (by decide))
    (fun f => [.str f.name, .str f.typeName, encodeNullable .str f.doc])
    (fun _ => rfl) (fun _ => rfl) (fun f n j hj hn => ?_) fun _ => rfl
  simp only [List.forall_mem_cons] at hn
  have hdoc := (decodes_text? f.doc).optional hn.2.2.1
  rw [Field.decode?, hj]
  simp only [List.map_cons, List.map_nil, hdoc]
  rfl

-- ---------------------------------------------------------------------------
-- Types and files
-- ---------------------------------------------------------------------------

theorem TypeKind.decodes (k : TypeKind) : Decodes TypeKind.decode? k.encode k := by
  intro n _
  exact TypeKind.ofKeyword?_eq_some_iff.2 rfl

namespace TypeDecl

/-- The values of the fields of an encoded declaration. -/
def fieldValues (d : TypeDecl) : List Json :=
  [.str d.name, d.kind.encode, .bool d.isAbstract, encodeNullable .str d.typeParameters,
    encodeNullable .str d.superTypes, encodeNullable .str d.interfaces, encodeNullable .str d.doc,
    encodeList Method.encode d.methods, encodeList Field.encode d.fields,
    .arr (encodeAll d.nested)]

theorem encode_eq (d : TypeDecl) : d.encode = .object (fieldNames.zip d.fieldValues) := by
  cases d
  simp only [encode]
  rfl

/-- A declaration is decoded from the values of its fields when the types nested in it are decoded
with what is left of the allowance. -/
theorem decode?_of_nested (d : TypeDecl) {n : Nat} {j : Json}
    (hj : recordFields? fieldNames j = some (d.fieldValues.map some))
    (hn : ∀ v ∈ d.fieldValues, v.depth ≤ n)
    (hnested : ∀ m, n = m + 1 → (encodeAll d.nested).mapM (decode? m) = some d.nested) :
    decode? (n + 1) j = some d := by
  simp only [fieldValues, List.forall_mem_cons] at hn
  obtain ⟨-, -, -, hgenerics, hsupers, hinterfaces, hdoc, hmethods, hfields, hinner, -⟩ := hn
  have hgenerics := (decodes_text? d.typeParameters).optional hgenerics
  have hsupers := (decodes_text? d.superTypes).optional hsupers
  have hinterfaces := (decodes_text? d.interfaces).optional hinterfaces
  have hdoc := (decodes_text? d.doc).optional hdoc
  have hmethods := (decodes_list Method.roundTrips.object d.methods).required hmethods
  have hfields := (decodes_list Field.roundTrips.object d.fields).required hfields
  have hkind : required TypeKind.decode? n (some d.kind.encode) = some d.kind :=
    (TypeKind.decodes d.kind).required (Nat.zero_le n)
  obtain ⟨m, rfl⟩ : ∃ m, n = m + 1 := ⟨n - 1, by simp only [depth] at hinner; omega⟩
  rw [decode?, hj, Option.bind_some]
  simp only [ofFields?, decodeNested?, fieldValues, List.map_cons, List.map_nil, hkind, hgenerics,
    hsupers, hinterfaces, hdoc, hmethods, hfields, hnested m rfl, List.map_id]
  cases d
  rfl

mutual

/-- Whatever the depth of the types nested in a declaration. -/
theorem decodes_encode : ∀ d : TypeDecl, Decodes decode? d.encode d
  | ⟨o, nested⟩ => by
    intro n hn
    let d : TypeDecl := ⟨o, nested⟩
    rw [encode_eq, object, depth] at hn
    obtain ⟨m, rfl⟩ : ∃ m, n = m + 1 := ⟨n - 1, by omega⟩
    have hdepth : ∀ v ∈ d.fieldValues, v.depth ≤ m :=
      (depthFields_zip_le_iff rfl).1 (Nat.le_of_succ_le_succ hn)
    rw [encode_eq]
    refine decode?_of_nested d ?_ hdepth fun k hk => ?_
    · exact (findsFields_recordFields? fieldNames (by decide) _ rfl).1
    · have hinner : (Json.arr (encodeAll nested)).depth ≤ m := hdepth _ (by simp [fieldValues, d])
      rw [depth, hk, Nat.add_le_add_iff_right] at hinner
      exact mapM_decode_encodeAll nested k hinner

theorem mapM_decode_encodeAll :
    ∀ (ds : List TypeDecl) (n : Nat), depthAll (encodeAll ds) ≤ n →
      (encodeAll ds).mapM (decode? n) = some ds
  | [], n, _ => by
    simp only [encodeAll]
    rfl
  | d :: ds, n, hn => by
    simp only [encodeAll, depthAll, Nat.max_le] at hn ⊢
    rw [List.mapM_cons, decodes_encode d n hn.1, mapM_decode_encodeAll ds n hn.2]
    rfl

end

theorem roundTrips : RoundTrips encode decode? id := by
  refine .of_fields (findsFields_recordFields? fieldNames (by decide)) fieldValues (fun _ => rfl)
    encode_eq (fun d n j hj hn => ?_) fun _ => rfl
  refine decode?_of_nested d hj hn fun m hm => mapM_decode_encodeAll d.nested m ?_
  have hinner : (Json.arr (encodeAll d.nested)).depth ≤ n := hn _ (by simp [fieldValues])
  rwa [depth, hm, Nat.add_le_add_iff_right] at hinner

end TypeDecl

theorem SourceFile.roundTrips : RoundTrips SourceFile.encode SourceFile.decode? id := by
  refine .of_fields (findsFields_recordFields? ["package", "imports", "types"] (by decide))
    (fun f => [.str f.package, encodeList Import.encode f.imports,
      encodeList TypeDecl.encode f.types])
    (fun _ => rfl) (fun _ => rfl) (fun f n j hj hn => ?_) fun _ => rfl
  simp only [List.forall_mem_cons] at hn
  have himports := (decodes_list Import.roundTrips.object f.imports).required hn.2.1
  have htypes := (decodes_list TypeDecl.roundTrips.object f.types).required hn.2.2.1
  rw [SourceFile.decode?, hj]
  simp only [List.map_cons, List.map_nil, himports, htypes, List.map_id]
  rfl

-- ---------------------------------------------------------------------------
-- Configurations
-- ---------------------------------------------------------------------------

theorem ReadingConfig.roundTrips : RoundTrips ReadingConfig.encode ReadingConfig.decode? id := by
  refine .of_fields (findsFields_defaultedFields?
      ["max_file_size", "parallel", "parallel_workers", "include_docs"] (by decide))
    (fun c => [encodeWord c.maxFileSize, .bool c.parallel, encodeNullable encodeWord c.workers,
      .bool c.includeDocs])
    (fun _ => rfl) (fun _ => rfl) (fun c n j hj hn => ?_) fun _ => rfl
  simp only [List.forall_mem_cons] at hn
  rw [ReadingConfig.decode?, hj]
  simp only [List.map_cons, List.map_nil, (decodes_word _).withDefault hn.1,
    (decodes_nullable decodes_word (fun _ => nofun) _).withDefault hn.2.2.1]
  rfl

theorem RunConfig.roundTrips : RoundTrips RunConfig.encode RunConfig.decode? id := by
  refine .of_fields (findsFields_defaultedFields? RunConfig.fieldNames (by decide))
    (fun c => [encodeList .str c.sourceDirs, .str c.outputDir, encodeList .str c.apiPackages,
      .bool c.cleanOutput, encodeList .str c.preservedFiles, encodeNullable .str c.patchDir,
      encodeList .str c.hookReferences, .str c.indexFile, .str c.hooksFile, c.reading.encode])
    (fun _ => rfl) (fun _ => rfl) (fun c n j hj hn => ?_) fun _ => rfl
  simp only [List.forall_mem_cons] at hn
  obtain ⟨hsources, -, hpackages, -, hpreserved, hpatch, hreferences, -, -, hreading, -⟩ := hn
  rw [RunConfig.decode?, hj]
  simp only [List.map_cons, List.map_nil, (decodes_texts _).withDefault hsources,
    (decodes_texts _).withDefault hpackages, (decodes_texts _).withDefault hpreserved,
    (decodes_text? _).withDefault hpatch, (decodes_texts _).withDefault hreferences,
    (ReadingConfig.roundTrips.object _).withDefault hreading]
  rfl

-- ---------------------------------------------------------------------------
-- Times
-- ---------------------------------------------------------------------------

/-- A time cut down to its whole milliseconds, of which the lower 64 bits are kept. -/
def Duration.wholeMillis (d : Duration) : Duration := ⟨d.nanos / 1000000 % UInt64.size * 1000000⟩

theorem Duration.ofMillis_millis (d : Duration) : Duration.ofMillis d.millis = d.wholeMillis := by
  simp [ofMillis, millis, wholeMillis]

theorem Duration.encode_wholeMillis (d : Duration) : d.wholeMillis.encode = d.encode := by
  have hmillis : d.wholeMillis.millis = d.millis := by
    rw [← UInt64.toNat_inj]
    simp [millis, wholeMillis]
  rw [Duration.encode, hmillis, ← Duration.encode]

theorem Duration.decodes (d : Duration) : Decodes Duration.decode? d.encode d.wholeMillis := by
  intro n hn
  rw [Duration.decode?, Duration.encode, decodes_word d.millis n hn, Option.map_some,
    ofMillis_millis]

/-- A read file as it comes back from its JSON form. -/
def FileInfo.wholeMillis (i : FileInfo) : FileInfo := { i with time := i.time.wholeMillis }

def ProjectInfo.wholeMillis (p : ProjectInfo) : ProjectInfo :=
  { p with files := p.files.map FileInfo.wholeMillis, time := p.time.wholeMillis }

def Metrics.wholeMillis (m : Metrics) : Metrics := { m with time := m.time.wholeMillis }

theorem FileInfo.encode_wholeMillis (i : FileInfo) : i.wholeMillis.encode = i.encode := by
  simp only [FileInfo.encode, FileInfo.wholeMillis, Duration.encode_wholeMillis]

theorem FileInfo.roundTrips :
    RoundTrips FileInfo.encode FileInfo.decode? FileInfo.wholeMillis := by
  refine .of_fields (findsFields_recordFields?
      ["file_path", "source", "parse_time", "line_count", "byte_count"] (by decide))
    (fun i => [.str i.path, i.source.encode, i.time.encode, encodeWord i.lines,
      encodeWord i.bytes])
    (fun _ => rfl) (fun _ => rfl) (fun i n j hj hn => ?_) FileInfo.encode_wholeMillis
  simp only [List.forall_mem_cons] at hn
  obtain ⟨-, hsource, htime, hlines, hbytes, -⟩ := hn
  rw [FileInfo.decode?, hj]
  simp only [List.map_cons, List.map_nil, (SourceFile.roundTrips.object _).required hsource,
    (Duration.decodes _).required htime, (decodes_word _).required hlines,
    (decodes_word _).required hbytes]
  rfl

theorem ProjectInfo.roundTrips :
    RoundTrips ProjectInfo.encode ProjectInfo.decode? ProjectInfo.wholeMillis := by
  refine .of_fields (findsFields_recordFields?
      ["files", "total_types", "total_parse_time", "failed_files"] (by decide))
    (fun p => [encodeList FileInfo.encode p.files, encodeWord p.totalTypes, p.time.encode,
      encodeList (encodePair .str .str) p.failed])
    (fun _ => rfl) (fun _ => rfl) (fun p n j hj hn => ?_) fun p => ?_
  · simp only [List.forall_mem_cons] at hn
    obtain ⟨hfiles, htypes, htime, hfailed, -⟩ := hn
    have hpairs := @decodes_list _ _ _ id (decodes_pair decodes_str decodes_str) p.failed
    rw [ProjectInfo.decode?, hj]
    simp only [List.map_cons, List.map_nil,
      (decodes_list FileInfo.roundTrips.object _).required hfiles,
      (decodes_word _).required htypes, (Duration.decodes _).required htime,
      hpairs.required hfailed, List.map_id]
    rfl
  · simp only [ProjectInfo.encode, ProjectInfo.wholeMillis, Duration.encode_wholeMillis,
      encodeList, List.map_map, Function.comp_def, FileInfo.encode_wholeMillis]

theorem Metrics.roundTrips : RoundTrips Metrics.encode Metrics.decode? Metrics.wholeMillis := by
  refine .of_fields (findsFields_recordFields?
      ["files_attempted", "files_succeeded", "files_failed", "files_without_types",
        "total_parse_time", "total_types", "total_methods"] (by decide))
    (fun m => [encodeWord m.attempted, encodeWord m.succeeded, encodeWord m.failed,
      encodeWord m.withoutTypes, m.time.encode, encodeWord m.types, encodeWord m.methods])
    (fun _ => rfl) (fun _ => rfl) (fun m n j hj hn => ?_) fun m => ?_
  · simp only [List.forall_mem_cons] at hn
    obtain ⟨h₁, h₂, h₃, h₄, htime, h₅, h₆, -⟩ := hn
    rw [Metrics.decode?, hj]
    simp only [List.map_cons, List.map_nil, (decodes_word _).required h₁,
      (decodes_word _).required h₂, (decodes_word _).required h₃, (decodes_word _).required h₄,
      (Duration.decodes _).required htime, (decodes_word _).required h₅,
      (decodes_word _).required h₆]
    rfl
  · simp only [Metrics.encode, Metrics.wholeMillis, Duration.encode_wholeMillis]

-- ---------------------------------------------------------------------------
-- The whole model
-- ---------------------------------------------------------------------------

/-- Decoding undoes encoding for every type of record that has a JSON form. -/
theorem decode_encode_model :
    RoundTrips Import.encode Import.decode? id ∧
    RoundTrips Parameter.encode Parameter.decode? id ∧
    RoundTrips Method.encode Method.decode? id ∧
    RoundTrips Field.encode Field.decode? id ∧
    RoundTrips TypeDecl.encode TypeDecl.decode? id ∧
    RoundTrips SourceFile.encode SourceFile.decode? id ∧
    RoundTrips ReadingConfig.encode ReadingConfig.decode? id ∧
    RoundTrips RunConfig.encode RunConfig.decode? id ∧
    RoundTrips FileInfo.encode FileInfo.decode? FileInfo.wholeMillis ∧
    RoundTrips ProjectInfo.encode ProjectInfo.decode? ProjectInfo.wholeMillis ∧
    RoundTrips Metrics.encode Metrics.decode? Metrics.wholeMillis :=
  ⟨Import.roundTrips, Parameter.roundTrips, Method.roundTrips, Field.roundTrips,
    TypeDecl.roundTrips, SourceFile.roundTrips, ReadingConfig.roundTrips, RunConfig.roundTrips,
    FileInfo.roundTrips, ProjectInfo.roundTrips, Metrics.roundTrips⟩

end Typings
