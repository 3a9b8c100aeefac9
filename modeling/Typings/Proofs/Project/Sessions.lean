import Mathlib.Data.List.DropRight
import Typings.Proofs.Project.Workers

/-!
# Calls on a reader

A reader counts the files that it reads, from one call to the next, until it is told to start anew.
The files may change between two calls, and a batch may be read by any number of workers. What the
counters say can be told from what the calls have returned: each call adds the files of its reply,
and the counters of a session are those of all replies since the last reset.
-/

namespace Typings

-- ---------------------------------------------------------------------------
-- Sums of counters
-- ---------------------------------------------------------------------------

namespace Metrics

/-- The counters of a reader that has read some files and could not read `unread` others. -/
def tally (read : List FileInfo) (unread : Nat) : Metrics where
  attempted := (read.length + unread).toUInt64
  succeeded := read.length.toUInt64
  failed := unread.toUInt64
  withoutTypes := (read.countP fun info => info.source.isEmpty).toUInt64
  types := (read.map FileInfo.typeCount).sum.toUInt64
  methods := (read.map fun info : FileInfo => info.source.methodCount).sum.toUInt64

theorem counters_merge (a b : Metrics) : (a.merge b).counters = a.counters.merge b.counters := rfl

theorem merge_assoc (a b c : Metrics) : (a.merge b).merge c = a.merge (b.merge c) := by
  have htime : a.time + b.time + c.time = a.time + (b.time + c.time) :=
    congrArg Duration.mk (Nat.add_assoc a.time.nanos b.time.nanos c.time.nanos)
  simp only [merge, UInt64.add_assoc, htime]

@[simp] theorem merge_empty (m : Metrics) : m.merge {} = m := by
  obtain ⟨attempted, succeeded, failed, withoutTypes, ⟨nanos⟩, types, methods⟩ := m
  simp only [merge, UInt64.add_zero]
  rfl

@[simp] theorem empty_merge (m : Metrics) : merge {} m = m := by
  have htime : ({} : Duration) + m.time = m.time := congrArg Duration.mk (Nat.zero_add _)
  simp only [merge, UInt64.zero_add, htime]

theorem merge_tally (read later : List FileInfo) (unread more : Nat) :
    (tally read unread).merge (tally later more) = tally (read ++ later) (unread + more) := by
  have hattempted : read.length + later.length + (unread + more) =
      read.length + unread + (later.length + more) := by omega
  simp only [tally, merge, List.length_append, List.countP_append, List.map_append,
    List.sum_append, hattempted, Nat.toUInt64, UInt64.ofNat_add]
  rfl

/-- Times do not show in counters. -/
theorem tally_untimed (read : List FileInfo) (unread : Nat) :
    tally (read.map FileInfo.untimed) unread = tally read unread := by
  simp only [tally, List.length_map, List.countP_map, List.map_map]
  rfl

/-- What counting a file adds. -/
def ofOutcome : Outcome → Metrics
  | .ok info => tally [info] 0
  | .error _ => tally [] 1

theorem ofOutcome_untimed (o : Outcome) : ofOutcome o.untimed = ofOutcome o := by
  cases o with
  | ok info => exact tally_untimed [info] 0
  | error e => rfl

theorem counters_record_eq_merge (m : Metrics) (o : Outcome) :
    (m.record o).counters = m.counters.merge (ofOutcome o) := by
  cases o with
  | ok info =>
    cases hempty : info.source.isEmpty <;>
      simp [record, counters, merge, ofOutcome, tally, FileInfo.typeCount, hempty] <;> rfl
  | error e =>
    simp [record, counters, merge, ofOutcome, tally]
    rfl

/-- A batch that a file is added to counts one file more. -/
theorem tally_add (p : ProjectInfo) (path : String) (o : Outcome) :
    tally (p.add path o).files (p.add path o).failed.length =
      (tally p.files p.failed.length).merge (ofOutcome o) := by
  cases o with
  | ok info => exact (merge_tally p.files [info] _ 0).symm
  | error e =>
    rw [ofOutcome, merge_tally, List.append_nil]
    simp [ProjectInfo.add, ProjectInfo.addFailure]

end Metrics

-- ---------------------------------------------------------------------------
-- Batches
-- ---------------------------------------------------------------------------

/-- The batch of the files at some paths. -/
def batchOf (config : ReadingConfig) (fs : FileSystem) (paths : List String) : ProjectInfo :=
  paths.foldl (fun p path => p.add path (fs.readJava config path)) {}

/-- The counters of the files in a batch. -/
def ProjectInfo.tally (p : ProjectInfo) : Metrics := Metrics.tally p.files p.failed.length

section

variable (config : ReadingConfig) (fs : FileSystem) (m : Metrics)

/-- Reading files adds their batch to the counters. -/
theorem counters_foldl_record_eq_merge (paths : List String) :
    ((paths.map (fs.readJava config)).foldl Metrics.record m).counters =
      m.counters.merge (batchOf config fs paths).tally := by
  -- the batch grows along with the counters
  suffices h : ∀ (p : ProjectInfo) (n : Metrics), n.counters = m.counters.merge p.tally →
      ((paths.map (fs.readJava config)).foldl Metrics.record n).counters =
        m.counters.merge
          (paths.foldl (fun p path => p.add path (fs.readJava config path)) p).tally from
    h {} m (Metrics.merge_empty _).symm
  induction paths with
  | nil => exact fun p n h => h
  | cons path paths ih =>
    intro p n h
    refine ih (p.add path (fs.readJava config path)) (n.record (fs.readJava config path)) ?_
    rw [Metrics.counters_record_eq_merge, h, Metrics.merge_assoc]
    exact congrArg _ (Metrics.tally_add p path (fs.readJava config path)).symm

theorem readFiles_eq (paths : List String) :
    readFiles config fs m paths =
      ((paths.map (fs.readJava config)).foldl Metrics.record m, batchOf config fs paths) := by
  rw [readFiles, readInTurn_eq]
  exact ite_self _

theorem tally_batchOf_append (xs ys : List String) :
    (batchOf config fs (xs ++ ys)).tally =
      (batchOf config fs xs).tally.merge (batchOf config fs ys).tally := by
  have hall (paths : List String) :
      ((paths.map (fs.readJava config)).foldl Metrics.record {}).counters =
        (batchOf config fs paths).tally :=
    (counters_foldl_record_eq_merge config fs {} paths).trans (Metrics.empty_merge _)
  rw [← hall (xs ++ ys), List.map_append, List.foldl_append, counters_foldl_record_eq_merge, hall]

end

-- ---------------------------------------------------------------------------
-- Calls
-- ---------------------------------------------------------------------------

/-- A call on a reader of Java files. -/
inductive Call where
  | file (path : String)
  | files (paths : List String)
  /-- Reads the Java files below a directory. -/
  | directory (dir : String)
  /-- Reads a text that is no file. -/
  | source (path text : String)
  /-- Starts the counters anew. -/
  | reset
deriving DecidableEq

/-- What a call returns. -/
inductive Reply where
  | file (outcome : Outcome)
  | batch (project : ProjectInfo)
  | source (info : FileInfo)
  /-- The files below a directory could not be listed. -/
  | unlisted (error : ReadError)
  /-- No workers could be started. -/
  | unstarted
  | none

namespace Reply

/-- The files that were read from the file system. -/
def read : Reply → List FileInfo
  | file (.ok info) => [info]
  | batch p => p.files
  | _ => []

/-- How many files could not be read. -/
def unread : Reply → Nat
  | file (.error _) => 1
  | batch p => p.failed.length
  | _ => 0

/-- The counters of the files in a reply. -/
def tally (r : Reply) : Metrics := Metrics.tally r.read r.unread

end Reply

/-- What a call does on a reader with counters `m`: what it returns, and the counters after it. The
clock may show any time. A batch is read in turn, or by a pool of workers. -/
inductive Performs (config : ReadingConfig) (fs : FileSystem) (m : Metrics) :
    Call → Reply → Metrics → Prop
  | file {path : String} {outcome : Outcome} (h : outcome.untimed = fs.readJava config path)
      (time : Duration) :
      Performs config fs m (.file path) (.file outcome) { m.record outcome with time }
  | files (paths : List String) :
      Performs config fs m (.files paths) (.batch (readFiles config fs m paths).2)
        (readFiles config fs m paths).1
  | workers {paths : List String} {s : Pool} (run : Pool.Run config fs (Pool.start m paths) s)
      (done : s.Done) : Performs config fs m (.files paths) (.batch s.project) s.metrics
  | unstarted (paths : List String) (h : config.parallel = true) :
      Performs config fs m (.files paths) .unstarted m
  | directory {dir : String} {paths : List String} {reply : Reply} {after : Metrics}
      (found : fs.javaPaths dir = .ok paths)
      (h : Performs config fs m (.files paths) reply after) :
      Performs config fs m (.directory dir) reply after
  | unlisted {dir : String} {e : ReadError} (h : fs.javaPaths dir = .error e) :
      Performs config fs m (.directory dir) (.unlisted e) m
  | source {path text : String} {info : FileInfo}
      (h : info.untimed = FileInfo.ofText config path text) :
      Performs config fs m (.source path text) (.source info) m
  | reset : Performs config fs m .reset .none {}

/-- Reading a directory is the call of that name. -/
theorem performs_readDirectory {config : ReadingConfig} {fs : FileSystem} {m after : Metrics}
    {dir : String} {p : ProjectInfo} (h : readDirectory config fs m dir = .ok (after, p)) :
    Performs config fs m (.directory dir) (.batch p) after := by
  rw [readDirectory] at h
  cases hpaths : fs.javaPaths dir with
  | error e => rw [hpaths] at h; cases h
  | ok paths =>
    rw [hpaths] at h
    have hread : readFiles config fs m paths = (after, p) := Except.ok.inj h
    have hfiles := @Performs.files config fs m paths
    rw [hread] at hfiles
    exact .directory hpaths hfiles

/-- The files that a call reads. -/
def Call.paths (fs : FileSystem) : Call → List String
  | .file path => [path]
  | .files paths => paths
  | .directory dir => (fs.javaPaths dir).toOption.getD []
  | .source _ _ => []
  | .reset => []

section

variable {config : ReadingConfig} {fs : FileSystem} {m after : Metrics} {call : Call}
  {reply : Reply}

/-- A pool that is done has counted the files of its batch. -/
theorem Pool.tally_project {paths : List String} {s : Pool} (hrun : Run config fs (start m paths) s)
    (hdone : s.Done) : s.metrics.counters = m.counters.merge (batchOf config fs paths).tally ∧
      s.project.tally = (batchOf config fs paths).tally := by
  obtain ⟨hmetrics, hproject⟩ :=
    Prod.mk.inj (((inv_start config fs m paths).run hrun).eq_readByWorkers hdone)
  refine ⟨?_, ?_⟩
  · rw [hmetrics, ← counters_foldl_record, counters_foldl_record_eq_merge]
  · have huntimed : s.project.untimed.tally = s.project.tally := Metrics.tally_untimed _ _
    rw [← huntimed, hproject]
    rfl

/-- A call that is no reset adds the files of its reply to the counters. -/
theorem Performs.counters_eq (h : Performs config fs m call reply after) (hcall : call ≠ .reset) :
    after.counters = m.counters.merge reply.tally := by
  induction h with
  | @file path outcome _ time =>
    have hone := Metrics.counters_record_eq_merge m outcome
    cases outcome <;> exact hone
  | files paths =>
    rw [readFiles_eq]
    exact counters_foldl_record_eq_merge config fs m paths
  | @workers paths s run done =>
    obtain ⟨hmetrics, hproject⟩ := Pool.tally_project run done
    rw [hmetrics, ← hproject]
    rfl
  | unstarted paths _ => exact (Metrics.merge_empty _).symm
  | directory _ _ ih => exact ih (by simp)
  | unlisted _ => exact (Metrics.merge_empty _).symm
  | source _ => exact (Metrics.merge_empty _).symm
  | reset => exact absurd rfl hcall

/-- A reply counts the files that the call was to read, unless no workers could be started. -/
theorem Performs.tally_eq (h : Performs config fs m call reply after)
    (hreply : reply ≠ .unstarted) :
    reply.tally = (batchOf config fs (call.paths fs)).tally := by
  induction h with
  | @file path outcome houtcome time =>
    have hbatch : (batchOf config fs [path]).tally = Metrics.ofOutcome (fs.readJava config path) :=
      (Metrics.tally_add {} path _).trans (Metrics.empty_merge _)
    rw [Call.paths, hbatch, ← houtcome, Metrics.ofOutcome_untimed]
    cases outcome <;> rfl
  | files paths => rw [readFiles_eq]; rfl
  | workers run done => exact (Pool.tally_project run done).2
  | unstarted paths _ => exact absurd rfl hreply
  | directory found _ ih =>
    rw [ih hreply, Call.paths, Call.paths, found]
    rfl
  | unlisted hfail =>
    rw [Call.paths, hfail]
    rfl
  | source _ => rfl
  | reset => rfl

end

-- ---------------------------------------------------------------------------
-- Sessions
-- ---------------------------------------------------------------------------

/-- A call as it took place: the files at that time, the call and what it returned. -/
structure Event where
  fs : FileSystem
  call : Call
  reply : Reply

/-- The calls on a reader since it was made, and its counters after them. -/
inductive Session (config : ReadingConfig) : List Event → Metrics → Prop
  | start : Session config [] {}
  | call {events : List Event} {m after : Metrics} {e : Event} (h : Session config events m)
      (performs : Performs config e.fs m e.call e.reply after) :
      Session config (events ++ [e]) after

/-- The calls after the last reset. -/
def sinceReset (events : List Event) : List Event := events.rtakeWhile fun e => e.call ≠ .reset

/-- The files that calls have read. -/
def filesRead (events : List Event) : List FileInfo := events.flatMap fun e => e.reply.read

/-- How many files calls could not read. -/
def filesUnread (events : List Event) : Nat := (events.map fun e => e.reply.unread).sum

/-- The counters are those of the files read since the last reset. -/
theorem Session.counters_eq {config : ReadingConfig} {events : List Event} {m : Metrics}
    (h : Session config events m) :
    m.counters = Metrics.tally (filesRead (sinceReset events))
      (filesUnread (sinceReset events)) := by
  induction h with
  | start => rfl
  | @call events m after e _ performs ih =>
    by_cases hreset : e.call = .reset
    · have hnone : sinceReset (events ++ [e]) = [] := by simp [sinceReset, hreset]
      obtain ⟨files, call, reply⟩ := e
      obtain rfl : call = .reset := hreset
      rw [hnone]
      cases performs
      rfl
    · have hsince : sinceReset (events ++ [e]) = sinceReset events ++ [e] := by
        simp [sinceReset, hreset]
      rw [performs.counters_eq hreset, ih, Reply.tally, Metrics.merge_tally, hsince]
      simp [filesRead, filesUnread]

theorem Session.exists_performs {config : ReadingConfig} {events : List Event} {m : Metrics}
    (h : Session config events m) {e : Event} (he : e ∈ events) :
    ∃ before after, Performs config e.fs before e.call e.reply after := by
  induction h with
  | start => cases he
  | call _ performs ih =>
    rcases List.mem_append.1 he with he | he
    · exact ih he
    · obtain rfl := List.mem_singleton.1 he
      exact ⟨_, _, performs⟩

-- ---------------------------------------------------------------------------
-- Sessions on files that stay
-- ---------------------------------------------------------------------------

/-- Whether `m` are the counters of a reader that has read the files at some paths since a reset, in
whatever calls, the files being the same all the time. -/
def CountersAfter (config : ReadingConfig) (fs : FileSystem) (paths : List String) (m : Metrics) :
    Prop :=
  ∃ events, Session config events m ∧
    (∀ e ∈ sinceReset events, e.fs = fs ∧ e.reply ≠ .unstarted) ∧
    (sinceReset events).flatMap (fun e => e.call.paths fs) = paths

theorem countersAfter_readFiles (config : ReadingConfig) (fs : FileSystem) (paths : List String) :
    CountersAfter config fs paths (readFiles config fs {} paths).1 := by
  let e : Event := ⟨fs, .files paths, .batch (readFiles config fs {} paths).2⟩
  have hsession : Session config ([] ++ [e]) (readFiles config fs {} paths).1 :=
    .call .start (.files paths)
  have hsince : sinceReset ([] ++ [e]) = [e] := by simp [sinceReset, e]
  refine ⟨[] ++ [e], hsession, ?_, ?_⟩
  · rw [hsince]
    simp [e]
  · rw [hsince]
    simp [e, Call.paths]

/-- Calls that read files at some paths count the files of one batch. -/
theorem tally_events {config : ReadingConfig} {fs : FileSystem} {events : List Event}
    (h : ∀ e ∈ events, e.reply.tally = (batchOf config fs (e.call.paths fs)).tally) :
    Metrics.tally (filesRead events) (filesUnread events) =
      (batchOf config fs (events.flatMap fun e => e.call.paths fs)).tally := by
  induction events with
  | nil => rfl
  | cons e events ih =>
    rw [List.forall_mem_cons] at h
    rw [List.flatMap_cons, tally_batchOf_append, ← h.1, ← ih h.2, Reply.tally, Metrics.merge_tally]
    rfl

theorem CountersAfter.counters_eq {config : ReadingConfig} {fs : FileSystem} {paths : List String}
    {m : Metrics} (h : CountersAfter config fs paths m) :
    m.counters = (batchOf config fs paths).tally := by
  obtain ⟨events, hsession, hsame, rfl⟩ := h
  rw [hsession.counters_eq]
  refine tally_events fun e he => ?_
  obtain ⟨hfs, hreply⟩ := hsame e he
  obtain ⟨before, after, performs⟩ :=
    hsession.exists_performs ((List.rtakeWhile_suffix _ _).subset he)
  rw [hfs] at performs
  exact performs.tally_eq hreply

-- ---------------------------------------------------------------------------
-- What the counters say
-- ---------------------------------------------------------------------------

/-- Whether the numbers of files, types and methods that calls have read can be counted. -/
structure Countable (events : List Event) : Prop where
  files : (filesRead events).length + filesUnread events < 2 ^ 64
  types : ((filesRead events).map FileInfo.typeCount).sum < 2 ^ 64
  methods : ((filesRead events).map fun info => info.source.methodCount).sum < 2 ^ 64

/-- Counters that agree with what calls have read. -/
structure Metrics.Counts (m : Metrics) (events : List Event) : Prop where
  attempted : m.attempted.toNat = m.succeeded.toNat + m.failed.toNat
  withoutTypes_le : m.withoutTypes ≤ m.succeeded
  succeeded : m.succeeded.toNat = (filesRead events).length
  failed : m.failed.toNat = filesUnread events
  withoutTypes : m.withoutTypes.toNat = (filesRead events).countP fun info => info.source.isEmpty
  types : m.types.toNat = ((filesRead events).map FileInfo.typeCount).sum
  methods : m.methods.toNat = ((filesRead events).map fun info => info.source.methodCount).sum

theorem Metrics.counts_of_counters {m : Metrics} {events : List Event} (hfit : Countable events)
    (h : m.counters = tally (filesRead events) (filesUnread events)) : m.Counts events := by
  have hread {n : Nat} (hn : n < 2 ^ 64) : n.toUInt64.toNat = n := by
    simpa using Nat.mod_eq_of_lt hn
  have hempty := @List.countP_le_length _ (fun info : FileInfo => info.source.isEmpty)
    (filesRead events)
  obtain ⟨hfiles, htypes, hmethods⟩ := hfit
  simp only [counters, tally, Metrics.mk.injEq] at h
  obtain ⟨hattempted, hsucceeded, hfailed, hwithout, -, hmtypes, hmmethods⟩ := h
  have hsucceeded' : m.succeeded.toNat = (filesRead events).length := by
    rw [hsucceeded, hread (by omega)]
  have hfailed' : m.failed.toNat = filesUnread events := by
    rw [hfailed, hread (by omega)]
  have hwithout' : m.withoutTypes.toNat =
      (filesRead events).countP fun info => info.source.isEmpty := by
    rw [hwithout, hread (by omega)]
  refine ⟨?_, ?_, hsucceeded', hfailed', hwithout', ?_, ?_⟩
  · rw [hsucceeded', hfailed', hattempted, hread hfiles]
  · rw [UInt64.le_iff_toNat_le, hsucceeded', hwithout']
    exact hempty
  · rw [hmtypes, hread htypes]
  · rw [hmmethods, hread hmethods]

/-- In every session the counters agree with what the calls have returned since the last reset, and
reading a text that is no file leaves them alone. On files that stay, the counters after two lists
of paths are the sum of those after each of the lists, whatever the calls are that read them. -/
theorem session_counts (config : ReadingConfig) :
    (∀ events m, Session config events m → Countable (sinceReset events) →
      m.Counts (sinceReset events)) ∧
    (∀ fs m path text reply after,
      Performs config fs m (.source path text) reply after → after = m) ∧
    (∀ fs m dir after p, readDirectory config fs m dir = .ok (after, p) →
      Performs config fs m (.directory dir) (.batch p) after) ∧
    (∀ fs paths, CountersAfter config fs paths (readFiles config fs {} paths).1) ∧
    ∀ fs xs ys both first second, CountersAfter config fs (xs ++ ys) both →
      CountersAfter config fs xs first → CountersAfter config fs ys second →
      both.counters = (first.merge second).counters := by
  refine ⟨fun events m h hfit => ?_, fun fs m path text reply after h => ?_,
    fun fs m dir after p => performs_readDirectory, countersAfter_readFiles config,
    fun fs xs ys both first second h hfirst hsecond => ?_⟩
  · exact Metrics.counts_of_counters hfit h.counters_eq
  · cases h
    rfl
  · rw [Metrics.counters_merge, h.counters_eq, hfirst.counters_eq, hsecond.counters_eq,
      tally_batchOf_append]

/-- A file system with one Java file. -/
def singleFile : FileSystem where
  root := .file "A.java" (.text "public class A \x7b void f(); \x7d") .empty

/-- A file is read, the counters start anew, a batch is read of which one file is missing, and last
a text. -/
def resetCalls : List Event :=
  [⟨singleFile, .file "A.java", .file (singleFile.readJava {} "A.java")⟩,
    ⟨singleFile, .reset, .none⟩,
    ⟨singleFile, .files ["A.java", "B.java"],
      .batch (readFiles {} singleFile {} ["A.java", "B.java"]).2⟩,
    ⟨singleFile, .source "T.java" "class T",
      .source (FileInfo.ofText {} "T.java" "class T")⟩]

theorem session_counts_resetCalls :
    (∃ m, Session {} resetCalls m ∧ Countable (sinceReset resetCalls) ∧
      m.Counts (sinceReset resetCalls) ∧
      (m.attempted, m.succeeded, m.failed, m.types, m.methods) = (2, 1, 1, 1, 1)) ∧
    (readFiles {} singleFile {} ["A.java", "B.java"]).1.counters =
      ((readFiles {} singleFile {} ["A.java"]).1.merge
        (readFiles {} singleFile {} ["B.java"]).1).counters := by
  obtain ⟨hcounts, -, -, hafter, hmerge⟩ := session_counts {}
  have hsession : Session {} resetCalls (readFiles {} singleFile {} ["A.java", "B.java"]).1 :=
    .call (.call (.call (.call .start (.file (untimed_readJava _ _ _) ⟨7⟩)) .reset) (.files _))
      (.source rfl)
  have hfit : Countable (sinceReset resetCalls) :=
    ⟨by decide +kernel, by decide +kernel, by decide +kernel⟩
  refine ⟨⟨_, hsession, hfit, hcounts _ _ hsession hfit, by decide +kernel⟩, ?_⟩
  exact hmerge _ ["A.java"] ["B.java"] _ _ _ (hafter _ _) (hafter _ _) (hafter _ _)

end Typings
