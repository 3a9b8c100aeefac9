import Mathlib.Algebra.GroupWithZero.Nat
import Mathlib.Data.List.Perm.Basic
import Mathlib.Logic.Relation
import Typings.Project.Reader

/-!
# Reading with several workers

A pool of workers reads the files of a batch. A worker takes up a file, reads it, and then counts
it; counting is one step, since the counters are locked. The steps of different workers come in any
order. When all files are counted, the batch is put together in the order of the paths.

Counting is addition, so the order in which files are counted does not show in the counters. Times
apart, a pool ends with the counters and the batch of a reader that goes through the files in turn.
-/

namespace Typings

-- ---------------------------------------------------------------------------
-- Counting
-- ---------------------------------------------------------------------------

namespace Metrics

/-- The order in which two files are counted does not matter. -/
theorem record_comm (m : Metrics) (a b : Outcome) :
    (m.record a).record b = (m.record b).record a := by
  have hadd (x y z : UInt64) : x + y + z = x + z + y := by
    rw [UInt64.add_assoc, UInt64.add_comm y z, ← UInt64.add_assoc]
  have htime (x y z : Duration) : x + y + z = x + z + y :=
    congrArg Duration.mk (Nat.add_right_comm x.nanos y.nanos z.nanos)
  cases a <;> cases b <;> simp only [record, Metrics.mk.injEq, hadd, htime, true_and, and_true]
  rename_i i j
  cases i.source.isEmpty <;> cases j.source.isEmpty <;> rfl

instance : RightCommutative record := ⟨record_comm⟩

theorem foldl_record_perm (m : Metrics) {finished outcomes : List Outcome}
    (h : finished.Perm outcomes) : finished.foldl record m = outcomes.foldl record m :=
  h.foldl_eq m

end Metrics

theorem readInTurn_eq (config : ReadingConfig) (fs : FileSystem) (m : Metrics) (p : ProjectInfo)
    (paths : List String) :
    readInTurn config fs m p paths =
      ((paths.map (fs.readJava config)).foldl Metrics.record m,
        paths.foldl (fun p path => p.add path (fs.readJava config path)) p) := by
  induction paths generalizing m p with
  | nil => rfl
  | cons path paths ih => exact ih _ _

/-- Workers that are done in any order leave what a reader leaves that goes through the files in
turn. -/
theorem readByWorkers_eq_readInTurn (config : ReadingConfig) (fs : FileSystem) (m : Metrics)
    (paths : List String) {finished : List Outcome}
    (h : finished.Perm (paths.map (fs.readJava config))) :
    readByWorkers config fs m paths finished = readInTurn config fs m {} paths := by
  rw [readInTurn_eq, readByWorkers, Metrics.foldl_record_perm m h]

-- ---------------------------------------------------------------------------
-- Times apart
-- ---------------------------------------------------------------------------

/-- Counters without the time spent. -/
def Metrics.counters (m : Metrics) : Metrics := { m with time := {} }

def FileInfo.untimed (i : FileInfo) : FileInfo := { i with time := {} }

/-- What came of reading a file, without the time it took. -/
def Outcome.untimed (o : Outcome) : Outcome := o.map FileInfo.untimed

def ProjectInfo.untimed (p : ProjectInfo) : ProjectInfo :=
  { p with files := p.files.map FileInfo.untimed, time := {} }

theorem Metrics.counters_record (m : Metrics) (o : Outcome) :
    (m.record o).counters = m.counters.record o.untimed := by
  cases o <;> rfl

theorem ProjectInfo.untimed_add (p : ProjectInfo) (path : String) (o : Outcome) :
    (p.add path o).untimed = p.untimed.add path o.untimed := by
  cases o with
  | error e => rfl
  | ok info =>
    simp only [add, Outcome.untimed, Except.map, addFile, untimed, List.map_append, List.map_cons,
      List.map_nil]
    rfl

theorem untimed_readJava (config : ReadingConfig) (fs : FileSystem) (path : String) :
    Outcome.untimed (fs.readJava config path) = fs.readJava config path := by
  unfold FileSystem.readJava
  cases fs.readSource config path <;> rfl

-- ---------------------------------------------------------------------------
-- The pool
-- ---------------------------------------------------------------------------

/-- A file of a batch: not taken up yet, read, or read and counted. -/
inductive Job where
  | waiting (path : String)
  | read (path : String) (outcome : Outcome)
  | counted (path : String) (outcome : Outcome)

namespace Job

def path : Job → String
  | waiting path => path
  | read path _ => path
  | counted path _ => path

/-- What came of a file that was counted. -/
def counted? : Job → Option Outcome
  | counted _ outcome => some outcome
  | _ => none

/-- Whether what came of a file is what reading it gives, times apart. -/
def IsFaithful (config : ReadingConfig) (fs : FileSystem) : Job → Prop
  | waiting _ => True
  | read path outcome => outcome.untimed = fs.readJava config path
  | counted path outcome => outcome.untimed = fs.readJava config path

/-- Steps that remain until a file is counted. -/
def remaining : Job → Nat
  | waiting _ => 2
  | read _ _ => 1
  | counted _ _ => 0

end Job

/-- The files of a batch in the order of their paths, and the counters that the workers share. -/
structure Pool where
  jobs : List Job
  metrics : Metrics

namespace Pool

def start (m : Metrics) (paths : List String) : Pool := ⟨paths.map .waiting, m⟩

/-- One step of some worker: it reads a file, or it counts one that it has read. The clock may show
any time. -/
inductive Step (config : ReadingConfig) (fs : FileSystem) : Pool → Pool → Prop
  | read {before after : List Job} {path : String} {m : Metrics} {outcome : Outcome}
      (h : outcome.untimed = fs.readJava config path) :
      Step config fs ⟨before ++ .waiting path :: after, m⟩
        ⟨before ++ .read path outcome :: after, m⟩
  | count {before after : List Job} {path : String} {m : Metrics} {outcome : Outcome}
      (time : Duration) :
      Step config fs ⟨before ++ .read path outcome :: after, m⟩
        ⟨before ++ .counted path outcome :: after, { m.record outcome with time }⟩

/-- Any number of steps, of the workers in any order. -/
def Run (config : ReadingConfig) (fs : FileSystem) : Pool → Pool → Prop :=
  Relation.ReflTransGen (Step config fs)

/-- Whether all files are counted. -/
def Done (s : Pool) : Prop := ∀ j ∈ s.jobs, (j.counted?).isSome

/-- What came of the files that are counted, in the order of their paths. -/
def outcomes (s : Pool) : List Outcome := s.jobs.filterMap Job.counted?

/-- The batch, put together in the order of the paths. -/
def project (s : Pool) : ProjectInfo :=
  s.jobs.foldl (fun p j => match j.counted? with
    | some outcome => p.add j.path outcome
    | none => p) {}

variable {config : ReadingConfig} {fs : FileSystem}

-- ---------------------------------------------------------------------------
-- What steps and runs keep
-- ---------------------------------------------------------------------------

/-- The state of a pool that started with given counters and paths: the files are as read, and the
counters are those of the files counted so far. -/
structure Inv (config : ReadingConfig) (fs : FileSystem) (m : Metrics) (paths : List String)
    (s : Pool) : Prop where
  paths : s.jobs.map Job.path = paths
  faithful : ∀ j ∈ s.jobs, j.IsFaithful config fs
  metrics : s.metrics.counters = (s.outcomes.map Outcome.untimed).foldl Metrics.record m.counters

theorem inv_start (config : ReadingConfig) (fs : FileSystem) (m : Metrics) (paths : List String) :
    Inv config fs m paths (start m paths) where
  paths := by simp [start, Job.path, Function.comp_def]
  faithful j hj := by
    obtain ⟨path, -, rfl⟩ := List.mem_map.1 hj
    trivial
  metrics := by
    have hnone : (start m paths).outcomes = [] := by
      simp [outcomes, start, List.filterMap_map, Job.counted?, Function.comp_def]
    rw [hnone]
    rfl

theorem Inv.step {m : Metrics} {paths : List String} {s t : Pool} (h : Inv config fs m paths s)
    (hstep : Step config fs s t) : Inv config fs m paths t := by
  cases hstep with
  | read houtcome =>
    refine ⟨by simpa [Job.path] using h.paths, fun j hj => ?_, ?_⟩
    · have hold := h.faithful j
      simp only [List.mem_append, List.mem_cons] at hj hold
      rcases hj with hj | rfl | hj
      · exact hold (.inl hj)
      · exact houtcome
      · exact hold (.inr (.inr hj))
    · simpa [outcomes, List.filterMap_cons, Job.counted?] using h.metrics
  | @count before after path m' outcome time =>
    refine ⟨by simpa [Job.path] using h.paths, fun j hj => ?_, ?_⟩
    · have hold := h.faithful j
      simp only [List.mem_append, List.mem_cons] at hj hold
      rcases hj with hj | rfl | hj
      · exact hold (.inl hj)
      · exact h.faithful (.read path outcome) (by simp)
      · exact hold (.inr (.inr hj))
    · have hmetrics := h.metrics
      simp only [outcomes, List.filterMap_append, List.filterMap_cons, Job.counted?] at hmetrics ⊢
      -- the file that is counted last stands in the middle of the list
      have hperm : (before.filterMap Job.counted? ++ outcome :: after.filterMap Job.counted?).Perm
          ((before.filterMap Job.counted? ++ after.filterMap Job.counted?) ++ [outcome]) := by
        rw [List.append_assoc]
        exact (List.perm_append_singleton _ _).symm.append_left _
      rw [Metrics.foldl_record_perm _ (hperm.map Outcome.untimed), List.map_append,
        List.foldl_append, ← hmetrics]
      exact Metrics.counters_record m' outcome

theorem Inv.run {m : Metrics} {paths : List String} {s t : Pool} (h : Inv config fs m paths s)
    (hrun : Run config fs s t) : Inv config fs m paths t := by
  induction hrun with
  | refl => exact h
  | tail _ hstep ih => exact ih.step hstep

/-- A pool that is not done can take a step, which brings it nearer to the end. -/
theorem exists_step {s : Pool} (h : ¬ s.Done) :
    ∃ t, Step config fs s t ∧ (t.jobs.map Job.remaining).sum < (s.jobs.map Job.remaining).sum := by
  obtain ⟨jobs, m⟩ := s
  simp only [Done, not_forall, exists_prop] at h
  obtain ⟨j, hj, hopen⟩ := h
  obtain ⟨before, after, rfl⟩ := List.append_of_mem hj
  cases j with
  | waiting path =>
    exact ⟨_, .read (untimed_readJava config fs path), by simp [Job.remaining]⟩
  | read path outcome => exact ⟨_, .count {}, by simp [Job.remaining]⟩
  | counted path outcome => exact absurd rfl hopen

theorem exists_run_done (s : Pool) : ∃ t, Run config fs s t ∧ t.Done := by
  induction hn : (s.jobs.map Job.remaining).sum using Nat.strongRecOn generalizing s with
  | ind n ih =>
    by_cases hdone : s.Done
    · exact ⟨s, .refl, hdone⟩
    · obtain ⟨t, hstep, hless⟩ := @exists_step config fs s hdone
      obtain ⟨u, hrun, hu⟩ := ih _ (hn ▸ hless) t rfl
      exact ⟨u, .head hstep hrun, hu⟩

-- ---------------------------------------------------------------------------
-- Pools that are done
-- ---------------------------------------------------------------------------

/-- When all files are counted, what came of them is what reading them gives, path by path. -/
theorem outcomes_of_done {jobs : List Job} (hdone : ∀ j ∈ jobs, (j.counted?).isSome)
    (hfaithful : ∀ j ∈ jobs, j.IsFaithful config fs) :
    (jobs.filterMap Job.counted?).map Outcome.untimed =
      (jobs.map Job.path).map (fs.readJava config) := by
  induction jobs with
  | nil => rfl
  | cons j jobs ih =>
    rw [List.forall_mem_cons] at hdone hfaithful
    cases j with
    | counted path outcome =>
      have hread : outcome.untimed = fs.readJava config path := hfaithful.1
      simp only [List.filterMap_cons, Job.counted?, List.map_cons, Job.path, hread,
        ih hdone.2 hfaithful.2]
    | waiting path => simp [Job.counted?] at hdone
    | read path outcome => simp [Job.counted?] at hdone

theorem untimed_project_of_done {jobs : List Job} (hdone : ∀ j ∈ jobs, (j.counted?).isSome)
    (hfaithful : ∀ j ∈ jobs, j.IsFaithful config fs) (p : ProjectInfo) :
    (jobs.foldl (fun p j => match j.counted? with
      | some outcome => p.add j.path outcome
      | none => p) p).untimed =
      (jobs.map Job.path).foldl (fun p path => p.add path (fs.readJava config path)) p.untimed := by
  induction jobs generalizing p with
  | nil => rfl
  | cons j jobs ih =>
    rw [List.forall_mem_cons] at hdone hfaithful
    cases j with
    | counted path outcome =>
      have hread : outcome.untimed = fs.readJava config path := hfaithful.1
      rw [List.foldl_cons, ih hdone.2 hfaithful.2, List.map_cons, List.foldl_cons]
      simp only [Job.counted?, Job.path, ProjectInfo.untimed_add, hread]
    | waiting path => simp [Job.counted?] at hdone
    | read path outcome => simp [Job.counted?] at hdone

/-- A pool that is done has, times apart, the counters and the batch of workers that were done in
the order of the paths. -/
theorem Inv.eq_readByWorkers {m : Metrics} {paths : List String} {s : Pool}
    (h : Inv config fs m paths s) (hdone : s.Done) :
    (s.metrics.counters, s.project.untimed) =
      readByWorkers config fs m.counters paths (paths.map (fs.readJava config)) := by
  have houtcomes := outcomes_of_done hdone h.faithful
  have hproject := untimed_project_of_done hdone h.faithful {}
  rw [h.paths] at houtcomes hproject
  rw [readByWorkers, h.metrics, outcomes, houtcomes]
  exact Prod.ext rfl hproject

end Pool

-- ---------------------------------------------------------------------------
-- Workers and a reader that goes through the files in turn
-- ---------------------------------------------------------------------------

/-- Outcomes of a reading carry no time, so counting them keeps the time apart. -/
theorem counters_foldl_record (m : Metrics) (config : ReadingConfig) (fs : FileSystem)
    (paths : List String) :
    ((paths.map (fs.readJava config)).foldl Metrics.record m).counters =
      (paths.map (fs.readJava config)).foldl Metrics.record m.counters := by
  induction paths generalizing m with
  | nil => rfl
  | cons path paths ih =>
    rw [List.map_cons, List.foldl_cons, ih, Metrics.counters_record, untimed_readJava,
      List.foldl_cons]

theorem untimed_foldl_add (p : ProjectInfo) (config : ReadingConfig) (fs : FileSystem)
    (paths : List String) :
    (paths.foldl (fun p path => p.add path (fs.readJava config path)) p).untimed =
      paths.foldl (fun p path => p.add path (fs.readJava config path)) p.untimed := by
  induction paths generalizing p with
  | nil => rfl
  | cons path paths ih =>
    rw [List.foldl_cons, ih, ProjectInfo.untimed_add, untimed_readJava, List.foldl_cons]

/-- Reading in parallel gives what reading in turn gives. This holds for every order in which the
workers count their files, and so for every run of a pool to its end, times apart; each pool can
come to its end. -/
theorem readFiles_parallel_eq (config : ReadingConfig) (fs : FileSystem) (m : Metrics)
    (paths : List String) :
    let parallel := { config with parallel := true }
    let inTurn := readFiles { config with parallel := false } fs m paths
    (∀ finished, finished.Perm (paths.map (fs.readJava parallel)) →
      readByWorkers parallel fs m paths finished = inTurn) ∧
    readFiles parallel fs m paths = inTurn ∧
    (∀ s, Pool.Run parallel fs (Pool.start m paths) s → s.Done →
      s.metrics.counters = inTurn.1.counters ∧ s.project.untimed = inTurn.2.untimed) ∧
    ∃ s, Pool.Run parallel fs (Pool.start m paths) s ∧ s.Done := by
  intro parallel inTurn
  have hturn : inTurn = readInTurn parallel fs m {} paths := by
    rw [readInTurn_eq]
    show readInTurn { config with parallel := false } fs m {} paths = _
    rw [readInTurn_eq]
    rfl
  refine ⟨fun finished hperm => ?_, ?_, fun s hrun hdone => ?_, Pool.exists_run_done _⟩
  · rw [hturn]
    exact readByWorkers_eq_readInTurn parallel fs m paths hperm
  · rw [hturn]
    exact readByWorkers_eq_readInTurn parallel fs m paths (.refl _)
  · have hpool := ((Pool.inv_start parallel fs m paths).run hrun).eq_readByWorkers hdone
    rw [hturn, readInTurn_eq, counters_foldl_record, untimed_foldl_add]
    exact Prod.ext_iff.1 hpool

/-- Of two files the second, which is not there, is counted first. -/
theorem readFiles_parallel_eq_backwards :
    let fs : FileSystem := { root := .file "A.java" (.text "public class A \x7b\x7d") .empty }
    let paths := ["A.java", "B.java"]
    let finished := (paths.map (fs.readJava { parallel := true })).reverse
    finished.Perm (paths.map (fs.readJava { parallel := true })) ∧
      readByWorkers { parallel := true } fs {} paths finished =
        readFiles { parallel := false } fs {} paths :=
  ⟨List.reverse_perm _, (readFiles_parallel_eq {} _ {} _).1 _ (List.reverse_perm _)⟩

end Typings
