import Typings.Proofs.FileSystem.Locations
import Typings.Proofs.FileSystem.Steps

/-!
# Following paths

Following a path in a file tree either fails or ends at the location that the path names. Whether it
fails depends only on the kind of what is there, as long as each `..` leads out of a directory.
-/

namespace Typings

-- ---------------------------------------------------------------------------
-- Walks
-- ---------------------------------------------------------------------------

/-- Whether a name is not too long. -/
def Path.Component.fits : Path.Component → Bool
  | .name text => Text.byteLength text ≤ FileSystem.maxNameBytes
  | _ => true

namespace FileSystem

open Typings.Path

variable {fs other : FileSystem} {here location : List String} {segments : List Text}

/-- Follows segments from a location. -/
def walkFrom (fs : FileSystem) (here : List String) (segments : List Text) :
    Except OsError (List String) :=
  fs.walk here.reverse (fs.entry? here) segments

theorem walkFrom_nil : fs.walkFrom here [] = .ok here := by
  rw [walkFrom, walk, List.reverse_reverse]

theorem walkFrom_cons {segment : Text} :
    fs.walkFrom here (segment :: segments) =
      match fs.entry? here with
      | none => .error .notFound
      | some (.file _) => .error .notADirectory
      | some (.dir _) =>
        match component? segment with
        | none => fs.walkFrom here segments
        | some c => if c.fits then fs.walkFrom (step here c) segments else .error .nameTooLong := by
  simp only [walkFrom]
  match hentry : fs.entry? here with
  | none => rfl
  | some (.file _) => rfl
  | some (.dir d) =>
    rw [walk]
    match component? segment with
    | none => rfl
    | some .root => simp only [Component.fits, if_true, step, hentry]
    | some .current => simp only [Component.fits, if_true, step, hentry]
    | some .parent =>
      simp only [Component.fits, if_true, step, List.tail_reverse, List.reverse_reverse]
    | some (.name text) =>
      have hget : d.get? (String.ofList text) = fs.entry? (here ++ [String.ofList text]) :=
        (entry?_concat hentry _).symm
      simp only [Component.fits, decide_eq_true_eq, step, hget, List.reverse_append,
        List.reverse_cons, List.reverse_nil, List.nil_append, List.singleton_append, ← Nat.not_lt,
        ite_not]

/-- A walk comes to an end when each segment is taken in a directory and is not too long. -/
theorem walkFrom_cons_eq_ok {segment : Text} :
    fs.walkFrom here (segment :: segments) = .ok location ↔
      fs.HasDir here ∧ (∀ c ∈ component? segment, c.fits = true) ∧
        fs.walkFrom (resolve here (component? segment).toList) segments = .ok location := by
  rw [walkFrom_cons, HasDir]
  rcases fs.entry? here with _ | contents | d
  · simp
  · simp
  · cases component? segment with
    | none => simp [resolve]
    | some c => by_cases hfits : c.fits <;> simp [resolve, hfits]

theorem steps_cons (segment : Text) (segments : List Text) :
    (segment :: segments).filterMap component? =
      (component? segment).toList ++ segments.filterMap component? := by
  cases h : component? segment <;> simp [h]

/-- A walk that comes to an end leads where the steps lead. -/
theorem eq_resolve_of_walkFrom (h : fs.walkFrom here segments = .ok location) :
    location = resolve here (segments.filterMap component?) := by
  induction segments generalizing here with
  | nil =>
    rw [walkFrom_nil] at h
    exact (Except.ok.inj h).symm
  | cons segment segments ih =>
    rw [steps_cons, resolve_append]
    exact ih (walkFrom_cons_eq_ok.1 h).2.2

theorem fits_of_walkFrom (h : fs.walkFrom here segments = .ok location) :
    ∀ c ∈ segments.filterMap component?, c.fits = true := by
  induction segments generalizing here with
  | nil => simp
  | cons segment segments ih =>
    obtain ⟨-, hfits, h⟩ := walkFrom_cons_eq_ok.1 h
    rw [steps_cons, List.forall_mem_append]
    exact ⟨fun c hc => hfits c (Option.mem_toList.1 hc), ih h⟩

/-- A walk steps up out of directories only. -/
theorem hasDir_exits_of_walkFrom (h : fs.walkFrom here segments = .ok location) :
    ∀ exit ∈ exits here (segments.filterMap component?), fs.HasDir exit := by
  induction segments generalizing here with
  | nil => simp [exits]
  | cons segment segments ih =>
    obtain ⟨hdir, -, h⟩ := walkFrom_cons_eq_ok.1 h
    rw [steps_cons, exits_append, List.forall_mem_append]
    refine ⟨fun exit hexit => ?_, ih h⟩
    rcases component?_cases segment with hs | hs | hs <;> simp [hs, exits] at hexit
    exact hexit ▸ hdir

theorem walkFrom_append_eq_ok {first second : List Text} {mid : List String}
    (h : fs.walkFrom here first = .ok mid) (h' : fs.walkFrom mid second = .ok location) :
    fs.walkFrom here (first ++ second) = .ok location := by
  induction first generalizing here with
  | nil =>
    rw [walkFrom_nil] at h
    rwa [List.nil_append, Except.ok.inj h]
  | cons segment first ih =>
    obtain ⟨hdir, hfits, h⟩ := walkFrom_cons_eq_ok.1 h
    exact walkFrom_cons_eq_ok.2 ⟨hdir, hfits, ih h⟩

/-- A walk to a directory that steps up out of directories comes to its end, unless a name is too
long. -/
theorem walkFrom_of_hasDir (hdir : fs.HasDir (resolve here (segments.filterMap component?)))
    (hexits : ∀ exit ∈ exits here (segments.filterMap component?), fs.HasDir exit)
    (hfits : ∀ c ∈ segments.filterMap component?, c.fits = true) :
    fs.walkFrom here segments = .ok (resolve here (segments.filterMap component?)) := by
  induction segments generalizing here with
  | nil => exact walkFrom_nil
  | cons segment segments ih =>
    have hhere : fs.HasDir here := by
      rcases prefix_resolve_or_exits here ((segment :: segments).filterMap component?) with
        hp | ⟨exit, hmem, hp⟩
      · exact hdir.of_below hp
      · exact (hexits exit hmem).of_below hp
    rw [steps_cons, resolve_append] at hdir ⊢
    rw [steps_cons, exits_append, List.forall_mem_append] at hexits
    rw [steps_cons, List.forall_mem_append] at hfits
    exact walkFrom_cons_eq_ok.2
      ⟨hhere, fun c hc => hfits.1 c (Option.mem_toList.2 hc), ih hdir hexits.2 hfits.2⟩

/-- A walk ends at a directory, or at a name in one. -/
theorem hasDir_of_walkFrom (hne : segments ≠ []) (h : fs.walkFrom here segments = .ok location) :
    fs.HasDir location ∨
      ∃ above, ∃ text ∈ segments, component? text = some (.name text) ∧
        location = above ++ [String.ofList text] ∧ fs.HasDir above := by
  induction segments generalizing here with
  | nil => exact absurd rfl hne
  | cons segment segments ih =>
    obtain ⟨hdir, -, h⟩ := walkFrom_cons_eq_ok.1 h
    cases segments with
    | cons next segments =>
      rcases ih (by simp) h with hdir | ⟨above, text, hmem, hrest⟩
      · exact .inl hdir
      · exact .inr ⟨above, text, List.mem_cons_of_mem _ hmem, hrest⟩
    | nil =>
      rw [walkFrom_nil] at h
      obtain rfl := Except.ok.inj h
      rcases component?_cases segment with hnone | hparent | hname
      · exact .inl (by rwa [hnone])
      · exact .inl (by rw [hparent]; exact hdir.of_below (List.dropLast_prefix here))
      · exact .inr ⟨here, segment, List.mem_singleton_self _, hname, by rw [hname]; rfl, hdir⟩

theorem same_kind (hsome : (fs.entry? location).isSome) (hsome' : (other.entry? location).isSome)
    (hkind : fs.HasDir location ↔ other.HasDir location) :
    fs.HasDir location ∧ other.HasDir location ∨
      ∃ contents contents', fs.entry? location = some (.file contents) ∧
        other.entry? location = some (.file contents') := by
  by_cases hdir : fs.HasDir location
  · exact .inl ⟨hdir, hkind.1 hdir⟩
  · obtain ⟨contents, hfile⟩ := file_of_not_hasDir hsome hdir
    obtain ⟨contents', hfile'⟩ := file_of_not_hasDir hsome' fun h => hdir (hkind.2 h)
    exact .inr ⟨contents, contents', hfile, hfile'⟩

/-- Two file systems in which a path leads to something of the same kind, and out of directories
only, agree on the walk along it. -/
theorem walkFrom_congr
    (hexits : ∀ exit ∈ exits here (segments.filterMap component?),
      fs.HasDir exit ∧ other.HasDir exit)
    (hsome : (fs.entry? (resolve here (segments.filterMap component?))).isSome)
    (hsome' : (other.entry? (resolve here (segments.filterMap component?))).isSome)
    (hkind : fs.HasDir (resolve here (segments.filterMap component?)) ↔
      other.HasDir (resolve here (segments.filterMap component?))) :
    fs.walkFrom here segments = other.walkFrom here segments := by
  induction segments generalizing here with
  | nil => rw [walkFrom_nil, walkFrom_nil]
  | cons segment segments ih =>
    have hhere : fs.HasDir here ∧ other.HasDir here ∨
        ∃ contents contents', fs.entry? here = some (.file contents) ∧
          other.entry? here = some (.file contents') := by
      rcases prefix_resolve_or_exits here ((segment :: segments).filterMap component?) with
        hp | ⟨exit, hmem, hp⟩
      · by_cases heq : here = resolve here ((segment :: segments).filterMap component?)
        · rw [← heq] at hsome hsome' hkind
          exact same_kind hsome hsome' hkind
        · exact .inl ⟨hasDir_of_prefix_of_ne hsome hp heq, hasDir_of_prefix_of_ne hsome' hp heq⟩
      · exact .inl ⟨(hexits exit hmem).1.of_below hp, (hexits exit hmem).2.of_below hp⟩
    rw [walkFrom_cons, walkFrom_cons]
    rcases hhere with ⟨⟨d, hd⟩, d', hd'⟩ | ⟨contents, contents', hfile, hfile'⟩
    · rw [steps_cons, resolve_append] at hsome hsome' hkind
      rw [steps_cons, exits_append, List.forall_mem_append] at hexits
      have hnext := ih hexits.2 hsome hsome' hkind
      simp only [hd, hd']
      cases hsegment : component? segment with
      | none =>
        rw [hsegment] at hnext
        exact hnext
      | some c =>
        have hnext : fs.walkFrom (step here c) segments =
            other.walkFrom (step here c) segments := by
          rw [hsegment] at hnext
          exact hnext
        simp only [hnext]
    · simp only [hfile, hfile']

-- ---------------------------------------------------------------------------
-- Paths
-- ---------------------------------------------------------------------------

variable {path : String}

/-- Where a path starts. -/
def start (fs : FileSystem) (path : String) : List String :=
  if isAbsolute path then [] else fs.cwd

/-- The location that a path names, whatever is there. -/
def locationOf (fs : FileSystem) (path : String) : List String :=
  resolve (fs.start path) (steps path)

/-- The locations that a path steps up out of. -/
def exitsOf (fs : FileSystem) (path : String) : List (List String) :=
  exits (fs.start path) (steps path)

theorem follow_eq (path : String) (segments : List Text) :
    fs.follow path segments = fs.walkFrom (fs.start path) segments := rfl

theorem start_congr (hcwd : other.cwd = fs.cwd) (path : String) :
    other.start path = fs.start path := by
  rw [start, start, hcwd]

theorem locationOf_congr (hcwd : other.cwd = fs.cwd) (path : String) :
    other.locationOf path = fs.locationOf path := by
  rw [locationOf, locationOf, start_congr hcwd]

theorem exitsOf_congr (hcwd : other.cwd = fs.cwd) (path : String) :
    other.exitsOf path = fs.exitsOf path := by
  rw [exitsOf, exitsOf, start_congr hcwd]

theorem isName_ofList {text : Text} (h : component? text = some (.name text))
    (hslash : '/' ∉ text) : IsName (String.ofList text) := by
  simp only [component?] at h
  refine ⟨?_, ?_, ?_, by rwa [String.toList_ofList]⟩ <;> intro heq <;>
    obtain rfl := congrArg String.toList heq |>.symm.trans String.toList_ofList |>.symm <;>
    simp at h

/-- Where following a path ends: at the location it names, with a directory there, or one to hold
it. -/
structure Reached (fs : FileSystem) (path : String) (location : List String) : Prop where
  eq : location = fs.locationOf path
  held : fs.HasDir location ∨
    ∃ above name, location = above ++ [name] ∧ IsName name ∧ fs.HasDir above

theorem reached_of_walkFrom {segments : List Text} (hne : segments ≠ [])
    (hsteps : segments.filterMap component? = steps path) (hslash : ∀ s ∈ segments, '/' ∉ s)
    (h : fs.walkFrom (fs.start path) segments = .ok location) : fs.Reached path location := by
  refine ⟨?_, ?_⟩
  · rw [eq_resolve_of_walkFrom h, hsteps, locationOf]
  · rcases hasDir_of_walkFrom hne h with hdir | ⟨above, text, hmem, hname, heq, hdir⟩
    · exact .inl hdir
    · exact .inr ⟨above, _, heq, isName_ofList hname (hslash text hmem), hdir⟩

theorem ok_of_checkPath {α : Type} {x : Except OsError α} {a : α}
    (h : (do checkPath path; x) = .ok a) : checkPath path = .ok () ∧ x = .ok a := by
  match hcheck : checkPath path with
  | .error e => rw [hcheck] at h; cases h
  | .ok () => rw [hcheck] at h; exact ⟨rfl, h⟩

theorem reached_of_locate (h : fs.locate path = .ok location) : fs.Reached path location :=
  reached_of_walkFrom (List.splitOn_ne_nil _ _) rfl (fun _ hs => Text.notMem_of_mem_splitOn hs)
    (ok_of_checkPath h).2

theorem reached_of_locateDir (h : fs.locateDir path = .ok location) : fs.Reached path location :=
  reached_of_walkFrom (List.splitOn_ne_nil _ _) (steps_trimSlashes path)
    (fun _ hs => Text.notMem_of_mem_splitOn hs) (ok_of_checkPath h).2

theorem reached_of_locateFile (h : fs.locateFile path = .ok location) :
    fs.Reached path location := by
  obtain ⟨-, h⟩ := ok_of_checkPath h
  dsimp only at h
  split at h
  · rename_i htrim
    exact reached_of_walkFrom (List.splitOn_ne_nil _ _) (steps_trimSlashes path)
      (fun _ hs => Text.notMem_of_mem_splitOn hs) h
  · cases hfollow : fs.follow path ((Path.segments (trimSlashes path)).dropLast ++ [[]]) <;>
      rw [hfollow] at h <;> cases h

/-- Whether a path can be followed as far as its length and those of its names go. -/
def Followable (path : String) : Prop :=
  checkPath path = .ok () ∧ ∀ c ∈ steps path, c.fits = true

theorem followable_of_locate (h : fs.locate path = .ok location) : Followable path :=
  ⟨(ok_of_checkPath h).1, fits_of_walkFrom (ok_of_checkPath h).2⟩

theorem followable_of_locateDir (h : fs.locateDir path = .ok location) : Followable path :=
  ⟨(ok_of_checkPath h).1, steps_trimSlashes path ▸ fits_of_walkFrom (ok_of_checkPath h).2⟩

theorem Followable.of_append_slash (h : Followable (path ++ "/")) (hne : path ≠ "") :
    Followable path := by
  obtain ⟨hcheck, hfits⟩ := h
  refine ⟨?_, by rwa [steps_append_slash] at hfits⟩
  have hsize : (path ++ "/").utf8ByteSize = path.utf8ByteSize + 1 := by
    rw [String.utf8ByteSize_append]
    rfl
  simp only [checkPath, String.toList_append, hsize] at hcheck
  rw [checkPath]
  split at hcheck
  · cases hcheck
  · rename_i hnul
    rw [if_neg (by simp_all), if_neg hne]
    split at hcheck
    · cases hcheck
    · split at hcheck
      · cases hcheck
      · rename_i hlong
        rw [if_neg (by omega)]

theorem start_append_slash (h : path ≠ "") : fs.start (path ++ "/") = fs.start path := by
  rw [start, start, isAbsolute_append_slash h]

theorem locationOf_append_slash (h : path ≠ "") :
    fs.locationOf (path ++ "/") = fs.locationOf path := by
  rw [locationOf, start_append_slash h, steps_append_slash, locationOf]

theorem exitsOf_append_slash (h : path ≠ "") : fs.exitsOf (path ++ "/") = fs.exitsOf path := by
  rw [exitsOf, start_append_slash h, steps_append_slash, exitsOf]

theorem stat_eq (fs : FileSystem) (path : String) :
    fs.stat path =
      match fs.locate path with
      | .error e => .error e
      | .ok location =>
        match fs.entry? location with
        | some e => .ok e
        | none => .error .notFound := by
  rw [stat]
  cases fs.locate path with
  | error e => rfl
  | ok location =>
    dsimp only [bind, Except.bind]
    cases fs.entry? location <;> rfl

theorem stat_eq_ok {e : Entry} (h : fs.stat path = .ok e) :
    fs.entry? (fs.locationOf path) = some e := by
  rw [stat_eq] at h
  split at h
  · cases h
  · rename_i location hlocate
    rw [← (reached_of_locate hlocate).eq]
    split at h
    · rename_i e' hentry
      rw [hentry, Except.ok.inj h]
    · cases h

theorem hasDir_exits_of_stat {e : Entry} (h : fs.stat path = .ok e) :
    ∀ exit ∈ fs.exitsOf path, fs.HasDir exit := by
  rw [stat_eq] at h
  cases hlocate : fs.locate path with
  | error e => simp [hlocate] at h
  | ok location => exact hasDir_exits_of_walkFrom (ok_of_checkPath hlocate).2

theorem stat_of_directory? {d : Directory} (h : fs.directory? path = some d) :
    fs.stat path = .ok (.dir d) := by
  rw [directory?] at h
  split at h
  · rename_i hstat
    rw [hstat, Option.some.inj h]
  · cases h

theorem directory?_eq_some {d : Directory} (h : fs.directory? path = some d) :
    fs.entry? (fs.locationOf path) = some (.dir d) :=
  stat_eq_ok (stat_of_directory? h)

theorem directory?_eq_none (h : fs.entry? (fs.locationOf path) = none) :
    fs.directory? path = none := by
  cases hdir : fs.directory? path with
  | none => rfl
  | some d => rw [directory?_eq_some hdir] at h; cases h

section Congr

variable (hcwd : other.cwd = fs.cwd)
  (hexits : ∀ exit ∈ fs.exitsOf path, fs.HasDir exit ∧ other.HasDir exit)

include hcwd hexits

/-- Two file systems agree on where a path leads when it leads to something of the same kind. -/
theorem locate_congr (hsome : (fs.entry? (fs.locationOf path)).isSome)
    (hsome' : (other.entry? (fs.locationOf path)).isSome)
    (hkind : fs.HasDir (fs.locationOf path) ↔ other.HasDir (fs.locationOf path)) :
    fs.locate path = other.locate path := by
  have hwalk : fs.walkFrom (fs.start path) (Path.segments path) =
      other.walkFrom (fs.start path) (Path.segments path) :=
    walkFrom_congr hexits hsome hsome' hkind
  rw [locate, locate, follow_eq, follow_eq, start_congr hcwd, hwalk]

theorem stat_congr (hsome : (fs.entry? (fs.locationOf path)).isSome)
    (h : other.entry? (fs.locationOf path) = fs.entry? (fs.locationOf path)) :
    other.stat path = fs.stat path := by
  have hkind : fs.HasDir (fs.locationOf path) ↔ other.HasDir (fs.locationOf path) := by
    rw [HasDir, HasDir, h]
  rw [stat_eq, stat_eq, ← locate_congr hcwd hexits hsome (h ▸ hsome) hkind]
  cases hlocate : fs.locate path with
  | error e => rfl
  | ok location =>
    obtain rfl := (reached_of_locate hlocate).eq
    simp only [h]

theorem directory?_congr
    (h : other.entry? (fs.locationOf path) = fs.entry? (fs.locationOf path)) :
    other.directory? path = fs.directory? path := by
  cases hentry : fs.entry? (fs.locationOf path) with
  | some e =>
    rw [directory?, directory?, stat_congr hcwd hexits (by rw [hentry, Option.isSome_some]) h]
  | none =>
    rw [directory?_eq_none hentry, directory?_eq_none]
    rw [locationOf_congr hcwd, h, hentry]

end Congr

-- ---------------------------------------------------------------------------
-- Paths of what is in a directory
-- ---------------------------------------------------------------------------

section Join

variable {dir inner name : String}

theorem start_join (h : isAbsolute inner = false) : fs.start (join dir inner) = fs.start dir := by
  rw [start, start, isAbsolute_join h]

theorem locationOf_join (h : isAbsolute inner = false) :
    fs.locationOf (join dir inner) = resolve (fs.locationOf dir) (steps inner) := by
  rw [locationOf, start_join h, steps_join h, resolve_append, locationOf]

theorem exitsOf_join (h : isAbsolute inner = false) (hdown : .parent ∉ steps inner) :
    fs.exitsOf (join dir inner) = fs.exitsOf dir := by
  rw [exitsOf, start_join h, steps_join h, exits_append, exits_of_down hdown, List.append_nil,
    exitsOf]

theorem segments_name (h : IsName name) : Path.segments name = [name.toList] := by
  simpa using @segments_intercalate [name.toList] (by simp) (by simpa using h.2.2.2)

theorem component?_name (h : IsName name) :
    component? name.toList = some (.name name.toList) := by
  obtain ⟨hempty, hdot, hdots, -⟩ := h
  have hdot' : name.toList ≠ ['.'] := fun heq => hdot (String.toList_injective heq)
  have hdots' : name.toList ≠ ['.', '.'] := fun heq => hdots (String.toList_injective heq)
  simp [component?, hempty, hdot', hdots']

theorem steps_name (h : IsName name) : steps name = [.name name.toList] := by
  rw [steps, segments_name h, List.filterMap_cons_some (component?_name h), List.filterMap_nil]

theorem isAbsolute_name (h : IsName name) : isAbsolute name = false := by
  rw [isAbsolute_of_segments (segments_name h)]
  simp

/-- The path of something in a directory ends with its name. -/
theorem segments_join_name (dir : String) (h : IsName name) :
    ∃ init, Path.segments (join dir name) = init ++ [name.toList] ∧
      init.filterMap component? = steps dir := by
  obtain ⟨between, hjoin, hslashes, ⟨rfl, rfl⟩ | ⟨-, s, hs⟩⟩ :=
    @join_of_relative dir name (isAbsolute_name h)
  · refine ⟨[], ?_, by decide⟩
    have hname : join "" name = name := String.toList_injective (by simpa using hjoin)
    rw [hname, segments_name h, List.nil_append]
  · refine ⟨s.splitOn '/', ?_, ?_⟩
    · rw [Path.segments, hjoin, hs, List.append_assoc, List.singleton_append,
        List.splitOn_append_cons_self]
      exact congrArg _ (segments_name h)
    · rw [steps_eq, ← stepsOf_append_slashes dir.toList hslashes, hs, stepsOf_append_cons,
        stepsOf_nil, List.append_nil, stepsOf]

theorem locationOf_join_name (h : IsName name) :
    fs.locationOf (join dir name) = fs.locationOf dir ++ [name] := by
  rw [locationOf_join (isAbsolute_name h), steps_name h]
  simp [resolve, step]

theorem exitsOf_join_name (h : IsName name) : fs.exitsOf (join dir name) = fs.exitsOf dir :=
  exitsOf_join (isAbsolute_name h) (by simp [steps_name h])

theorem locate_join_name (h : IsName name) (hdir : fs.HasDir (fs.locationOf dir))
    (hexits : ∀ exit ∈ fs.exitsOf dir, fs.HasDir exit) (hfollow : Followable (join dir name)) :
    fs.locate (join dir name) = .ok (fs.locationOf dir ++ [name]) := by
  obtain ⟨hcheck, hfits⟩ := hfollow
  rw [steps_join (isAbsolute_name h), steps_name h, List.forall_mem_append] at hfits
  obtain ⟨init, hinit, hsteps⟩ := segments_join_name dir h
  have hwalk : fs.walkFrom (fs.start dir) init = .ok (fs.locationOf dir) := by
    rw [locationOf, ← hsteps]
    rw [locationOf, ← hsteps] at hdir
    rw [exitsOf, ← hsteps] at hexits
    exact walkFrom_of_hasDir hdir hexits (hsteps ▸ hfits.1)
  have hlast : fs.walkFrom (fs.locationOf dir) [name.toList] =
      .ok (fs.locationOf dir ++ [name]) := by
    refine walkFrom_cons_eq_ok.2 ⟨hdir, fun c hc => hfits.2 c ?_, ?_⟩
    · rw [component?_name h] at hc
      simpa [eq_comm] using hc
    · simp [component?_name h, walkFrom_nil, resolve, step]
  rw [locate, hcheck, follow_eq, start_join (isAbsolute_name h), hinit]
  exact walkFrom_append_eq_ok hwalk hlast

end Join

end FileSystem

end Typings
