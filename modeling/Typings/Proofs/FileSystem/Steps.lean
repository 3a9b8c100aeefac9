import Mathlib.Data.List.TakeWhile
import Typings.FileSystem.Path
import Typings.Proofs.Output.ModuleResolution

/-!
# Where paths lead

A path names a location whatever is there: a name leads into a directory and `..` out of one. The
path of something in a directory has the steps to the directory and its own, and the path of the
directory that holds something has all steps but the last.
-/

namespace Typings

-- ---------------------------------------------------------------------------
-- Steps
-- ---------------------------------------------------------------------------

namespace Path

/-- The steps that a text of segments stands for. -/
def stepsOf (path : Text) : List Component := (path.splitOn '/').filterMap component?

/-- The steps of a path, after its start. -/
def steps (path : String) : List Component := (segments path).filterMap component?

/-- Where a step leads. -/
def step (location : List String) : Component → List String
  | .parent => location.dropLast
  | .name text => location ++ [String.ofList text]
  | _ => location

/-- Where steps lead from a location. -/
def resolve (start : List String) (steps : List Component) : List String := steps.foldl step start

/-- The locations that steps from a location lead out of. -/
def exits : List String → List Component → List (List String)
  | _, [] => []
  | location, .parent :: rest => location :: exits location.dropLast rest
  | location, c :: rest => exits (step location c) rest

theorem component?_cases (segment : Text) :
    component? segment = none ∨ component? segment = some .parent ∨
      component? segment = some (.name segment) := by
  rw [component?]
  split
  · exact .inl rfl
  · split
    · exact .inr (.inl rfl)
    · exact .inr (.inr rfl)

theorem steps_eq (path : String) : steps path = stepsOf path.toList := rfl

theorem stepsOf_append_cons (s t : Text) : stepsOf (s ++ '/' :: t) = stepsOf s ++ stepsOf t := by
  rw [stepsOf, List.splitOn_append_cons_self, List.filterMap_append]
  rfl

@[simp] theorem stepsOf_nil : stepsOf [] = [] := by decide

theorem stepsOf_append_slashes (s : Text) {slashes : Text} (h : ∀ c ∈ slashes, c = '/') :
    stepsOf (s ++ slashes) = stepsOf s := by
  induction slashes generalizing s with
  | nil => rw [List.append_nil]
  | cons c slashes ih =>
    rw [List.forall_mem_cons] at h
    have hrest : stepsOf slashes = [] := by simpa using ih [] h.2
    rw [h.1, stepsOf_append_cons, hrest, List.append_nil]

theorem steps_trimSlashes (path : String) : steps (trimSlashes path) = steps path := by
  have hsplit : path.toList = (path.toList.reverse.dropWhile (· = '/')).reverse ++
      (path.toList.reverse.takeWhile (· = '/')).reverse := by
    rw [← List.reverse_append, List.takeWhile_append_dropWhile, List.reverse_reverse]
  have hslashes : ∀ c ∈ (path.toList.reverse.takeWhile (· = '/')).reverse, c = '/' := by
    intro c hc
    simpa using List.mem_takeWhile_imp (List.mem_reverse.1 hc)
  have hsteps := stepsOf_append_slashes (path.toList.reverse.dropWhile (· = '/')).reverse hslashes
  rw [← hsplit] at hsteps
  rw [steps_eq path, hsteps, trimSlashes]
  split
  · rename_i hnil
    rw [hnil]
    split <;> decide
  · rw [steps_eq, String.toList_ofList]

theorem steps_append_slash (path : String) : steps (path ++ "/") = steps path := by
  rw [steps_eq, String.toList_append]
  exact stepsOf_append_slashes _ (by decide)

theorem isAbsolute_append_slash {path : String} (h : path ≠ "") :
    isAbsolute (path ++ "/") = isAbsolute path := by
  obtain ⟨c, cs, hpath⟩ := List.exists_cons_of_ne_nil fun h' => h (String.toList_eq_nil_iff.1 h')
  rw [isAbsolute, isAbsolute, String.toList_append, hpath]
  rfl

section Join

variable {dir inner : String}

theorem join_of_relative (h : isAbsolute inner = false) :
    ∃ between : Text, (join dir inner).toList = dir.toList ++ between ++ inner.toList ∧
      (∀ c ∈ between, c = '/') ∧
      (dir = "" ∧ between = [] ∨ dir ≠ "" ∧ ∃ s, dir.toList ++ between = s ++ ['/']) := by
  rw [join, h, Bool.false_or]
  split
  · rename_i hdir
    obtain rfl : dir = "" := by simpa using hdir
    exact ⟨[], by simp, by simp, .inl ⟨rfl, rfl⟩⟩
  · rename_i hdir
    have hne : dir ≠ "" := by simpa using hdir
    split
    · rename_i hlast
      obtain ⟨s, hs⟩ := List.getLast?_eq_some_iff.1 hlast
      exact ⟨[], by simp, by simp, .inr ⟨hne, s, by simp [hs]⟩⟩
    · exact ⟨['/'], by simp, by simp, .inr ⟨hne, dir.toList, rfl⟩⟩

theorem steps_join (h : isAbsolute inner = false) :
    steps (join dir inner) = steps dir ++ steps inner := by
  obtain ⟨between, hjoin, hslashes, ⟨rfl, rfl⟩ | ⟨-, s, hs⟩⟩ := @join_of_relative dir inner h
  · rw [steps_eq, hjoin]
    simp [steps_eq]
  · rw [steps_eq, hjoin, steps_eq dir, ← stepsOf_append_slashes dir.toList hslashes, hs,
      List.append_assoc, List.singleton_append, stepsOf_append_cons, stepsOf_append_cons]
    simp [steps_eq]

theorem isAbsolute_join (h : isAbsolute inner = false) :
    isAbsolute (join dir inner) = isAbsolute dir := by
  obtain ⟨between, hjoin, -, ⟨rfl, rfl⟩ | ⟨hne, -⟩⟩ := @join_of_relative dir inner h
  · simpa [isAbsolute, hjoin] using h
  · obtain ⟨c, cs, hdir⟩ := List.exists_cons_of_ne_nil fun h => hne (String.toList_eq_nil_iff.1 h)
    rw [isAbsolute, isAbsolute, hjoin, hdir]
    rfl

end Join

-- ---------------------------------------------------------------------------
-- The directory that holds what a path names
-- ---------------------------------------------------------------------------

theorem filterMap_dropIdle (segments : List Text) :
    (dropIdle segments).filterMap component? = segments.filterMap component? := by
  fun_induction dropIdle segments with
  | case1 s t rest h ih =>
    rw [ih, List.filterMap_cons_none (Option.isNone_iff_eq_none.1 h)]
  | case2 => rfl
  | case3 => rfl

theorem dropIdle_suffix (segments : List Text) : dropIdle segments <:+ segments := by
  fun_induction dropIdle segments with
  | case1 s t rest h ih => exact ih.trans (List.suffix_cons _ _)
  | case2 => exact List.suffix_rfl
  | case3 => exact List.suffix_rfl

theorem dropIdle_eq_nil_iff {segments : List Text} : dropIdle segments = [] ↔ segments = [] := by
  fun_induction dropIdle segments with
  | case1 s t rest h ih => simp [ih]
  | case2 => simp
  | case3 => simp

/-- A path is absolute when it has more segments after an empty first one. -/
theorem isAbsolute_of_segments {path : String} {first : Text} {rest : List Text}
    (h : segments path = first :: rest) : isAbsolute path = (first.isEmpty && !rest.isEmpty) := by
  rw [segments] at h
  rw [isAbsolute]
  match path.toList, h with
  | [], h =>
    obtain ⟨rfl, rfl⟩ := List.cons.inj h
    rfl
  | c :: cs, h =>
    obtain ⟨q, qs, hq⟩ := List.exists_cons_of_ne_nil (List.splitOn_ne_nil '/' cs)
    rw [List.splitOn_cons_eq_if_modifyHead, hq] at h
    by_cases hc : c = '/'
    · obtain ⟨rfl, rfl⟩ : [] = first ∧ q :: qs = rest := by simpa [hc] using h
      simp [hc]
    · obtain ⟨rfl, rfl⟩ : c :: q = first ∧ qs = rest := by simpa [hc] using h
      simp [hc]

theorem segments_intercalate {parts : List Text} (hne : parts ≠ []) (h : ∀ s ∈ parts, '/' ∉ s) :
    segments (String.ofList (['/'].intercalate parts)) = parts := by
  rw [segments, String.toList_ofList]
  exact List.splitOn_intercalate _ h hne

theorem steps_intercalate {parts : List Text} (h : ∀ s ∈ parts, '/' ∉ s) :
    steps (String.ofList (['/'].intercalate parts)) = parts.filterMap component? := by
  by_cases hne : parts = []
  · rw [hne]
    decide
  · rw [steps, segments_intercalate hne h]

/-- The directory that holds what a path names has the same start, and all steps but the last. -/
theorem parent?_eq_some {path above : String} (h : parent? path = some above) :
    isAbsolute above = isAbsolute path ∧ steps above <+: steps path := by
  obtain ⟨last, tail, htrim⟩ : ∃ last tail, dropIdle (segments path).reverse = last :: tail :=
    List.exists_cons_of_ne_nil fun h =>
      List.splitOn_ne_nil _ _ (List.reverse_eq_nil_iff.1 (dropIdle_eq_nil_iff.1 h))
  obtain ⟨idle, hidle⟩ : ∃ idle, segments path = tail.reverse ++ last :: idle := by
    obtain ⟨idle, hidle⟩ := htrim ▸ dropIdle_suffix (segments path).reverse
    exact ⟨idle.reverse, by simpa using (congrArg List.reverse hidle).symm⟩
  obtain ⟨between, hbetween⟩ : ∃ between, tail.reverse = (dropIdle tail).reverse ++ between := by
    obtain ⟨between, hbetween⟩ := dropIdle_suffix tail
    exact ⟨between.reverse, by rw [← List.reverse_append, hbetween]⟩
  have hslash : ∀ s ∈ (dropIdle tail).reverse, '/' ∉ s := fun s hs =>
    Text.notMem_of_mem_splitOn (show s ∈ segments path by simp [hidle, hbetween, hs])
  rw [parent?, htrim, List.tail_cons] at h
  dsimp only at h
  split at h
  · cases h
  · rename_i hnothing
    split at h
    · rename_i hroot
      cases h
      rw [Bool.and_eq_true] at hroot
      exact ⟨hroot.1.symm, List.nil_prefix⟩
    · rename_i hroot
      cases h
      constructor
      · match hrev : (dropIdle tail).reverse with
        | [] =>
          obtain rfl := dropIdle_eq_nil_iff.1 (List.reverse_eq_nil_iff.1 hrev)
          have hlast : last ≠ [] := by simpa using hnothing
          have habs : isAbsolute path = false := by
            rw [@isAbsolute_of_segments path last idle (by simpa using hidle)]
            simp [hlast]
          rw [habs]
          decide
        | first :: more =>
          rw [hbetween, hrev] at hidle
          have habove : segments (String.ofList (['/'].intercalate (first :: more))) =
              first :: more := hrev ▸ segments_intercalate (by simp [hrev]) hslash
          have habs : isAbsolute path = first.isEmpty := by simp [isAbsolute_of_segments hidle]
          rw [isAbsolute_of_segments habove, habs]
          cases more with
          | cons => simp
          | nil =>
            have hfirst : first ≠ [] := by
              rintro rfl
              simp [habs, List.reverse_eq_iff.1 hrev] at hroot
            simp [hfirst]
      · rw [steps_intercalate hslash, List.filterMap_reverse, filterMap_dropIdle, steps, hidle,
          List.filterMap_append, List.filterMap_reverse]
        exact List.prefix_append _ _

-- ---------------------------------------------------------------------------
-- Where steps lead
-- ---------------------------------------------------------------------------

theorem resolve_append (start : List String) (first second : List Component) :
    resolve start (first ++ second) = resolve (resolve start first) second :=
  List.foldl_append

theorem exits_append (start : List String) (first second : List Component) :
    exits start (first ++ second) = exits start first ++ exits (resolve start first) second := by
  induction first generalizing start with
  | nil => rfl
  | cons c first ih => cases c <;> simp [exits, resolve, step, ih]

/-- The names among steps. -/
def names (steps : List Component) : List String :=
  steps.filterMap fun
    | .name text => some (String.ofList text)
    | _ => none

/-- Steps without `..` lead downwards only. -/
theorem resolve_of_down {steps : List Component} (h : .parent ∉ steps) (start : List String) :
    resolve start steps = start ++ names steps := by
  induction steps generalizing start with
  | nil => simp [resolve, names]
  | cons c steps ih =>
    rw [List.mem_cons, not_or] at h
    have ih := ih h.2 (step start c)
    cases c with
    | parent => exact absurd rfl h.1
    | name text => simpa [resolve, names, step] using ih
    | root => simpa [resolve, names, step] using ih
    | current => simpa [resolve, names, step] using ih

theorem exits_of_down {steps : List Component} (h : .parent ∉ steps) (start : List String) :
    exits start steps = [] := by
  induction steps generalizing start with
  | nil => rfl
  | cons c steps ih =>
    rw [List.mem_cons, not_or] at h
    cases c with
    | parent => exact absurd rfl h.1
    | name text => exact ih h.2 _
    | root => exact ih h.2 _
    | current => exact ih h.2 _

/-- Steps from a location end below it, or step up out of something below it. -/
theorem prefix_resolve_or_exits (start : List String) (steps : List Component) :
    start <+: resolve start steps ∨ ∃ exit ∈ exits start steps, start <+: exit := by
  induction steps generalizing start with
  | nil => exact .inl List.prefix_rfl
  | cons c steps ih =>
    cases c with
    | parent => exact .inr ⟨start, List.mem_cons_self, List.prefix_rfl⟩
    | root => exact ih start
    | current => exact ih start
    | name text =>
      have hstep : start <+: start ++ [String.ofList text] := List.prefix_append _ _
      rcases ih (start ++ [String.ofList text]) with h | ⟨exit, hmem, h⟩
      · exact .inl (hstep.trans h)
      · exact .inr ⟨exit, hmem, hstep.trans h⟩

end Path

end Typings
