import Typings.Proofs.Output.ModuleResolution

/-!
# Shortest module paths

The module path for a target goes up no further than the directories that the two files share make
it: one step for each directory of the file beyond the longest common start. The directories of the
target are those of its path without the ending. They are those of the path itself unless the name
of the target is nothing but the ending, alone or behind a dot: then the last directory counts as
the name, and one step more is made. Main statement: `relative_steps`.
-/

namespace Typings.ModulePath

-- ---------------------------------------------------------------------------
-- Directories
-- ---------------------------------------------------------------------------

/-- The directories of a path, from the root inwards. -/
def directories (path : Text) : List Text := (segments path).dropLast

/-- A text without a slash behind a path belongs to its last piece. -/
theorem splitOn_append {before ending : Text} (hending : '/' ∉ ending) {front : List Text}
    {last : Text}
    (h : before.splitOn '/' = front ++ [last]) :
    (before ++ ending).splitOn '/' = front ++ [last ++ ending] := by
  have hbefore : ['/'].intercalate (front ++ [last]) = before := by
    rw [← h]
    exact List.intercalate_splitOn '/'
  have htext : before ++ ending = ['/'].intercalate (front ++ [last ++ ending]) := by
    rw [← hbefore]
    by_cases hfront : front = []
    · simp [hfront]
    · rw [Text.intercalate_append hfront (by simp), Text.intercalate_append hfront (by simp)]
      simp
  rw [htext]
  refine List.splitOn_intercalate _ (fun p hp => ?_) (by simp)
  have hpieces : ∀ q ∈ front ++ [last], '/' ∉ q := fun q hq => Text.notMem_of_mem_splitOn (h ▸ hq)
  rcases List.mem_append.mp hp with hp | hp
  · exact hpieces p (List.mem_append_left _ hp)
  · obtain rfl : p = last ++ ending := List.mem_singleton.mp hp
    exact fun hmem => (List.mem_append.mp hmem).elim (hpieces last (by simp)) hending

/-- Whether the name of a file is nothing but the ending, alone or behind a dot. -/
def IsBareEnding (path : Text) : Prop :=
  (segments path).getLast? = some ".d.ts".toList ∨ (segments path).getLast? = some "..d.ts".toList

/-- Without its ending a path has the directories that it had, unless its name is nothing but the
ending. -/
theorem directories_withoutExtension (path : Text) :
    directories (withoutExtension path) = directories path ∨
      segments (withoutExtension path) = directories path ∧ IsBareEnding path := by
  have hending : withoutExtension path = path ∨
      path = withoutExtension path ++ extension.toList := by
    unfold withoutExtension
    cases h : Text.beforeSuffix? extension.toList path with
    | none => exact .inl rfl
    | some before => exact .inr (Text.beforeSuffix?_eq_some_iff.mp h)
  rcases hending with h | h
  · exact .inl (by rw [h])
  · generalize withoutExtension path = before at h
    subst h
    obtain ⟨front, last, hbefore⟩ :=
      List.eq_nil_or_concat (before.splitOn '/') |>.resolve_left (List.splitOn_ne_nil _ _)
    rw [List.concat_eq_append] at hbefore
    have hpath : (before ++ extension.toList).splitOn '/' = front ++ [last ++ extension.toList] :=
      splitOn_append (by decide) hbefore
    have hkept : last ++ extension.toList ≠ [] ∧ last ++ extension.toList ≠ ['.'] := by
      constructor <;> intro heq <;> simpa [extension] using congrArg List.length heq
    have hsegments : segments (before ++ extension.toList) =
        (front.filter fun s => !s.isEmpty && s ≠ ['.']) ++ [last ++ extension.toList] := by
      rw [segments, hpath, List.filter_append, List.filter_cons_of_pos (by simp [hkept.1, hkept.2]),
        List.filter_nil]
    have hdirectories : directories (before ++ extension.toList) =
        front.filter fun s => !s.isEmpty && s ≠ ['.'] := by
      rw [directories, hsegments, List.dropLast_concat]
    have hlastSegment : (segments (before ++ extension.toList)).getLast? =
        some (last ++ extension.toList) := by
      rw [hsegments, List.getLast?_concat]
    rw [hdirectories, directories, segments, hbefore, List.filter_append, IsBareEnding,
      hlastSegment]
    by_cases hlast : last = [] ∨ last = ['.']
    · right
      rw [List.filter_cons_of_neg (by rcases hlast with rfl | rfl <;> decide), List.filter_nil,
        List.append_nil]
      exact ⟨rfl, by rcases hlast with rfl | rfl <;> decide⟩
    · left
      rw [List.filter_cons_of_pos (by simpa using hlast), List.filter_nil, List.dropLast_concat]

/-- The longest list that two lists start with. -/
structure IsLongestStart (shared as bs : List Text) : Prop where
  left : shared <+: as
  right : shared <+: bs
  longest : ∀ start, start <+: as → start <+: bs → start <+: shared

theorem length_le_commonLength {as bs start : List Text} (has : start <+: as) (hbs : start <+: bs) :
    start.length ≤ commonLength as bs := by
  fun_induction commonLength as bs generalizing start with
  | case1 a as bs ih =>
    cases start with
    | nil => exact Nat.zero_le _
    | cons s start =>
      exact Nat.succ_le_succ (ih (List.cons_prefix_cons.mp has).2 (List.cons_prefix_cons.mp hbs).2)
  | case2 a as b bs hne =>
    cases start with
    | nil => exact Nat.le_refl 0
    | cons s start =>
      exact absurd ((List.cons_prefix_cons.mp has).1.symm.trans
        (List.cons_prefix_cons.mp hbs).1) hne
  | case3 as bs hnot =>
    cases start with
    | nil => exact Nat.le_refl 0
    | cons s start =>
      obtain ⟨as', rfl⟩ := has
      obtain ⟨bs', rfl⟩ := hbs
      exact absurd rfl (hnot s _ s _ rfl)

theorem isLongestStart_take_commonLength (as bs : List Text) :
    IsLongestStart (as.take (commonLength as bs)) as bs := by
  refine ⟨List.take_prefix _ _, take_commonLength as bs ▸ List.take_prefix _ _, ?_⟩
  intro start has hbs
  refine List.prefix_of_prefix_length_le has (List.take_prefix _ _) ?_
  rw [List.length_take]
  exact Nat.le_min.mpr ⟨length_le_commonLength has hbs, has.length_le⟩

-- ---------------------------------------------------------------------------
-- Steps up
-- ---------------------------------------------------------------------------

theorem count_leadingSteps (ups : Nat) : (leadingSteps ups).count up = ups := by
  unfold leadingSteps
  split
  · rename_i h
    rw [h]
    decide
  · exact List.count_replicate_self

/-- A module path is relative: it starts with a dot or with a step up. -/
theorem relative_starts (origin target : String) :
    "./".toList <+: (relative origin target).toList ∨
      "../".toList <+: (relative origin target).toList := by
  rw [relative, String.toList_append]
  split
  · exact .inl (List.prefix_append _ _)
  · rename_i hups
    obtain ⟨n, hn⟩ := Nat.exists_eq_succ_of_ne_zero hups
    rw [hn, List.replicate_succ, String.join_cons, String.toList_append, List.append_assoc]
    exact .inr (List.prefix_append _ _)

/-- A module path is relative and leads from the directory of its file to the target, the path
without the ending; it never leaves the root on the way, and goes up once for each directory of the
file beyond those that both paths start with, the target being taken without its ending. That makes
no difference to its directories, unless its name is nothing but the ending. -/
theorem relative_steps {origin target : String} (horigin : up ∉ segments origin.toList)
    (htarget : up ∉ segments (withoutExtension target.toList))
    (hne : segments (withoutExtension target.toList) ≠ []) :
    ("./".toList <+: (relative origin target).toList ∨
      "../".toList <+: (relative origin target).toList) ∧
    resolve origin (relative origin target) = some (segments (withoutExtension target.toList)) ∧
    (∃ shared, IsLongestStart shared (directories origin.toList)
        (directories (withoutExtension target.toList)) ∧
      ((relative origin target).toList.splitOn '/').count up + shared.length =
        (directories origin.toList).length) ∧
    (directories (withoutExtension target.toList) = directories target.toList ∨
      IsBareEnding target.toList) := by
  have hplain : ∀ s ∈ segments (withoutExtension target.toList), IsPlainStep s := fun s hs =>
    isPlainStep_of_mem_segments hs fun heq => htarget (heq ▸ hs)
  refine ⟨relative_starts origin target, resolve_relative horigin hne hplain,
    ⟨_, isLongestStart_take_commonLength _ _, ?_⟩,
    (directories_withoutExtension target.toList).imp id And.right⟩
  generalize hcommon : commonLength (directories origin.toList)
    (directories (withoutExtension target.toList)) = common
  obtain ⟨horiginLe, htargetLe⟩ := commonLength_le (directories origin.toList)
    (directories (withoutExtension target.toList))
  have hbeyond : (segments (withoutExtension target.toList)).drop common ≠ [] := by
    have hlength := List.length_pos_iff.mpr hne
    rw [hcommon, directories, List.length_dropLast] at htargetLe
    simp only [ne_eq, List.drop_eq_nil_iff]
    omega
  have hnone : ((segments (withoutExtension target.toList)).drop common).count up = 0 :=
    List.count_eq_zero.mpr fun hmem => htarget (List.mem_of_mem_drop hmem)
  rw [splitOn_relative origin target hcommon.symm rfl hbeyond, List.count_append,
    count_leadingSteps,
    hnone, List.length_take]
  simp only [directories] at hcommon horiginLe ⊢
  omega

theorem relative_steps_cousin :
    relative "a/./b/c/X.d.ts" "a//b/d/c.d.ts" = "../d/c" ∧
    resolve "a/./b/c/X.d.ts" (relative "a/./b/c/X.d.ts" "a//b/d/c.d.ts") =
      some ["a".toList, "b".toList, "d".toList, "c".toList] ∧
    directories (withoutExtension "a//b/d/c.d.ts".toList) = directories "a//b/d/c.d.ts".toList := by
  obtain ⟨-, hresolve, -, hdirectories⟩ :=
    @relative_steps "a/./b/c/X.d.ts" "a//b/d/c.d.ts" (by decide) (by decide) (by decide)
  have hnamed : ¬ IsBareEnding "a//b/d/c.d.ts".toList := by
    rintro (h | h)
    · exact absurd h (by decide)
    · exact absurd h (by decide)
  exact ⟨by decide, hresolve, hdirectories.resolve_right hnamed⟩

/-- Both files are in the same directory, but the module path goes up out of it: the target, whose
name is nothing but the ending, is taken for the directory itself. -/
theorem relative_climbs_bareEnding :
    up ∉ segments "a/b/X.d.ts".toList ∧ up ∉ segments "a/b/.d.ts".toList ∧
      up ∉ segments (withoutExtension "a/b/.d.ts".toList) ∧
      segments (withoutExtension "a/b/.d.ts".toList) ≠ [] ∧
      relative "a/b/X.d.ts" "a/b/.d.ts" = "../b" ∧
      ¬ ∃ shared, IsLongestStart shared (directories "a/b/X.d.ts".toList)
          (directories "a/b/.d.ts".toList) ∧
        ((relative "a/b/X.d.ts" "a/b/.d.ts").toList.splitOn '/').count up + shared.length =
          (directories "a/b/X.d.ts".toList).length := by
  refine ⟨by decide, by decide, by decide, by decide, by decide, ?_⟩
  rintro ⟨shared, hshared, hcount⟩
  have hall := hshared.longest [['a'], ['b']] (by decide) (by decide)
  have hups : ((relative "a/b/X.d.ts" "a/b/.d.ts").toList.splitOn '/').count up = 1 := by decide
  have hlength : (directories "a/b/X.d.ts".toList).length = 2 := by decide
  have hle : 2 ≤ shared.length := hall.length_le
  omega

end Typings.ModulePath
