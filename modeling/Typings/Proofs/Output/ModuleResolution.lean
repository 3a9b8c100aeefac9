import Typings.Output.ModulePath
import Typings.Proofs.Text.Splitting

/-!
# Module paths lead to their targets

A module path is followed from the directory of the file that holds it, one segment after another:
a step up leaves the innermost directory, any other segment enters one. Main statement: the module
path that is written for a target leads to that target, whatever directories the two files share.
-/

namespace Typings

-- ---------------------------------------------------------------------------
-- Splitting and joining
-- ---------------------------------------------------------------------------

namespace Text

theorem notMem_of_mem_splitOn {sep : Char} {s p : Text} (h : p ∈ s.splitOn sep) : sep ∉ p := by
  induction s generalizing p with
  | nil => simp_all
  | cons c cs ih =>
    rw [List.splitOn_cons_eq_if_modifyHead] at h
    split at h
    · rcases List.mem_cons.1 h with rfl | h
      · simp
      · exact ih h
    · rename_i hc
      obtain ⟨q, qs, hq⟩ := List.exists_cons_of_ne_nil (List.splitOn_ne_nil sep cs)
      rw [hq, List.modifyHead_cons] at h
      rcases List.mem_cons.1 h with rfl | h
      · have hrest := ih (p := q) (by simp [hq])
        simp only [beq_iff_eq] at hc
        simpa [hrest] using fun h => hc h.symm
      · exact ih (by simp [hq, h])

end Text

namespace ModulePath

-- ---------------------------------------------------------------------------
-- Following a path
-- ---------------------------------------------------------------------------

/-- The step to the directory around a directory. -/
def up : Text := ['.', '.']

/-- Where steps lead from a directory. Empty steps and single dots stay, and there is no way up
from the root. -/
def follow : (place : List Text) → List Text → Option (List Text)
  | place, [] => some place
  | place, step :: steps =>
    if step = [] ∨ step = ['.'] then follow place steps
    else if step = up then if place = [] then none else follow place.dropLast steps
    else follow (place ++ [step]) steps

/-- Where a module path leads from the directory of a file. -/
def resolve (origin module : String) : Option (List Text) :=
  (follow [] (segments origin.toList).dropLast).bind (follow · (module.toList.splitOn '/'))

/-- A step that enters a directory or a file. -/
def IsPlainStep (step : Text) : Prop := step ≠ [] ∧ step ≠ ['.'] ∧ step ≠ up

theorem follow_plain (place : List Text) {steps : List Text} (h : ∀ s ∈ steps, IsPlainStep s) :
    follow place steps = some (place ++ steps) := by
  induction steps generalizing place with
  | nil => simp [follow]
  | cons s steps ih =>
    obtain ⟨hne, hdot, hup⟩ := h s List.mem_cons_self
    rw [follow, if_neg (by simp [hne, hdot]), if_neg hup,
      ih _ fun t ht => h t (List.mem_cons_of_mem _ ht), List.append_assoc, List.singleton_append]

theorem follow_up {place : List Text} (n : Nat) (h : n ≤ place.length) (steps : List Text) :
    follow place (List.replicate n up ++ steps) = follow (place.take (place.length - n)) steps := by
  induction n generalizing place with
  | zero => simp
  | succ n ih =>
    have hplace : place ≠ [] := by
      rintro rfl
      simp at h
    have hshorter : n ≤ place.dropLast.length := by
      rw [List.length_dropLast]
      omega
    have htake : place.dropLast.take (place.dropLast.length - n) =
        place.take (place.length - (n + 1)) := by
      rw [List.dropLast_eq_take, List.take_take, List.length_take]
      exact congrArg (place.take ·) (by omega)
    rw [List.replicate_succ, List.cons_append, follow, if_neg (by decide), if_pos rfl,
      if_neg hplace, ih hshorter, htake]

-- ---------------------------------------------------------------------------
-- Relative paths
-- ---------------------------------------------------------------------------

theorem commonLength_le (as bs : List Text) :
    commonLength as bs ≤ as.length ∧ commonLength as bs ≤ bs.length := by
  fun_induction commonLength as bs with
  | case1 a as bs ih => simp only [List.length_cons]; omega
  | case2 => omega
  | case3 => omega

theorem take_commonLength (as bs : List Text) :
    as.take (commonLength as bs) = bs.take (commonLength as bs) := by
  fun_induction commonLength as bs with
  | case1 a as bs ih => simp [ih]
  | case2 => simp
  | case3 => simp

/-- The steps of the module path for a target before those that enter directories again. -/
def leadingSteps (ups : Nat) : List Text := if ups = 0 then [['.']] else List.replicate ups up

theorem leadingSteps_ne_nil (ups : Nat) : leadingSteps ups ≠ [] := by
  unfold leadingSteps
  split
  · simp
  · simpa

theorem join_ups_eq (ups : Nat) (h : ups ≠ 0) :
    (String.join (List.replicate ups "../")).toList =
      ['/'].intercalate (List.replicate ups up) ++ ['/'] := by
  obtain ⟨n, rfl⟩ := Nat.exists_eq_succ_of_ne_zero h
  have hstep : "../".toList = up ++ ['/'] := by decide
  induction n with
  | zero => decide
  | succ n ih =>
    rw [List.replicate_succ, String.join_cons, String.toList_append, ih (by simp), hstep,
      List.replicate_succ (n := n + 1), List.intercalate_cons_of_ne_nil (by simp)]
    simp

/-- The segments of a module path: steps up, or a dot, and then those of the target beyond the
directories that both files share. -/
theorem splitOn_relative (origin target : String) {shared : Nat} {beyond : List Text}
    (hshared : shared = commonLength (segments origin.toList).dropLast
      (segments (withoutExtension target.toList)).dropLast)
    (hbeyond : beyond = (segments (withoutExtension target.toList)).drop shared)
    (hne : beyond ≠ []) :
    (relative origin target).toList.splitOn '/' =
      leadingSteps ((segments origin.toList).dropLast.length - shared) ++ beyond := by
  generalize hups : (segments origin.toList).dropLast.length - shared = ups
  have hslash : "/".toList = ['/'] := by decide
  have htext : (relative origin target).toList =
      ['/'].intercalate (leadingSteps ups ++ beyond) := by
    have hlead : (if ups = 0 then "./" else String.join (List.replicate ups "../")).toList =
        ['/'].intercalate (leadingSteps ups) ++ ['/'] := by
      unfold leadingSteps
      split
      · decide
      · exact join_ups_eq ups ‹_›
    have hpieces : beyond.map (String.toList ∘ String.ofList) = beyond :=
      (List.map_congr_left fun p _ => String.toList_ofList).trans (List.map_id _)
    simp only [relative, ← hshared, ← hbeyond, hups]
    rw [String.toList_append, hlead, String.toList_intercalate, hslash, List.map_map, hpieces,
      Text.intercalate_append (leadingSteps_ne_nil ups) hne]
  rw [htext]
  refine List.splitOn_intercalate _ (fun p hp => ?_) (by simp [hne])
  rcases List.mem_append.1 hp with hp | hp
  · unfold leadingSteps at hp
    split at hp
    · simp_all
    · obtain ⟨-, rfl⟩ := List.mem_replicate.1 hp
      decide
  · rw [hbeyond] at hp
    exact Text.notMem_of_mem_splitOn (List.mem_filter.1 (List.mem_of_mem_drop hp)).1

theorem isPlainStep_of_mem_segments {path s : Text} (hs : s ∈ segments path) (hup : s ≠ up) :
    IsPlainStep s := by
  have hkept := (List.mem_filter.1 hs).2
  simp only [Bool.and_eq_true, Bool.not_eq_true', List.isEmpty_eq_false_iff, decide_eq_true_eq]
    at hkept
  exact ⟨hkept.1, hkept.2, hup⟩

/-- The module path for a target leads to it. -/
theorem resolve_relative {origin target : String} (horigin : up ∉ segments origin.toList)
    (hne : segments (withoutExtension target.toList) ≠ [])
    (hplain : ∀ s ∈ segments (withoutExtension target.toList), IsPlainStep s) :
    resolve origin (relative origin target) = some (segments (withoutExtension target.toList)) := by
  generalize htarget : segments (withoutExtension target.toList) = goal at hne hplain
  have hstart : follow [] (segments origin.toList).dropLast =
      some (segments origin.toList).dropLast := by
    refine follow_plain [] fun s hs => ?_
    have hmem := (List.dropLast_sublist _).mem hs
    exact isPlainStep_of_mem_segments hmem fun hup => horigin (hup ▸ hmem)
  generalize hdirs : (segments origin.toList).dropLast = dirs at hstart
  obtain ⟨hdirsLe, hgoalLe⟩ := commonLength_le dirs goal.dropLast
  have htake := take_commonLength dirs goal.dropLast
  generalize hcommon : commonLength dirs goal.dropLast = common at hdirsLe hgoalLe htake
  have hlength : 0 < goal.length := List.length_pos_iff.2 hne
  rw [List.length_dropLast] at hgoalLe
  have hbeyond : goal.drop common ≠ [] := by
    simp only [ne_eq, List.drop_eq_nil_iff]
    omega
  have hsplit : (relative origin target).toList.splitOn '/' =
      leadingSteps ((segments origin.toList).dropLast.length - common) ++ goal.drop common :=
    splitOn_relative origin target (by rw [hdirs, htarget, hcommon]) (by rw [htarget]) hbeyond
  have hfollow : ∀ place, follow place (goal.drop common) = some (place ++ goal.drop common) :=
    fun place => follow_plain place fun s hs => hplain s (List.mem_of_mem_drop hs)
  have hshared : dirs.take common = goal.take common := by
    rw [htake, List.dropLast_eq_take, List.take_take]
    exact congrArg (goal.take ·) (by omega)
  rw [resolve, hdirs, hstart, Option.bind_some, hsplit, hdirs, leadingSteps]
  split
  · -- No step up: all directories of the origin are shared.
    rename_i hups
    have hall : dirs = goal.take common := by
      rw [← hshared, List.take_of_length_le (by omega)]
    rw [List.singleton_append, follow, if_pos (.inr rfl), hfollow, hall, List.take_append_drop]
  · rw [follow_up _ (by omega), hfollow]
    have hback : dirs.length - (dirs.length - common) = common := by omega
    rw [hback, hshared, List.take_append_drop]

end ModulePath

end Typings
