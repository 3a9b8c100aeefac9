import Typings.Proofs.Source.TypeTexts
import Typings.Proofs.Text.Compaction
import Typings.Proofs.Text.Splitting

/-!
# Counting brackets

Whether the brackets of a text are balanced can be told by counting, and white space does not count:
texts with the same visible characters are balanced together, and closed together. Main statements:
`balanced_iff` and `Balanced.of_visible_eq`.
-/

namespace Typings

-- ---------------------------------------------------------------------------
-- Angle brackets
-- ---------------------------------------------------------------------------

/-- How many angle brackets are open after a text, `depth` being open before it; none when it closes
one that is not open. -/
def anglesAfter? : (depth : Nat) → Text → Option Nat
  | depth, [] => some depth
  | depth, c :: cs =>
    if c = '<' then anglesAfter? (depth + 1) cs
    else if c = '>' then
      match depth with
      | 0 => none
      | outer + 1 => anglesAfter? outer cs
    else anglesAfter? depth cs

theorem anglesAfter?_append (depth : Nat) (s t : Text) :
    anglesAfter? depth (s ++ t) = (anglesAfter? depth s).bind (anglesAfter? · t) := by
  induction s generalizing depth with
  | nil => rfl
  | cons c s ih =>
    simp only [List.cons_append, anglesAfter?]
    split
    · exact ih _
    · split
      · cases depth with
        | zero => rfl
        | succ outer => exact ih outer
      · exact ih _

theorem Balanced.anglesAfter?_eq {s : Text} (h : Balanced s) (depth : Nat) :
    anglesAfter? depth s = some depth := by
  induction h generalizing depth with
  | nil => rfl
  | cons hopen hclose _ ih => simp only [anglesAfter?, if_neg hopen, if_neg hclose, ih]
  | @angled s t _ _ ihs iht =>
    have hclose : anglesAfter? (depth + 1) ('>' :: t) = anglesAfter? depth t := rfl
    have hopen : anglesAfter? depth ('<' :: (s ++ '>' :: t)) =
        anglesAfter? (depth + 1) (s ++ '>' :: t) := rfl
    rw [hopen, anglesAfter?_append, ihs, Option.bind_some, hclose, iht]

/-- A text that closes `depth` brackets more than it opens. -/
inductive ClosesAngles : (depth : Nat) → Text → Prop where
  | balanced {s : Text} (hs : Balanced s) : ClosesAngles 0 s
  | angle {depth : Nat} {s t : Text} (hs : Balanced s) (ht : ClosesAngles depth t) :
      ClosesAngles (depth + 1) (s ++ '>' :: t)

theorem ClosesAngles.cons {depth : Nat} {s : Text} {c : Char} (hopen : c ≠ '<') (hclose : c ≠ '>')
    (h : ClosesAngles depth s) : ClosesAngles depth (c :: s) := by
  cases h with
  | balanced hs => exact .balanced (.cons hopen hclose hs)
  | angle hs ht => exact .angle (.cons hopen hclose hs) ht

theorem ClosesAngles.open {depth : Nat} {s : Text} (h : ClosesAngles (depth + 1) s) :
    ClosesAngles depth ('<' :: s) := by
  cases h with
  | angle hs ht =>
    cases ht with
    | balanced ht => exact .balanced (.angled hs ht)
    | @angle depth u t hu ht =>
      have h := ClosesAngles.angle (Balanced.angled hs hu) ht
      simpa using h

theorem closesAngles_of_anglesAfter? {depth : Nat} {s : Text} (h : anglesAfter? depth s = some 0) :
    ClosesAngles depth s := by
  induction s generalizing depth with
  | nil =>
    obtain rfl : depth = 0 := by simpa [anglesAfter?] using h
    exact .balanced .nil
  | cons c s ih =>
    simp only [anglesAfter?] at h
    split at h
    · rename_i hc
      rw [hc]
      exact (ih h).open
    · rename_i hopen
      split at h
      · rename_i hc
        rw [hc]
        cases depth with
        | zero => cases h
        | succ outer => exact .angle .nil (ih h)
      · rename_i hclose
        exact (ih h).cons hopen hclose

theorem balanced_iff {s : Text} : Balanced s ↔ anglesAfter? 0 s = some 0 := by
  constructor
  · exact fun h => h.anglesAfter?_eq 0
  · intro h
    cases closesAngles_of_anglesAfter? h with
    | balanced hs => exact hs

instance : DecidablePred Balanced := fun _ => decidable_of_iff _ balanced_iff.symm

theorem anglesAfter?_visible (depth : Nat) (s : Text) :
    anglesAfter? depth (Text.visible s) = anglesAfter? depth s := by
  induction s generalizing depth with
  | nil => rfl
  | cons c s ih =>
    rw [Text.visible_cons]
    split
    · rename_i hc
      have hne : c ≠ '<' ∧ c ≠ '>' := by
        constructor <;> rintro rfl <;> exact absurd hc (by decide)
      simp only [anglesAfter?, if_neg hne.1, if_neg hne.2, ih]
    · simp only [anglesAfter?, ih]

/-- White space does not count. -/
theorem Balanced.of_visible_eq {s t : Text} (h : Balanced s)
    (heq : Text.visible s = Text.visible t) :
    Balanced t := by
  rw [balanced_iff, ← anglesAfter?_visible] at h ⊢
  rwa [← heq]

-- ---------------------------------------------------------------------------
-- All brackets
-- ---------------------------------------------------------------------------

namespace Text

theorem openAfter_visible {sep : Char} (hsep : isSpace sep = false) (depth : Nat) (s : Text) :
    openAfter sep depth (visible s) = openAfter sep depth s := by
  induction s generalizing depth with
  | nil => rfl
  | cons c s ih =>
    rw [visible_cons]
    split
    · rename_i hc
      have hne : c ≠ sep := by
        rintro rfl
        rw [hc] at hsep
        cases hsep
      obtain ⟨hopen, hclose⟩ := not_bracket_of_isSpace hc
      simp [openAfter, hopen, hclose, hne, ih]
    · simp only [openAfter, ih]

/-- White space does not count. -/
theorem Closed.of_visible_eq {sep : Char} {s t : Text} (h : Closed sep s)
    (hsep : isSpace sep = false)
    (heq : visible s = visible t) : Closed sep t := by
  rw [Closed, ← openAfter_visible hsep] at h ⊢
  rwa [← heq]

end Text

-- ---------------------------------------------------------------------------
-- Blanks
-- ---------------------------------------------------------------------------

namespace Source

/-- Text of the blanks that may stand between the parts of a declaration. -/
def IsGap (s : Text) : Prop := ∀ c ∈ s, Text.isBlank c = true

instance (s : Text) : Decidable (IsGap s) := inferInstanceAs (Decidable (∀ c ∈ s, _))

theorem isSpace_of_isBlank {c : Char} (h : Text.isBlank c = true) : Text.isSpace c = true := by
  simp only [Text.isBlank, Bool.or_eq_true, decide_eq_true_eq] at h
  rcases h with (((rfl | rfl) | rfl) | rfl) | rfl <;> decide

theorem IsGap.isSpace {s : Text} (h : IsGap s) : ∀ c ∈ s, Text.isSpace c = true := fun c hc =>
  isSpace_of_isBlank (h c hc)

theorem IsGap.balanced {s : Text} (h : IsGap s) : Balanced s :=
  Balanced.nil.of_visible_eq (Text.visible_of_isSpace h.isSpace).symm

end Source

end Typings
