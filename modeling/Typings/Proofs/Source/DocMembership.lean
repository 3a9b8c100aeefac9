import Typings.Proofs.Source.MaskedBytes

/-!
# Offsets in documentation comments

The documentation comments of a view follow one another, so halving their list finds the only one
that can hold an offset: the first that ends behind it. An offset is known to be in a documentation
comment exactly when one of the comments holds it. Main statement: `inDoc_mask_iff`.
-/

namespace Typings

namespace Span

variable {spans : List Span} {s : Span} {offset : Nat}

theorem contains_eq_true_iff : s.contains offset = true ↔ s.start ≤ offset ∧ offset < s.stop := by
  simp [contains]

/-- Whatever place halving leads to, an offset is only found in a span that holds it. -/
theorem exists_of_search_eq_true (h : search spans offset = true) :
    ∃ s ∈ spans, s.contains offset = true := by
  rw [search] at h
  split at h
  · cases h
  · rename_i s hget
    rw [List.getElem?_toArray] at hget
    exact ⟨s, List.mem_of_getElem? hget, h⟩

/-- In spans that follow one another, an offset is found exactly when one of them holds it. -/
theorem search_eq_true_iff (hspans : ∀ s ∈ spans, s.start ≤ s.stop)
    (horder : spans.Pairwise fun s t => s.stop ≤ t.start) :
    search spans offset = true ↔ ∃ s ∈ spans, s.contains offset = true := by
  refine ⟨exists_of_search_eq_true, ?_⟩
  rintro ⟨s, hs, hholds⟩
  obtain ⟨hin, hout⟩ := contains_eq_true_iff.mp hholds
  exact Source.search_eq_true horder hs hin hout hspans

end Span

namespace Source

/-- An offset is known to be in a documentation comment that a view shows exactly when one of these
comments holds it. -/
theorem inDoc_mask_iff (s : Text) (offset : Nat) :
    (mask s).inDoc offset = true ↔ ∃ span ∈ (mask s).docs, span.start ≤ offset ∧
    offset < span.stop := by
  have horder : (mask s).docs.Pairwise fun d e => d.stop ≤ e.start := by
    rw [mask_eq]
    exact pairwise_docs 0 0 (tokens s)
  have hspans : ∀ span ∈ (mask s).docs, span.start ≤ span.stop := fun span hspan =>
    Nat.le_of_lt (start_lt_stop_of_mem_docs hspan)
  simp only [Masked.inDoc, Span.search_eq_true_iff hspans horder, Span.contains_eq_true_iff]

/-- Two comments side by side, the second of which is never closed: it ends with the text. -/
example :
    let s : Text := "/** a *//** b".toList
    (mask s).docs = [⟨0, 8⟩, ⟨8, 13⟩] ∧ (mask s).inDoc 7 = true ∧ (mask s).inDoc 12 = true ∧
      (mask s).inDoc 13 = false := by
  decide +kernel

end Source

end Typings
