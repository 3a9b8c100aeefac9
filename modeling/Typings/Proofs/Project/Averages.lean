import Mathlib.Algebra.Group.Nat.Defs
import Mathlib.Data.Nat.Basic
import Typings.Project.Basic

/-!
# Average times

The time spent on a number of files is divided by that number modulo 2^32, although the number has
64 bits. From 2^32 files on there is no average when the remainder is zero, and else one that is too
long, unless the time is so short that both divide it to nothing. Main statements:
`Metrics.averageTime?_exact_iff` and `ProjectInfo.averageTime?_eq_some_iff`.
-/

namespace Typings

/-- A remainder divides a number like the whole does, where there is no difference between the two
or both give nothing. -/
theorem div_mod_eq_div_iff {t n m : Nat} (hm : 0 < m) (hn : n % m ≠ 0) :
    t / (n % m) = t / n ↔ n < m ∨ t < n % m := by
  constructor
  · intro heq
    by_contra hnot
    obtain ⟨hle, hpart⟩ := not_or.mp hnot
    have hlt := Nat.mod_lt n hm
    have hpos : 0 < t / (n % m) := Nat.div_pos (by omega) (by omega)
    -- the whole is more than twice the remainder and divides to at most half as much
    have htwice : n % m * 2 ≤ n := by
      have hsplit := Nat.mod_add_div n m
      have hrounds := Nat.le_mul_of_pos_right m (Nat.div_pos (Nat.le_of_not_lt hle) hm)
      omega
    have hhalf : t / n ≤ t / (n % m) / 2 := by
      rw [Nat.div_div_eq_div_mul]
      exact Nat.div_le_div_left htwice (by omega)
    omega
  · rintro (hlt | hlt)
    · rw [Nat.mod_eq_of_lt hlt]
    · rw [Nat.div_eq_of_lt hlt, Nat.div_eq_of_lt (Nat.lt_of_lt_of_le hlt (Nat.mod_le n m))]

namespace Duration

variable {d : Duration} {count : UInt64}

/-- The average over some files divides by what is left of their number below 2^32. -/
theorem average?_eq (h : 0 < count.toNat) :
    d.average? count =
      if count.toNat % 2 ^ 32 = 0 then none else some ⟨d.nanos / (count.toNat % 2 ^ 32)⟩ := by
  have hcount : count ≠ 0 := by
    rintro rfl
    exact absurd h (by decide)
  have hpart : count.toUInt32 = 0 ↔ count.toNat % 2 ^ 32 = 0 := by
    rw [← UInt32.toNat_inj, UInt64.toNat_toUInt32]
    rfl
  simp only [average?, share?, if_neg hcount, hpart, UInt64.toNat_toUInt32]

theorem average?_eq_none_iff (h : 0 < count.toNat) :
    d.average? count = none ↔ 2 ^ 32 ∣ count.toNat := by
  rw [average?_eq h, Nat.dvd_iff_mod_eq_zero]
  split
  · exact iff_of_true rfl ‹_›
  · exact iff_of_false nofun ‹_›

/-- The average is the true one exactly below 2^32 files and for a time that is too short to be
noticed. -/
theorem average?_eq_some_iff (h : 0 < count.toNat) :
    d.average? count = some ⟨d.nanos / count.toNat⟩ ↔
      count.toNat < 2 ^ 32 ∨ d.nanos < count.toNat % 2 ^ 32 := by
  rw [average?_eq h]
  split
  · rename_i hzero
    have hlarge : ¬ count.toNat < 2 ^ 32 := fun hlt => by
      rw [Nat.mod_eq_of_lt hlt] at hzero
      omega
    have hnone : ¬ d.nanos < count.toNat % 2 ^ 32 := hzero ▸ Nat.not_lt_zero _
    exact iff_of_false nofun (not_or.mpr ⟨hlarge, hnone⟩)
  · rename_i hpart
    rw [Option.some.injEq, Duration.mk.injEq, div_mod_eq_div_iff (by decide) hpart]

/-- An average is never too short. -/
theorem le_of_average?_eq_some (h : 0 < count.toNat) {average : Duration}
    (haverage : d.average? count = some average) : d.nanos / count.toNat ≤ average.nanos := by
  rw [average?_eq h] at haverage
  split at haverage
  · cases haverage
  · rename_i hpart
    obtain rfl := Option.some.inj haverage
    exact Nat.div_le_div_left (Nat.mod_le _ _) (Nat.pos_of_ne_zero hpart)

end Duration

/-- The average time for the files in a batch, as far as it is one. -/
theorem ProjectInfo.averageTime?_eq_some_iff {p : ProjectInfo} (hfiles : p.files ≠ [])
    (hlen : p.files.length < 2 ^ 64) :
    p.averageTime? = some ⟨p.time.nanos / p.files.length⟩ ↔
      p.files.length < 2 ^ 32 ∨ p.time.nanos < p.files.length % 2 ^ 32 := by
  have hcount : p.files.length.toUInt64.toNat = p.files.length := by
    rw [Nat.toUInt64_eq, UInt64.toNat_ofNat_of_lt' hlen]
  have hpos := List.length_pos_iff.mpr hfiles
  rw [← hcount] at hpos
  have haverage := @Duration.average?_eq_some_iff p.time _ hpos
  rwa [hcount] at haverage

namespace Metrics

/-- The average time for a file that was read exists unless the number of these files is a multiple
of 2^32. It is never less than the true average, rounded down to nanoseconds, and equal to it
exactly below 2^32 files and for a time that is less than the remainder. -/
theorem averageTime?_exact_iff {m : Metrics} (h : 0 < m.succeeded.toNat) :
    (m.averageTime? = none ↔ 2 ^ 32 ∣ m.succeeded.toNat) ∧
      (∀ average, m.averageTime? = some average →
        m.time.nanos / m.succeeded.toNat ≤ average.nanos) ∧
      (m.averageTime? = some ⟨m.time.nanos / m.succeeded.toNat⟩ ↔
        m.succeeded.toNat < 2 ^ 32 ∨ m.time.nanos < m.succeeded.toNat % 2 ^ 32) :=
  ⟨Duration.average?_eq_none_iff h, fun _ => Duration.le_of_average?_eq_some h,
    Duration.average?_eq_some_iff h⟩

/-- Counters of `2^32 + more` files, with a millisecond for each. -/
def wrapped (more : UInt64) : Metrics :=
  { succeeded := 4294967296 + more, time := .ofMillis (4294967296 + more) }

/-- Over 2^32 files there is no average, and over one more it is not the millisecond that each of
them took. -/
theorem averageTime?_exact_iff_wrapped :
    0 < (wrapped 0).succeeded.toNat ∧ (wrapped 0).averageTime? = none ∧
      0 < (wrapped 1).succeeded.toNat ∧ (wrapped 1).averageTime? ≠ some (.ofMillis 1) := by
  refine ⟨by decide, (averageTime?_exact_iff (by decide)).1.mpr (by decide), by decide, fun h => ?_⟩
  have hexact := (averageTime?_exact_iff (by decide : 0 < (wrapped 1).succeeded.toNat)).2.2.mp h
  exact absurd hexact (by decide)

end Metrics

end Typings
