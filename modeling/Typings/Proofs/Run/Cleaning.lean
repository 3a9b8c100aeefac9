import Mathlib.Tactic.Tauto
import Typings.Proofs.Run.Writing

/-!
# Cleaning the output directory

Cleaning leaves the output directory without the files whose names say that they are declarations
and are not preserved, and without the directories that are then empty. It changes nothing else.
-/

namespace Typings

open Typings.FileSystem Typings.Path

-- ---------------------------------------------------------------------------
-- Cleaned directories
-- ---------------------------------------------------------------------------

/-- What is cleaned has the name of a declaration file and is not preserved. -/
theorem RunConfig.isCleaned_iff {c : RunConfig} {name : String} :
    c.isCleaned name = true ↔
      (∃ stem : String, name = stem ++ ".d.ts") ∧ name ∉ c.preservedFiles := by
  have hstem : (∃ stem : String, name = stem ++ ".d.ts") ↔
      ModulePath.extension.toList <:+ name.toList := by
    constructor
    · rintro ⟨stem, rfl⟩
      exact ⟨stem.toList, by rw [String.toList_append]; rfl⟩
    · rintro ⟨text, htext⟩
      refine ⟨String.ofList text, String.toList_inj.1 ?_⟩
      rw [← htext, String.toList_append, String.toList_ofList]
      rfl
  rw [isCleaned, Bool.and_eq_true, Text.endsWith_eq_true_iff, hstem, isPreserved]
  simp

/-- A directory without the files to be cleaned, and without the directories that are then empty. -/
def Directory.cleaned (c : RunConfig) : Directory → Directory
  | .empty => .empty
  | .file name contents rest =>
    if c.isCleaned name then rest.cleaned c else .file name contents (rest.cleaned c)
  | .sub name inside rest =>
    if inside.cleaned c = .empty then rest.cleaned c
    else .sub name (inside.cleaned c) (rest.cleaned c)

/-- What cleaning leaves of an entry. -/
def Entry.cleaned? (c : RunConfig) (name : String) : Entry → Option Entry
  | .file contents => if c.isCleaned name then none else some (.file contents)
  | .dir inside => if inside.cleaned c = .empty then none else some (.dir (inside.cleaned c))

/-- What is left is the file itself, or the cleaned directory where that is not empty. -/
theorem Entry.cleaned?_eq_some {c : RunConfig} {name : String} {e left : Entry}
    (h : e.cleaned? c name = some left) :
    (∃ contents, e = .file contents ∧ left = .file contents) ∨
      ∃ inside, e = .dir inside ∧ inside.cleaned c ≠ .empty ∧ left = .dir (inside.cleaned c) := by
  cases e with
  | file contents =>
    obtain ⟨-, hleft⟩ := Option.ite_none_left_eq_some.1 h
    exact .inl ⟨contents, rfl, (Option.some.inj hleft).symm⟩
  | dir inside =>
    obtain ⟨hne, hleft⟩ := Option.ite_none_left_eq_some.1 h
    exact .inr ⟨inside, rfl, hne, (Option.some.inj hleft).symm⟩

namespace Directory

variable {c : RunConfig} {name : String} {e : Entry} {d rest : Directory}

theorem cleaned_cons :
    (cons name e rest).cleaned c =
      match e.cleaned? c name with
      | some left => cons name left (rest.cleaned c)
      | none => rest.cleaned c := by
  cases e with
  | file contents =>
    rw [cons, cleaned, Entry.cleaned?]
    split <;> rfl
  | dir inside =>
    rw [cons, cleaned, Entry.cleaned?]
    split <;> rfl

theorem mem_entries_of_cleaned {entry : String × Entry} (h : entry ∈ (d.cleaned c).entries) :
    ∃ e, (entry.1, e) ∈ d.entries := by
  induction d using cons_induction with
  | empty => cases h
  | cons name e rest _ ih =>
    rw [cleaned_cons] at h
    rw [entries_cons]
    split at h
    · rw [entries_cons, List.mem_cons] at h
      rcases h with rfl | h
      · exact ⟨e, List.mem_cons_self⟩
      · exact (ih h).imp fun _ hmem => List.mem_cons_of_mem _ hmem
    · exact (ih h).imp fun _ hmem => List.mem_cons_of_mem _ hmem

theorem WellFormed.cleaned (h : d.WellFormed) : (d.cleaned c).WellFormed := by
  induction d using cons_induction with
  | empty => trivial
  | cons name e rest ihInside ih =>
    obtain ⟨hname, hlt, he, hrest⟩ := wellFormed_cons.1 h
    rw [cleaned_cons]
    split
    · rename_i left hleft
      refine wellFormed_cons.2 ⟨hname, fun entry hentry => ?_, ?_, ih hrest⟩
      · obtain ⟨e', hmem⟩ := mem_entries_of_cleaned hentry
        exact hlt (entry.1, e') hmem
      · obtain ⟨contents, rfl, rfl⟩ | ⟨inside, rfl, -, rfl⟩ := Entry.cleaned?_eq_some hleft
        · trivial
        · exact ihInside inside rfl he
    · exact ih hrest

theorem WellFormed.get?_cleaned (h : d.WellFormed) (n : String) :
    (d.cleaned c).get? n = (d.get? n).bind (·.cleaned? c n) := by
  induction d using cons_induction with
  | empty => rfl
  | cons name e rest _ ih =>
    obtain ⟨-, hlt, -, hrest⟩ := wellFormed_cons.1 h
    rw [cleaned_cons, get?_cons]
    by_cases hn : name = n
    · subst hn
      have hnone : (rest.cleaned c).get? name = none := by
        rw [ih hrest, get?_eq_none_iff.2 fun e he => (hlt e he).ne', Option.bind_none]
      rw [if_pos rfl, Option.bind_some]
      split
      · rename_i hleft
        rw [get?_cons, if_pos rfl, hleft]
      · rename_i hleft
        rw [hnone, hleft]
    · rw [if_neg hn, ← ih hrest]
      split
      · rw [get?_cons, if_neg hn]
      · rfl

end Directory

/-- Whether cleaning removes files at a location. -/
def RunConfig.isCleanedAt (c : RunConfig) (location : List String) : Bool :=
  location.getLast?.any c.isCleaned

theorem Directory.fileAt?_empty (location : List String) :
    (Entry.dir .empty).fileAt? location = none := by
  cases location with
  | nil => rfl
  | cons n location => rw [fileAt?_dir_cons]; rfl

/-- Cleaning takes away the files to be cleaned. -/
theorem Directory.WellFormed.fileAt?_cleaned {c : RunConfig} {d : Directory} (h : d.WellFormed)
    (location : List String) :
    (Entry.dir (d.cleaned c)).fileAt? location =
      if c.isCleanedAt location then none else (Entry.dir d).fileAt? location := by
  induction location generalizing d with
  | nil => rfl
  | cons n location ih =>
    rw [fileAt?_dir_cons, fileAt?_dir_cons, h.get?_cleaned]
    cases hget : d.get? n with
    | none => simp
    | some e =>
      cases e with
      | file contents =>
        cases location with
        | nil => by_cases hn : c.isCleaned n <;> simp [Entry.cleaned?, RunConfig.isCleanedAt, hn]
        | cons m location =>
          by_cases hn : c.isCleaned n <;> simp [Entry.cleaned?, Entry.fileAt?, hn]
      | dir inside =>
        have hinside : inside.WellFormed := (h.of_mem (h.get?_eq_some_iff.1 hget)).2
        have hleft : ((Entry.dir inside).cleaned? c n).bind (·.fileAt? location) =
            (Entry.dir (inside.cleaned c)).fileAt? location := by
          rw [Entry.cleaned?]
          split
          · rename_i hempty
            rw [hempty, fileAt?_empty, Option.bind_none]
          · rfl
        rw [Option.bind_some, Option.bind_some, hleft, ih hinside]
        cases location with
        | nil => simp [Entry.fileAt?, Entry.contents?]
        | cons m location =>
          have hlast : c.isCleanedAt (n :: m :: location) = c.isCleanedAt (m :: location) := rfl
          rw [hlast]

/-- What is left in a cleaned directory has a file in it. -/
theorem Directory.exists_file_of_cleaned {c : RunConfig} {d : Directory}
    (h : d.cleaned c ≠ .empty) :
    ∃ location contents, (Entry.dir (d.cleaned c)).fileAt? location = some contents := by
  induction d using cons_induction with
  | empty => exact absurd rfl h
  | cons name e rest ihInside ih =>
    rw [cleaned_cons] at h ⊢
    split
    · rename_i left hleft
      have hfirst (location : List String) :
          (Entry.dir (cons name left (rest.cleaned c))).fileAt? (name :: location) =
            left.fileAt? location := by
        rw [fileAt?_dir_cons, get?_cons, if_pos rfl, Option.bind_some]
      obtain ⟨contents, rfl, rfl⟩ | ⟨inside, rfl, hne, rfl⟩ := Entry.cleaned?_eq_some hleft
      · exact ⟨[name], contents, hfirst []⟩
      · obtain ⟨location, contents, hfile⟩ := ihInside inside rfl hne
        exact ⟨name :: location, contents, (hfirst location).trans hfile⟩
    · rename_i hleft
      rw [hleft] at h
      exact ih h

/-- A directory in a cleaned one is a cleaned one that is not empty. -/
theorem Directory.WellFormed.of_find?_cleaned {c : RunConfig} {d : Directory} (h : d.WellFormed)
    {location : List String} (hne : location ≠ []) {left : Directory}
    (hfind : (d.cleaned c).find? location = some (.dir left)) :
    ∃ inside, d.find? location = some (.dir inside) ∧ left = inside.cleaned c ∧ left ≠ .empty := by
  induction location generalizing d with
  | nil => exact absurd rfl hne
  | cons n location ih =>
    rw [find?_cons, h.get?_cleaned, Option.bind_eq_some_iff] at hfind
    obtain ⟨first, hfirst, hfind⟩ := hfind
    obtain ⟨e, he, hfirst⟩ := Option.bind_eq_some_iff.1 hfirst
    rw [find?_cons, he, Option.bind_some]
    obtain ⟨contents, rfl, rfl⟩ | ⟨inside, rfl, hleft, rfl⟩ := Entry.cleaned?_eq_some hfirst
    · cases location <;> cases hfind
    · rw [Entry.find?_dir] at hfind ⊢
      cases location with
      | nil =>
        cases hfind
        exact ⟨inside, rfl, rfl, hleft⟩
      | cons m location =>
        have hinside : inside.WellFormed := (h.of_mem (h.get?_eq_some_iff.1 he)).2
        exact ih hinside (List.cons_ne_nil _ _) hfind

-- ---------------------------------------------------------------------------
-- Steps
-- ---------------------------------------------------------------------------

variable {c : RunConfig} {out above : List String} {fs mid after : FileSystem}
  {path name : String} {d rest : Directory} {e : Entry} {count : Nat}

theorem cleanFile_eq_ok {location : List String}
    (h : cleanFile c path name location fs = .ok count after) :
    after = (if c.isCleaned name then fs.discard location else fs) ∧
      count = if c.isCleaned name then 1 else 0 := by
  rw [cleanFile] at h
  by_cases hcleaned : c.isCleaned name
  · simp only [hcleaned, if_true, Step.get_bind] at h ⊢
    cases hstat : fs.stat path with
    | error e => simp only [hstat] at h; cases h
    | ok entry =>
      simp only [hstat] at h
      cases h
      exact ⟨rfl, rfl⟩
  · rw [if_neg hcleaned] at h
    cases h
    simp [hcleaned]

theorem cleanDir_eq_ok {location : List String} {inside : Step Nat}
    (h : cleanDir path location inside fs = .ok count after) :
    ∃ mid entry, inside fs = .ok count mid ∧ mid.stat path = .ok entry ∧
      after = if entry.isEmptyDir then mid.discard location else mid := by
  rw [cleanDir, Step.get_bind] at h
  cases hstat : fs.stat path with
  | error e => simp only [hstat] at h; cases h
  | ok _ =>
    simp only [hstat] at h
    obtain ⟨n, mid, hinside, h⟩ := Step.bind_eq_ok.1 h
    rw [Step.get_bind] at h
    cases hstat' : mid.stat path with
    | error e => simp only [hstat'] at h; cases h
    | ok entry =>
      simp only [hstat'] at h
      by_cases hempty : entry.isEmptyDir
      · simp only [hempty, if_true] at h
        cases h
        exact ⟨_, entry, hinside, hstat', by rw [if_pos hempty]⟩
      · rw [if_neg hempty] at h
        cases h
        exact ⟨_, entry, hinside, hstat', by rw [if_neg hempty]⟩

/-- Whether a change leaves of the entries of `d` in the directory at `above` what cleaning leaves,
and of everything else what there was. -/
structure Cleans (c : RunConfig) (above : List String) (d : Directory)
    (before after : FileSystem) : Prop where
  cwd : after.cwd = before.cwd
  wellFormed : after.WellFormed
  listed : ∀ name e, d.get? name = some e → after.entry? (above ++ [name]) = e.cleaned? c name
  beside : ∀ location, (∀ name, (d.get? name).isSome → ¬ above ++ [name] <+: location) →
    SameBeside above before after location

theorem not_concat_prefix_self : ¬ above ++ [name] <+: above := fun h => by
  simpa using h.length_le

theorem concat_prefix_concat {n : String} : above ++ [n] <+: above ++ [name] ↔ n = name := by
  simp [List.prefix_append_right_inj, List.cons_prefix_cons]

namespace Cleans

theorem empty (hwf : fs.WellFormed) : Cleans c above .empty fs fs :=
  ⟨rfl, hwf, nofun, fun _ _ => .inl rfl⟩

theorem single (hcwd : after.cwd = fs.cwd) (hwf : after.WellFormed)
    (hentry : after.entry? (above ++ [name]) = e.cleaned? c name)
    (hbeside : ∀ location, ¬ above ++ [name] <+: location → SameBeside above fs after location) :
    Cleans c above (Directory.cons name e .empty) fs after where
  cwd := hcwd
  wellFormed := hwf
  listed n e' hget := by
    rw [Directory.get?_cons, Directory.get?_empty] at hget
    obtain ⟨rfl, heq⟩ := Option.ite_none_right_eq_some.1 hget
    rw [hentry, Option.some.inj heq]
  beside location h := hbeside location (h name (by simp [Directory.get?_cons]))

/-- Cleaning one entry and then the rest of a directory. -/
theorem cons (hd : (Directory.cons name e rest).WellFormed)
    (h : Cleans c above (Directory.cons name e .empty) fs mid)
    (h' : Cleans c above rest mid after) :
    Cleans c above (Directory.cons name e rest) fs after where
  cwd := h'.cwd.trans h.cwd
  wellFormed := h'.wellFormed
  listed n e' hget := by
    obtain ⟨-, hlt, -, -⟩ := Directory.wellFormed_cons.1 hd
    rw [Directory.get?_cons] at hget
    split at hget
    · rename_i hn
      subst hn
      have hnone : rest.get? name = none := Directory.get?_eq_none_iff.2 fun e he => (hlt e he).ne'
      have hbeside : SameBeside above mid after (above ++ [name]) :=
        h'.beside _ fun m hm hp => by simp [concat_prefix_concat.1 hp, hnone] at hm
      rw [hbeside.entry?_eq not_concat_prefix_self]
      exact h.listed name e' (by rw [Directory.get?_cons, if_pos rfl, hget])
    · exact h'.listed n e' hget
  beside location hbeside := by
    refine (h.beside location fun n hn => hbeside n ?_).trans
      (h'.beside location fun n hn => hbeside n ?_)
    · rw [Directory.get?_cons] at hn ⊢
      split
      · rfl
      · simp_all
    · rw [Directory.get?_cons]
      split
      · rfl
      · exact hn

/-- Cleaning one entry leaves the rest of a directory. -/
theorem entries_rest (hd : (Directory.cons name e rest).WellFormed)
    (h : Cleans c above (Directory.cons name e .empty) fs mid)
    (hentries : ∀ n e', (Directory.cons name e rest).get? n = some e' →
      fs.entry? (above ++ [n]) = some e') {n : String} {e' : Entry} (hget : rest.get? n = some e') :
    mid.entry? (above ++ [n]) = some e' := by
  obtain ⟨-, hlt, -, hrest⟩ := Directory.wellFormed_cons.1 hd
  have hne : name ≠ n := (hlt _ (hrest.get?_eq_some_iff.1 hget)).ne
  have hbeside : SameBeside above fs mid (above ++ [n]) := by
    refine h.beside _ fun m hm hp => ?_
    rw [concat_prefix_concat.1 hp, Directory.get?_cons, if_neg hne] at hm
    cases hm
  rw [hbeside.entry?_eq not_concat_prefix_self]
  exact hentries n e' (by rw [Directory.get?_cons, if_neg hne, hget])

/-- The directory that has been cleaned. -/
theorem entry_eq (h : Cleans c above d fs after) (hd : d.WellFormed)
    (hentry : fs.entry? above = some (.dir d)) :
    after.entry? above = some (.dir (d.cleaned c)) := by
  have habove : SameBeside above fs after above := h.beside _ fun _ _ => not_concat_prefix_self
  obtain ⟨left, hleft⟩ := habove.hasDir_iff.2 ⟨d, hentry⟩
  have hwf : left.WellFormed := Directory.WellFormed.find? h.wellFormed hleft
  rw [hleft, hwf.ext hd.cleaned fun name => ?_]
  rw [← entry?_concat hleft, hd.get?_cleaned]
  cases hget : d.get? name with
  | some e => exact h.listed name e hget
  | none =>
    have hbeside : SameBeside above fs after (above ++ [name]) :=
      h.beside _ fun m hm hp => by simp [concat_prefix_concat.1 hp, hget] at hm
    rw [hbeside.entry?_eq not_concat_prefix_self, entry?_concat hentry, hget, Option.bind_none]

end Cleans

theorem cleans_file {contents : Contents} (hwf : fs.WellFormed)
    (hentry : fs.entry? (above ++ [name]) = some (.file contents)) :
    Cleans c above (.file name contents .empty) fs
      (if c.isCleaned name then fs.discard (above ++ [name]) else fs) := by
  have habove : fs.HasDir above := hasDir_of_isSome (by rw [hentry, Option.isSome_some])
  refine @Cleans.single c above fs _ name (.file contents) ?_ ?_ ?_ fun location hbeside => ?_
  · split <;> rfl
  · split
    · exact hwf.discard
    · exact hwf
  · rw [Entry.cleaned?]
    split
    · exact entry?_discard hwf habove List.prefix_rfl
    · exact hentry
  · split
    · exact sameBeside_discard hbeside
    · exact .inl rfl

/-- A change below a directory is one below the directory above it. -/
theorem FileSystem.SameBeside.up {location : List String}
    (h : SameBeside (above ++ [name]) fs after location) (hp : ¬ above ++ [name] <+: location) :
    SameBeside above fs after location := by
  refine h.imp id fun ⟨hup, hdirs⟩ => ⟨?_, hdirs⟩
  rcases List.prefix_concat_iff.1 hup with rfl | hup
  · exact absurd List.prefix_rfl hp
  · exact hup

theorem cleans_dir {inside : Directory} (hinside : inside.WellFormed)
    (hentry : fs.entry? (above ++ [name]) = some (.dir inside))
    (h : Cleans c (above ++ [name]) inside fs mid) :
    Cleans c above (.sub name inside .empty) fs
      (if (Entry.dir (inside.cleaned c)).isEmptyDir then mid.discard (above ++ [name])
        else mid) := by
  have hleft := h.entry_eq hinside hentry
  have habove : mid.HasDir above := hasDir_of_isSome (by rw [hleft, Option.isSome_some])
  have hempty : (Entry.dir (inside.cleaned c)).isEmptyDir = true ↔ inside.cleaned c = .empty := by
    cases inside.cleaned c <;> simp [Entry.isEmptyDir, Directory.isEmpty]
  refine @Cleans.single c above fs _ name (.dir inside) ?_ ?_ ?_ fun location hbeside => ?_
  · split <;> exact h.cwd
  · split
    · exact h.wellFormed.discard
    · exact h.wellFormed
  · rw [Entry.cleaned?]
    simp only [hempty]
    split
    · exact entry?_discard h.wellFormed habove List.prefix_rfl
    · exact hleft
  · have hmid : SameBeside above fs mid location :=
      (h.beside location fun n _ hp => hbeside ((List.prefix_append _ _).trans hp)).up hbeside
    split
    · exact hmid.trans (sameBeside_discard hbeside)
    · exact hmid

-- ---------------------------------------------------------------------------
-- Whole directories
-- ---------------------------------------------------------------------------

theorem cleans_cleanBelow (hwf : fs.WellFormed) (hd : d.WellFormed)
    (hpath : fs.locationOf path = above)
    (hentries : ∀ name e, d.get? name = some e → fs.entry? (above ++ [name]) = some e)
    (h : cleanBelow c path above d fs = .ok count after) : Cleans c above d fs after := by
  induction d generalizing fs after path above count with
  | empty =>
    cases h
    exact .empty hwf
  | file name contents rest ih =>
    rw [cleanBelow] at h
    obtain ⟨_, mid, hcleaned, h⟩ := Step.bind_eq_ok.1 h
    obtain ⟨count', _, h, hpure⟩ := Step.bind_eq_ok.1 h
    cases hpure
    obtain ⟨rfl, -⟩ := cleanFile_eq_ok hcleaned
    have hentry : fs.entry? (above ++ [name]) = some (.file contents) :=
      hentries name _ (by rw [Directory.get?, if_pos rfl])
    have hmid := @cleans_file c above fs name contents hwf hentry
    have hrest (n : String) (e : Entry) :=
      @Cleans.entries_rest c above fs _ name rest (.file contents) hd hmid hentries n e
    exact @Cleans.cons c above fs _ _ name rest (.file contents) hd hmid
      (ih hmid.wellFormed hd.2.2 ((locationOf_congr hmid.cwd _).trans hpath) hrest h)
  | sub name inside rest ihInside ihRest =>
    have hcons : (Directory.cons name (.dir inside) rest).WellFormed := hd
    obtain ⟨hname, -, hinside, hrest⟩ := hd
    rw [cleanBelow] at h
    obtain ⟨_, mid', hcleaned, h⟩ := Step.bind_eq_ok.1 h
    obtain ⟨count', _, h, hpure⟩ := Step.bind_eq_ok.1 h
    cases hpure
    obtain ⟨mid, entry, hinner, hstat, rfl⟩ := cleanDir_eq_ok hcleaned
    have hentry : fs.entry? (above ++ [name]) = some (.dir inside) :=
      hentries name _ (by rw [Directory.get?, if_pos rfl])
    have hinner : Cleans c (above ++ [name]) inside fs mid :=
      ihInside hwf hinside (by rw [locationOf_join_name hname, hpath])
        (fun n e hget => by rw [entry?_concat hentry, hget]) hinner
    obtain rfl : entry = .dir (inside.cleaned c) := by
      have hleft := stat_eq_ok hstat
      rw [locationOf_join_name hname, locationOf_congr hinner.cwd, hpath,
        hinner.entry_eq hinside hentry] at hleft
      exact (Option.some.inj hleft).symm
    have hmid := cleans_dir hinside hentry hinner
    have hleft (n : String) (e : Entry) :=
      @Cleans.entries_rest c above fs _ name rest (.dir inside) hcons hmid hentries n e
    exact @Cleans.cons c above fs _ _ name rest (.dir inside) hcons hmid
      (ihRest hmid.wellFormed hrest ((locationOf_congr hmid.cwd _).trans hpath) hleft h)

-- ---------------------------------------------------------------------------
-- The output directory
-- ---------------------------------------------------------------------------

/-- The files after cleaning the directory at `out`. -/
def cleanedFiles (c : RunConfig) (out : List String) (files : List String → Option Contents)
    (location : List String) : Option Contents :=
  if out <+: location ∧ c.isCleanedAt (location.drop out.length) then none else files location

/-- Whether every directory below `out` has a file in it. -/
def FileSystem.Filled (fs : FileSystem) (out : List String) : Prop :=
  ∀ location, out <+: location → location ≠ out → fs.HasDir location →
    ∃ below contents, fs.fileAt? (location ++ below) = some contents

/-- What cleaning the directory at `out` does: the files to be cleaned are gone, no directory is new
and none below `out` is without a file. -/
structure Cleaned (c : RunConfig) (out : List String) (before after : FileSystem) : Prop extends
    Becomes out before after (cleanedFiles c out before.fileAt?) where
  filled : after.Filled out
  hasDir_of : ∀ location, after.HasDir location → before.HasDir location

theorem Cleans.outside (h : Cleans c out d fs after) {location : List String}
    (hout : out <+: location → location = out) : SameBeside out fs after location := by
  refine h.beside location fun name _ hp => ?_
  obtain rfl := hout ((List.prefix_append _ _).trans hp)
  exact not_concat_prefix_self hp

theorem Cleans.cleaned (h : Cleans c out d fs after) (hd : d.WellFormed)
    (hentry : fs.entry? out = some (.dir d)) : Cleaned c out fs after := by
  have hleft := h.entry_eq hd hentry
  -- a directory below `out` is one of the cleaned directory
  have hbelow {location : List String} (hp : out <+: location) (hne : location ≠ out)
      {left : Directory} (hdir : after.entry? location = some (.dir left)) :
      ∃ inside, fs.entry? location = some (.dir inside) ∧ left = inside.cleaned c ∧
        left ≠ .empty := by
    obtain ⟨below, rfl⟩ := hp
    have hbelow : below ≠ [] := by rintro rfl; simp at hne
    rw [entry?_append, hleft, Option.bind_some, Entry.find?_dir] at hdir
    rw [entry?_append, hentry, Option.bind_some, Entry.find?_dir]
    exact hd.of_find?_cleaned hbelow hdir
  refine ⟨⟨⟨h.cwd, ?apart, ?dirs, fun _ => h.wellFormed⟩, ?files⟩, ?filled, ?hasDir_of⟩
  case apart =>
    intro location hapart
    exact (h.outside fun hp => absurd hp hapart.2).entry?_eq hapart.1
  case dirs =>
    intro location hout hdir
    exact (h.outside hout).hasDir_iff.2 hdir
  case files =>
    funext location
    by_cases hp : out <+: location
    · obtain ⟨below, rfl⟩ := hp
      rw [cleanedFiles, List.drop_left, fileAt?_append, fileAt?_append, hleft, hentry,
        Option.bind_some, Option.bind_some, hd.fileAt?_cleaned]
      simp only [List.prefix_append, true_and]
    · rw [cleanedFiles, if_neg fun h => hp h.1, (h.outside fun h => absurd h hp).fileAt?]
  case filled =>
    rintro location hp hne ⟨left, hdir⟩
    obtain ⟨inside, -, rfl, hleft⟩ := hbelow hp hne hdir
    obtain ⟨below, contents, hfile⟩ := Directory.exists_file_of_cleaned hleft
    exact ⟨below, contents, by rw [fileAt?_append, hdir, Option.bind_some, hfile]⟩
  case hasDir_of =>
    rintro location ⟨left, hdir⟩
    by_cases hout : out <+: location ∧ location ≠ out
    · obtain ⟨inside, hinside, -⟩ := hbelow hout.1 hout.2 hdir
      exact ⟨inside, hinside⟩
    · exact (h.outside (by tauto)).hasDir_iff.1 ⟨left, hdir⟩

/-- Cleaning walks through the output directory, unless that is not there. -/
theorem cleanOutput_cases (hout : fs.locationOf c.outputDir = out)
    (h : cleanOutput c fs = .ok count after) :
    fs.isDir c.outputDir = true ∧ (∃ d, fs.entry? out = some (.dir d) ∧
        cleanBelow c c.outputDir out d fs = .ok count after) ∨
      fs.isDir c.outputDir = false ∧ after = fs := by
  rw [cleanOutput, Step.get_bind] at h
  rw [isDir]
  cases hdir : fs.directory? c.outputDir with
  | none =>
    refine .inr ⟨rfl, ?_⟩
    cases hlocate : fs.locate c.outputDir <;> simp only [hdir, hlocate] at h <;> cases h <;> rfl
  | some d =>
    refine .inl ⟨rfl, d, ?_⟩
    cases hlocate : fs.locate c.outputDir with
    | error e => simp [directory?, stat_eq, hlocate] at hdir
    | ok location =>
      obtain rfl := (reached_of_locate hlocate).eq.trans hout
      simp only [hlocate, hdir] at h
      exact ⟨hout ▸ directory?_eq_some hdir, h⟩

/-- Cleaning cleans the output directory, unless that is not there. -/
theorem cleanOutput_eq_ok (hwf : fs.WellFormed) (hout : fs.locationOf c.outputDir = out)
    (h : cleanOutput c fs = .ok count after) :
    fs.isDir c.outputDir = true ∧ Cleaned c out fs after ∨
      fs.isDir c.outputDir = false ∧ after = fs := by
  refine (cleanOutput_cases hout h).imp (And.imp id ?_) id
  rintro ⟨d, hentry, hbelow⟩
  have hd : d.WellFormed := Directory.WellFormed.find? hwf hentry
  have hcleans := cleans_cleanBelow hwf hd hout
    (fun name e hget => by rw [entry?_concat hentry, hget]) hbelow
  exact hcleans.cleaned hd hentry

end Typings
