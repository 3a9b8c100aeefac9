import Typings.Proofs.FileSystem.Following

/-!
# Changes below a directory

Making directories and writing, deleting and copying files below the location `out` changes nothing
that lies apart from `out`, and takes away no directory but those below `out`. What such a change
does to the files is said for each operation.
-/

namespace Typings.FileSystem

open Typings.Path

/-- Whether neither of two locations lies at or below the other. -/
def Apart (first second : List String) : Prop := ¬ first <+: second ∧ ¬ second <+: first

instance (first second : List String) : Decidable (Apart first second) :=
  inferInstanceAs (Decidable (¬ first <+: second ∧ ¬ second <+: first))

variable {out location above : List String} {fs mid after : FileSystem} {path : String}

theorem Apart.symm {first second : List String} (h : Apart first second) : Apart second first :=
  ⟨h.2, h.1⟩

theorem Apart.below (h : Apart location out) (below : List String) :
    Apart (location ++ below) out :=
  ⟨fun hp => h.1 ((List.prefix_append _ _).trans hp), fun hp =>
    (List.prefix_or_prefix_of_prefix hp (List.prefix_append location below)).elim h.2 h.1⟩

theorem Apart.not_prefix_of (h : Apart location out) {target : List String}
    (htarget : target <+: out ∨ out <+: target) : ¬ location <+: target := by
  intro hp
  rcases htarget with htarget | htarget
  · exact h.1 (hp.trans htarget)
  · exact (List.prefix_or_prefix_of_prefix hp htarget).elim h.1 h.2

-- ---------------------------------------------------------------------------
-- What is kept
-- ---------------------------------------------------------------------------

/-- Whether a change leaves everything apart from `out` as it is, and directories everywhere but
below `out`. -/
structure Keeps (out : List String) (before after : FileSystem) : Prop where
  cwd : after.cwd = before.cwd
  apart : ∀ location, Apart location out → after.entry? location = before.entry? location
  dirs : ∀ location, (out <+: location → location = out) → before.HasDir location →
    after.HasDir location
  wellFormed : before.WellFormed → after.WellFormed

namespace Keeps

theorem refl (out : List String) (fs : FileSystem) : Keeps out fs fs :=
  ⟨rfl, fun _ _ => rfl, fun _ _ h => h, id⟩

theorem trans (h : Keeps out fs mid) (h' : Keeps out mid after) : Keeps out fs after where
  cwd := h'.cwd.trans h.cwd
  apart location hapart := (h'.apart location hapart).trans (h.apart location hapart)
  dirs location hout hdir := h'.dirs location hout (h.dirs location hout hdir)
  wellFormed hwf := h'.wellFormed (h.wellFormed hwf)

/-- A change below a location is one below all those above it. -/
theorem of_below {inner : List String} (h : Keeps inner fs after) (hp : out <+: inner) :
    Keeps out fs after where
  cwd := h.cwd
  apart location hapart :=
    h.apart location ⟨hapart.not_prefix_of (.inr hp), fun hinner => hapart.2 (hp.trans hinner)⟩
  dirs location hout hdir := by
    refine h.dirs location (fun hinner => ?_) hdir
    obtain rfl := hout (hp.trans hinner)
    exact hp.eq_of_length_le hinner.length_le
  wellFormed := h.wellFormed

end Keeps

/-- Whether a change keeps what lies apart from `out` and gives the files of the tree. -/
structure Becomes (out : List String) (before after : FileSystem)
    (files : List String → Option Contents) : Prop extends Keeps out before after where
  files : after.fileAt? = files

theorem Keeps.becomes {files : List String → Option Contents} (h : Keeps out fs mid)
    (h' : Becomes out mid after files) : Becomes out fs after files :=
  ⟨h.trans h'.toKeeps, h'.files⟩

theorem becomes_refl (out : List String) (fs : FileSystem) : Becomes out fs fs fs.fileAt? :=
  ⟨.refl out fs, rfl⟩

-- ---------------------------------------------------------------------------
-- Setting an entry
-- ---------------------------------------------------------------------------

/-- Whether a change gives the files of the tree, keeps what lies apart from `out` and every
directory, and makes directories only on the way to `target`. -/
structure Places (out target : List String) (before after : FileSystem)
    (files : List String → Option Contents) : Prop extends Becomes out before after files where
  kept : ∀ location, before.HasDir location → after.HasDir location
  made : ∀ location, after.HasDir location → before.HasDir location ∨ location <+: target

namespace Places

variable {target : List String} {files files' : List String → Option Contents}

theorem refl (out target : List String) (fs : FileSystem) : Places out target fs fs fs.fileAt? :=
  ⟨becomes_refl out fs, fun _ h => h, fun _ h => .inl h⟩

theorem trans (h : Places out target fs mid files) (h' : Places out target mid after files') :
    Places out target fs after files' where
  toBecomes := h.toKeeps.becomes h'.toBecomes
  kept location hdir := h'.kept location (h.kept location hdir)
  made location hdir := (h'.made location hdir).elim (h.made location) .inr

theorem of_below {above : List String} (h : Places out above fs after files)
    (hp : above <+: target) : Places out target fs after files where
  toBecomes := h.toBecomes
  kept := h.kept
  made location hdir := (h.made location hdir).imp id (·.trans hp)

end Places

/-- An entry with nothing in it is set where there is no directory. -/
theorem places_store {name : String} {e : Entry} (hname : IsName name) (he : e.WellFormed)
    (hleaf : ∀ n below, e.find? (n :: below) = none) (habove : fs.HasDir above)
    (hnodir : ¬ fs.HasDir (above ++ [name]))
    (hout : above ++ [name] <+: out ∨ out <+: above ++ [name]) :
    Places out (above ++ [name]) fs (fs.store (above ++ [name]) e)
      fun location => if location = above ++ [name] then e.contents? else fs.fileAt? location := by
  have hsame (location : List String) (h : ¬ above ++ [name] <+: location) :=
    @sameBeside_store fs above location name e h
  have hafter (n : String) (below : List String) :
      entry? (fs.store (above ++ [name]) e) (above ++ [name] ++ n :: below) = none := by
    rw [entry?_store habove, hleaf]
  have hbefore (n : String) (below : List String) :
      fs.entry? (above ++ [name] ++ n :: below) = none :=
    entry?_of_not_hasDir hnodir (List.prefix_append _ _) (by simp)
  have hkept (location : List String) (hdir : fs.HasDir location) :
      HasDir (fs.store (above ++ [name]) e) location :=
    (hsame location fun hp => hnodir (hdir.of_below hp)).hasDir_iff.2 hdir
  refine ⟨⟨⟨rfl, fun location hapart => ?_, fun location _ => hkept location,
    fun h => h.store hname he⟩, funext fun location => ?_⟩, hkept, fun location hdir => ?_⟩
  · by_cases hp : above ++ [name] <+: location
    · obtain ⟨below, rfl⟩ := hp
      cases below with
      | nil => exact absurd List.prefix_rfl (List.append_nil _ ▸ hapart.not_prefix_of hout)
      | cons n below => rw [hbefore, hafter]
    · refine (hsame location hp).entry?_eq fun hp => hapart.not_prefix_of hout ?_
      exact hp.trans (List.prefix_append _ _)
  · by_cases hp : above ++ [name] <+: location
    · obtain ⟨below, rfl⟩ := hp
      cases below with
      | nil => rw [fileAt?, entry?_store habove, Entry.find?_nil, if_pos (by simp)]; rfl
      | cons n below => rw [fileAt?, fileAt?, hbefore, hafter, if_neg (by simp)]
    · have hloc : location ≠ above ++ [name] := by
        rintro rfl
        exact hp List.prefix_rfl
      rw [if_neg hloc, (hsame location hp).fileAt?]
  · by_cases hp : above ++ [name] <+: location
    · obtain ⟨below, rfl⟩ := hp
      cases below with
      | nil => exact .inr (by simp)
      | cons n below =>
        obtain ⟨d, hd⟩ := hdir
        rw [hafter] at hd
        cases hd
    · exact .inl ((hsame location hp).hasDir_iff.1 hdir)

-- ---------------------------------------------------------------------------
-- Making directories
-- ---------------------------------------------------------------------------

/-- Whether a path steps up only out of directories that are there and not below `out`. -/
def Steady (fs : FileSystem) (out : List String) (path : String) : Prop :=
  ∀ exit ∈ fs.exitsOf path, fs.HasDir exit ∧ (out <+: exit → exit = out)

instance (fs : FileSystem) (out : List String) (path : String) : Decidable (fs.Steady out path) :=
  inferInstanceAs (Decidable
    (∀ exit ∈ fs.exitsOf path, fs.HasDir exit ∧ (out <+: exit → exit = out)))

theorem Steady.of_keeps (h : fs.Steady out path) (hkeeps : Keeps out fs after) :
    after.Steady out path := by
  intro exit hexit
  rw [exitsOf_congr hkeeps.cwd] at hexit
  obtain ⟨hdir, hout⟩ := h exit hexit
  exact ⟨hkeeps.dirs exit hout hdir, hout⟩

/-- Whether a path, perhaps with more steps, leads to a location at or below `out`, and steps up
only out of directories that are there and not below `out`. -/
structure Towards (fs : FileSystem) (out : List String) (path : String) (target : List String) :
    Prop where
  below : out <+: target
  leads : ∃ more : List Component, resolve (fs.start path) (steps path ++ more) = target ∧
    ∀ exit ∈ exits (fs.start path) (steps path ++ more),
      fs.HasDir exit ∧ (out <+: exit → exit = out)

variable {target : List String}

namespace Towards

theorem of_steady (h : fs.Steady out path) (hout : out <+: fs.locationOf path) :
    fs.Towards out path (fs.locationOf path) :=
  ⟨hout, [], by rw [List.append_nil, locationOf], by rwa [List.append_nil]⟩

theorem of_keeps (h : fs.Towards out path target) (hkeeps : Keeps out fs after) :
    after.Towards out path target := by
  obtain ⟨hbelow, more, htarget, hexits⟩ := h
  refine ⟨hbelow, more, by rwa [start_congr hkeeps.cwd], fun exit hexit => ?_⟩
  rw [start_congr hkeeps.cwd] at hexit
  obtain ⟨hdir, hout⟩ := hexits exit hexit
  exact ⟨hkeeps.dirs exit hout hdir, hout⟩

theorem parent {holder : String} (h : fs.Towards out path target)
    (hparent : parent? path = some holder) : fs.Towards out holder target := by
  obtain ⟨hbelow, more, htarget, hexits⟩ := h
  obtain ⟨habs, last, hlast⟩ := parent?_eq_some hparent
  have hstart : fs.start holder = fs.start path := by rw [start, start, habs]
  refine ⟨hbelow, last ++ more, ?_, ?_⟩ <;> rw [hstart, ← List.append_assoc, hlast]
  · exact htarget
  · exact hexits

/-- What is missing on the way is not something to step up out of. -/
theorem of_missing (h : fs.Towards out path target)
    (hnone : fs.entry? (fs.locationOf path) = none) : fs.locationOf path <+: target := by
  obtain ⟨-, more, rfl, hexits⟩ := h
  rw [exits_append] at hexits
  rw [resolve_append]
  rcases prefix_resolve_or_exits (fs.locationOf path) more with hp | ⟨exit, hmem, hp⟩
  · exact hp
  · obtain ⟨d, hd⟩ := (hexits exit (List.mem_append_right _ hmem)).1.of_below hp
    rw [hnone] at hd
    cases hd

end Towards

/-- A directory is made where there is nothing, in one that is there. -/
theorem makeDir_eq_ok (h : fs.makeDir path = .ok after) :
    ∃ above name, fs.locationOf path = above ++ [name] ∧ IsName name ∧ fs.HasDir above ∧
      fs.entry? (above ++ [name]) = none ∧ after = fs.store (above ++ [name]) (.dir .empty) := by
  rw [makeDir] at h
  cases hlocate : fs.locateDir path with
  | error e => rw [hlocate] at h; cases h
  | ok location =>
    rw [hlocate] at h
    dsimp only [bind, Except.bind] at h
    split at h
    · cases h
    · rename_i hnone
      obtain ⟨heq, hheld⟩ := reached_of_locateDir hlocate
      rcases hheld with ⟨d, hd⟩ | ⟨above, name, rfl, hname, habove⟩
      · rw [hd] at hnone; cases hnone
      · exact ⟨above, name, heq.symm, hname, habove, hnone, (Except.ok.inj h).symm⟩

/-- Setting an empty directory where there is nothing. -/
theorem places_emptyDir {name : String} (hname : IsName name) (habove : fs.HasDir above)
    (hnone : fs.entry? (above ++ [name]) = none)
    (hout : above ++ [name] <+: out ∨ out <+: above ++ [name]) :
    Places out (above ++ [name]) fs (fs.store (above ++ [name]) (.dir .empty)) fs.fileAt? := by
  have hnodir : ¬ fs.HasDir (above ++ [name]) := by
    rintro ⟨d, hd⟩
    rw [hnone] at hd
    cases hd
  have hplaces := @places_store out above fs name (.dir .empty) hname trivial
    (fun _ _ => by rw [Entry.find?_dir, Directory.find?_cons]; rfl) habove hnodir hout
  convert hplaces using 1
  funext location
  split
  · rename_i hloc
    rw [hloc, fileAt?, hnone]
    rfl
  · rfl

theorem places_makeDir (h : fs.Towards out path target) (hmake : fs.makeDir path = .ok after) :
    Places out target fs after fs.fileAt? := by
  obtain ⟨above, name, heq, hname, habove, hnone, rfl⟩ := makeDir_eq_ok hmake
  have hway : above ++ [name] <+: target := heq ▸ h.of_missing (heq ▸ hnone)
  exact (places_emptyDir hname habove hnone
    (List.prefix_or_prefix_of_prefix hway h.below)).of_below hway

section Relation

variable {R : FileSystem → FileSystem → Prop} {Q : FileSystem → String → Prop}
  (hrefl : ∀ fs, R fs fs)
  (hmake : ∀ {fs path after}, Q fs path → fs.makeDir path = .ok after → R fs after)

include hrefl hmake

theorem rel_ensureDir (h : Q fs path) : R fs (fs.ensureDir path).1 := by
  rw [ensureDir]
  split
  · rename_i hmade
    exact hmake h hmade
  · exact hrefl fs

/-- What making one directory does, making directories does, if the directories above can be made
too, and a directory can still be made when those above it are there. -/
theorem rel_ensureDirs (htrans : ∀ {fs mid after}, R fs mid → R mid after → R fs after)
    (hparent : ∀ {fs path holder}, Q fs path → parent? path = some holder → Q fs holder)
    (hlater : ∀ {fs path mid}, Q fs path → R fs mid → Q mid path) (fuel : Nat) (h : Q fs path) :
    R fs (ensureDirs fuel fs path).1 := by
  induction fuel generalizing path with
  | zero => exact hrefl fs
  | succ fuel ih =>
    rw [ensureDirs]
    split
    · exact hrefl fs
    · split
      · split
        · exact hrefl fs
        · rename_i hholder
          have habove := ih (hparent h hholder)
          split
          · rename_i hresult
            rwa [hresult] at habove
          · rename_i hresult
            rw [hresult] at habove
            exact htrans habove (rel_ensureDir hrefl hmake (hlater h habove))
      · exact rel_ensureDir hrefl hmake h

end Relation

theorem places_makeDirs (h : fs.Towards out path target) :
    Places out target fs (fs.makeDirs path).1 fs.fileAt? := by
  refine rel_ensureDirs (R := fun fs after => Places out target fs after fs.fileAt?)
    (Q := fun fs path => fs.Towards out path target) (.refl out target) places_makeDir
    (fun hfirst hrest => ?_) Towards.parent (fun htowards hmade => htowards.of_keeps hmade.toKeeps)
    _ h
  rw [hfirst.files] at hrest
  exact hfirst.trans hrest

theorem followable_of_ensureDir {failure : Option OsError}
    (h : fs.ensureDir path = (after, failure)) (hnone : failure = none) : Followable path := by
  rw [ensureDir] at h
  split at h
  · rename_i hmake
    rw [makeDir] at hmake
    cases hlocate : fs.locateDir path with
    | error e => rw [hlocate] at hmake; cases hmake
    | ok location => exact followable_of_locateDir hlocate
  · cases h
    split at hnone
    · rename_i hdir
      rw [isDir, directory?, stat_eq] at hdir
      cases hlocate : fs.locate path with
      | error e => simp [hlocate] at hdir
      | ok location => exact followable_of_locate hlocate
    · cases hnone

/-- A directory that was made, with those above it, has a path that can be followed. -/
theorem followable_of_makeDirs (hne : path ≠ "") (h : fs.makeDirs path = (after, none)) :
    Followable path := by
  rw [makeDirs, ensureDirs, if_neg hne] at h
  split at h
  · split at h
    · cases h
    · split at h
      · cases h
      · exact followable_of_ensureDir h rfl
  · exact followable_of_ensureDir h rfl

-- ---------------------------------------------------------------------------
-- Files
-- ---------------------------------------------------------------------------

/-- The files with one more, or another one, at a location. -/
def withFile (files : List String → Option Contents) (location : List String)
    (contents : Contents) (other : List String) : Option Contents :=
  if other = location then some contents else files other

/-- A file is written where there is no directory, in one that is there. -/
theorem write_eq_ok {contents : Contents} (h : fs.write path contents = .ok after) :
    ∃ above name, fs.locationOf path = above ++ [name] ∧ IsName name ∧ fs.HasDir above ∧
      ¬ fs.HasDir (above ++ [name]) ∧ after = fs.store (above ++ [name]) (.file contents) := by
  rw [write] at h
  cases hlocate : fs.locateFile path with
  | error e => rw [hlocate] at h; cases h
  | ok location =>
    rw [hlocate] at h
    dsimp only [bind, Except.bind] at h
    obtain ⟨heq, hheld⟩ := reached_of_locateFile hlocate
    split at h
    · cases h
    · rename_i hnodir
      rcases hheld with ⟨d, hd⟩ | ⟨above, name, rfl, hname, habove⟩
      · exact absurd hd (hnodir d)
      · exact ⟨above, name, heq.symm, hname, habove, fun ⟨d, hd⟩ => hnodir d hd,
          (Except.ok.inj h).symm⟩

theorem places_write {contents : Contents} (hout : out <+: fs.locationOf path)
    (h : fs.write path contents = .ok after) :
    Places out (fs.locationOf path) fs after
      (withFile fs.fileAt? (fs.locationOf path) contents) := by
  obtain ⟨above, name, heq, hname, habove, hnodir, rfl⟩ := write_eq_ok h
  rw [heq] at hout ⊢
  exact places_store hname trivial (fun _ _ => rfl) habove hnodir (.inr hout)

/-- The files without those at and below a location. -/
def withoutFiles (files : List String → Option Contents) (location other : List String) :
    Option Contents :=
  if location <+: other then none else files other

theorem becomes_discard {name : String} (hwf : fs.WellFormed)
    (hsome : (fs.entry? (above ++ [name])).isSome) (hout : out <+: above) :
    Becomes out fs (fs.discard (above ++ [name])) (withoutFiles fs.fileAt? (above ++ [name])) := by
  have habove : fs.HasDir above := hasDir_of_isSome hsome
  have hsame (location : List String) (h : ¬ above ++ [name] <+: location) :=
    @sameBeside_discard fs above location name h
  have hbelow : out <+: above ++ [name] := hout.trans (List.prefix_append _ _)
  refine ⟨⟨rfl, fun location hapart => ?_, fun location hloc hdir => ?_, fun h => h.discard⟩,
    funext fun location => ?_⟩
  · exact (hsame location fun hp => hapart.2 (hbelow.trans hp)).entry?_eq
      (hapart.not_prefix_of (.inr hout))
  · refine (hsame location fun hp => ?_).hasDir_iff.2 hdir
    obtain rfl := hloc (hbelow.trans hp)
    simpa using (hp.trans hout).length_le
  · rw [withoutFiles]
    split
    · rename_i hp
      rw [fileAt?, entry?_discard hwf habove hp, Option.bind_none]
    · rename_i hp
      exact (hsame location hp).fileAt?

end Typings.FileSystem
