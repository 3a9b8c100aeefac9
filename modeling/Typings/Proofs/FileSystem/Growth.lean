import Typings.Proofs.FileSystem.Changes

/-!
# Growing file trees

Making directories and writing files takes no directory away. So a path that could be followed
before can be followed after, and what has been written at a path is read there until something is
written over it.
-/

namespace Typings.FileSystem

open Typings.Path

variable {out target location : List String} {fs mid after : FileSystem} {path : String}
  {contents : Contents} {files files' : List String → Option Contents}

/-- Whether a change takes no directory away, and gives the files of the tree. -/
structure Grows (before after : FileSystem) (files : List String → Option Contents) : Prop where
  cwd : after.cwd = before.cwd
  wellFormed : before.WellFormed → after.WellFormed
  dirs : ∀ location, before.HasDir location → after.HasDir location
  files : after.fileAt? = files

namespace Grows

theorem refl (fs : FileSystem) : Grows fs fs fs.fileAt? := ⟨rfl, id, fun _ h => h, rfl⟩

theorem trans (h : Grows fs mid files) (h' : Grows mid after files') : Grows fs after files' where
  cwd := h'.cwd.trans h.cwd
  wellFormed hwf := h'.wellFormed (h.wellFormed hwf)
  dirs location hdir := h'.dirs location (h.dirs location hdir)
  files := h'.files

end Grows

theorem Places.grows (h : Places out target fs after files) : Grows fs after files :=
  ⟨h.cwd, h.wellFormed, h.kept, h.files⟩

-- ---------------------------------------------------------------------------
-- Operations
-- ---------------------------------------------------------------------------

theorem grows_makeDir (h : fs.makeDir path = .ok after) : Grows fs after fs.fileAt? := by
  obtain ⟨above, name, -, hname, habove, hnone, rfl⟩ := makeDir_eq_ok h
  exact (places_emptyDir hname habove hnone (.inl List.prefix_rfl)).grows

theorem grows_ensureDir (fs : FileSystem) (path : String) :
    Grows fs (fs.ensureDir path).1 fs.fileAt? :=
  rel_ensureDir (R := fun fs after => Grows fs after fs.fileAt?) (Q := fun _ _ => True) .refl
    (fun _ => grows_makeDir) trivial

theorem grows_ensureDirs (fuel : Nat) (fs : FileSystem) (path : String) :
    Grows fs (ensureDirs fuel fs path).1 fs.fileAt? := by
  refine rel_ensureDirs (R := fun fs after => Grows fs after fs.fileAt?) (Q := fun _ _ => True)
    .refl (fun _ => grows_makeDir) (fun hfirst hrest => ?_) (fun _ _ => trivial)
    (fun _ _ => trivial) fuel trivial
  rw [hfirst.files] at hrest
  exact hfirst.trans hrest

theorem grows_makeDirs (fs : FileSystem) (path : String) :
    Grows fs (fs.makeDirs path).1 fs.fileAt? :=
  grows_ensureDirs _ fs path

theorem grows_write (h : fs.write path contents = .ok after) :
    Grows fs after (withFile fs.fileAt? (fs.locationOf path) contents) :=
  (places_write List.prefix_rfl h).grows

-- ---------------------------------------------------------------------------
-- Following paths in a grown tree
-- ---------------------------------------------------------------------------

theorem walkFrom_mono (hdirs : ∀ location, fs.HasDir location → after.HasDir location)
    {here : List String} {segments : List Text} (h : fs.walkFrom here segments = .ok location) :
    after.walkFrom here segments = .ok location := by
  induction segments generalizing here with
  | nil => rwa [walkFrom_nil] at h ⊢
  | cons segment segments ih =>
    obtain ⟨hdir, hfits, h⟩ := walkFrom_cons_eq_ok.1 h
    exact walkFrom_cons_eq_ok.2 ⟨hdirs here hdir, hfits, ih h⟩

theorem Grows.locate (h : Grows fs after files) (hlocate : fs.locate path = .ok location) :
    after.locate path = .ok location := by
  obtain ⟨hcheck, hwalk⟩ := ok_of_checkPath hlocate
  rw [FileSystem.locate, hcheck, follow_eq, start_congr h.cwd]
  exact walkFrom_mono h.dirs hwalk

theorem locate_of_write (h : fs.write path contents = .ok after) :
    fs.locate path = .ok (fs.locationOf path) := by
  rw [write] at h
  cases hlocate : fs.locateFile path with
  | error e => rw [hlocate] at h; cases h
  | ok location =>
    obtain rfl := (reached_of_locateFile hlocate).eq
    obtain ⟨hcheck, hfollow⟩ := ok_of_checkPath hlocate
    dsimp only at hfollow
    split at hfollow
    · rename_i htrim
      rw [← htrim] at hfollow
      rw [locate, hcheck]
      exact hfollow
    · cases hslash : fs.follow path ((segments (trimSlashes path)).dropLast ++ [[]]) <;>
        rw [hslash] at hfollow <;> cases hfollow

theorem read_eq_ok_iff :
    fs.read path = .ok contents ↔
      fs.locate path = .ok (fs.locationOf path) ∧
        fs.fileAt? (fs.locationOf path) = some contents := by
  rw [FileSystem.read, stat_eq]
  cases hlocate : fs.locate path with
  | error e => simp [bind, Except.bind]
  | ok location =>
    obtain rfl := (reached_of_locate hlocate).eq
    rw [fileAt?]
    dsimp only
    rcases fs.entry? (fs.locationOf path) with _ | held | d
    · simp [bind, Except.bind]
    · simp [bind, Except.bind, pure, Except.pure, Entry.contents?]
    · simp [bind, Except.bind, throw, throwThe, MonadExceptOf.throw, Entry.contents?]

/-- What is read in a grown tree. -/
theorem Grows.read (h : Grows fs after files) (hlocate : fs.locate path = .ok (fs.locationOf path))
    (hfile : files (fs.locationOf path) = some contents) : after.read path = .ok contents := by
  rw [read_eq_ok_iff, locationOf_congr h.cwd, h.files]
  exact ⟨h.locate hlocate, hfile⟩

theorem read_of_write (h : fs.write path contents = .ok after) :
    after.read path = .ok contents :=
  (grows_write h).read (locate_of_write h) (if_pos rfl)

/-- What is at a path is read until something else is written there. -/
theorem read_of_write_of_read {other : String} {written : Contents}
    (h : fs.write other written = .ok after) (hread : fs.read path = .ok contents)
    (hsame : fs.locationOf other = fs.locationOf path → written = contents) :
    after.read path = .ok contents := by
  obtain ⟨hlocate, hfile⟩ := read_eq_ok_iff.1 hread
  refine (grows_write h).read hlocate ?_
  rw [withFile]
  split
  · rename_i heq
    rw [hsame heq.symm]
  · exact hfile

-- ---------------------------------------------------------------------------
-- The way to a directory that was made
-- ---------------------------------------------------------------------------

theorem hasDir_exits_of_ensureDir (h : fs.ensureDir path = (after, none)) :
    ∀ exit ∈ fs.exitsOf path, after.HasDir exit := by
  intro exit hexit
  have hgrows := grows_ensureDir fs path
  rw [h] at hgrows
  refine hgrows.dirs exit ?_
  rw [ensureDir] at h
  split at h
  · rename_i hmake
    rw [makeDir] at hmake
    cases hlocate : fs.locateDir path with
    | error e => rw [hlocate] at hmake; cases hmake
    | ok location =>
      have hwalk := (ok_of_checkPath hlocate).2
      refine hasDir_exits_of_walkFrom hwalk exit ?_
      rwa [exitsOf, ← steps_trimSlashes] at hexit
  · split at h
    · rename_i hdir
      obtain ⟨d, hd⟩ := Option.isSome_iff_exists.1 hdir
      exact hasDir_exits_of_stat (stat_of_directory? hd) exit hexit
    · cases h

/-- The path of a directory that was made, with those above it, leads out of directories only. -/
theorem hasDir_exits_of_makeDirs (hne : path ≠ "") (h : fs.makeDirs path = (after, none)) :
    ∀ exit ∈ fs.exitsOf path, after.HasDir exit := by
  rw [makeDirs, ensureDirs, if_neg hne] at h
  split at h
  · split at h
    · cases h
    · rename_i holder _
      have hholder := grows_ensureDirs path.length fs holder
      split at h
      · cases h
      · rename_i mid hresult
        rw [hresult] at hholder
        rw [← exitsOf_congr hholder.cwd]
        exact hasDir_exits_of_ensureDir h
  · exact hasDir_exits_of_ensureDir h

end Typings.FileSystem
