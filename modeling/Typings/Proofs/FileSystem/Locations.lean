import Mathlib.Data.List.Infix
import Mathlib.Data.List.Nodup
import Mathlib.Data.String.Basic
import Typings.FileSystem.Basic

/-!
# Entries and locations

What stands at each location of a file tree, and how setting and removing an entry change that.
Trees are well-formed: the names in a directory are in order, so no name is there twice, and each of
them can be a segment of a path.
-/

namespace Typings

-- ---------------------------------------------------------------------------
-- Directories as lists of entries
-- ---------------------------------------------------------------------------

namespace Directory

/-- Induction with one case for an entry of either kind. -/
theorem cons_induction {P : Directory → Prop} (empty : P .empty)
    (cons : ∀ name entry rest, (∀ inside, entry = .dir inside → P inside) → P rest →
      P (cons name entry rest)) : ∀ d, P d
  | .empty => empty
  | .file name contents rest =>
    cons name (.file contents) rest nofun (cons_induction empty cons rest)
  | .sub name inside rest =>
    cons name (.dir inside) rest (fun _ h => Entry.dir.inj h ▸ cons_induction empty cons inside)
      (cons_induction empty cons rest)

variable {name n : String} {e : Entry} {d : Directory}

@[simp] theorem get?_empty : empty.get? name = none := rfl

theorem get?_cons : (cons n e d).get? name = if n = name then some e else d.get? name := by
  cases e <;> rfl

theorem put_cons (entry : Entry) :
    (cons n e d).put name entry =
      if n = name then cons name entry d
      else if name < n then cons name entry (cons n e d)
      else cons n e (d.put name entry) := by
  cases e <;> rfl

theorem erase_cons : (cons n e d).erase name = if n = name then d else cons n e (d.erase name) := by
  cases e <;> rfl

@[simp] theorem entries_cons : (cons n e d).entries = (n, e) :: d.entries := by cases e <;> rfl

end Directory

/-- All files at and below an entry: the names on the way to each, and its contents. -/
def Entry.files : Entry → List (List String × Contents)
  | .file contents => [([], contents)]
  | .dir d => d.files

theorem Directory.files_cons {n : String} {e : Entry} {d : Directory} :
    (cons n e d).files =
      e.files.map (fun (names, contents) => (n :: names, contents)) ++ d.files := by
  cases e <;> rfl

-- ---------------------------------------------------------------------------
-- Well-formed trees
-- ---------------------------------------------------------------------------

/-- Whether a text can be the name of an entry. -/
def IsName (name : String) : Prop := name ≠ "" ∧ name ≠ "." ∧ name ≠ ".." ∧ '/' ∉ name.toList

instance (name : String) : Decidable (IsName name) := by
  unfold IsName
  infer_instance

namespace Directory

/-- Whether the names in a directory, and in those below it, are names in order. -/
def WellFormed : Directory → Prop
  | .empty => True
  | .file name _ rest => IsName name ∧ (∀ e ∈ rest.entries, name < e.1) ∧ rest.WellFormed
  | .sub name inside rest =>
    IsName name ∧ (∀ e ∈ rest.entries, name < e.1) ∧ inside.WellFormed ∧ rest.WellFormed

instance decidableWellFormed : (d : Directory) → Decidable d.WellFormed
  | .empty => .isTrue trivial
  | .file name _ rest =>
    have := decidableWellFormed rest
    inferInstanceAs (Decidable (IsName name ∧ (∀ e ∈ rest.entries, name < e.1) ∧ rest.WellFormed))
  | .sub name inside rest =>
    have := decidableWellFormed inside
    have := decidableWellFormed rest
    inferInstanceAs (Decidable
      (IsName name ∧ (∀ e ∈ rest.entries, name < e.1) ∧ inside.WellFormed ∧ rest.WellFormed))

end Directory

def Entry.WellFormed : Entry → Prop
  | .file _ => True
  | .dir d => d.WellFormed

namespace Directory

variable {name n : String} {e entry : Entry} {d : Directory}

theorem wellFormed_cons :
    (cons n e d).WellFormed ↔
      IsName n ∧ (∀ entry ∈ d.entries, n < entry.1) ∧ e.WellFormed ∧ d.WellFormed := by
  cases e with
  | file contents => exact ⟨fun h => ⟨h.1, h.2.1, trivial, h.2.2⟩, fun h => ⟨h.1, h.2.1, h.2.2.2⟩⟩
  | dir inside => exact Iff.rfl

theorem get?_eq_none_iff : d.get? name = none ↔ ∀ entry ∈ d.entries, entry.1 ≠ name := by
  induction d using cons_induction with
  | empty => simp [entries]
  | cons n e rest _ ih =>
    rw [get?_cons, entries_cons, List.forall_mem_cons, ← ih]
    by_cases h : n = name <;> simp [h]

theorem WellFormed.get?_eq_some_iff (h : d.WellFormed) :
    d.get? name = some e ↔ (name, e) ∈ d.entries := by
  induction d using cons_induction with
  | empty => simp [entries]
  | cons n entry rest _ ih =>
    obtain ⟨-, hlt, -, hrest⟩ := wellFormed_cons.1 h
    rw [get?_cons, entries_cons, List.mem_cons, ← ih hrest]
    by_cases hn : n = name
    · subst hn
      have hnone : rest.get? n = none := get?_eq_none_iff.2 fun e he => (hlt e he).ne'
      simp [hnone, eq_comm]
    · simp [hn, Ne.symm hn]

theorem WellFormed.of_mem (h : d.WellFormed) (hmem : (name, e) ∈ d.entries) :
    IsName name ∧ e.WellFormed := by
  induction d using cons_induction with
  | empty => simp [entries] at hmem
  | cons n entry rest _ ih =>
    obtain ⟨hname, -, hentry, hrest⟩ := wellFormed_cons.1 h
    rw [entries_cons, List.mem_cons] at hmem
    rcases hmem with heq | hmem
    · obtain ⟨rfl, rfl⟩ := Prod.mk.inj heq
      exact ⟨hname, hentry⟩
    · exact ih hrest hmem

theorem get?_put : (d.put name entry).get? n = if n = name then some entry else d.get? n := by
  induction d using cons_induction with
  | empty => simp [put, get?_cons, eq_comm]
  | cons m e rest _ ih => grind [put_cons, get?_cons]

theorem get?_erase_of_ne (h : n ≠ name) : (d.erase name).get? n = d.get? n := by
  induction d using cons_induction with
  | empty => rfl
  | cons m e rest _ ih => grind [erase_cons, get?_cons]

theorem WellFormed.get?_erase_self (h : d.WellFormed) : (d.erase name).get? name = none := by
  induction d using cons_induction with
  | empty => rfl
  | cons m e rest _ ih =>
    obtain ⟨-, hlt, -, hrest⟩ := wellFormed_cons.1 h
    rw [erase_cons]
    split
    · subst m
      exact get?_eq_none_iff.2 fun e he => (hlt e he).ne'
    · rename_i hne
      rw [get?_cons, if_neg hne, ih hrest]

theorem mem_entries_put {x : String × Entry} (h : x ∈ (d.put name entry).entries) :
    x.1 = name ∨ x ∈ d.entries := by
  induction d using cons_induction with
  | empty => exact .inl (by simp [put, entries] at h; rw [h])
  | cons m e rest _ ih => grind [put_cons, entries_cons]

theorem mem_entries_of_erase {x : String × Entry} (h : x ∈ (d.erase name).entries) :
    x ∈ d.entries := by
  induction d using cons_induction with
  | empty => exact h
  | cons m e rest _ ih => grind [erase_cons, entries_cons]

theorem WellFormed.put (h : d.WellFormed) (hname : IsName name) (hentry : entry.WellFormed) :
    (d.put name entry).WellFormed := by
  induction d using cons_induction with
  | empty => exact wellFormed_cons.2 ⟨hname, by simp [entries], hentry, trivial⟩
  | cons m e rest _ ih =>
    have hcons := h
    obtain ⟨hm, hlt, he, hrest⟩ := wellFormed_cons.1 h
    rw [put_cons]
    split
    · subst m
      exact wellFormed_cons.2 ⟨hname, hlt, hentry, hrest⟩
    · rename_i hne
      split
      · rename_i hbefore
        refine wellFormed_cons.2 ⟨hname, ?_, hentry, hcons⟩
        rw [entries_cons, List.forall_mem_cons]
        exact ⟨hbefore, fun x hx => hbefore.trans (hlt x hx)⟩
      · rename_i hbefore
        refine wellFormed_cons.2 ⟨hm, fun x hx => ?_, he, ih hrest⟩
        rcases mem_entries_put hx with hx | hx
        · exact hx ▸ (lt_or_gt_of_ne hne).resolve_right hbefore
        · exact hlt x hx

theorem WellFormed.erase (h : d.WellFormed) : (d.erase name).WellFormed := by
  induction d using cons_induction with
  | empty => exact h
  | cons m e rest _ ih =>
    obtain ⟨hm, hlt, he, hrest⟩ := wellFormed_cons.1 h
    rw [erase_cons]
    split
    · exact hrest
    · exact wellFormed_cons.2 ⟨hm, fun x hx => hlt x (mem_entries_of_erase hx), he, ih hrest⟩

theorem WellFormed.get?_eq_none_of_lt (h : (cons n e d).WellFormed) (hlt : name < n) :
    (cons n e d).get? name = none := by
  obtain ⟨-, hrest, -, -⟩ := wellFormed_cons.1 h
  rw [get?_eq_none_iff, entries_cons, List.forall_mem_cons]
  exact ⟨hlt.ne', fun entry hentry => (hlt.trans (hrest entry hentry)).ne'⟩

/-- Directories with equal entries are equal. -/
theorem WellFormed.ext {other : Directory} (h : d.WellFormed) (hother : other.WellFormed)
    (hget : ∀ name, d.get? name = other.get? name) : d = other := by
  induction d using cons_induction generalizing other with
  | empty =>
    cases other using cons_induction with
    | empty => rfl
    | cons n e rest => simpa [get?_cons] using hget n
  | cons n e rest _ ih =>
    cases other using cons_induction with
    | empty => simpa [get?_cons] using hget n
    | cons m e' rest' =>
      have hn : (cons n e rest).get? n = some e := by rw [get?_cons, if_pos rfl]
      have hm : (cons m e' rest').get? m = some e' := by rw [get?_cons, if_pos rfl]
      obtain rfl : n = m := by
        rcases lt_trichotomy n m with hlt | heq | hlt
        · rw [hget, hother.get?_eq_none_of_lt hlt] at hn
          cases hn
        · exact heq
        · rw [← hget, h.get?_eq_none_of_lt hlt] at hm
          cases hm
      obtain ⟨-, hlt, -, hrest⟩ := wellFormed_cons.1 h
      obtain ⟨-, hlt', -, hrest'⟩ := wellFormed_cons.1 hother
      obtain rfl : e = e' := Option.some.inj (hn.symm.trans ((hget n).trans hm))
      rw [ih hrest hrest' fun name => ?_]
      by_cases hname : n = name
      · rw [get?_eq_none_iff.2 fun entry hentry => hname ▸ (hlt entry hentry).ne',
          get?_eq_none_iff.2 fun entry hentry => hname ▸ (hlt' entry hentry).ne']
      · simpa only [get?_cons, if_neg hname] using hget name

end Directory

-- ---------------------------------------------------------------------------
-- Locations
-- ---------------------------------------------------------------------------

/-- The entry at a location relative to an entry. -/
def Entry.find? : Entry → List String → Option Entry
  | e, [] => some e
  | .dir d, name :: names => d.find? (name :: names)
  | .file _, _ :: _ => none

/-- The contents of an entry that is a file. -/
def Entry.contents? : Entry → Option Contents
  | .file contents => some contents
  | .dir _ => none

/-- The contents of the file at a location relative to an entry. -/
def Entry.fileAt? (e : Entry) (location : List String) : Option Contents :=
  (e.find? location).bind contents?

namespace Entry

@[simp] theorem find?_nil (e : Entry) : e.find? [] = some e := by cases e <;> rfl

@[simp] theorem find?_file_cons (contents : Contents) (name : String) (names : List String) :
    (file contents).find? (name :: names) = none := rfl

theorem find?_dir (d : Directory) (location : List String) :
    (dir d).find? location = d.find? location := by
  cases location <;> rfl

end Entry

namespace Directory

variable {d : Directory}

@[simp] theorem find?_nil : d.find? [] = some (.dir d) := rfl

theorem find?_cons (name : String) (names : List String) :
    d.find? (name :: names) = (d.get? name).bind (·.find? names) := by
  cases names with
  | nil => simp [find?]
  | cons m names =>
    rw [find?]
    · match d.get? name with
      | none => rfl
      | some (.file _) => rfl
      | some (.dir _) => rfl
    · simp

theorem find?_append (above below : List String) :
    d.find? (above ++ below) = (d.find? above).bind (·.find? below) := by
  induction above generalizing d with
  | nil => exact (Entry.find?_dir d below).symm
  | cons name names ih =>
    rw [List.cons_append, find?_cons, find?_cons]
    match d.get? name with
    | none => rfl
    | some (.dir inside) => simp only [Option.bind_some, Entry.find?_dir, ih]
    | some (.file _) =>
      cases names with
      | nil => rfl
      | cons => rfl

theorem fileAt?_dir_cons (name : String) (names : List String) :
    (Entry.dir d).fileAt? (name :: names) = (d.get? name).bind (·.fileAt? names) := by
  rw [Entry.fileAt?, Entry.find?_dir, find?_cons]
  cases d.get? name <;> rfl

theorem WellFormed.find? (h : d.WellFormed) {location : List String} {e : Entry}
    (he : d.find? location = some e) : e.WellFormed := by
  induction location generalizing d with
  | nil => cases he; exact h
  | cons name names ih =>
    rw [find?_cons, Option.bind_eq_some_iff] at he
    obtain ⟨first, hfirst, he⟩ := he
    have hwf : first.WellFormed := (h.of_mem (h.get?_eq_some_iff.1 hfirst)).2
    cases first with
    | dir inside => exact ih hwf (by rwa [Entry.find?_dir] at he)
    | file contents =>
      cases names with
      | nil => cases he; exact hwf
      | cons => cases he

/-- The files of a directory are listed with their locations. -/
theorem WellFormed.mem_files_iff (h : d.WellFormed) {location : List String}
    {contents : Contents} :
    (location, contents) ∈ d.files ↔ (d.find? location).bind Entry.contents? = some contents := by
  induction d using cons_induction generalizing location with
  | empty => cases location <;> simp [files, find?_cons, Entry.contents?]
  | cons name entry rest ihInside ih =>
    obtain ⟨-, hlt, hentry, hrest⟩ := wellFormed_cons.1 h
    rw [files_cons, List.mem_append, ih hrest, List.mem_map]
    cases location with
    | nil => simp [Entry.contents?]
    | cons n names =>
      rw [find?_cons, find?_cons, get?_cons]
      have hinside : (names, contents) ∈ entry.files ↔
          (entry.find? names).bind Entry.contents? = some contents := by
        cases entry with
        | file text => cases names <;> simp [Entry.files, Entry.contents?, eq_comm]
        | dir inside =>
          rw [Entry.find?_dir]
          exact ihInside inside rfl hentry
      by_cases hn : name = n
      · subst hn
        have hnone : rest.get? name = none := get?_eq_none_iff.2 fun e he => (hlt e he).ne'
        simp [hnone, hinside]
      · simp [hn]

/-- No file is listed twice. -/
theorem WellFormed.nodup_files (h : d.WellFormed) : (d.files.map (·.1)).Nodup := by
  induction d using cons_induction with
  | empty => exact List.nodup_nil
  | cons name e rest ihInside ih =>
    obtain ⟨-, hlt, he, hrest⟩ := wellFormed_cons.1 h
    have hinside : (e.files.map (·.1)).Nodup := by
      cases e with
      | file contents => exact List.nodup_singleton _
      | dir inside => exact ihInside inside rfl he
    rw [files_cons, List.map_append, List.map_map, List.nodup_append]
    refine ⟨?_, ih hrest, ?_⟩
    · have hfirst := hinside.map (List.cons_injective (a := name))
      rwa [List.map_map] at hfirst
    · rintro _ hmem _ hother rfl
      obtain ⟨⟨names, _⟩, -, rfl⟩ := List.mem_map.1 hmem
      obtain ⟨⟨_, contents⟩, hlater, heq⟩ := List.mem_map.1 hother
      obtain rfl : _ = name :: names := heq
      have hnone : rest.get? name = none := get?_eq_none_iff.2 fun e he => (hlt e he).ne'
      have hfound := hrest.mem_files_iff.1 hlater
      rw [find?_cons, hnone] at hfound
      cases hfound

theorem ne_nil_of_mem_files {file : List String × Contents} (h : file ∈ d.files) : file.1 ≠ [] := by
  induction d using cons_induction with
  | empty => cases h
  | cons name entry rest _ ih =>
    rw [files_cons, List.mem_append, List.mem_map] at h
    rcases h with ⟨_, -, rfl⟩ | h
    · exact List.cons_ne_nil _ _
    · exact ih h

-- ---------------------------------------------------------------------------
-- Changing one directory of a tree
-- ---------------------------------------------------------------------------

/-- Changes the directory at a location, if there is one. -/
def updateIn (f : Directory → Directory) : List String → Directory → Directory
  | [], d => f d
  | name :: names, d =>
    match d.get? name with
    | some (.dir inside) => d.put name (.dir (inside.updateIn f names))
    | _ => d

theorem store_concat (entry : Entry) (above : List String) (name : String) :
    d.store entry (above ++ [name]) = d.updateIn (·.put name entry) above := by
  induction above generalizing d with
  | nil => rfl
  | cons first above ih =>
    rw [List.cons_append, store, updateIn]
    · match d.get? first with
      | some (.dir inside) => simp only [ih]
      | some (.file _) => rfl
      | none => rfl
    · simp

theorem discard_concat (above : List String) (name : String) :
    d.discard (above ++ [name]) = d.updateIn (·.erase name) above := by
  induction above generalizing d with
  | nil => rfl
  | cons first above ih =>
    rw [List.cons_append, discard, updateIn]
    · match d.get? first with
      | some (.dir inside) => simp only [ih]
      | some (.file _) => rfl
      | none => rfl
    · simp

variable {f : Directory → Directory} {above : List String}

theorem WellFormed.updateIn (h : d.WellFormed) (hf : ∀ i, i.WellFormed → (f i).WellFormed) :
    (d.updateIn f above).WellFormed := by
  induction above generalizing d with
  | nil => exact hf d h
  | cons name names ih =>
    rw [Directory.updateIn]
    split
    · rename_i inside hget
      obtain ⟨hname, hinside⟩ := h.of_mem (h.get?_eq_some_iff.1 hget)
      exact h.put hname (ih hinside)
    · exact h

theorem find?_updateIn {inside : Directory} (h : d.find? above = some (.dir inside))
    (below : List String) :
    (d.updateIn f above).find? (above ++ below) = (f inside).find? below := by
  induction above generalizing d with
  | nil => cases h; rfl
  | cons name names ih =>
    rw [find?_cons, Option.bind_eq_some_iff] at h
    obtain ⟨first, hfirst, h⟩ := h
    cases first with
    | file contents => cases names <;> cases h
    | dir d' =>
      rw [Entry.find?_dir] at h
      rw [updateIn, hfirst, List.cons_append, find?_cons, get?_put, if_pos rfl, Option.bind_some,
        Entry.find?_dir, ih h]

/-- A change of one entry leaves everything as it is that is not at or below it, apart from the
directories on the way to it. -/
theorem find?_updateIn_of_not_below {name : String}
    (hf : ∀ i m, m ≠ name → (f i).get? m = i.get? m) {location : List String}
    (h : ¬ above ++ [name] <+: location) :
    (d.updateIn f above).find? location = d.find? location ∨
      location <+: above ∧ (∃ i, d.find? location = some (.dir i)) ∧
        ∃ i, (d.updateIn f above).find? location = some (.dir i) := by
  induction above generalizing d location with
  | nil =>
    cases location with
    | nil => exact .inr ⟨List.prefix_rfl, ⟨_, rfl⟩, _, rfl⟩
    | cons m ms =>
      have hne : m ≠ name := fun heq => h ⟨ms, by simp [heq]⟩
      exact .inl (by rw [find?_cons, find?_cons, updateIn, hf d m hne])
  | cons first above ih =>
    rw [updateIn]
    split
    · rename_i inside hget
      cases location with
      | nil => exact .inr ⟨List.nil_prefix, ⟨_, rfl⟩, _, rfl⟩
      | cons m ms =>
        by_cases hm : m = first
        · subst hm
          rw [List.cons_append, List.cons_prefix_cons] at h
          rw [find?_cons, find?_cons, get?_put, if_pos rfl, hget, Option.bind_some,
            Option.bind_some, Entry.find?_dir, Entry.find?_dir]
          rcases ih (d := inside) fun hp => h ⟨rfl, hp⟩ with hsame | ⟨hp, hdirs⟩
          · exact .inl hsame
          · exact .inr ⟨List.cons_prefix_cons.2 ⟨rfl, hp⟩, hdirs⟩
        · exact .inl (by rw [find?_cons, find?_cons, get?_put, if_neg hm])
    · exact .inl rfl

end Directory

-- ---------------------------------------------------------------------------
-- File systems
-- ---------------------------------------------------------------------------

namespace FileSystem

/-- Whether the tree of a file system is well-formed. -/
def WellFormed (fs : FileSystem) : Prop := fs.root.WellFormed

instance (fs : FileSystem) : Decidable fs.WellFormed :=
  inferInstanceAs (Decidable fs.root.WellFormed)

/-- Whether there is a directory at a location. -/
def HasDir (fs : FileSystem) (location : List String) : Prop :=
  ∃ d, fs.entry? location = some (.dir d)

instance (fs : FileSystem) (location : List String) : Decidable (fs.HasDir location) :=
  match h : fs.entry? location with
  | some (.dir d) => .isTrue ⟨d, h⟩
  | some (.file _) => .isFalse fun ⟨_, hd⟩ => by rw [h] at hd; cases hd
  | none => .isFalse fun ⟨_, hd⟩ => by rw [h] at hd; cases hd

/-- The contents of the file at a location. -/
def fileAt? (fs : FileSystem) (location : List String) : Option Contents :=
  (fs.entry? location).bind Entry.contents?

variable {fs : FileSystem} {above location : List String} {name : String}

theorem entry?_append (above below : List String) :
    fs.entry? (above ++ below) = (fs.entry? above).bind (·.find? below) :=
  Directory.find?_append above below

theorem entry?_concat {d : Directory} (h : fs.entry? above = some (.dir d)) (name : String) :
    fs.entry? (above ++ [name]) = d.get? name := by
  rw [entry?_append, h, Option.bind_some, Entry.find?_dir, Directory.find?]

theorem fileAt?_append (above below : List String) :
    fs.fileAt? (above ++ below) = (fs.entry? above).bind (·.fileAt? below) := by
  rw [fileAt?, entry?_append]
  cases fs.entry? above <;> rfl

theorem fileAt?_eq_some_iff {contents : Contents} :
    fs.fileAt? location = some contents ↔ fs.entry? location = some (.file contents) := by
  rw [fileAt?]
  match fs.entry? location with
  | none => simp
  | some (.file _) => simp [Entry.contents?]
  | some (.dir _) => simp [Entry.contents?]

/-- What has something below it is a directory. -/
theorem hasDir_of_isSome (h : (fs.entry? (above ++ [name])).isSome) : fs.HasDir above := by
  rw [entry?_append] at h
  match hentry : fs.entry? above with
  | none => simp [hentry] at h
  | some (.file _) => simp [hentry] at h
  | some (.dir d) => exact ⟨d, hentry⟩

theorem HasDir.isSome (h : fs.HasDir location) : (fs.entry? location).isSome := by
  obtain ⟨d, hd⟩ := h
  rw [hd, Option.isSome_some]

theorem file_of_not_hasDir (h : (fs.entry? location).isSome) (hdir : ¬ fs.HasDir location) :
    ∃ contents, fs.entry? location = some (.file contents) := by
  match hentry : fs.entry? location with
  | none => simp [hentry] at h
  | some (.file contents) => exact ⟨contents, rfl⟩
  | some (.dir d) => exact absurd ⟨d, hentry⟩ hdir

theorem HasDir.of_below {below : List String} (h : fs.HasDir below) (hp : location <+: below) :
    fs.HasDir location := by
  obtain ⟨rest, rfl⟩ := hp
  cases rest with
  | nil => rwa [List.append_nil] at h
  | cons name rest =>
    obtain ⟨d, hd⟩ := h
    rw [List.append_cons, entry?_append, Option.bind_eq_some_iff] at hd
    obtain ⟨e, he, -⟩ := hd
    exact hasDir_of_isSome (by rw [he, Option.isSome_some])

theorem hasDir_of_prefix_of_ne {below : List String} (h : (fs.entry? below).isSome)
    (hp : location <+: below) (hne : location ≠ below) : fs.HasDir location := by
  obtain ⟨rest, rfl⟩ := hp
  rcases List.eq_nil_or_concat rest with rfl | ⟨init, last, rfl⟩
  · simp at hne
  · rw [List.concat_eq_append, ← List.append_assoc] at h
    exact (hasDir_of_isSome h).of_below (List.prefix_append _ _)

theorem hasDir_of_fileAt? {below : List String} (h : (fs.fileAt? below).isSome)
    (hp : location <+: below) (hne : location ≠ below) : fs.HasDir location := by
  obtain ⟨contents, hfile⟩ := Option.isSome_iff_exists.1 h
  exact hasDir_of_prefix_of_ne (by rw [fileAt?_eq_some_iff.1 hfile, Option.isSome_some]) hp hne

/-- There is nothing below a location where there is no directory. -/
theorem entry?_of_not_hasDir (h : ¬ fs.HasDir above) (hp : above <+: location)
    (hne : above ≠ location) : fs.entry? location = none := by
  rw [← Option.not_isSome_iff_eq_none]
  exact fun hsome => h (hasDir_of_prefix_of_ne hsome hp hne)

theorem fileAt?_of_not_hasDir (h : ¬ fs.HasDir above) (hp : above <+: location)
    (hne : above ≠ location) : fs.fileAt? location = none := by
  rw [fileAt?, entry?_of_not_hasDir h hp hne, Option.bind_none]

theorem HasDir.fileAt? (h : fs.HasDir location) : fs.fileAt? location = none := by
  obtain ⟨d, hd⟩ := h
  rw [FileSystem.fileAt?, hd]
  rfl

theorem store_concat (e : Entry) :
    fs.store (above ++ [name]) e =
      { fs with root := fs.root.updateIn (·.put name e) above } := by
  rw [store, Directory.store_concat]

theorem discard_concat :
    fs.discard (above ++ [name]) = { fs with root := fs.root.updateIn (·.erase name) above } := by
  rw [discard, Directory.discard_concat]

theorem WellFormed.store (h : fs.WellFormed) (hname : IsName name) {e : Entry}
    (he : e.WellFormed) : (fs.store (above ++ [name]) e).WellFormed := by
  rw [store_concat]
  exact Directory.WellFormed.updateIn h fun _ hi => hi.put hname he

theorem WellFormed.discard (h : fs.WellFormed) : (fs.discard (above ++ [name])).WellFormed := by
  rw [discard_concat]
  exact Directory.WellFormed.updateIn h fun _ hi => hi.erase

theorem entry?_store (h : fs.HasDir above) (e : Entry) (below : List String) :
    entry? (fs.store (above ++ [name]) e) (above ++ [name] ++ below) = e.find? below := by
  obtain ⟨d, hd⟩ := h
  rw [store_concat, entry?, List.append_assoc, Directory.find?_updateIn hd, List.cons_append,
    Directory.find?_cons, Directory.get?_put, if_pos rfl]
  rfl

/-- Whether `before` and `after` have the same at a location, or a directory each, on the way to
`above`. -/
def SameBeside (above : List String) (before after : FileSystem) (location : List String) : Prop :=
  after.entry? location = before.entry? location ∨
    location <+: above ∧ before.HasDir location ∧ after.HasDir location

theorem sameBeside_store (e : Entry) (h : ¬ above ++ [name] <+: location) :
    SameBeside above fs (fs.store (above ++ [name]) e) location := by
  rw [store_concat]
  exact Directory.find?_updateIn_of_not_below
    (fun i m hm => by rw [Directory.get?_put, if_neg hm]) h

theorem sameBeside_discard (h : ¬ above ++ [name] <+: location) :
    SameBeside above fs (fs.discard (above ++ [name])) location := by
  rw [discard_concat]
  exact Directory.find?_updateIn_of_not_below (fun i m hm => Directory.get?_erase_of_ne hm) h

theorem SameBeside.trans {mid after : FileSystem} (h : SameBeside above fs mid location)
    (h' : SameBeside above mid after location) : SameBeside above fs after location := by
  rcases h with h | ⟨hp, hdir, hdir'⟩
  · rcases h' with h' | ⟨hp, hdir', hdir''⟩
    · exact .inl (h'.trans h)
    · exact .inr ⟨hp, by rwa [HasDir, ← h], hdir''⟩
  · rcases h' with h' | ⟨-, -, hdir''⟩
    · exact .inr ⟨hp, hdir, by rwa [HasDir, h']⟩
    · exact .inr ⟨hp, hdir, hdir''⟩

theorem SameBeside.entry?_eq {after : FileSystem} (h : SameBeside above fs after location)
    (hp : ¬ location <+: above) : after.entry? location = fs.entry? location :=
  h.resolve_right fun h => hp h.1

theorem SameBeside.hasDir_iff {after : FileSystem} (h : SameBeside above fs after location) :
    after.HasDir location ↔ fs.HasDir location := by
  rcases h with h | ⟨-, hbefore, hafter⟩
  · rw [HasDir, HasDir, h]
  · exact iff_of_true hafter hbefore

theorem SameBeside.fileAt? {after : FileSystem} (h : SameBeside above fs after location) :
    after.fileAt? location = fs.fileAt? location := by
  rcases h with h | ⟨-, hbefore, hafter⟩
  · rw [FileSystem.fileAt?, FileSystem.fileAt?, h]
  · rw [hbefore.fileAt?, hafter.fileAt?]

theorem entry?_discard (h : fs.WellFormed) (hdir : fs.HasDir above)
    (hp : above ++ [name] <+: location) :
    entry? (fs.discard (above ++ [name])) location = none := by
  obtain ⟨below, rfl⟩ := hp
  obtain ⟨d, hd⟩ := hdir
  have hwf : d.WellFormed := Directory.WellFormed.find? h hd
  rw [discard_concat, entry?, List.append_assoc, Directory.find?_updateIn hd, List.cons_append,
    Directory.find?_cons, hwf.get?_erase_self, Option.bind_none]

end FileSystem

end Typings
