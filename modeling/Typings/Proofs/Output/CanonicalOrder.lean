import Mathlib.Data.Fintype.Perm
import Mathlib.Data.List.OfFn
import Typings.Proofs.Order.Stable
import Typings.Proofs.Output.HookRegistry
import Typings.Proofs.Text.ByteOrder

/-!
# The index and the hooks file as normal forms

The index has one entry for each name of an outermost type, in the order of the bytes of the names,
and each entry refers to the smallest path among the files that declare the name. This describes the
entries completely, so the order in which files are fed does not show. The hooks file lists the
hooks by name and those of one name as they were recorded, so that of the order of the files only
the order among files with a hook in common shows.
-/

namespace Typings

/-- Whether the bytes of one text come before those of another. -/
def ByteBefore (a b : String) : Prop := Text.bytes a.toList < Text.bytes b.toList

theorem byteBefore_iff {a b : String} : ByteBefore a b ↔ a < b := Text.bytes_lt_iff

-- ---------------------------------------------------------------------------
-- Entries of the index
-- ---------------------------------------------------------------------------

/-- The entries of the index for the types of a run: their names in order, each once, and with each
the smallest path among the records of an outermost type of that name. -/
structure IsIndexOf (records : List TypeRecord) (entries : List (String × String)) : Prop where
  increasing : (entries.map (·.1)).Pairwise ByteBefore
  names : ∀ name, name ∈ entries.map (·.1) ↔
    ∃ r ∈ records, r.isNested = false ∧ r.name = name
  declared : ∀ e ∈ entries, ∃ r ∈ records, r.isNested = false ∧ r.name = e.1 ∧ r.filePath = e.2
  smallest : ∀ e ∈ entries, ∀ r ∈ records, r.isNested = false → r.name = e.1 →
    ¬ ByteBefore r.filePath e.2

theorem mem_names_addEntry {name path : String} {entries : List (String × String)} {n : String} :
    n ∈ (addEntry name path entries).map (·.1) ↔ n = name ∨ n ∈ entries.map (·.1) := by
  induction entries with
  | nil => simp [addEntry]
  | cons e rest ih =>
    simp only [addEntry]
    split
    · rename_i hname
      simp [hname]
    · split
      · simp
      · simp only [List.map_cons, List.mem_cons, ih]
        tauto

theorem pairwise_addEntry {name path : String} {entries : List (String × String)}
    (h : (entries.map (·.1)).Pairwise ByteBefore) :
    ((addEntry name path entries).map (·.1)).Pairwise ByteBefore := by
  induction entries with
  | nil => simp [addEntry]
  | cons e rest ih =>
    obtain ⟨hfirst, hrest⟩ := List.pairwise_cons.1 h
    simp only [addEntry]
    split
    · exact h
    · rename_i hne
      split
      · rename_i hlt
        refine List.pairwise_cons.2 ⟨fun n hn => ?_, h⟩
        rcases List.mem_cons.1 hn with rfl | hn
        · exact byteBefore_iff.2 hlt
        · exact byteBefore_iff.2 (String.lt_trans hlt (byteBefore_iff.1 (hfirst n hn)))
      · rename_i hlt
        refine List.pairwise_cons.2 ⟨fun n hn => ?_, ih hrest⟩
        rcases mem_names_addEntry.1 hn with rfl | hn
        · exact byteBefore_iff.2 (lt_of_le_of_ne (not_lt.1 hlt) (Ne.symm hne))
        · exact hfirst n hn

/-- An entry after one more type is an entry of another name, the first one of its name, or the one
of its name with the smaller of two paths. -/
theorem addEntry_cases {name path : String} {entries : List (String × String)}
    (h : (entries.map (·.1)).Pairwise ByteBefore) {e : String × String}
    (he : e ∈ addEntry name path entries) :
    (e ∈ entries ∧ e.1 ≠ name) ∨ (name ∉ entries.map (·.1) ∧ e = (name, path)) ∨
      ∃ old, (name, old) ∈ entries ∧ e = (name, min path old) := by
  induction entries with
  | nil => simpa [addEntry] using he
  | cons f rest ih =>
    obtain ⟨hfirst, hrest⟩ := List.pairwise_cons.1 h
    have hbefore : ∀ n ∈ rest.map (·.1), f.1 < n := fun n hn => byteBefore_iff.1 (hfirst n hn)
    simp only [addEntry] at he
    split at he
    · rename_i hname
      rcases List.mem_cons.1 he with rfl | he
      · refine .inr (.inr ⟨f.2, by simp [hname], ?_⟩)
        rw [hname, min_def]
        rcases lt_trichotomy path f.2 with hlt | rfl | hgt
        · rw [if_pos hlt, if_pos hlt.le]
        · simp
        · rw [if_neg hgt.not_gt, if_neg (not_le.2 hgt)]
      · have hlt := hbefore e.1 (List.mem_map_of_mem he)
        exact .inl ⟨List.mem_cons_of_mem _ he, fun heq => hlt.ne (hname.symm.trans heq.symm)⟩
    · rename_i hne
      split at he
      · rename_i hlt
        have hnew : name ∉ (f :: rest).map (·.1) := fun hmem => by
          rcases List.mem_cons.1 hmem with heq | hmem
          · exact hne heq
          · exact (lt_trans hlt (hbefore name hmem)).false
        rcases List.mem_cons.1 he with rfl | he
        · exact .inr (.inl ⟨hnew, rfl⟩)
        · exact .inl ⟨he, fun heq => hnew (heq ▸ List.mem_map_of_mem he)⟩
      · rcases List.mem_cons.1 he with rfl | he
        · exact .inl ⟨List.mem_cons_self, fun heq => hne heq.symm⟩
        · rcases ih hrest he with ⟨he, hname⟩ | ⟨hnew, rfl⟩ | ⟨old, hold, rfl⟩
          · exact .inl ⟨List.mem_cons_of_mem _ he, hname⟩
          · exact .inr (.inl ⟨by simpa [hne] using hnew, rfl⟩)
          · exact .inr (.inr ⟨old, List.mem_cons_of_mem _ hold, rfl⟩)

namespace IsIndexOf

variable {records : List TypeRecord} {entries : List (String × String)}

/-- One more outermost type. -/
theorem addEntry (h : IsIndexOf records entries) {r : TypeRecord} (hr : r.isNested = false) :
    IsIndexOf (records ++ [r]) (Typings.addEntry r.name r.filePath entries) where
  increasing := pairwise_addEntry h.increasing
  names name := by
    rw [mem_names_addEntry, h.names]
    simp only [List.mem_append, List.mem_singleton, or_and_right, exists_or, exists_eq_left, hr,
      true_and]
    rw [or_comm, eq_comm (a := name)]
  declared e he := by
    rcases addEntry_cases h.increasing he with ⟨he, -⟩ | ⟨-, rfl⟩ | ⟨old, hold, rfl⟩
    · obtain ⟨s, hs, hdecl⟩ := h.declared e he
      exact ⟨s, List.mem_append_left _ hs, hdecl⟩
    · exact ⟨r, by simp, hr, rfl, rfl⟩
    · rcases min_choice r.filePath old with hmin | hmin
      · exact ⟨r, by simp, hr, rfl, hmin.symm⟩
      · obtain ⟨s, hs, hdecl⟩ := h.declared _ hold
        exact ⟨s, List.mem_append_left _ hs, by rw [hmin]; exact hdecl⟩
  smallest e he s hs hnested hname := by
    rw [byteBefore_iff]
    rcases List.mem_append.1 hs with hs | hs
    · rcases addEntry_cases h.increasing he with ⟨he, -⟩ | ⟨hnew, rfl⟩ | ⟨old, hold, rfl⟩
      · exact fun hlt => h.smallest e he s hs hnested hname (byteBefore_iff.2 hlt)
      · exact absurd ((h.names r.name).2 ⟨s, hs, hnested, hname⟩) hnew
      · intro hlt
        exact h.smallest _ hold s hs hnested hname
          (byteBefore_iff.2 (lt_of_lt_of_le hlt (min_le_right _ _)))
    · obtain rfl := List.mem_singleton.1 hs
      rcases addEntry_cases h.increasing he with ⟨-, hne⟩ | ⟨-, rfl⟩ | ⟨old, -, rfl⟩
      · exact absurd hname hne.symm
      · exact lt_irrefl _
      · exact not_lt.2 (min_le_left _ _)

/-- A nested type changes nothing. -/
theorem addNested (h : IsIndexOf records entries) {r : TypeRecord} (hr : r.isNested = true) :
    IsIndexOf (records ++ [r]) entries := by
  have hmem : ∀ s, s ∈ records ++ [r] ∧ s.isNested = false ↔ s ∈ records ∧ s.isNested = false := by
    intro s
    simp only [List.mem_append, List.mem_singleton]
    constructor
    · rintro ⟨hs | rfl, hnested⟩
      · exact ⟨hs, hnested⟩
      · rw [hr] at hnested
        contradiction
    · rintro ⟨hs, hnested⟩
      exact ⟨.inl hs, hnested⟩
  refine ⟨h.increasing, fun name => ?_, fun e he => ?_, fun e he s hs hnested hname => ?_⟩
  · simp only [h.names name, ← and_assoc, hmem]
  · simpa only [← and_assoc, hmem] using h.declared e he
  · exact h.smallest e he s ((hmem s).1 ⟨hs, hnested⟩).1 hnested hname

/-- The records decide the entries. -/
theorem eq {others : List (String × String)} (h : IsIndexOf records entries)
    (h' : IsIndexOf records others) : entries = others := by
  -- an entry of one list is an entry of the other: both hold the name, and the smallest path
  have hsub : ∀ {es fs : List (String × String)}, IsIndexOf records es → IsIndexOf records fs →
      ∀ e ∈ es, e ∈ fs := by
    intro es fs hes hfs e he
    have hname := (hfs.names e.1).2 ((hes.names e.1).1 (List.mem_map_of_mem he))
    obtain ⟨f, hf, hfe⟩ := List.mem_map.1 hname
    obtain ⟨r, hr, hrnested, hrname, hrpath⟩ := hes.declared e he
    obtain ⟨s, hs, hsnested, hsname, hspath⟩ := hfs.declared f hf
    have hle := hes.smallest e he s hs hsnested (hsname.trans hfe)
    have hge := hfs.smallest f hf r hr hrnested (hrname.trans hfe.symm)
    rw [byteBefore_iff, not_lt, hspath] at hle
    rw [byteBefore_iff, not_lt, hrpath] at hge
    have heq : e = f := Prod.ext hfe.symm (le_antisymm hle hge)
    exact heq ▸ hf
  have hlt : ∀ {es : List (String × String)}, IsIndexOf records es →
      es.Pairwise fun e f => e.1 < f.1 := fun hes =>
    (List.pairwise_map.1 hes.increasing).imp byteBefore_iff.1
  have hnodup : ∀ {es : List (String × String)}, IsIndexOf records es → es.Nodup := fun hes =>
    (hlt hes).imp fun hef heq => hef.ne (congrArg Prod.fst heq)
  have hperm : entries.Perm others := (List.perm_ext_iff_of_nodup (hnodup h) (hnodup h')).2
    fun e => ⟨hsub h h' e, hsub h' h e⟩
  exact hperm.eq_of_pairwise (fun e f _ _ hef hfe => absurd hef hfe.not_gt) (hlt h) (hlt h')

/-- Only the set of records matters. -/
theorem of_perm (h : IsIndexOf records entries) {others : List TypeRecord}
    (hperm : records.Perm others) : IsIndexOf others entries where
  increasing := h.increasing
  names name := by simp only [h.names name, hperm.mem_iff]
  declared e he := by simpa only [hperm.mem_iff] using h.declared e he
  smallest e he r hr := h.smallest e he r (hperm.mem_iff.2 hr)

end IsIndexOf

theorem isIndexOf_indexEntries (records : List TypeRecord) :
    IsIndexOf records (indexEntries records) := by
  induction records using List.reverseRecOn with
  | nil => exact ⟨.nil, by simp [indexEntries], by simp [indexEntries], by simp [indexEntries]⟩
  | append_singleton records r ih =>
    cases hr : r.isNested with
    | false =>
      have hstep : indexEntries (records ++ [r]) =
          addEntry r.name r.filePath (indexEntries records) := by
        simp [indexEntries, List.filter_append, hr]
      rw [hstep]
      exact ih.addEntry hr
    | true =>
      have hstep : indexEntries (records ++ [r]) = indexEntries records := by
        simp [indexEntries, List.filter_append, hr]
      rw [hstep]
      exact ih.addNested hr

theorem indexEntries_eq_of_perm {records others : List TypeRecord} (h : records.Perm others) :
    indexEntries records = indexEntries others :=
  ((isIndexOf_indexEntries records).of_perm h).eq (isIndexOf_indexEntries others)

-- ---------------------------------------------------------------------------
-- Reordered files
-- ---------------------------------------------------------------------------

/-- Files with their output paths in another order. -/
def reordered (fed : List (SourceFile × String)) (σ : Equiv.Perm (Fin fed.length)) :
    List (SourceFile × String) :=
  List.ofFn fun i => fed.get (σ i)

theorem reordered_perm (fed : List (SourceFile × String)) (σ : Equiv.Perm (Fin fed.length)) :
    (reordered fed σ).Perm fed := by
  have h := Equiv.Perm.ofFn_comp_perm σ fed.get
  rwa [List.ofFn_get] at h

/-- Whether a hook of one file has the name of a hook of another. -/
def SharesHook (f g : SourceFile × String) : Prop :=
  ∃ r ∈ f.1.eventHooks f.2, ∃ s ∈ g.1.eventHooks g.2, r.hookName = s.hookName

/-- Whether files with a hook name in common stay in their order. -/
def KeepsHookOrder (fed : List (SourceFile × String)) (σ : Equiv.Perm (Fin fed.length)) : Prop :=
  ∀ i j, i < j → SharesHook (fed.get (σ i)) (fed.get (σ j)) → σ i < σ j

/-- Whether a file has a hook of a name. -/
def hasHook (hook : String) (f : SourceFile × String) : Bool :=
  (f.1.eventHooks f.2).any (·.hookName = hook)

theorem sharesHook_of_hasHook {hook : String} {f g : SourceFile × String}
    (hf : hasHook hook f = true) (hg : hasHook hook g = true) : SharesHook f g := by
  obtain ⟨r, hr, hrname⟩ := List.any_eq_true.1 hf
  obtain ⟨s, hs, hsname⟩ := List.any_eq_true.1 hg
  exact ⟨r, hr, s, hs, (of_decide_eq_true hrname).trans (of_decide_eq_true hsname).symm⟩

/-- The files with a hook of a name are the same and in the same order. -/
theorem KeepsHookOrder.filter_eq {fed : List (SourceFile × String)}
    {σ : Equiv.Perm (Fin fed.length)} (h : KeepsHookOrder fed σ) (hook : String) :
    (reordered fed σ).filter (hasHook hook) = fed.filter (hasHook hook) := by
  let positions := (List.finRange fed.length).filter fun i => hasHook hook (fed.get i)
  let moved := ((List.finRange fed.length).filter fun i => hasHook hook (fed.get (σ i))).map σ
  have hfed : fed.filter (hasHook hook) = positions.map fed.get := by
    conv_lhs => rw [← List.map_get_finRange fed, List.filter_map]
    rfl
  have hmoved : (reordered fed σ).filter (hasHook hook) = moved.map fed.get := by
    rw [reordered, List.ofFn_eq_map, List.filter_map, List.map_map]
    rfl
  -- the moved positions are the same, and in order since their files have the hook in common
  have hperm : moved.Perm positions := by
    refine (List.perm_ext_iff_of_nodup ?_ ?_).2 fun i => ?_
    · exact ((List.nodup_finRange _).filter _).map σ.injective
    · exact (List.nodup_finRange _).filter _
    · simp only [moved, positions, List.mem_map, List.mem_filter, List.mem_finRange, true_and]
      exact ⟨fun ⟨j, hj, hji⟩ => hji ▸ hj, fun hi => ⟨σ.symm i, by simpa using hi, by simp⟩⟩
  have hpositions : positions.Pairwise (· < ·) := (List.pairwise_lt_finRange _).filter _
  have hsorted : moved.Pairwise (· < ·) := by
    refine List.pairwise_map.2 (List.pairwise_filter.2 ?_)
    exact (List.pairwise_lt_finRange _).imp fun hij hi hj =>
      h _ _ hij (sharesHook_of_hasHook hi hj)
  rw [hfed, hmoved, hperm.eq_of_pairwise (fun i j _ _ hij hji => absurd hij hji.not_gt) hsorted
    hpositions]

/-- The hooks of a name come from the files that have one. -/
theorem filter_flatMap_eventHooks (hook : String) (fed : List (SourceFile × String)) :
    (fed.flatMap fun f => f.1.eventHooks f.2).filter (·.hookName = hook) =
      (fed.filter (hasHook hook)).flatMap fun f =>
        (f.1.eventHooks f.2).filter (·.hookName = hook) := by
  induction fed with
  | nil => rfl
  | cons f fed ih =>
    rw [List.flatMap_cons, List.filter_append, ih, List.filter_cons]
    split
    · rw [List.flatMap_cons]
    · rename_i hnone
      have hnil : (f.1.eventHooks f.2).filter (·.hookName = hook) = [] := by
        rw [List.filter_eq_nil_iff]
        intro r hr hname
        exact hnone (List.any_eq_true.2 ⟨r, hr, hname⟩)
      rw [hnil, List.nil_append]

-- ---------------------------------------------------------------------------
-- The files at the end of a run
-- ---------------------------------------------------------------------------

namespace Catalog

theorem types_emitAll (c : Catalog) (fed : List (SourceFile × String)) :
    (c.emitAll fed).types =
      c.types ++ fed.flatMap fun f => f.1.placed.map (Placed.record f.1.package f.2) := by
  induction fed generalizing c with
  | nil => simp [emitAll]
  | cons f fed ih =>
    have hstep : c.emitAll (f :: fed) = (c.emit f.1 f.2).1.emitAll fed := rfl
    rw [hstep, ih, types_emit, List.append_assoc, List.flatMap_cons]

theorem config_emitAll (c : Catalog) (fed : List (SourceFile × String)) :
    (c.emitAll fed).config = c.config := by
  induction fed generalizing c with
  | nil => rfl
  | cons f fed ih => exact ih _

theorem indexFile_emitAll_of_perm (c : Catalog) {fed other : List (SourceFile × String)}
    (h : fed.Perm other) : (c.emitAll fed).indexFile = (c.emitAll other).indexFile := by
  have hperm : (c.emitAll fed).types.Perm (c.emitAll other).types := by
    rw [types_emitAll, types_emitAll]
    exact (h.flatMap_right _).append_left _
  unfold indexFile renderIndex
  rw [config_emitAll, config_emitAll, indexEntries_eq_of_perm hperm]

theorem hooksFile_emitAll_of_keepsHookOrder (c : Catalog) {fed : List (SourceFile × String)}
    {σ : Equiv.Perm (Fin fed.length)} (h : KeepsHookOrder fed σ) :
    (c.emitAll (reordered fed σ)).hooksFile = (c.emitAll fed).hooksFile := by
  have hsorted : sortedHooks (c.emitAll (reordered fed σ)).hooks =
      sortedHooks (c.emitAll fed).hooks := by
    refine Order.sort_eq_of_filter fun hook => ?_
    rw [hooks_emitAll, hooks_emitAll, List.filter_append, List.filter_append,
      filter_flatMap_eventHooks, filter_flatMap_eventHooks, h.filter_eq]
  unfold hooksFile renderHooks
  rw [config_emitAll, config_emitAll, hsorted]

/-- The hooks of a run as its hooks file lists them: by name, and those of one name in the order in
which they were recorded. -/
structure ListsHooks (c : Catalog) (listed : List HookRecord) : Prop where
  perm : listed.Perm c.hooks
  ordered : listed.Pairwise fun r s => ¬ ByteBefore s.hookName r.hookName
  stable : ∀ hook, listed.filter (·.hookName = hook) = c.hooks.filter (·.hookName = hook)

theorem listsHooks_sortedHooks (c : Catalog) : c.ListsHooks (sortedHooks c.hooks) where
  perm := Order.sort_perm _ _
  ordered := by
    have hsorted := @Order.pairwise_sort _ _ _ HookRecord.hookName c.hooks
    exact hsorted.imp fun hle => byteBefore_iff.not.2 (not_lt.2 hle)
  stable hook := @Order.filter_sort _ _ _ HookRecord.hookName hook c.hooks

/-- The index of a run is a frame around one line for each name of an outermost type, in the order
of the names and with the smallest path that declares the name; no reordering of the files changes
it. The hooks file lists all hooks by name, those of one name as they were recorded; no reordering
changes it that leaves files with a hook name in common in their order. -/
theorem finish_canonical (config : RunConfig) (fed : List (SourceFile × String)) :
    let c := emitAll { config } fed
    (∃ entries, IsIndexOf c.types entries ∧
      c.indexFile.contents = "declare global \x7b\n" ++
        String.join (entries.map fun e => "    type " ++ e.1 ++ " = import(\"" ++
          ModulePath.relative config.indexFile e.2 ++ "\")." ++ e.1 ++ ";\n") ++
        "\x7d\n\nexport \x7b\x7d;\n") ∧
    (∀ σ, (emitAll { config } (reordered fed σ)).indexFile = c.indexFile) ∧
    (∃ listed, c.ListsHooks listed ∧
      c.hooksFile.contents =
        String.join (config.hookReferences.map (referenceLine config.hooksFile)) ++
          (if config.hookReferences = [] then "" else "\n") ++ "declare global \x7b\n" ++
        String.join (listed.map fun r => "    function " ++ r.hookName ++ "(event: import(\"" ++
          ModulePath.relative config.hooksFile r.filePath ++ "\")." ++ r.eventName ++ "." ++
          r.subType ++ "): void;\n") ++
        "\x7d\n\nexport \x7b\x7d;\n") ∧
    ∀ σ, KeepsHookOrder fed σ →
      (emitAll { config } (reordered fed σ)).hooksFile = c.hooksFile := by
  intro c
  have hconfig : c.config = config := config_emitAll { config } fed
  refine ⟨⟨indexEntries c.types, isIndexOf_indexEntries c.types, ?_⟩, fun σ => ?_,
    ⟨sortedHooks c.hooks, listsHooks_sortedHooks c, ?_⟩, fun σ h => ?_⟩
  · simp only [indexFile, hconfig]
    rfl
  · exact indexFile_emitAll_of_perm { config } (reordered_perm fed σ)
  · simp only [hooksFile, hconfig, renderHooks, List.isEmpty_iff]
    rfl
  · exact hooksFile_emitAll_of_keepsHookOrder { config } h

/-- Three event files, of which the first and the last have the hook `started` in common. -/
def startedTwice : List (SourceFile × String) :=
  let file (event sub : String) : SourceFile :=
    { package := "com.example"
      types := [{ name := event, kind := .interface
                  nested := [{ name := sub, kind := .interface }] }] }
  [(file "ServerEvent" "Started", "server.d.ts"), (file "PlayerEvent" "Chat", "player.d.ts"),
    (file "LevelEvent" "Started", "level.d.ts")]

/-- The file in the middle has a hook of its own, so it may come first: the hooks are then recorded
in another order, and the hooks file is the same. -/
theorem finish_canonical_startedTwice :
    let σ : Equiv.Perm (Fin startedTwice.length) := Equiv.swap ⟨0, by decide⟩ ⟨1, by decide⟩
    KeepsHookOrder startedTwice σ ∧
    (emitAll { config := {} } (reordered startedTwice σ)).hooks ≠
      (emitAll { config := {} } startedTwice).hooks ∧
    (emitAll { config := {} } (reordered startedTwice σ)).hooksFile =
      (emitAll { config := {} } startedTwice).hooksFile := by
  intro σ
  have hkeeps : KeepsHookOrder startedTwice σ := by
    unfold KeepsHookOrder SharesHook
    decide +kernel
  exact ⟨hkeeps, by decide +kernel, (finish_canonical {} startedTwice).2.2.2 σ hkeeps⟩

end Catalog

end Typings
