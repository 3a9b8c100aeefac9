import Mathlib.Data.List.Nodup
import Mathlib.Data.List.Zip
import Typings.Json.Codec

/-!
# Decoding what was encoded

A decoder needs an allowance for the arrays and objects that it opens inside one another. With an
allowance that covers the depth of a JSON value, a value that was encoded is decoded again, and a
record also from the array of the values of its fields. A record is treated once, for any names of
fields and any decoder that looks at nothing but the values of the fields.
-/

namespace Typings.Json

-- ---------------------------------------------------------------------------
-- Depth
-- ---------------------------------------------------------------------------

mutual

/-- How many arrays and objects of a value are open inside one another. -/
def depth : Json → Nat
  | .arr items => depthAll items + 1
  | .obj fields => depthFields fields + 1
  | _ => 0

def depthAll : List Json → Nat
  | [] => 0
  | j :: js => max j.depth (depthAll js)

def depthFields : List (Option String × Json) → Nat
  | [] => 0
  | (_, j) :: fields => max j.depth (depthFields fields)

end

theorem depthAll_le_iff {items : List Json} {n : Nat} :
    depthAll items ≤ n ↔ ∀ j ∈ items, j.depth ≤ n := by
  induction items with
  | nil => simp [depthAll]
  | cons j js ih => rw [depthAll, Nat.max_le, ih, List.forall_mem_cons]

theorem depthFields_zip_le_iff {names : List String} {values : List Json}
    (h : values.length = names.length) {n : Nat} :
    depthFields ((names.zip values).map fun (name, value) => (some name, value)) ≤ n ↔
      ∀ j ∈ values, j.depth ≤ n := by
  induction names generalizing values with
  | nil =>
    obtain rfl := List.eq_nil_of_length_eq_zero h
    simp [depthFields]
  | cons name names ih =>
    cases values with
    | nil => simp at h
    | cons value values =>
      rw [List.zip_cons_cons, List.map_cons, depthFields, Nat.max_le, ih (by simpa using h),
        List.forall_mem_cons]

-- ---------------------------------------------------------------------------
-- Decoding with allowance enough
-- ---------------------------------------------------------------------------

/-- Whether a JSON value stands for a value: every allowance that covers its depth is enough to
decode it. -/
def Decodes {α : Type} (d : Decoder α) (j : Json) (a : α) : Prop :=
  ∀ n, j.depth ≤ n → d n j = some a

section

variable {α β : Type} {d : Decoder α} {e : α → Json} {kept : α → α}

theorem decodes_str (s : String) : Decodes decodeString (.str s) s := fun _ _ => rfl

theorem decodes_word (w : UInt64) : Decodes decodeWord (encodeWord w) w :=
  fun n _ => decodeWord_encodeWord n w

theorem decodes_nullable (h : ∀ a, Decodes d (e a) a) (hnull : ∀ a, e a ≠ .null) (o : Option α) :
    Decodes (decodeNullable d) (encodeNullable e o) o := by
  intro n hn
  cases o with
  | none => rfl
  | some a =>
    show decodeNullable d n (e a) = some (some a)
    rw [decodeNullable, h a n hn, Option.map_some]
    exact hnull a

theorem mapM_decode {items : List α} {n : Nat} (h : ∀ a ∈ items, d n (e a) = some (kept a)) :
    (items.map e).mapM (d n) = some (items.map kept) := by
  induction items with
  | nil => rfl
  | cons a as ih =>
    rw [List.forall_mem_cons] at h
    rw [List.map_cons, List.mapM_cons, h.1, ih h.2]
    rfl

theorem decodes_list (h : ∀ a, Decodes d (e a) (kept a)) (items : List α) :
    Decodes (decodeList d) (encodeList e items) (items.map kept) := by
  intro n hn
  cases n with
  | zero => simp [encodeList, depth] at hn
  | succ n =>
    simp only [encodeList, depth, Nat.add_le_add_iff_right, depthAll_le_iff] at hn
    exact mapM_decode fun a ha => h a n (hn _ (List.mem_map_of_mem ha))

theorem decodes_pair {c : Decoder β} {f : β → Json} (h : ∀ a, Decodes d (e a) a)
    (h' : ∀ b, Decodes c (f b) b) (p : α × β) :
    Decodes (decodePair d c) (encodePair e f p) p := by
  intro n hn
  cases n with
  | zero => simp [encodePair, depth] at hn
  | succ n =>
    simp only [encodePair, depth, Nat.add_le_add_iff_right, depthAll_le_iff, List.mem_cons,
      List.not_mem_nil, or_false, forall_eq_or_imp, forall_eq] at hn
    rw [encodePair, decodePair, h p.1 n hn.1, h' p.2 n hn.2]
    rfl

theorem Decodes.required {j : Json} {a : α} (h : Decodes d j a) {n : Nat} (hn : j.depth ≤ n) :
    required d n (some j) = some a := h n hn

theorem Decodes.optional {j : Json} {o : Option α} (h : Decodes (decodeNullable d) j o) {n : Nat}
    (hn : j.depth ≤ n) : optional d n (some j) = some o := h n hn

theorem Decodes.withDefault {default : α} {j : Json} {a : α} (h : Decodes d j a) {n : Nat}
    (hn : j.depth ≤ n) : withDefault default d n (some j) = some a := h n hn

end

-- ---------------------------------------------------------------------------
-- Records
-- ---------------------------------------------------------------------------

/-- Whether the values of the fields of a record are found in its object form and in its array
form. -/
def FindsFields (names : List String) (fields? : Json → Option (List (Option Json))) : Prop :=
  ∀ values : List Json, values.length = names.length →
    fields? (.object (names.zip values)) = some (values.map some) ∧
    fields? (.arr values) = some (values.map some)

theorem lookup?_of_mem {names : List String} (hnodup : names.Nodup) {values : List Json}
    {name : String} {value : Json} (h : (name, value) ∈ names.zip values) :
    lookup? ((names.zip values).map fun (name, value) => (some name, value)) name =
      some (some value) := by
  have hfilter : ((names.zip values).map fun (name, value) => (some name, value)).filter
      (fun entry => entry.1 == some name) = [(some name, value)] := by
    induction names generalizing values with
    | nil => simp at h
    | cons first names ih =>
      cases values with
      | nil => simp at h
      | cons v values =>
        obtain ⟨hfirst, hnodup⟩ := List.nodup_cons.1 hnodup
        rw [List.zip_cons_cons, List.mem_cons] at h
        rw [List.zip_cons_cons, List.map_cons, List.filter_cons]
        rcases h with h | h
        · obtain ⟨rfl, rfl⟩ := Prod.mk.inj h
          have hnone : ((names.zip values).map fun (name, value) => (some name, value)).filter
              (fun entry => entry.1 == some name) = [] := by
            rw [List.filter_eq_nil_iff]
            intro entry hentry hname
            obtain ⟨⟨other, w⟩, hmem, rfl⟩ := List.mem_map.1 hentry
            obtain rfl : other = name := by simpa using hname
            exact hfirst (List.of_mem_zip hmem).1
          simp [hnone]
        · have hne : first ≠ name := fun heq => hfirst (heq ▸ (List.of_mem_zip h).1)
          simp [hne, ih hnodup h]
  rw [lookup?, hfilter]

theorem objectFields?_zip {names : List String} (hnodup : names.Nodup) {values : List Json}
    (hlen : values.length = names.length) :
    objectFields? names ((names.zip values).map fun (name, value) => (some name, value)) =
      some (values.map some) := by
  rw [objectFields?, if_pos (by simp)]
  -- the values are looked up name by name, all in the whole list of fields
  suffices h : ∀ (ns : List String) (vs : List Json), vs.length = ns.length →
      (∀ p ∈ ns.zip vs, p ∈ names.zip values) →
      ns.mapM (lookup? ((names.zip values).map fun (name, value) => (some name, value))) =
        some (vs.map some) from h names values hlen fun _ hp => hp
  intro ns
  induction ns with
  | nil =>
    intro vs hvs _
    obtain rfl := List.eq_nil_of_length_eq_zero hvs
    rfl
  | cons name ns ih =>
    intro vs hvs hmem
    cases vs with
    | nil => simp at hvs
    | cons v vs =>
      rw [List.zip_cons_cons, List.forall_mem_cons] at hmem
      rw [List.mapM_cons, lookup?_of_mem hnodup hmem.1, ih vs (by simpa using hvs) hmem.2]
      rfl

theorem findsFields_recordFields? (names : List String) (hnodup : names.Nodup) :
    FindsFields names (recordFields? names) := by
  intro values hlen
  refine ⟨objectFields?_zip hnodup hlen, ?_⟩
  rw [recordFields?, if_pos hlen]

theorem findsFields_defaultedFields? (names : List String) (hnodup : names.Nodup) :
    FindsFields names (defaultedFields? names) := by
  intro values hlen
  refine ⟨objectFields?_zip hnodup hlen, ?_⟩
  rw [defaultedFields?, if_pos (Nat.le_of_eq hlen), hlen, Nat.sub_self, List.replicate_zero,
    List.append_nil]

/-- Whether decoding undoes encoding for a type of records: what is encoded is decoded up to `kept`,
as an object and as the array of the values of its fields, and encoding what was decoded from any
JSON value once more changes nothing. -/
structure RoundTrips {α : Type} (e : α → Json) (d : Decoder α) (kept : α → α) : Prop where
  object : ∀ a, Decodes d (e a) (kept a)
  array : ∀ a, ∃ fields, e a = .object fields ∧ Decodes d (.arr (fields.map (·.2))) (kept a)
  again : ∀ n j a, d n j = some a → ∃ b, Decodes d (e a) b ∧ e b = e a

/-- Records whose decoder looks at the values of the fields only. -/
theorem RoundTrips.of_fields {α : Type} {e : α → Json} {d : Decoder α} {kept : α → α}
    {names : List String} {fields? : Json → Option (List (Option Json))}
    (hfinds : FindsFields names fields?) (values : α → List Json)
    (hlen : ∀ a, (values a).length = names.length)
    (hencode : ∀ a, e a = .object (names.zip (values a)))
    (hdecode : ∀ a n j, fields? j = some ((values a).map some) → (∀ v ∈ values a, v.depth ≤ n) →
      d (n + 1) j = some (kept a))
    (hkept : ∀ a, e (kept a) = e a) : RoundTrips e d kept := by
  have hobject : ∀ a, Decodes d (e a) (kept a) := fun a n hn => by
    rw [hencode, Json.object, depth] at hn
    obtain ⟨m, rfl⟩ : ∃ m, n = m + 1 := ⟨n - 1, by omega⟩
    rw [Nat.add_le_add_iff_right, depthFields_zip_le_iff (hlen a)] at hn
    rw [hencode]
    exact hdecode a m _ (hfinds _ (hlen a)).1 hn
  refine ⟨hobject, fun a => ⟨_, hencode a, fun n hn => ?_⟩, fun n j a _ => ?_⟩
  · rw [List.map_snd_zip (Nat.le_of_eq (hlen a)), depth] at hn
    obtain ⟨m, rfl⟩ : ∃ m, n = m + 1 := ⟨n - 1, by omega⟩
    rw [Nat.add_le_add_iff_right, depthAll_le_iff] at hn
    rw [List.map_snd_zip (Nat.le_of_eq (hlen a))]
    exact hdecode a m _ (hfinds _ (hlen a)).2 hn
  · exact ⟨kept a, hobject a, hkept a⟩

end Typings.Json
