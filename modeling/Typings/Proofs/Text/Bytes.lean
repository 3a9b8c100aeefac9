import Typings.Proofs.Text.Blanking

/-!
# Texts as bytes

The UTF-8 bytes of a text, and what cutting and blanking a text does in terms of them. A text is
known from its bytes, also when only the bytes of its start are known. The byte of an ASCII
character is part of no other character, so it stands in the bytes exactly where the character
stands in the text; and a blanked text is known from the offsets of its newlines.
-/

namespace Typings.Text

-- ---------------------------------------------------------------------------
-- Cuts at the end of a part
-- ---------------------------------------------------------------------------

theorem dropBytes_append_add (s t : Text) (n : Nat) :
    dropBytes (byteLength s + n) (s ++ t) = dropBytes n t := by
  induction s with
  | nil => simp
  | cons c cs ih =>
    obtain ⟨k, hk⟩ := Nat.exists_eq_succ_of_ne_zero (Nat.ne_of_gt c.utf8Size_pos)
    have hsub : k + byteLength cs + n + 1 - c.utf8Size = byteLength cs + n := by omega
    rw [byteLength_cons, hk, Nat.succ_add, Nat.succ_add, List.cons_append, dropBytes, hsub, ih]

theorem takeBytes_append_add (s t : Text) (n : Nat) :
    takeBytes (byteLength s + n) (s ++ t) = s ++ takeBytes n t := by
  have h := takeBytes_append_dropBytes (byteLength s + n) (s ++ t)
  rw [dropBytes_append_add] at h
  refine List.append_cancel_right (h.trans ?_)
  rw [List.append_assoc, takeBytes_append_dropBytes]

theorem takeBytes_append_of_le {s : Text} {n : Nat} (h : n ≤ byteLength s) (t : Text) :
    takeBytes n (s ++ t) = takeBytes n s := by
  induction s generalizing n with
  | nil =>
    obtain rfl : n = 0 := by simpa using h
    simp [takeBytes]
  | cons c cs ih =>
    cases n with
    | zero => rfl
    | succ n =>
      rw [byteLength_cons] at h
      rw [List.cons_append, takeBytes, takeBytes, ih (by omega)]

theorem dropBytes_append_of_le {s : Text} {n : Nat} (h : n ≤ byteLength s) (t : Text) :
    dropBytes n (s ++ t) = dropBytes n s ++ t := by
  have hall := takeBytes_append_dropBytes n (s ++ t)
  rw [takeBytes_append_of_le h] at hall
  refine List.append_cancel_left (hall.trans ?_)
  rw [← List.append_assoc, takeBytes_append_dropBytes]

@[simp] theorem dropBytes_append (s t : Text) : dropBytes (byteLength s) (s ++ t) = t := by
  simpa [dropBytes] using dropBytes_append_add s t 0

@[simp] theorem takeBytes_append (s t : Text) : takeBytes (byteLength s) (s ++ t) = s := by
  simpa [takeBytes] using takeBytes_append_add s t 0

theorem suffixAt?_eq_some_iff {n : Nat} {s t : Text} :
    suffixAt? n s = some t ↔ ∃ u, s = u ++ t ∧ byteLength u = n := by
  induction s generalizing n with
  | nil =>
    cases n with
    | zero =>
      simp only [suffixAt?, Option.some.injEq]
      constructor
      · rintro rfl
        exact ⟨[], rfl, rfl⟩
      · rintro ⟨u, hu, _⟩
        exact (List.append_eq_nil_iff.mp hu.symm).2.symm
    | succ n =>
      simp only [suffixAt?, reduceCtorEq, false_iff]
      rintro ⟨u, hu, hlen⟩
      rw [(List.append_eq_nil_iff.mp hu.symm).1] at hlen
      exact absurd hlen (by simp)
  | cons c cs ih =>
    have hsize := c.utf8Size_pos
    cases n with
    | zero =>
      simp only [suffixAt?, Option.some.injEq]
      constructor
      · rintro rfl
        exact ⟨[], rfl, rfl⟩
      · rintro ⟨u, hu, hlen⟩
        cases u with
        | nil => exact hu
        | cons d ds =>
          have := d.utf8Size_pos
          simp only [byteLength_cons] at hlen
          omega
    | succ n =>
      simp only [suffixAt?]
      constructor
      · intro h
        split at h
        · obtain ⟨u, rfl, hlen⟩ := ih.mp h
          exact ⟨c :: u, rfl, by simp only [byteLength_cons]; omega⟩
        · exact absurd h (by simp)
      · rintro ⟨u, hu, hlen⟩
        cases u with
        | nil => exact absurd hlen (by simp)
        | cons d ds =>
          obtain ⟨rfl, rfl⟩ := List.cons.inj hu
          simp only [byteLength_cons] at hlen
          rw [if_pos (by omega)]
          exact ih.mpr ⟨ds, rfl, by omega⟩

@[simp] theorem suffixAt?_append (s t : Text) : suffixAt? (byteLength s) (s ++ t) = some t :=
  suffixAt?_eq_some_iff.mpr ⟨s, rfl, rfl⟩

theorem suffixAt?_append_add (s t : Text) (n : Nat) :
    suffixAt? (byteLength s + n) (s ++ t) = suffixAt? n t := by
  induction s with
  | nil => simp
  | cons c cs ih =>
    obtain ⟨k, hk⟩ := Nat.exists_eq_succ_of_ne_zero (Nat.ne_of_gt c.utf8Size_pos)
    have hsub : k + byteLength cs + n + 1 - c.utf8Size = byteLength cs + n := by omega
    rw [byteLength_cons, hk, Nat.succ_add, Nat.succ_add, List.cons_append, suffixAt?,
      if_pos (by omega), hsub, ih]

/-- A text has one start of each byte length. -/
theorem append_inj_of_byteLength {s t u v : Text} (h : s ++ t = u ++ v)
    (hlen : byteLength s = byteLength u) : s = u ∧ t = v := by
  have ht : some t = some v := by
    rw [← suffixAt?_append s t, h, hlen, suffixAt?_append]
  obtain rfl := Option.some.inj ht
  exact ⟨List.append_cancel_right h, rfl⟩

/-- Of two starts of a text, the shorter is a start of the longer. -/
theorem exists_append_of_byteLength_le {s t u v : Text} (h : s ++ t = u ++ v)
    (hle : byteLength s ≤ byteLength u) : ∃ m, u = s ++ m ∧ t = m ++ v := by
  rcases List.append_eq_append_iff.mp h with hlonger | ⟨m, rfl, rfl⟩
  · exact hlonger
  · have hlen : byteLength (u ++ m) = byteLength u := by
      refine Nat.le_antisymm hle ?_
      simp
    obtain ⟨hum, ht⟩ := append_inj_of_byteLength (t := t) (v := m ++ t) (by simp) hlen
    exact ⟨[], by simpa using hum.symm, ht⟩

-- ---------------------------------------------------------------------------
-- Bytes
-- ---------------------------------------------------------------------------

/-- The UTF-8 bytes of a text. -/
def bytes (s : Text) : List UInt8 := s.flatMap String.utf8EncodeChar

@[simp] theorem bytes_nil : bytes [] = [] := rfl

@[simp] theorem bytes_cons (c : Char) (cs : Text) :
    bytes (c :: cs) = String.utf8EncodeChar c ++ bytes cs := rfl

@[simp] theorem bytes_append (s t : Text) : bytes (s ++ t) = bytes s ++ bytes t :=
  List.flatMap_append

@[simp] theorem length_bytes (s : Text) : (bytes s).length = byteLength s := by
  induction s with
  | nil => rfl
  | cons c cs ih => simp [ih]

theorem utf8Encode_eq (s : Text) : List.utf8Encode s = (bytes s).toByteArray := rfl

theorem byteLength_toList (s : String) : byteLength s.toList = s.utf8ByteSize := by
  have hbytes : s.toByteArray = List.utf8Encode s.toList := by simp
  rw [← String.size_toByteArray, hbytes, utf8Encode_eq, List.size_toByteArray, length_bytes]

/-- Bytes that start with the bytes of a text belong to a text that starts with it. -/
theorem prefix_of_bytes {s t : Text} {bs : List UInt8} (h : bytes s ++ bs = bytes t) :
    ∃ u, t = s ++ u ∧ bytes u = bs := by
  have henc : List.utf8Encode s ++ bs.toByteArray = List.utf8Encode t := by
    rw [utf8Encode_eq, utf8Encode_eq, ← h, List.toByteArray_append]
  obtain ⟨u, rfl⟩ := List.isPrefix_of_utf8Encode_append_eq_utf8Encode _ henc
  rw [bytes_append] at h
  exact ⟨u, rfl, (List.append_cancel_left h).symm⟩

/-- Texts with the same bytes are the same. -/
theorem bytes_injective {s t : Text} (h : bytes s = bytes t) : s = t := by
  obtain ⟨u, rfl, hu⟩ := prefix_of_bytes (List.append_nil _ ▸ h : bytes s ++ [] = bytes t)
  cases u with
  | nil => exact (List.append_nil s).symm
  | cons c cs =>
    have := congrArg List.length hu
    have := c.utf8Size_pos
    simp only [length_bytes, byteLength_cons, List.length_nil] at *
    omega

-- ---------------------------------------------------------------------------
-- ASCII characters
-- ---------------------------------------------------------------------------

section

/-- A character of one byte. -/
def IsAscii (c : Char) : Prop := c.utf8Size = 1

instance (c : Char) : Decidable (IsAscii c) := inferInstanceAs (Decidable (_ = _))

variable {a c : Char}

theorem IsAscii.utf8EncodeChar_eq (ha : IsAscii a) : String.utf8EncodeChar a = [a.toUInt8] :=
  String.utf8EncodeChar_eq_singleton ha

theorem IsAscii.bytes_cons (ha : IsAscii a) (s : Text) : bytes (a :: s) = a.toUInt8 :: bytes s := by
  rw [Text.bytes_cons, ha.utf8EncodeChar_eq]
  rfl

theorem IsAscii.isUTF8FirstByte (ha : IsAscii a) : a.toUInt8.IsUTF8FirstByte := by
  have hpos : 0 < (String.utf8EncodeChar a).length := by simpa using a.utf8Size_pos
  have hfirst := (@UInt8.isUTF8FirstByte_getElem_utf8EncodeChar a 0 hpos).mpr rfl
  simpa [ha.utf8EncodeChar_eq] using hfirst

/-- A character has a first byte, and the others belong to no ASCII character. -/
theorem exists_utf8EncodeChar_eq (c : Char) :
    ∃ b bs, String.utf8EncodeChar c = b :: bs ∧ ∀ d : Char, IsAscii d → d.toUInt8 ∉ bs := by
  obtain ⟨b, bs, hbs⟩ := List.exists_cons_of_length_pos
    (by simpa using c.utf8Size_pos : 0 < (String.utf8EncodeChar c).length)
  refine ⟨b, bs, hbs, fun d hd hmem => ?_⟩
  obtain ⟨i, hi, hbyte⟩ := List.getElem_of_mem hmem
  have hlen : i + 1 < (String.utf8EncodeChar c).length := by
    rw [hbs]
    exact Nat.succ_lt_succ hi
  have hfirst : (String.utf8EncodeChar c)[i + 1].IsUTF8FirstByte := by
    simpa [hbs, hbyte] using hd.isUTF8FirstByte
  exact Nat.succ_ne_zero i (UInt8.isUTF8FirstByte_getElem_utf8EncodeChar.mp hfirst)

/-- The byte of an ASCII character belongs to that character only. -/
theorem IsAscii.mem_utf8EncodeChar_iff (ha : IsAscii a) :
    a.toUInt8 ∈ String.utf8EncodeChar c ↔ c = a := by
  constructor
  · intro hmem
    obtain ⟨b, bs, hbs, hrest⟩ := exists_utf8EncodeChar_eq c
    rw [hbs, List.mem_cons] at hmem
    rcases hmem with hb | hmem
    · have hprefix : bytes [a] ++ bs = bytes [c] := by
        rw [ha.bytes_cons, Text.bytes_cons c, hbs, hb]
        simp
      obtain ⟨u, hu, _⟩ := prefix_of_bytes hprefix
      exact (List.cons.inj hu).1
    · exact absurd hmem (hrest a ha)
  · rintro rfl
    simp [ha.utf8EncodeChar_eq]

theorem IsAscii.ne_of_mem (ha : IsAscii a) (hc : c ≠ a) {b : UInt8}
    (hb : b ∈ String.utf8EncodeChar c) : b ≠ a.toUInt8 := by
  rintro rfl
  exact hc (ha.mem_utf8EncodeChar_iff.mp hb)

/-- Bytes that start with the bytes of a word. -/
def startsWithBytes (word : String) (bs : List UInt8) : Bool :=
  (bytes word.toList).isPrefixOf bs

theorem startsWithBytes_bytes {word : String} {s : Text} :
    startsWithBytes word (bytes s) = true ↔ ∃ t, s = word.toList ++ t := by
  rw [startsWithBytes, List.isPrefixOf_iff_prefix]
  constructor
  · rintro ⟨bs, hbs⟩
    obtain ⟨t, ht, _⟩ := prefix_of_bytes hbs
    exact ⟨t, ht⟩
  · rintro ⟨t, rfl⟩
    exact ⟨bytes t, (bytes_append _ _).symm⟩

/-- An ASCII byte stands where its character stands. -/
theorem IsAscii.getElem?_bytes_eq_iff (ha : IsAscii a) {s : Text} {i : Nat} :
    (bytes s)[i]? = some a.toUInt8 ↔ ∃ u t, s = u ++ a :: t ∧ byteLength u = i := by
  constructor
  · intro h
    induction s generalizing i with
    | nil => simp at h
    | cons c cs ih =>
      rw [Text.bytes_cons] at h
      by_cases hi : i < (String.utf8EncodeChar c).length
      · rw [List.getElem?_append_left hi] at h
        obtain rfl := ha.mem_utf8EncodeChar_iff.mp (List.mem_of_getElem? h)
        rw [ha.utf8EncodeChar_eq, List.length_singleton] at hi
        obtain rfl : i = 0 := by omega
        exact ⟨[], cs, rfl, rfl⟩
      · rw [List.getElem?_append_right (by omega)] at h
        obtain ⟨u, t, rfl, hu⟩ := ih h
        rw [String.length_utf8EncodeChar] at hi hu
        exact ⟨c :: u, t, rfl, by rw [byteLength_cons]; omega⟩
  · rintro ⟨u, t, rfl, rfl⟩
    rw [bytes_append, List.getElem?_append_right (by simp), length_bytes, Nat.sub_self,
      ha.bytes_cons]
    rfl

end

-- ---------------------------------------------------------------------------
-- Newlines
-- ---------------------------------------------------------------------------

/-- What a blanked byte looks like. -/
def blankByte (b : UInt8) : Char := if b = 10 then '\n' else ' '

/-- The newline byte belongs to the newline only. -/
theorem ne_newline_of_mem_utf8EncodeChar {c : Char} (hc : c ≠ '\n') {b : UInt8}
    (hb : b ∈ String.utf8EncodeChar c) : b ≠ 10 :=
  IsAscii.ne_of_mem (rfl : IsAscii '\n') hc hb

theorem blankChar_eq_map (c : Char) :
    blankChar c = (String.utf8EncodeChar c).map blankByte := by
  unfold blankChar
  split
  · rename_i hc
    subst hc
    rfl
  · rename_i hc
    refine (List.eq_replicate_iff.mpr ⟨by simp, ?_⟩).symm
    intro d hd
    obtain ⟨b, hb, rfl⟩ := List.mem_map.mp hd
    exact if_neg (ne_newline_of_mem_utf8EncodeChar hc hb)

/-- A blanked text shows where the newline bytes are, and nothing else. -/
theorem blankAll_eq_map (s : Text) : blankAll s = (bytes s).map blankByte := by
  induction s with
  | nil => rfl
  | cons c cs ih => rw [blankAll_cons, bytes_cons, List.map_append, ih, blankChar_eq_map]

/-- Texts of the same length with newlines at the same offsets are blanked to the same. -/
theorem blankAll_eq_of_newlines {s t : Text} (hlen : byteLength s = byteLength t)
    (h : ∀ i : Nat, (bytes s)[i]? = some 10 ↔ (bytes t)[i]? = some 10) :
    blankAll s = blankAll t := by
  rw [blankAll_eq_map, blankAll_eq_map]
  refine List.ext_getElem (by simp [hlen]) fun i hs ht => ?_
  rw [List.length_map] at hs ht
  have hi := h i
  rw [List.getElem?_eq_getElem hs, List.getElem?_eq_getElem ht, Option.some.injEq,
    Option.some.injEq] at hi
  simp only [List.getElem_map, blankByte, hi]

/-- A text whose first bytes are those of another starts with it. -/
theorem exists_append_of_bytes {s t : Text}
    (h : ∀ i, i < byteLength s → (bytes s)[i]? = (bytes t)[i]?) : ∃ u, t = s ++ u := by
  have hprefix : bytes s <+: bytes t := by
    rw [List.prefix_iff_getElem?]
    intro i hi
    rw [← h i (by simpa using hi), List.getElem?_eq_getElem hi]
  obtain ⟨bs, hbs⟩ := hprefix
  obtain ⟨u, hu, _⟩ := prefix_of_bytes hbs
  exact ⟨u, hu⟩

theorem getElem?_bytes_append_left {s : Text} {i : Nat} (h : i < byteLength s) (t : Text) :
    (bytes (s ++ t))[i]? = (bytes s)[i]? := by
  rw [bytes_append, List.getElem?_append_left (by simpa using h)]

theorem getElem?_bytes_append_right (s t : Text) (i : Nat) :
    (bytes (s ++ t))[byteLength s + i]? = (bytes t)[i]? := by
  rw [bytes_append, List.getElem?_append_right (by simp)]
  simp

/-- Texts of the same length need comparing at their own offsets only. -/
theorem getElem?_bytes_eq_of_lt {s t : Text} {p : Nat → Prop} (hlen : byteLength s = byteLength t)
    (h : ∀ i < byteLength s, p i → (bytes s)[i]? = (bytes t)[i]?) (i : Nat) (hi : p i) :
    (bytes s)[i]? = (bytes t)[i]? := by
  by_cases hlt : i < byteLength s
  · exact h i hlt hi
  · rw [List.getElem?_eq_none (by simpa using hlt),
      List.getElem?_eq_none (by simpa [← hlen] using hlt)]

end Typings.Text
