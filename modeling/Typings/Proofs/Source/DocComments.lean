import Typings.Pattern.Declaration
import Typings.Proofs.Pattern.Parting
import Typings.Proofs.Source.Lexing

/-!
# Documentation comments

A closed documentation comment is read twice: the lexer finds its end when it looks for tokens, and
the declaration patterns find it again in the masked text. Both stop at the first `*/`, so whatever
the comment says, a declaration goes on right after it. Main statements: `IsDoc.tokens_append`,
`IsDoc.docComment_run` and `agreeAt_of_opening`.
-/

namespace Typings.Source

open Declaration Pattern Computability

-- ---------------------------------------------------------------------------
-- The first end of a comment
-- ---------------------------------------------------------------------------

/-- A text that ends with its first `*/`. -/
def Closes (r : Text) : Prop := ∀ t, commentRest (r ++ t) = r.length

theorem commentRest_cons_of_ne {c : Char} (hc : c ≠ '*') (s : Text) :
    commentRest (c :: s) = commentRest s + 1 :=
  commentRest.eq_3 c s fun _ hstar _ => hc hstar

theorem commentRest_star {s : Text} (hs : s.head? ≠ some '/') :
    commentRest ('*' :: s) = commentRest s + 1 :=
  commentRest.eq_3 '*' s fun _ _ hslash => hs (by rw [hslash]; rfl)

theorem commentRest_stars (n : Nat) {s : Text} (hs : s.head? ≠ some '/') :
    commentRest (List.replicate n '*' ++ s) = n + commentRest s := by
  induction n with
  | zero => simp
  | succ n ih =>
    have hhead : (List.replicate n '*' ++ s).head? ≠ some '/' := by
      cases n with
      | zero => simpa using hs
      | succ n => simp [List.replicate_succ]
    rw [List.replicate_succ, List.cons_append, commentRest_star hhead, ih]
    omega

theorem Closes.ne_nil {r : Text} (h : Closes r) : r ≠ [] := by
  rintro rfl
  have := h ['x']
  simp [commentRest] at this

theorem Closes.cons {c : Char} {r : Text} (h : Closes r) (hc : c = '*' → r.head? ≠ some '/') :
    Closes (c :: r) := by
  intro t
  have hhead : (r ++ t).head? = r.head? := by
    rw [List.head?_append, List.head?_eq_some_head h.ne_nil]
    rfl
  have hstep : commentRest (c :: (r ++ t)) = commentRest (r ++ t) + 1 :=
    commentRest.eq_3 c _ fun _ hstar hslash => hc hstar (by rw [← hhead, hslash]; rfl)
  rw [List.cons_append, hstep, h t, List.length_cons]

theorem closes_end : Closes ['*', '/'] := fun _ => rfl

/-- Texts that end with their first `*/` and start alike are the same. -/
theorem Closes.eq_of_append {r r' t u : Text} (h : Closes r) (h' : Closes r')
    (heq : r ++ t = r' ++ u) : r = r' := by
  refine (List.append_inj heq ?_).1
  rw [← h t, heq, h' u]

/-- What a comment takes ends with its first `*/`, or nothing in the text ends it. -/
theorem closes_take_or (s : Text) :
    Closes (s.take (commentRest s)) ∨
      s.take (commentRest s) = s ∧ ∀ u, s ≠ u ++ ['*', '/'] := by
  fun_induction commentRest s with
  | case1 => exact .inr ⟨rfl, by simp⟩
  | case2 rest => exact .inl closes_end
  | case3 c cs hend ih =>
    rw [List.take_succ_cons]
    rcases ih with hclosed | ⟨htake, hopen⟩
    · refine .inl (hclosed.cons fun hc hslash => ?_)
      cases cs with
      | nil => exact hclosed.ne_nil rfl
      | cons d ds =>
        cases hk : commentRest (d :: ds) with
        | zero =>
          rw [hk] at hclosed
          exact hclosed.ne_nil rfl
        | succ k =>
          rw [hk, List.take_succ_cons, List.head?_cons, Option.some.injEq] at hslash
          exact hend ds hc (by rw [hslash])
    · refine .inr ⟨by rw [htake], fun u hu => ?_⟩
      cases u with
      | nil =>
        obtain ⟨rfl, rfl⟩ := List.cons.inj hu
        exact hend [] rfl rfl
      | cons d us => exact hopen us (List.cons.inj hu).2

/-- A text of spaces and newlines before the end of a comment. -/
theorem closes_blank {s : Text} (hs : ∀ c ∈ s, c ≠ '*') : Closes (s ++ ['*', '/']) := by
  induction s with
  | nil => exact closes_end
  | cons c cs ih =>
    rw [List.cons_append]
    refine (ih fun d hd => hs d (List.mem_cons_of_mem _ hd)).cons fun hc => ?_
    exact absurd hc (hs c List.mem_cons_self)

-- ---------------------------------------------------------------------------
-- The texts of closed comments
-- ---------------------------------------------------------------------------

/-- The text of a closed documentation comment. -/
def IsDoc (d : Text) : Prop :=
  ∃ r, d = '/' :: '*' :: '*' :: r ∧ Closes r ∧ r.head? ≠ some '/'

theorem IsDoc.triviaAt?_eq {r : Text} (hr : Closes r) (hhead : r.head? ≠ some '/') (t : Text) :
    triviaAt? '/' ('*' :: '*' :: (r ++ t)) = some (.doc, r.length + 2) := by
  have hfirst : (r ++ t).head? ≠ some '/' := by
    rw [List.head?_append, List.head?_eq_some_head hr.ne_nil] at *
    exact hhead
  have hlen : commentRest ('*' :: (r ++ t)) = r.length + 1 := by rw [commentRest_star hfirst, hr t]
  simp only [triviaAt?, ↓reduceIte, hlen]
  cases hrt : r ++ t with
  | nil => exact absurd (List.append_eq_nil_iff.mp hrt).1 hr.ne_nil
  | cons c cs =>
    have hc : c ≠ '/' := fun hc => hfirst (by rw [hrt, hc]; rfl)
    simp [hc]

/-- A closed documentation comment is one token, whatever follows it. -/
theorem IsDoc.tokens_append {d : Text} (h : IsDoc d) (t : Text) :
    tokens (d ++ t) = .trivia .doc d :: tokens t := by
  obtain ⟨r, rfl, hr, hhead⟩ := h
  simp only [List.cons_append]
  rw [tokens_of_triviaAt? (IsDoc.triviaAt?_eq hr hhead t)]
  simp

/-- A documentation comment starts with `/**` and takes what follows up to the first `*/`. -/
theorem exists_of_triviaAt?_doc {c : Char} {cs : Text} {n : Nat}
    (h : triviaAt? c cs = some (.doc, n)) :
    ∃ rest, c = '/' ∧ cs = '*' :: '*' :: rest ∧ rest.head? ≠ some '/' ∧
      cs.take n = '*' :: '*' :: rest.take (commentRest rest) := by
  unfold triviaAt? at h
  split at h
  · rename_i hc
    split at h
    · simp at h
    · rename_i tail
      simp only [Option.some.injEq, Prod.mk.injEq] at h
      obtain ⟨hkind, rfl⟩ := h
      split at hkind
      · simp at hkind
      · rename_i rest hslash
        have hrest : rest.head? ≠ some '/' := by
          intro hhead
          obtain ⟨ds, rfl⟩ := List.head?_eq_some_iff.mp hhead
          exact hslash ds rfl
        refine ⟨rest, hc, rfl, hrest, ?_⟩
        rw [commentRest_star hrest, List.take_succ_cons, List.take_succ_cons]
      · simp at hkind
    · simp at h
  · split at h
    · split at h <;> simp at h
    · split at h <;> simp at h

/-- A documentation comment among the tokens of a text takes what follows its opening up to the
first `*/`, and the other tokens are those of the rest. -/
theorem exists_of_tokens_eq_doc {s d : Text} {ts us : List Token}
    (h : tokens s = ts ++ .trivia .doc d :: us) : ∃ rest : Text, rest.head? ≠ some '/' ∧
      d = '/' :: '*' :: '*' :: rest.take (commentRest rest) ∧
      us = tokens (rest.drop (commentRest rest)) := by
  have hrest := tokens_flatMap_text h
  cases hs : (Token.trivia .doc d :: us).flatMap Token.text with
  | nil =>
    rw [hs] at hrest
    simp at hrest
  | cons c cs =>
    rw [hs, tokens_cons] at hrest
    split at hrest
    · rename_i kind n htrivia
      obtain ⟨hfirst, rfl⟩ := List.cons.inj hrest
      obtain ⟨rfl, rfl⟩ := Token.trivia.inj hfirst
      obtain ⟨rest, rfl, rfl, hhead, htake⟩ := exists_of_triviaAt?_doc htrivia
      have hdrop : ('*' :: '*' :: rest).drop n = rest.drop (commentRest rest) := by
        have hsplit := List.take_append_drop n ('*' :: '*' :: rest)
        have hinside := List.take_append_drop (commentRest rest) rest
        rw [htake] at hsplit
        simp only [List.cons_append, List.cons.injEq, true_and] at hsplit
        exact List.append_cancel_left (hsplit.trans hinside.symm)
      exact ⟨rest, hhead, by rw [htake], by rw [hdrop]⟩
    · obtain ⟨hfirst, _⟩ := List.cons.inj hrest
      cases hfirst

theorem head?_take_ne {s : Text} (h : s.head? ≠ some '/') (n : Nat) :
    (s.take n).head? ≠ some '/' := by
  rw [List.head?_take]
  split
  · simp
  · exact h

/-- A documentation comment among the tokens of a text is closed when it ends with `*/`. -/
theorem isDoc_of_tokens_eq {s d : Text} {ts us : List Token}
    (h : tokens s = ts ++ .trivia .doc d :: us) (hend : ['*', '/'] <:+ d) : IsDoc d := by
  obtain ⟨rest, hhead, rfl, _⟩ := exists_of_tokens_eq_doc h
  have hkept := head?_take_ne hhead (commentRest rest)
  rcases closes_take_or rest with hclosed | ⟨hall, hopen⟩
  · exact ⟨_, rfl, hclosed, hkept⟩
  · -- a comment that nothing closes does not end with its end
    rw [hall] at hend hkept
    obtain ⟨u, hu⟩ := hend
    match u with
    | [] => simp at hu
    | [_] => simp at hu
    | [_, _] =>
      simp only [List.cons_append, List.nil_append, List.cons.injEq] at hu
      exact absurd (by rw [← hu.2.2.2]; rfl) hkept
    | _ :: _ :: _ :: u =>
      simp only [List.cons_append, List.cons.injEq] at hu
      exact absurd hu.2.2.2.symm (hopen u)

theorem isDoc_blank {s : Text} (hs : ∀ c ∈ s, c = ' ' ∨ c = '\n') :
    IsDoc ('/' :: '*' :: '*' :: (s ++ ['*', '/'])) := by
  refine ⟨_, rfl, closes_blank fun c hc hstar => ?_, ?_⟩
  · rcases hs c hc with rfl | rfl <;> simp at hstar
  · cases s with
    | nil => simp
    | cons c cs =>
      rcases hs c List.mem_cons_self with rfl | rfl <;> simp

-- ---------------------------------------------------------------------------
-- The pattern of a comment
-- ---------------------------------------------------------------------------

/-- A round of the inside of a comment: a character, or stars before a character that does not end
the comment. -/
def docRound : Shape := except "*" ||| .plus (.lit "*") ++ except "*/"

/-- A documentation comment without the space after it. -/
def docBody : Shape := .lit "/**" ++ .star docRound ++ .plus (.lit "*") ++ .lit "/"

theorem docComment_run_eq (next : Goal Part) (r : Place) :
    docComment.run next r = docBody.run (spaces.run next) r := rfl

theorem isPlain_docBody : docBody.isPlain = true := rfl

theorem mem_language_stars {w : Text} :
    w ∈ (plus (lit "*") : Shape).language ↔ ∃ n, w = List.replicate (n + 1) '*' := by
  have hstar : ∀ v : Text, v ∈ (lit "*" : Shape).language ↔ v = ['*'] := fun v => mem_language_lit
  rw [plus, mem_language_seq]
  constructor
  · rintro ⟨u, hu, v, hv, rfl⟩
    obtain rfl := (hstar u).mp hu
    obtain ⟨words, rfl, hwords⟩ := Language.mem_kstar.mp hv
    refine ⟨words.length, ?_⟩
    have hall : words = List.replicate words.length ['*'] :=
      List.eq_replicate_iff.mpr ⟨rfl, fun v hv => (hstar v).mp (hwords v hv)⟩
    rw [hall, List.replicate_succ]
    simp
  · rintro ⟨n, rfl⟩
    refine ⟨['*'], (hstar _).mpr rfl, List.replicate n '*', ?_, by simp [List.replicate_succ]⟩
    refine Language.mem_kstar.mpr ⟨List.replicate n ['*'], by simp, fun v hv => ?_⟩
    exact (hstar v).mpr (List.eq_of_mem_replicate hv)

theorem mem_language_docRound {w : Text} :
    w ∈ docRound.language ↔
      ∃ n c, w = List.replicate n '*' ++ [c] ∧ c ≠ '*' ∧ (n = 0 ∨ c ≠ '/') := by
  constructor
  · rintro (⟨c, hc, rfl⟩ | hw)
    · exact ⟨0, c, rfl, by simpa using hc, .inl rfl⟩
    · obtain ⟨u, hu, _, ⟨c, hc, rfl⟩, rfl⟩ := mem_language_seq.mp hw
      obtain ⟨n, rfl⟩ := mem_language_stars.mp hu
      have hne : c ≠ '*' ∧ c ≠ '/' := by simpa using hc
      exact ⟨n + 1, c, rfl, hne.1, .inr hne.2⟩
  · rintro ⟨n, c, rfl, hc, hn⟩
    cases n with
    | zero => exact .inl ⟨c, by simpa using hc, rfl⟩
    | succ n =>
      have hslash : c ≠ '/' := hn.resolve_left (by simp)
      refine .inr (mem_language_seq.mpr ⟨_, mem_language_stars.mpr ⟨n, rfl⟩, [c], ?_, rfl⟩)
      exact ⟨c, by simp [hc, hslash], rfl⟩

/-- A round before a text that ends with its first `*/`. -/
theorem Closes.round {n : Nat} {c : Char} (hc : c ≠ '*') (hn : n = 0 ∨ c ≠ '/') {r : Text} :
    Closes (List.replicate n '*' ++ [c] ++ r) ↔ Closes r := by
  have hrest : ∀ t, commentRest (List.replicate n '*' ++ [c] ++ r ++ t) =
      n + 1 + commentRest (r ++ t) := by
    intro t
    have hcons := commentRest_cons_of_ne hc (r ++ t)
    rw [List.append_assoc, List.append_assoc, List.singleton_append]
    rcases hn with rfl | hslash
    · simpa [Nat.add_comm] using hcons
    · rw [commentRest_stars n (by simpa using hslash), hcons]
      omega
  unfold Closes
  refine forall_congr' fun t => ?_
  rw [hrest]
  simp only [List.length_append, List.length_replicate, List.length_singleton]
  omega

theorem closes_stars (n : Nat) : Closes (List.replicate (n + 1) '*' ++ ['/']) := by
  intro t
  have h := commentRest_stars n (by simp : ('*' :: '/' :: t).head? ≠ some '/')
  simp only [List.replicate_succ', List.append_assoc, List.cons_append, List.nil_append,
    List.length_append, List.length_replicate, List.length_cons, List.length_nil] at h ⊢
  rw [h, commentRest]

/-- Stars at the front of a text. -/
theorem exists_stars (r : Text) :
    ∃ n s, r = List.replicate n '*' ++ s ∧ s.head? ≠ some '*' := by
  induction r with
  | nil => exact ⟨0, [], rfl, by simp⟩
  | cons c cs ih =>
    by_cases hc : c = '*'
    · obtain ⟨n, s, rfl, hs⟩ := ih
      exact ⟨n + 1, s, by rw [hc, List.replicate_succ, List.cons_append], hs⟩
    · exact ⟨0, c :: cs, rfl, by simpa using hc⟩

/-- The inside of a comment, its end and nothing else. -/
def docRest : Shape := .star docRound ++ (.plus (.lit "*") ++ .lit "/")

theorem docRest_of_round {x r : Text} (hx : x ∈ docRound.language) (hr : r ∈ docRest.language) :
    x ++ r ∈ docRest.language := by
  obtain ⟨u, hu, v, hv, rfl⟩ := mem_language_seq.mp hr
  exact mem_language_seq.mpr ⟨x ++ u, append_mem_language_star hx hu, v, hv, by simp⟩

theorem closes_of_mem_docRest {r : Text} (hr : r ∈ docRest.language) : Closes r := by
  obtain ⟨u, hu, v, hv, rfl⟩ := mem_language_seq.mp hr
  obtain ⟨stars, hstars, last, hlast, rfl⟩ := mem_language_seq.mp hv
  obtain ⟨n, rfl⟩ := mem_language_stars.mp hstars
  obtain rfl : last = ['/'] := mem_language_lit.mp hlast
  obtain ⟨words, rfl, hwords⟩ := Language.mem_kstar.mp hu
  clear hr hu hv
  induction words with
  | nil => exact closes_stars n
  | cons x words ih =>
    obtain ⟨k, c, rfl, hc, hk⟩ := mem_language_docRound.mp (hwords x List.mem_cons_self)
    rw [List.flatten_cons, List.append_assoc, Closes.round hc hk]
    exact ih fun y hy => hwords y (List.mem_cons_of_mem _ hy)

/-- A text that ends with its first `*/` is cut behind each run of stars that ends nothing. -/
theorem Closes.mem_docRest {r : Text} (hr : Closes r) : r ∈ docRest.language := by
  induction hn : r.length using Nat.strongRecOn generalizing r with
  | ind len ih =>
    obtain ⟨n, s, rfl, hs⟩ := exists_stars r
    cases s with
    | nil =>
      -- stars alone end nothing
      have hlong := hr ['x']
      rw [List.append_nil, commentRest_stars n (by simp)] at hlong
      simp [commentRest] at hlong
    | cons c cs =>
      have hc : c ≠ '*' := by simpa using hs
      have hsplit : List.replicate n '*' ++ c :: cs = List.replicate n '*' ++ [c] ++ cs := by simp
      by_cases hlast : n ≠ 0 ∧ c = '/'
      · obtain ⟨hpos, rfl⟩ := hlast
        obtain ⟨k, rfl⟩ := Nat.exists_eq_succ_of_ne_zero hpos
        rw [hsplit] at hr ⊢
        have hshort : List.replicate (k + 1) '*' ++ ['/'] =
            List.replicate (k + 1) '*' ++ ['/'] ++ cs :=
          (closes_stars k).eq_of_append hr (t := cs) (u := []) (by simp)
        rw [← hshort]
        refine mem_language_seq.mpr ⟨[], Language.nil_mem_kstar _, _, ?_, rfl⟩
        exact mem_language_seq.mpr
          ⟨_, mem_language_stars.mpr ⟨k, rfl⟩, ['/'], mem_language_lit.mpr rfl, rfl⟩
      · have hkeep : n = 0 ∨ c ≠ '/' := by
          by_cases hzero : n = 0
          · exact .inl hzero
          · exact .inr fun hc => hlast ⟨hzero, hc⟩
        rw [hsplit] at hr ⊢
        have hcs := (Closes.round hc hkeep).mp hr
        refine docRest_of_round (mem_language_docRound.mpr ⟨n, c, rfl, hc, hkeep⟩) ?_
        exact ih cs.length (by rw [← hn]; simp; omega) hcs rfl

/-- The pattern of a comment takes the texts that end with their first `*/`. -/
theorem mem_language_docRest {r : Text} : r ∈ docRest.language ↔ Closes r :=
  ⟨closes_of_mem_docRest, Closes.mem_docRest⟩

theorem mem_language_docBody {w : Text} :
    w ∈ docBody.language ↔ ∃ r, w = '/' :: '*' :: '*' :: r ∧ Closes r := by
  have hassoc : docBody.language = (lit "/**" : Shape).language * docRest.language := by
    show _ * _ * _ * _ = _ * (_ * (_ * _))
    rw [mul_assoc, mul_assoc]
  rw [hassoc]
  constructor
  · rintro ⟨u, hu, r, hr, rfl⟩
    obtain rfl := mem_language_lit.mp hu
    exact ⟨r, rfl, mem_language_docRest.mp hr⟩
  · rintro ⟨r, rfl, hr⟩
    exact ⟨"/**".toList, mem_language_lit.mpr rfl, r, mem_language_docRest.mpr hr, rfl⟩

theorem Closes.exists_eq_append {r : Text} (h : Closes r) : ∃ prose, r = prose ++ ['*', '/'] := by
  obtain ⟨u, _, v, hv, rfl⟩ := mem_language_seq.mp (mem_language_docRest.mpr h)
  obtain ⟨stars, hstars, last, hlast, rfl⟩ := mem_language_seq.mp hv
  obtain rfl := mem_language_lit.mp hlast
  obtain ⟨n, rfl⟩ := mem_language_stars.mp hstars
  exact ⟨u ++ List.replicate n '*', by simp [List.replicate_succ']⟩

theorem IsDoc.exists_eq_append {d : Text} (h : IsDoc d) : ∃ u, d = u ++ ['/'] := by
  obtain ⟨r, rfl, hr, _⟩ := h
  obtain ⟨prose, rfl⟩ := hr.exists_eq_append
  exact ⟨'/' :: '*' :: '*' :: (prose ++ ['*']), by simp⟩

theorem IsDoc.lastOr_eq {d : Text} (h : IsDoc d) (b : Option Char) :
    Text.lastOr b d = some '/' := by
  obtain ⟨u, rfl⟩ := h.exists_eq_append
  simp

/-- Where a documentation comment stands, the pattern of comments goes on behind it. -/
theorem IsDoc.docComment_run {d : Text} (h : IsDoc d) (next : Goal Part) (b : Option Char)
    (pos : Nat)
    (t : Text) : docComment.run next ⟨b, pos, d ++ t⟩ =
      spaces.run next ⟨some '/', pos + Text.byteLength d, t⟩ := by
  rw [← h.lastOr_eq b, docComment_run_eq]
  obtain ⟨r, rfl, hr, _⟩ := h
  refine run_eq_of_mem isPlain_docBody (mem_language_docBody.mpr ⟨r, rfl, hr⟩) fun v hv u hvu => ?_
  obtain ⟨r', rfl, hr'⟩ := mem_language_docBody.mp hv
  simp only [List.cons_append, List.cons.injEq, true_and] at hvu ⊢
  exact (hr.eq_of_append hr' hvu).symm

-- ---------------------------------------------------------------------------
-- Declarations with a comment before them
-- ---------------------------------------------------------------------------

/-- A pattern without the first of the parts that stand one after the other in it. -/
def withoutFirst : Shape → Shape
  | .seq (.seq p q) r => .seq (withoutFirst (.seq p q)) r
  | .seq _ q => q
  | p => p

/-- What is read from a comment on ends like what is read behind it, or with the comment. -/
theorem IsDoc.getLast?_takeBytes {d : Text} (hd : IsDoc d) {pos stop n : Nat}
    (hstop : pos + Text.byteLength d = stop) (hn : stop ≤ n) (t : Text) :
    (Text.takeBytes (n - pos) (d ++ t)).getLast? =
      (Text.takeBytes (n - stop) t).getLast?.or (some '/') := by
  have hcut : n - pos = Text.byteLength d + (n - stop) := by omega
  obtain ⟨u, hu⟩ := hd.exists_eq_append
  have hslash : d.getLast? = some '/' := by rw [hu, List.getLast?_concat]
  rw [hcut, Text.takeBytes_append_add, List.getLast?_append, hslash]

/-- A declaration with documentation comments of the same length before it matches alike. -/
theorem agreeAt_of_opening (p : Shape)
    (hrun : ∀ next r, p.run next r = (opt (group .doc docComment)).run
      ((withoutFirst p).run next) r)
    (hnull : (withoutFirst p).nullable = false) (hopens : (withoutFirst p).opensWith '/' = false)
    {d d' : Text} (hd : IsDoc d) (hd' : IsDoc d') {pos stop : Nat}
    (hstop : pos + Text.byteLength d = stop)
    (hstop' : pos + Text.byteLength d' = stop) (b : Option Char) (t : Text) :
    p.AgreeAt .doc stop ⟨b, pos, d ++ t⟩ ⟨b, pos, d' ++ t⟩ := by
  -- what follows the comment, in both texts
  let later : Goal Part := fun s => ((withoutFirst p).run done s).map (Ending.closed Part.doc s)
  have hforward : Forward later := (forward_done.run _).closed Part.doc
  have hmatch : ∀ {d : Text}, IsDoc d → pos + Text.byteLength d = stop →
      p.run done ⟨b, pos, d ++ t⟩ =
        (spaces.run later ⟨some '/', stop, t⟩).map (·.opened .doc ⟨b, pos, d ++ t⟩) := by
    intro d hd hstop
    have hnone : (withoutFirst p).run done ⟨b, pos, d ++ t⟩ = none := by
      obtain ⟨r, rfl, _⟩ := hd
      exact fails_of_opensWith hnull hopens pos done
    have hgroup := hd.docComment_run later b pos t
    rw [hstop] at hgroup
    rw [hrun]
    show ((group .doc docComment).run ((withoutFirst p).run done) _).or
      ((withoutFirst p).run done _) = _
    rw [hnone, Option.or_none, run]
    exact congrArg (Option.map _) hgroup
  unfold AgreeAt
  rw [hmatch hd hstop, hmatch hd' hstop']
  cases he : spaces.run later ⟨some '/', stop, t⟩ with
  | none => exact .none
  | some e =>
    obtain ⟨hle, hmarks⟩ := hforward.run spaces _ _ he
    have hle : stop ≤ e.stop := hle
    refine .some ⟨⟨rfl, rfl, ?_, fun g hg => ?_⟩, hle, fun g hg c hc => ?_⟩
    · exact (hd.getLast?_takeBytes hstop hle t).trans (hd'.getLast?_takeBytes hstop' hle t).symm
    · have hskip : ∀ s : Text, Match.get? ⟨⟨pos, e.stop, s⟩, .opened Part.doc pos s :: e.marks⟩ g =
          Match.get? ⟨⟨pos, e.stop, []⟩, e.marks⟩ g := by
        intro s
        simp [Match.get?, Match.opening?, Match.closing?, hg.symm]
      exact congrArg (Option.map _) ((hskip (d ++ t)).trans (hskip (d' ++ t)).symm)
    · obtain ⟨hopen, hclose⟩ := Match.exists_mem_marks_of_get? hc
      have hbehind : ∀ mark ∈ Mark.opened Part.doc pos (d ++ t) :: e.marks,
          (∀ k s, mark ≠ .opened .doc k s) → stop ≤ mark.pos := by
        intro mark hmark hne
        rcases List.mem_cons.mp hmark with rfl | hmark
        · exact absurd rfl (hne _ _)
        · exact hmarks mark hmark
      refine ⟨hbehind _ hopen ?_, hbehind _ hclose ?_⟩
      · intro k s heq
        exact hg (Mark.opened.inj heq).1
      · intro k s heq
        cases heq

section

variable {d d' : Text} {pos stop : Nat}

theorem agreeAt_typeHeader (hd : IsDoc d) (hd' : IsDoc d') (hstop : pos + Text.byteLength d = stop)
    (hstop' : pos + Text.byteLength d' = stop) (b : Option Char) (t : Text) :
    typeHeader.AgreeAt .doc stop ⟨b, pos, d ++ t⟩ ⟨b, pos, d' ++ t⟩ :=
  agreeAt_of_opening typeHeader (fun _ _ => rfl) (by decide) (by decide) hd hd' hstop hstop' b t

theorem agreeAt_method (hd : IsDoc d) (hd' : IsDoc d') (hstop : pos + Text.byteLength d = stop)
    (hstop' : pos + Text.byteLength d' = stop) (b : Option Char) (t : Text) :
    method.AgreeAt .doc stop ⟨b, pos, d ++ t⟩ ⟨b, pos, d' ++ t⟩ :=
  agreeAt_of_opening method (fun _ _ => rfl) (by decide) (by decide) hd hd' hstop hstop' b t

theorem agreeAt_field (hd : IsDoc d) (hd' : IsDoc d') (hstop : pos + Text.byteLength d = stop)
    (hstop' : pos + Text.byteLength d' = stop) (b : Option Char) (t : Text) :
    field.AgreeAt .doc stop ⟨b, pos, d ++ t⟩ ⟨b, pos, d' ++ t⟩ :=
  agreeAt_of_opening field (fun _ _ => rfl) (by decide) (by decide) hd hd' hstop hstop' b t

/-- A line pattern does not match where a documentation comment starts. -/
theorem agreeAt_of_fails {p : Shape} (hnull : p.nullable = false) (hopens : p.opensWith '/' = false)
    (hd : IsDoc d) (hd' : IsDoc d') (b : Option Char) (t : Text) :
    p.AgreeAt .doc stop ⟨b, pos, d ++ t⟩ ⟨b, pos, d' ++ t⟩ := by
  obtain ⟨r, rfl, _⟩ := hd
  obtain ⟨r', rfl, _⟩ := hd'
  unfold AgreeAt
  simp only [List.cons_append]
  rw [fails_of_opensWith hnull hopens pos done, fails_of_opensWith hnull hopens pos done]
  exact .none

end

end Typings.Source
