import HdlScaffold.Proofs.Declarations

/-!
# Phrases laid out over lines

The phrases of a header may be laid out freely: blanks stand between the tokens, and line feeds between
the phrases (`LaidOut`). Cut at its line feeds, such a text is a list of rows that hold whole phrases in
the order they were written (`exists_rows`), each row reads as its phrases (`RowText.tokens_eq`),
and its delimiters are those of its phrases.
-/

namespace HdlScaffold

/-- A token of an entry: it opens and closes no list. -/
structure Token.Plain (k : Token) : Prop where
  lexed : k.Lexed
  no_comment : ¬ HasComment k.text
  no_open : '(' ∉ k.text
  no_close : ')' ∉ k.text

namespace Header

section Layouts

/-- A phrase as it stands on one line. Blanks may stand between its tokens and must stand between two
words; a parenthesis directly follows its hash. -/
inductive OnLine : List Token → Text → Prop
  | single (k : Token) : OnLine [k] k.text
  | cons {k j : Token} {ks : List Token} {gap t : Text} (blank : ∀ c ∈ gap, isBlank c = true)
    (oneLine : '\n' ∉ gap) (apart : k.isWord = true → j.isWord = true → gap ≠ [])
    (tight : k = .hash → j = .openParen → gap = []) (rest : OnLine (j :: ks) t) :
    OnLine (k :: j :: ks) (k.text ++ (gap ++ t))

def startsInWord (phrase : List Token) : Bool := phrase.head?.any Token.isWord

def endsInWord (phrase : List Token) : Bool := phrase.getLast?.any Token.isWord

/-- Phrases with any blanks between them, line feeds among them. -/
inductive LaidOut : List (List Token) → Text → Prop
  | single {phrase : List Token} {u : Text} (written : OnLine phrase u) : LaidOut [phrase] u
  | cons {phrase next : List Token} {phrases : List (List Token)} {u gap t : Text}
    (written : OnLine phrase u) (blank : ∀ c ∈ gap, isBlank c = true)
    (apart : endsInWord phrase = true → startsInWord next = true → gap ≠ [])
    (rest : LaidOut (next :: phrases) t) : LaidOut (phrase :: next :: phrases) (u ++ (gap ++ t))

/-- Phrases on one line, the blanks around them included. -/
inductive RowText : List (List Token) → Text → Prop
  | nil {gap : Text} (blank : ∀ c ∈ gap, isBlank c = true) : RowText [] gap
  | cons {phrase : List Token} {phrases : List (List Token)} {lead u t : Text}
    (blank : ∀ c ∈ lead, isBlank c = true) (written : OnLine phrase u)
    (apart : endsInWord phrase = true → ∀ c ∈ t.head?, isWordChar c = false)
    (rest : RowText phrases t) : RowText (phrase :: phrases) (lead ++ (u ++ t))

/-- A line with the phrases that are written on it. -/
structure Row where
  phrases : List (List Token)
  text : Text
  written : RowText phrases text

end Layouts

section Phrases

variable {k : Token} {p : List Token} {u v : Text}

/-- A slash can only end a word, so a token never begins a comment with what follows it. -/
theorem not_hasComment_text_append (hk : k.Lexed) (hc : ¬ HasComment k.text)
    (hw : k.isWord = true → ∀ c ∈ v.head?, isWordChar c = false) (hv : ¬ HasComment v) :
    ¬ HasComment (k.text ++ v) := by
  refine not_hasComment_append hc hv fun hlast hhead => ?_
  cases k with
  | word w => exact absurd (hw rfl _ hhead) (by decide)
  | range r =>
    obtain ⟨inner, rfl, -⟩ := hk
    rw [Token.text, ← List.cons_append, List.getLast?_concat] at hlast
    simp at hlast
  | other c => rcases hk with rfl | rfl <;> simp [Token.text] at hlast
  | hash | openParen | closeParen | comma | semicolon | equals => simp [Token.text] at hlast

theorem OnLine.head? (h : OnLine p u) : ∃ k ks t, p = k :: ks ∧ u = k.text ++ t := by
  cases h with
  | single k => exact ⟨k, [], [], rfl, by simp⟩
  | cons => exact ⟨_, _, _, rfl, rfl⟩

theorem OnLine.head?_append (h : OnLine p u) (hp : ∀ k ∈ p, k.Lexed)
    (hw : startsInWord p = false) : ∀ c ∈ (u ++ v).head?, isWordChar c = false := by
  obtain ⟨k, ks, t, rfl, rfl⟩ := h.head?
  obtain ⟨d, s, hd, hs⟩ := Token.head?_text (hp k (by simp)) (by simpa [startsInWord] using hw)
  intro c hc
  rw [hd] at hc
  obtain rfl : d = c := Option.some.inj hc
  exact hs

theorem endsInWord_cons_cons (k j : Token) (ks : List Token) :
    endsInWord (k :: j :: ks) = endsInWord (j :: ks) := by
  simp [endsInWord, List.getLast?_cons]

/-- A phrase reads as its tokens in front of anything that continues no word and closes no bracket. -/
theorem OnLine.tokens_append (h : OnLine p u) (hp : ∀ k ∈ p, k.Lexed ∧ ¬ HasComment k.text)
    (hw : endsInWord p = true → ∀ c ∈ v.head?, isWordChar c = false)
    (hb : bracketsApart (p ++ tokens v) = true) :
    tokens (u ++ v) = p ++ tokens v ∧ (¬ HasComment v → ¬ HasComment (u ++ v)) := by
  induction h with
  | single k =>
    obtain ⟨hk, hc⟩ := hp k (by simp)
    have hword : k.isWord = true → ∀ c ∈ v.head?, isWordChar c = false := fun hk => hw hk
    exact ⟨tokens_text_append hk hword fun ho => closeRange?_of_nextCloses ((bracketsApart_cons hb).2 ho),
      not_hasComment_text_append hk hc hword⟩
  | @cons k j ks gap t blank oneLine apart tight rest ih =>
    obtain ⟨hk, hc⟩ := hp k (by simp)
    have hks : ∀ i ∈ j :: ks, i.Lexed ∧ ¬ HasComment i.text := fun i hi => hp i (List.mem_cons_of_mem _ hi)
    obtain ⟨hapart, hnext⟩ := bracketsApart_cons hb
    obtain ⟨ht, hcomment⟩ := ih hks (by rwa [endsInWord_cons_cons] at hw) hapart
    have hgap : tokens (gap ++ (t ++ v)) = j :: ks ++ tokens v := by rw [tokens_blanks blank, ht]
    have hword : k.isWord = true → ∀ c ∈ (gap ++ (t ++ v)).head?, isWordChar c = false := by
      refine fun hkw => head?_gap_append blank fun hnil => ?_
      refine rest.head?_append (fun i hi => (hks i hi).1) ?_
      rw [← Bool.not_eq_true]
      exact fun hj => apart hkw hj hnil
    have hgapComment : ¬ HasComment v → ¬ HasComment (gap ++ (t ++ v)) := by
      refine fun hv => not_hasComment_append (not_hasComment_of_not_mem fun hs => ?_) (hcomment hv)
        fun hs => ?_
      · exact absurd (blank _ hs) (by decide)
      · exact absurd (blank _ (List.mem_of_getLast? hs)) (by decide)
    rw [List.append_assoc, List.append_assoc]
    refine ⟨?_, fun hv => not_hasComment_text_append hk hc hword (hgapComment hv)⟩
    rw [tokens_text_append hk hword, hgap]
    · rfl
    · intro ho
      refine closeRange?_of_nextCloses ?_
      rw [hgap]
      exact hnext ho

theorem OnLine.mem_iff (h : OnLine p u) {c : Char} (hc : isBlank c = false) :
    c ∈ u ↔ ∃ k ∈ p, c ∈ k.text := by
  induction h with
  | single k => simp
  | @cons k j ks gap t blank oneLine apart tight rest ih =>
    have hgap : c ∉ gap := fun hm => by simp [blank c hm] at hc
    simp [hgap, ih]

theorem OnLine.newline_not_mem (h : OnLine p u) (hp : ∀ k ∈ p, k.Lexed) : '\n' ∉ u := by
  induction h with
  | single k => exact fun hn => absurd (Token.isBlank_of_mem_text (hp k (by simp)) hn) (by decide)
  | @cons k j ks gap t blank oneLine apart tight rest ih =>
    have hk : '\n' ∉ k.text := fun hn =>
      absurd (Token.isBlank_of_mem_text (hp k (by simp)) hn) (by decide)
    simp [hk, oneLine, ih fun i hi => hp i (List.mem_cons_of_mem _ hi)]

end Phrases

section Rows

variable {g : List (List Token)} {l : Text}

theorem RowText.append_blanks (h : RowText g l) {gap : Text} (hgap : ∀ c ∈ gap, isBlank c = true) :
    RowText g (l ++ gap) := by
  induction h with
  | nil blank =>
    refine .nil fun c hc => ?_
    rcases List.mem_append.1 hc with hc | hc
    · exact blank c hc
    · exact hgap c hc
  | @cons phrase phrases lead u t blank written apart rest ih =>
    rw [List.append_assoc, List.append_assoc]
    refine .cons blank written (fun hw => ?_) ih
    cases t with
    | nil => simpa using head?_gap_append (v := []) hgap (by simp)
    | cons d t => exact apart hw

theorem RowText.blank_cons {c : Char} (hc : isBlank c = true) (h : RowText g l) :
    RowText g (c :: l) := by
  cases h with
  | nil blank => exact .nil (by simpa [hc] using blank)
  | @cons phrase phrases lead u t blank written apart rest =>
    exact @RowText.cons phrase phrases (c :: lead) u t (by simpa [hc] using blank) written apart rest

/-- A row reads as the tokens of its phrases. -/
theorem RowText.tokens_eq (h : RowText g l) (hg : ∀ p ∈ g, ∀ k ∈ p, k.Lexed ∧ ¬ HasComment k.text)
    (hb : bracketsApart g.flatten = true) : tokens l = g.flatten ∧ ¬ HasComment l := by
  induction h with
  | @nil gap blank =>
    refine ⟨?_, not_hasComment_of_not_mem fun hs => absurd (blank _ hs) (by decide)⟩
    have := tokens_blanks blank []
    rwa [List.append_nil, tokens_nil] at this
  | @cons phrase phrases lead u t blank written apart rest ih =>
    rw [List.flatten_cons] at hb
    obtain ⟨ht, hcomment⟩ := ih (fun p hp => hg p (List.mem_cons_of_mem _ hp))
      (bracketsApart_of_append hb).2
    rw [← ht] at hb
    obtain ⟨hu, huc⟩ := written.tokens_append (hg phrase (by simp)) apart hb
    refine ⟨by rw [tokens_blanks blank, hu, ht, List.flatten_cons], ?_⟩
    refine not_hasComment_append (not_hasComment_of_not_mem fun hs => ?_) (huc hcomment) fun hs => ?_
    · exact absurd (blank _ hs) (by decide)
    · exact absurd (blank _ (List.mem_of_getLast? hs)) (by decide)

theorem RowText.mem_iff (h : RowText g l) {c : Char} (hc : isBlank c = false) :
    c ∈ l ↔ ∃ p ∈ g, ∃ k ∈ p, c ∈ k.text := by
  induction h with
  | nil blank => simpa using fun hm => by simp [blank c hm] at hc
  | @cons phrase phrases lead u t blank written apart rest ih =>
    have hlead : c ∉ lead := fun hm => by simp [blank c hm] at hc
    simp [hlead, written.mem_iff hc, ih]

/-- A row can be cut around any of its phrases. -/
theorem RowText.split {y : List (List Token)} {p : List Token} :
    ∀ {x : List (List Token)} {l : Text}, RowText (x ++ p :: y) l →
      ∃ a u b, l = a ++ (u ++ b) ∧ RowText x a ∧ OnLine p u ∧ RowText y b
  | [], _, h => by
    obtain _ | ⟨blank, written, apart, rest⟩ := h
    exact ⟨_, _, _, rfl, .nil blank, written, rest⟩
  | q :: x, _, h => by
    obtain _ | @⟨_, _, lead, v, t, blank, written, apart, rest⟩ := h
    obtain ⟨a, u, b, rfl, ha, hu, hb⟩ := RowText.split rest
    refine ⟨lead ++ (v ++ a), u, b, by simp, .cons blank written (fun hw c hc => ?_) ha, hu, hb⟩
    refine apart hw c ?_
    rw [Option.mem_def] at hc ⊢
    rw [List.head?_append, hc, Option.some_or]

end Rows

section Delimiters

/-- A phrase is one of the parentheses, or its tokens are plain. -/
def IsPhrase (p : List Token) : Prop :=
  p = [.hash, .openParen] ∨ p = [.openParen] ∨ p = [.closeParen] ∨ ∀ k ∈ p, k.Plain

theorem IsPhrase.of_plain {p : List Token} (h : ∀ k ∈ p, k.Plain) : IsPhrase p :=
  Or.inr (Or.inr (Or.inr h))

theorem IsPhrase.lexed {p : List Token} (h : IsPhrase p) :
    ∀ k ∈ p, k.Lexed ∧ ¬ HasComment k.text := by
  rcases h with rfl | rfl | rfl | h
  · intro k hk
    rcases List.mem_cons.1 hk with rfl | hk
    · exact ⟨trivial, by decide⟩
    · rw [List.mem_singleton.1 hk]
      exact ⟨trivial, by decide⟩
  · intro k hk
    rw [List.mem_singleton.1 hk]
    exact ⟨trivial, by decide⟩
  · intro k hk
    rw [List.mem_singleton.1 hk]
    exact ⟨trivial, by decide⟩
  · exact fun k hk => ⟨(h k hk).lexed, (h k hk).no_comment⟩

theorem IsPhrase.openParen_mem {p : List Token} (h : IsPhrase p) {k : Token} (hk : k ∈ p)
    (hc : '(' ∈ k.text) : p = [.hash, .openParen] ∨ p = [.openParen] := by
  rcases h with h | h | rfl | h
  · exact Or.inl h
  · exact Or.inr h
  · rw [List.mem_singleton.1 hk] at hc
    exact absurd hc (by decide)
  · exact absurd hc (h k hk).no_open

theorem IsPhrase.closeParen_mem {p : List Token} (h : IsPhrase p) {k : Token} (hk : k ∈ p)
    (hc : ')' ∈ k.text) : p = [.closeParen] := by
  rcases h with rfl | rfl | h | h
  · rcases List.mem_cons.1 hk with rfl | hk
    · exact absurd hc (by decide)
    · rw [List.mem_singleton.1 hk] at hc
      exact absurd hc (by decide)
  · rw [List.mem_singleton.1 hk] at hc
    exact absurd hc (by decide)
  · exact h
  · exact absurd hc (h k hk).no_close

theorem OnLine.opening {u : Text} (h : OnLine [.hash, .openParen] u) : u = ['#', '('] := by
  obtain _ | ⟨blank, oneLine, apart, tight, rest⟩ := h
  rw [tight rfl rfl]
  cases rest
  rfl

theorem OnLine.text_eq {k : Token} {u : Text} (h : OnLine [k] u) : u = k.text := by
  cases h
  rfl

variable {g : List (List Token)} {l : Text}

theorem RowText.closeParen_mem_iff (h : RowText g l) (hg : ∀ p ∈ g, IsPhrase p) :
    ')' ∈ l ↔ [.closeParen] ∈ g := by
  rw [h.mem_iff (by decide)]
  constructor
  · rintro ⟨p, hp, k, hk, hc⟩
    rwa [(hg p hp).closeParen_mem hk hc] at hp
  · exact fun hp => ⟨_, hp, .closeParen, by simp, by simp [Token.text]⟩

theorem RowText.openParen_not_mem (h : RowText g l) (hg : ∀ p ∈ g, IsPhrase p)
    (hhash : [.hash, .openParen] ∉ g) (hopen : [.openParen] ∉ g) : '(' ∉ l := by
  rw [h.mem_iff (by decide)]
  rintro ⟨p, hp, k, hk, hc⟩
  rcases (hg p hp).openParen_mem hk hc with rfl | rfl
  · exact hhash hp
  · exact hopen hp

/-- A row without the parenthesis of the port list opens none. -/
theorem RowText.opensPorts_addAll (h : RowText g l) (hg : ∀ p ∈ g, IsPhrase p)
    (hopen : [.openParen] ∉ g) (d : Delimiters) (c : Option Char) :
    (d.addAll c l).opensPorts = d.opensPorts := by
  have hblank : ∀ {t : Text}, (∀ c ∈ t, isBlank c = true) → '(' ∉ t := fun ht hc =>
    absurd (ht _ hc) (by decide)
  induction h generalizing d c with
  | nil blank => exact Delimiters.opensPorts_addAll (Or.inl (hblank blank)) c
  | @cons phrase phrases lead u t blank written apart rest ih =>
    simp only [List.mem_cons, not_or] at hopen
    rw [Delimiters.addAll_append, Delimiters.addAll_append,
      ih (fun p hp => hg p (List.mem_cons_of_mem _ hp)) hopen.2]
    have hlead := Delimiters.opensPorts_addAll (d := d) (Or.inl (hblank blank)) c
    by_cases hp : phrase = [.hash, .openParen]
    · subst hp
      rw [written.opening, Delimiters.addAll, Delimiters.addAll, Delimiters.addAll,
        Delimiters.opensPorts_add, Delimiters.opensPorts_add, hlead]
      simp
    · rw [Delimiters.opensPorts_addAll (Or.inl _), hlead]
      rw [written.mem_iff (by decide)]
      rintro ⟨k, hk, hc⟩
      rcases (hg phrase (by simp)).openParen_mem hk hc with h | h
      · exact hp h
      · exact hopen.1 h.symm

theorem RowText.getLast?_ne (h : RowText g l) (hg : ∀ p ∈ g, IsPhrase p)
    (hb : bracketsApart g.flatten = true) (hlast : g.flatten.getLast? ≠ some .hash) :
    l.getLast? ≠ some '#' := by
  intro hl
  obtain ⟨a, rfl⟩ := List.getLast?_eq_some_iff.1 hl
  obtain ⟨htokens, -⟩ := h.tokens_eq (fun p hp => (hg p hp).lexed) hb
  have hhash : tokens ['#'] = [.hash] := by
    rw [tokens_mark (k := .hash) rfl, tokens_nil]
  rw [tokens_append a (by decide) (by decide), hhash] at htokens
  exact hlast (by rw [← htokens, List.getLast?_concat])

end Delimiters

section Division

/-- The text is a list of rows with a line feed after each but the last. -/
def Divides (phrases : List (List Token)) (t : Text) : Prop :=
  ∃ (rows : List Row) (last : Row), t = (rows.map Row.text).flatten ++ last.text ∧
    (∀ r ∈ rows, r.text.IsLine) ∧ '\n' ∉ last.text ∧ last.text ≠ [] ∧
    (rows ++ [last]).flatMap Row.phrases = phrases

variable {ps : List (List Token)} {t : Text}

/-- What is written in front of a text joins its first row. -/
theorem Divides.prepend {q : List (List Token)} {v : Text} (h : Divides ps t) (hv : '\n' ∉ v)
    (hrow : ∀ g l, RowText g l → (∀ c ∈ l.head?, c ∈ t.head?) → RowText (q ++ g) (v ++ l)) :
    Divides (q ++ ps) (v ++ t) := by
  obtain ⟨rows, last, rfl, hlines, hlast, hne, rfl⟩ := h
  cases rows with
  | nil =>
    have hw := hrow _ _ last.written (by simp)
    refine ⟨[], ⟨_, _, hw⟩, by simp, by simp, ?_, by simp [hne], by simp⟩
    simp [hv, hlast]
  | cons r rows =>
    have hhead : ∀ c ∈ r.text.head?,
        c ∈ (((r :: rows).map Row.text).flatten ++ last.text).head? := by
      intro c hc
      rw [Option.mem_def] at hc ⊢
      rw [List.map_cons, List.flatten_cons, List.append_assoc, List.head?_append, hc, Option.some_or]
    have hw := hrow _ _ r.written hhead
    obtain ⟨s, hs, hns⟩ := hlines r (by simp)
    refine ⟨⟨_, _, hw⟩ :: rows, last, by simp, fun x hx => ?_, hlast, hne, by simp⟩
    rcases List.mem_cons.1 hx with rfl | hx
    · exact ⟨v ++ s, by simp [hs], by simp [hv, hns]⟩
    · exact hlines x (List.mem_cons_of_mem _ hx)

theorem Divides.newline (h : Divides ps t) : Divides ps ('\n' :: t) := by
  obtain ⟨rows, last, rfl, hlines, hlast, hne, rfl⟩ := h
  have hblank : ∀ c ∈ ['\n'], isBlank c = true := by decide
  refine ⟨⟨[], ['\n'], .nil hblank⟩ :: rows, last, by simp, fun x hx => ?_, hlast, hne, by simp⟩
  rcases List.mem_cons.1 hx with rfl | hx
  · exact ⟨[], rfl, by simp⟩
  · exact hlines x hx

theorem Divides.blanks : ∀ {gap : Text}, (∀ c ∈ gap, isBlank c = true) → Divides ps t →
    Divides ps (gap ++ t)
  | [], _, h => h
  | c :: gap, hgap, h => by
    have ih : Divides ps (gap ++ t) := Divides.blanks (fun d hd => hgap d (List.mem_cons_of_mem _ hd)) h
    by_cases hc : c = '\n'
    · rw [hc]
      exact ih.newline
    · exact ih.prepend (q := []) (v := [c]) (by simpa using Ne.symm hc) fun g l hl _ =>
        hl.blank_cons (hgap c (by simp))

theorem LaidOut.head? {p : List Token} (h : LaidOut (p :: ps) t) (hp : ∀ k ∈ p, k.Lexed)
    (hw : startsInWord p = false) : ∀ c ∈ t.head?, isWordChar c = false := by
  cases h with
  | single written =>
    have := written.head?_append (v := []) hp hw
    rwa [List.append_nil] at this
  | cons written => exact written.head?_append hp hw

/-- A line feed never comes inside a phrase, so every row holds whole phrases. -/
theorem LaidOut.divides (h : LaidOut ps t) (hps : ∀ p ∈ ps, ∀ k ∈ p, k.Lexed) : Divides ps t := by
  induction h with
  | @single p u written =>
    have hp := hps p (by simp)
    obtain ⟨k, ks, v, rfl, rfl⟩ := written.head?
    have hrow : RowText [k :: ks] ([] ++ (k.text ++ v ++ [])) :=
      .cons (by simp) written (by simp) (.nil (by simp))
    rw [List.nil_append, List.append_nil] at hrow
    exact ⟨[], ⟨_, _, hrow⟩, by simp, by simp, written.newline_not_mem hp,
      by simp [Token.text_ne_nil (hp k (by simp))], by simp⟩
  | @cons p q ps u gap t written blank apart rest ih =>
    have hrest := ih fun r hr => hps r (List.mem_cons_of_mem _ hr)
    refine (hrest.blanks blank).prepend (q := [p]) (written.newline_not_mem (hps p (by simp)))
      fun g l hl hhead => ?_
    have hword : endsInWord p = true → ∀ c ∈ l.head?, isWordChar c = false := by
      refine fun hw c hc => head?_gap_append blank (fun hnil => ?_) c (hhead c hc)
      refine rest.head? (hps q (by simp)) ?_
      rw [← Bool.not_eq_true]
      exact fun hq => apart hw hq hnil
    exact @RowText.cons p g [] u l (by simp) written hword hl

/-- The lines that a laid-out text begins with are rows of its phrases, whatever follows the text on
later lines. -/
theorem exists_rows {lead : Text} (h : LaidOut ps t) (hps : ∀ p ∈ ps, ∀ k ∈ p, k.Lexed)
    (hlead : ∀ c ∈ lead, isBlank c = true) {rest : Bytes} (hrest : rest = [] ∨ rest.head? = some 10) :
    ∃ (rows : List Row) (rest' : Bytes), rows.flatMap Row.phrases = ps ∧
      BeginsWith (Text.encode (lead ++ t) ++ rest) (rows.map Row.text) rest' := by
  obtain ⟨rows, last, heq, hlines, hlast, hne, hphrases⟩ := (h.divides hps).blanks hlead
  obtain ⟨l, rest', hl, hbegins⟩ := beginsWith_last hne hlast hrest
  have hwritten : RowText last.phrases l := by
    rcases hl with rfl | rfl
    · exact last.written
    · exact last.written.append_blanks (by decide)
  have hrows : ∀ k ∈ rows.map Row.text, k.IsLine := by
    intro k hk
    obtain ⟨r, hr, rfl⟩ := List.mem_map.1 hk
    exact hlines r hr
  refine ⟨rows ++ [⟨last.phrases, l, hwritten⟩], rest', ?_, ?_⟩
  · rw [← hphrases]
    simp
  · rw [heq, Text.encode_append, List.append_assoc, List.map_append]
    exact (beginsWith_of_isLine hrows _).append hbegins

end Division

section Search

variable {α : Type}

theorem exists_first {P : α → Prop} : ∀ {l : List α}, (∃ a ∈ l, P a) →
    ∃ pre a post, l = pre ++ a :: post ∧ P a ∧ ∀ b ∈ pre, ¬ P b
  | [], h => by simp at h
  | b :: l, h => by
    by_cases hb : P b
    · exact ⟨[], b, l, rfl, hb, by simp⟩
    · have hl : ∃ a ∈ l, P a := by simpa [hb] using h
      obtain ⟨pre, a, post, rfl, ha, hpre⟩ := exists_first hl
      exact ⟨b :: pre, a, post, rfl, ha, by simpa [hb] using hpre⟩

variable {s : α} {x y u v : List α}

theorem exists_of_not_mem (h : u ++ v = x ++ s :: y) (hs : s ∉ u) :
    ∃ z, x = u ++ z ∧ v = z ++ s :: y := by
  rcases List.append_eq_append_iff.1 h with ⟨z, hx, hv⟩ | ⟨z, hu, hy⟩
  · exact ⟨z, hx, hv⟩
  · cases z with
    | nil => exact ⟨[], by simp [hu], hy.symm⟩
    | cons b z =>
      obtain ⟨rfl, -⟩ := List.cons.inj hy
      simp [hu] at hs

theorem exists_of_mem (h : u ++ v = x ++ s :: y) (hx : s ∉ x) (hs : s ∈ u) :
    ∃ z, u = x ++ s :: z ∧ y = z ++ v := by
  rcases List.append_eq_append_iff.1 h with ⟨z, rfl, -⟩ | ⟨z, rfl, hy⟩
  · exact absurd (List.mem_append_left z hs) hx
  · cases z with
    | nil =>
      rw [List.append_nil] at hs
      exact absurd hs hx
    | cons b z =>
      obtain ⟨rfl, rfl⟩ := List.cons.inj hy
      exact ⟨z, rfl, rfl⟩

/-- The row that a phrase stands on, at its first occurrence. -/
theorem exists_row {rows : List Row} {p : List Token} {x y : List (List Token)}
    (h : rows.flatMap Row.phrases = x ++ p :: y) (hp : p ∉ x) :
    ∃ (pre : List Row) (r : Row) (post : List Row) (a b : List (List Token)),
      rows = pre ++ r :: post ∧ x = pre.flatMap Row.phrases ++ a ∧ r.phrases = a ++ p :: b ∧
      y = b ++ post.flatMap Row.phrases := by
  obtain ⟨pre, r, post, rfl, hr, hpre⟩ := exists_first (P := fun r : Row => p ∈ r.phrases) (l := rows)
    (List.mem_flatMap.1 (by simp [h]))
  rw [List.flatMap_append] at h
  obtain ⟨a, rfl, hrest⟩ := exists_of_not_mem h (by simpa using hpre)
  rw [List.flatMap_cons] at hrest
  obtain ⟨b, hb, hy⟩ := exists_of_mem hrest (fun ha => hp (List.mem_append_right _ ha)) hr
  exact ⟨pre, r, post, a, b, rfl, rfl, hb, hy⟩

end Search

section Reading

/-- A row that reads as its phrases. -/
structure Row.Sound (r : Row) : Prop where
  phrases : ∀ p ∈ r.phrases, IsPhrase p
  apart : bracketsApart r.phrases.flatten = true

variable {rows : List Row}

theorem sound_of_flatMap {ps : List (List Token)} (h : rows.flatMap Row.phrases = ps)
    (hps : ∀ p ∈ ps, IsPhrase p) (hb : bracketsApart ps.flatten = true) : ∀ r ∈ rows, r.Sound := by
  intro r hr
  obtain ⟨pre, post, rfl⟩ := List.append_of_mem hr
  rw [List.flatMap_append, List.flatMap_cons] at h
  refine ⟨fun p hp => hps p ?_, ?_⟩
  · rw [← h]
    simp [hp]
  · rw [← h, List.flatten_append, List.flatten_append] at hb
    exact (bracketsApart_of_append (bracketsApart_of_append hb).2).1

theorem Row.Sound.lineTokens_eq {r : Row} (h : r.Sound) : lineTokens r.text = r.phrases.flatten := by
  obtain ⟨htokens, hcomment⟩ := r.written.tokens_eq (fun p hp => (h.phrases p hp).lexed) h.apart
  rw [lineTokens_of_not hcomment, htokens]

/-- Rows are fed phrase by phrase. -/
theorem feedLines_of_run {σ α : Type} {feed : σ → List Token → Except Error (σ × List α)}
    (hnil : ∀ s, feed s [] = .ok (s, [])) (hrows : ∀ r ∈ rows, r.Sound) {s u : σ} {as : List α}
    (h : Run feed [] s (rows.flatMap Row.phrases) u as) :
    feedLines feed s ((rows.map Row.text).map lineTokens) = .ok (u, as) := by
  have hlines : (rows.map Row.text).map lineTokens = (rows.map Row.phrases).map List.flatten := by
    rw [List.map_map, List.map_map]
    exact List.map_congr_left fun r hr => (hrows r hr).lineTokens_eq
  rw [hlines]
  rw [List.flatMap_def] at h
  exact h.feedLines hnil

end Reading

end Header

end HdlScaffold
