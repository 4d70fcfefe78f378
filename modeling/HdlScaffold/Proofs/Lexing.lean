import HdlScaffold.Line
import Mathlib.Data.List.Infix
import Mathlib.Data.List.TakeWhile
import Mathlib.Tactic.SplitIfs

/-!
# Lexing

The tokens of a text that is put together from pieces are the tokens of the pieces, as long as no
word runs into the next one and no bracket left open in front is closed behind (`tokens_append`).
A single token that lexing can give is read back from its own text (`tokens_text_append`).

What lexing gives keeps stray brackets apart: after an opening bracket without its partner, the next
bracket is never a closing one without its partner (`bracketsApart_tokens`).
-/

namespace HdlScaffold

section Characters

theorem isWordChar_of_isBlank {c : Char} (h : isBlank c = true) : isWordChar c = false := by
  simp [isWordChar, h]

theorem isBlank_of_isWordChar {c : Char} (h : isWordChar c = true) : isBlank c = false := by
  simp only [isWordChar, Bool.and_eq_true, Bool.not_eq_true'] at h
  exact h.1

theorem isRangeChar_of_isWordChar {c : Char} (h : isWordChar c = true) : isRangeChar c = true := by
  have hc : c ≠ '[' ∧ c ≠ ']' := by
    constructor <;> rintro rfl <;> exact absurd h (by decide)
  simp [isRangeChar, hc.1, hc.2]

theorem isRangeChar_of_isBlank {c : Char} (h : isBlank c = true) : isRangeChar c = true := by
  have hc : c ≠ '[' ∧ c ≠ ']' := by
    constructor <;> rintro rfl <;> exact absurd h (by decide)
  simp [isRangeChar, hc.1, hc.2]

theorem mark_of_ofChar? {c : Char} {k : Token} (h : Token.ofChar? c = some k) :
    isBlank c = false ∧ isWordChar c = false ∧ isRangeChar c = true ∧ k.text = [c] := by
  unfold Token.ofChar? at h
  split at h <;> simp only [Option.some.injEq, reduceCtorEq] at h <;> subst h <;> decide

end Characters

section Tokens

theorem tokens_nil : tokens [] = [] := by rw [tokens]

theorem tokens_blank {c : Char} (h : isBlank c = true) (t : Text) :
    tokens (c :: t) = tokens t := by
  rw [tokens, if_pos h]

theorem tokens_blanks : ∀ {g : Text}, (∀ c ∈ g, isBlank c = true) → ∀ t : Text,
    tokens (g ++ t) = tokens t
  | [], _, _ => rfl
  | c :: g, h, t => by
    rw [List.cons_append, tokens_blank (h c (by simp)),
      tokens_blanks (fun d hd => h d (by simp [hd]))]

theorem takeWhile_append_of_head {p : Char → Bool} {w t : Text} (hw : ∀ c ∈ w, p c = true)
    (ht : ∀ c ∈ t.head?, p c = false) : (w ++ t).takeWhile p = w := by
  rw [List.takeWhile_append_of_pos hw]
  cases t with
  | nil => simp
  | cons c t => simp [ht c (by simp)]

theorem dropWhile_append_of_head {p : Char → Bool} {w t : Text} (hw : ∀ c ∈ w, p c = true)
    (ht : ∀ c ∈ t.head?, p c = false) : (w ++ t).dropWhile p = t := by
  rw [List.dropWhile_append_of_pos hw]
  cases t with
  | nil => simp
  | cons c t => simp [ht c (by simp)]

theorem tokens_word {w t : Text} (hne : w ≠ []) (hw : ∀ c ∈ w, isWordChar c = true)
    (ht : ∀ c ∈ t.head?, isWordChar c = false) : tokens (w ++ t) = .word w :: tokens t := by
  obtain ⟨c, v, rfl⟩ := List.exists_cons_of_ne_nil hne
  have hc := hw c (by simp)
  have hv : ∀ d ∈ v, isWordChar d = true := fun d hd => hw d (by simp [hd])
  rw [List.cons_append, tokens, if_neg (by simp [isBlank_of_isWordChar hc]), if_pos hc,
    takeWhile_append_of_head hv ht, dropWhile_append_of_head hv ht]

theorem tokens_mark {c : Char} {k : Token} (h : Token.ofChar? c = some k) (t : Text) :
    tokens (c :: t) = k :: tokens t := by
  obtain ⟨hb, hw, hr, -⟩ := mark_of_ofChar? h
  have hc : c ≠ '[' := by
    rintro rfl
    exact absurd hr (by decide)
  rw [tokens, if_neg (by simp [hb]), if_neg (by simp [hw]), if_neg hc, h, Option.getD_some]

theorem closeRange?_eq_some_iff {t inner rest : Text} :
    closeRange? t = some (inner, rest)
      ↔ t = inner ++ ']' :: rest ∧ ∀ c ∈ inner, isRangeChar c = true := by
  constructor
  · intro h
    unfold closeRange? at h
    split at h
    · rename_i r hd
      simp only [Option.some.injEq, Prod.mk.injEq] at h
      obtain ⟨rfl, rfl⟩ := h
      refine ⟨?_, fun c hc => List.mem_takeWhile_imp hc⟩
      rw [← hd, List.takeWhile_append_dropWhile]
    · simp at h
  · rintro ⟨rfl, hi⟩
    have hr : ∀ c ∈ (']' :: rest).head?, isRangeChar c = false := by
      intro c hc
      simp only [List.head?_cons, Option.mem_def, Option.some.injEq] at hc
      subst hc
      decide
    unfold closeRange?
    rw [dropWhile_append_of_head hi hr, takeWhile_append_of_head hi hr]
    rfl

theorem closeRange?_append_of_all {a : Text} (ha : ∀ c ∈ a, isRangeChar c = true) (t : Text) :
    (closeRange? (a ++ t)).isSome = (closeRange? t).isSome := by
  unfold closeRange?
  rw [List.dropWhile_append_of_pos ha]
  split <;> rfl

/-- A bracket left open in `t` stays open when what follows closes none. -/
theorem closeRange?_append_eq_none {t u : Text} (ht : closeRange? t = none)
    (hu : closeRange? u = none) : closeRange? (t ++ u) = none := by
  have hsplit : t.takeWhile isRangeChar ++ t.dropWhile isRangeChar = t :=
    List.takeWhile_append_dropWhile
  rcases hd : t.dropWhile isRangeChar with _ | ⟨c, r⟩
  · have ha : ∀ c ∈ t, isRangeChar c = true := by
      rw [hd, List.append_nil] at hsplit
      rw [← hsplit]
      exact fun c hc => List.mem_takeWhile_imp hc
    rw [← Option.isNone_iff_eq_none, ← Option.not_isSome, closeRange?_append_of_all ha, hu]
    rfl
  · have hc : c ≠ ']' := by
      rintro rfl
      simp [closeRange?, hd] at ht
    unfold closeRange?
    have hdrop : (t ++ u).dropWhile isRangeChar = c :: r ++ u := by
      rw [List.dropWhile_append, hd]
      simp
    rw [hdrop]
    split
    · rename_i heq
      simp only [List.cons_append, List.cons.injEq] at heq
      exact absurd heq.1 hc
    · rfl

theorem tokens_range {inner : Text} (h : ∀ c ∈ inner, isRangeChar c = true) (t : Text) :
    tokens ('[' :: (inner ++ ']' :: t))
      = .range ('[' :: inner.filter (fun d => !isBlank d) ++ [']']) :: tokens t := by
  have hc : closeRange? (inner ++ ']' :: t) = some (inner, t) := closeRange?_eq_some_iff.2 ⟨rfl, h⟩
  rw [tokens, if_neg (by decide), if_neg (by decide), if_pos rfl]
  split
  · rename_i i r heq
    rw [hc, Option.some.injEq, Prod.mk.injEq] at heq
    obtain ⟨rfl, rfl⟩ := heq
    rfl
  · rename_i heq
    rw [hc] at heq
    simp at heq

theorem tokens_opening {t : Text} (h : closeRange? t = none) :
    tokens ('[' :: t) = .other '[' :: tokens t := by
  rw [tokens, if_neg (by decide), if_neg (by decide), if_pos rfl]
  split
  · rename_i heq
    rw [h] at heq
    simp at heq
  · rfl

theorem tokens_closing (t : Text) : tokens (']' :: t) = .other ']' :: tokens t := by
  rw [tokens, if_neg (by decide), if_neg (by decide), if_neg (by decide)]
  rfl

theorem closing_or_mark {c : Char} (hb : isBlank c = false) (hw : isWordChar c = false)
    (ho : c ≠ '[') : c = ']' ∨ ∃ k, Token.ofChar? c = some k := by
  simp only [isWordChar, hb, Bool.not_false, Bool.true_and, Bool.not_eq_false',
    List.contains_iff_mem] at hw
  have hmem : c ∈ ['#', '(', ')', '[', ']', ',', ';', '='] := hw
  simp only [List.mem_cons, List.not_mem_nil, or_false] at hmem
  rcases hmem with rfl | rfl | rfl | rfl | rfl | rfl | rfl | rfl <;> simp [Token.ofChar?] at ho ⊢

/-- The pieces that a text is read in, from the front. -/
theorem lex_induction {P : Text → Prop} (nil : P [])
    (blank : ∀ c t, isBlank c = true → P t → P (c :: t))
    (word : ∀ w t, w ≠ [] → (∀ c ∈ w, isWordChar c = true) →
      (∀ c ∈ t.head?, isWordChar c = false) → P t → P (w ++ t))
    (range : ∀ inner t, (∀ c ∈ inner, isRangeChar c = true) → P t →
      P ('[' :: (inner ++ ']' :: t)))
    (opening : ∀ t, closeRange? t = none → P t → P ('[' :: t))
    (closing : ∀ t, P t → P (']' :: t))
    (mark : ∀ c k t, Token.ofChar? c = some k → P t → P (c :: t)) : ∀ t, P t := by
  intro t
  fun_induction tokens t with
  | case1 => exact nil
  | case2 c t hc ih => exact blank c t hc ih
  | case3 c t hc hw ih =>
    have hall : ∀ d ∈ c :: t.takeWhile isWordChar, isWordChar d = true := by
      intro d hd
      rcases List.mem_cons.1 hd with rfl | hd
      · exact hw
      · exact List.mem_takeWhile_imp hd
    have hhead : ∀ d ∈ (t.dropWhile isWordChar).head?, isWordChar d = false := by
      intro d hd
      have := List.head?_dropWhile_not isWordChar t
      rw [Option.mem_def.1 hd] at this
      simpa using this
    have := word _ _ (by simp) hall hhead ih
    rwa [List.cons_append, List.takeWhile_append_dropWhile] at this
  | case4 t inner rest h _ _ ih =>
    obtain ⟨rfl, hi⟩ := closeRange?_eq_some_iff.1 h
    exact range inner rest hi ih
  | case5 t h _ _ ih => exact opening t h ih
  | case6 c t hb hw ho ih =>
    rcases closing_or_mark (by simpa using hb) (by simpa using hw) ho with rfl | ⟨k, hk⟩
    · exact closing t ih
    · exact mark c k t hk ih

/-- Pieces of a text can be read one by one where the second neither continues a word nor closes a
bracket. -/
theorem tokens_append (t : Text) {u : Text} (hw : ∀ c ∈ u.head?, isWordChar c = false)
    (hb : closeRange? u = none) : tokens (t ++ u) = tokens t ++ tokens u := by
  induction t using lex_induction with
  | nil => rw [tokens_nil, List.nil_append, List.nil_append]
  | blank c t hc ih => rw [List.cons_append, tokens_blank hc, tokens_blank hc, ih]
  | word w t hne hall ht ih =>
    have htu : ∀ c ∈ (t ++ u).head?, isWordChar c = false := by
      cases t with
      | nil => exact hw
      | cons d t => exact ht
    rw [List.append_assoc, tokens_word hne hall htu, tokens_word hne hall ht, ih,
      List.cons_append]
  | range inner t hi ih =>
    rw [List.cons_append, List.append_assoc, List.cons_append, tokens_range hi, tokens_range hi, ih]
    rfl
  | opening t h ih =>
    rw [List.cons_append, tokens_opening h, tokens_opening (closeRange?_append_eq_none h hb), ih,
      List.cons_append]
  | closing t ih => rw [List.cons_append, tokens_closing, tokens_closing, ih, List.cons_append]
  | mark c k t hk ih => rw [List.cons_append, tokens_mark hk, tokens_mark hk, ih, List.cons_append]

end Tokens

section Lexed

/-- Tokens that lexing can give. -/
def Token.Lexed : Token → Prop
  | word w => w ≠ [] ∧ ∀ c ∈ w, isWordChar c = true
  | range r => ∃ inner, r = '[' :: (inner ++ [']']) ∧
      ∀ c ∈ inner, isRangeChar c = true ∧ isBlank c = false
  | other c => c = '[' ∨ c = ']'
  | _ => True

theorem Token.lexed_of_ofChar? {c : Char} {k : Token} (h : Token.ofChar? c = some k) : k.Lexed := by
  unfold Token.ofChar? at h
  split at h <;> simp only [Option.some.injEq, reduceCtorEq] at h <;> subst h <;> trivial

theorem lexed_of_mem_tokens (t : Text) : ∀ k ∈ tokens t, k.Lexed := by
  induction t using lex_induction with
  | nil => simp [tokens_nil]
  | blank c t hc ih => rwa [tokens_blank hc]
  | word w t hne hall ht ih =>
    rw [tokens_word hne hall ht]
    simp only [List.mem_cons, forall_eq_or_imp]
    exact ⟨⟨hne, hall⟩, ih⟩
  | range inner t hi ih =>
    rw [tokens_range hi]
    simp only [List.mem_cons, forall_eq_or_imp]
    refine ⟨⟨inner.filter fun d => !isBlank d, rfl, fun c hc => ?_⟩, ih⟩
    simp only [List.mem_filter, Bool.not_eq_true'] at hc
    exact ⟨hi c hc.1, hc.2⟩
  | opening t h ih =>
    rw [tokens_opening h]
    simp only [List.mem_cons, forall_eq_or_imp]
    exact ⟨Or.inl rfl, ih⟩
  | closing t ih =>
    rw [tokens_closing]
    simp only [List.mem_cons, forall_eq_or_imp]
    exact ⟨Or.inr rfl, ih⟩
  | mark c k t hk ih =>
    rw [tokens_mark hk]
    simp only [List.mem_cons, forall_eq_or_imp]
    exact ⟨Token.lexed_of_ofChar? hk, ih⟩

theorem Token.head?_text {k : Token} (hk : k.Lexed) (hw : k.isWord = false) :
    ∃ c t, k.text = c :: t ∧ isWordChar c = false := by
  cases k with
  | word w => simp [Token.isWord] at hw
  | range r =>
    obtain ⟨inner, rfl, -⟩ := hk
    exact ⟨'[', _, rfl, by decide⟩
  | other c => rcases hk with rfl | rfl <;> exact ⟨_, [], rfl, by decide⟩
  | hash | openParen | closeParen | comma | semicolon | equals => exact ⟨_, [], rfl, by decide⟩

theorem Token.text_ne_nil {k : Token} (hk : k.Lexed) : k.text ≠ [] := by
  rcases hw : k.isWord with _ | _
  · obtain ⟨c, t, ht, -⟩ := head?_text hk hw
    simp [ht]
  · cases k <;> simp only [Token.isWord, reduceCtorEq] at hw
    exact hk.1

/-- A gap that is not empty begins with a blank, and a blank is in no word. -/
theorem head?_gap_append {gap v : Text} (hgap : ∀ c ∈ gap, isBlank c = true)
    (hv : gap = [] → ∀ c ∈ v.head?, isWordChar c = false) :
    ∀ c ∈ (gap ++ v).head?, isWordChar c = false := by
  cases gap with
  | nil => exact hv rfl
  | cons d gap =>
    intro c hc
    obtain rfl : d = c := Option.some.inj hc
    exact isWordChar_of_isBlank (hgap d (by simp))

/-- A token is read back from its text, where no word continues it and, if it is an opening bracket,
no partner follows. -/
theorem tokens_text_append {k : Token} (hk : k.Lexed) {t : Text}
    (hw : k.isWord = true → ∀ c ∈ t.head?, isWordChar c = false)
    (ho : k = .other '[' → closeRange? t = none) : tokens (k.text ++ t) = k :: tokens t := by
  cases k with
  | word w => exact tokens_word hk.1 hk.2 (hw rfl)
  | range r =>
    obtain ⟨inner, rfl, hi⟩ := hk
    have hf : inner.filter (fun d => !isBlank d) = inner :=
      List.filter_eq_self.2 fun c hc => by simp [(hi c hc).2]
    have := tokens_range (fun c hc => (hi c hc).1) t
    rw [hf] at this
    simpa [Token.text] using this
  | other c =>
    rcases hk with rfl | rfl
    · exact tokens_opening (ho rfl)
    · exact tokens_closing t
  | hash => exact tokens_mark rfl t
  | openParen => exact tokens_mark rfl t
  | closeParen => exact tokens_mark rfl t
  | comma => exact tokens_mark rfl t
  | semicolon => exact tokens_mark rfl t
  | equals => exact tokens_mark rfl t

end Lexed

section Brackets

/-- The next bracket is a closing one without its partner. -/
def nextCloses : List Token → Bool
  | .other c :: _ => c == ']'
  | .range _ :: _ => false
  | _ :: ts => nextCloses ts
  | [] => false

/-- No opening bracket without its partner has a closing one as the next bracket. -/
def bracketsApart : List Token → Bool
  | .other c :: ts => (c != '[' || !nextCloses ts) && bracketsApart ts
  | _ :: ts => bracketsApart ts
  | [] => true

def Token.isBracket : Token → Bool
  | other _ => true
  | range _ => true
  | _ => false

theorem nextCloses_tokens (t : Text) : nextCloses (tokens t) = (closeRange? t).isSome := by
  induction t using lex_induction with
  | nil => rw [tokens_nil]; rfl
  | blank c t hc ih =>
    have := closeRange?_append_of_all (a := [c]) (by simpa using isRangeChar_of_isBlank hc) t
    rw [tokens_blank hc, ih]
    exact this.symm
  | word w t hne hall ht ih =>
    rw [tokens_word hne hall ht,
      closeRange?_append_of_all fun c hc => isRangeChar_of_isWordChar (hall c hc)]
    exact ih
  | range inner t hi ih =>
    rw [tokens_range hi]
    rfl
  | opening t h ih =>
    rw [tokens_opening h]
    rfl
  | closing t ih =>
    have hc : closeRange? (']' :: t) = some ([], t) := closeRange?_eq_some_iff.2 (by simp)
    rw [tokens_closing, hc]
    rfl
  | mark c k t hk ih =>
    have hc := (mark_of_ofChar? hk).2.2.1
    have := closeRange?_append_of_all (a := [c]) (by simpa using hc) t
    rw [tokens_mark hk, show (closeRange? (c :: t)).isSome = _ from this, ← ih]
    unfold Token.ofChar? at hk
    split at hk <;> simp only [Option.some.injEq, reduceCtorEq] at hk <;> subst hk <;> rfl

theorem closeRange?_of_nextCloses {t : Text} (h : nextCloses (tokens t) = false) :
    closeRange? t = none := by
  rw [nextCloses_tokens] at h
  simpa using h

theorem bracketsApart_tokens (t : Text) : bracketsApart (tokens t) = true := by
  induction t using lex_induction with
  | nil => rw [tokens_nil]; rfl
  | blank c t hc ih => rwa [tokens_blank hc]
  | word w t hne hall ht ih => rwa [tokens_word hne hall ht]
  | range inner t hi ih => rwa [tokens_range hi]
  | opening t h ih =>
    rw [tokens_opening h, bracketsApart, ih, nextCloses_tokens, h]
    rfl
  | closing t ih =>
    rw [tokens_closing, bracketsApart, ih]
    rfl
  | mark c k t hk ih =>
    rw [tokens_mark hk]
    unfold Token.ofChar? at hk
    split at hk <;> simp only [Option.some.injEq, reduceCtorEq] at hk <;> subst hk <;> exact ih

theorem bracketsApart_cons {k : Token} {ts : List Token} (h : bracketsApart (k :: ts) = true) :
    bracketsApart ts = true ∧ (k = .other '[' → nextCloses ts = false) := by
  cases k with
  | other c =>
    simp only [bracketsApart, Bool.and_eq_true, Bool.or_eq_true, bne_iff_ne, ne_eq,
      Bool.not_eq_true'] at h
    refine ⟨h.2, fun hc => ?_⟩
    rcases h.1 with h | h
    · exact absurd (Token.other.inj hc) h
    · exact h
  | word | range | hash | openParen | closeParen | comma | semicolon | equals =>
    exact ⟨h, fun hk => by simp at hk⟩

theorem nextCloses_append : ∀ {ts us : List Token}, nextCloses (ts ++ us) = false →
    nextCloses ts = false
  | [], _, _ => rfl
  | k :: ts, us, h => by
    cases k with
    | other c => exact h
    | range r => rfl
    | word | hash | openParen | closeParen | comma | semicolon | equals =>
      exact @nextCloses_append ts us h

theorem bracketsApart_of_append : ∀ {ts us : List Token}, bracketsApart (ts ++ us) = true →
    bracketsApart ts = true ∧ bracketsApart us = true
  | [], _, h => ⟨rfl, h⟩
  | k :: ts, us, h => by
    obtain ⟨hts, hk⟩ := bracketsApart_cons h
    obtain ⟨ih, hus⟩ := bracketsApart_of_append hts
    refine ⟨?_, hus⟩
    cases k with
    | other c =>
      rw [bracketsApart, ih, Bool.and_true]
      by_cases hc : c = '['
      · subst hc
        simp [nextCloses_append (hk rfl)]
      · simp [hc]
    | word | range | hash | openParen | closeParen | comma | semicolon | equals => exact ih

/-- Only brackets and ranges matter. -/
theorem nextCloses_filter : ∀ ts : List Token, nextCloses (ts.filter Token.isBracket) = nextCloses ts
  | [] => rfl
  | k :: ts => by cases k <;> first | rfl | exact nextCloses_filter ts

theorem bracketsApart_filter : ∀ ts : List Token,
    bracketsApart (ts.filter Token.isBracket) = bracketsApart ts
  | [] => rfl
  | k :: ts => by
    cases k with
    | other c =>
      show ((c != '[' || !nextCloses (ts.filter _)) && bracketsApart (ts.filter _)) = _
      rw [nextCloses_filter, bracketsApart_filter]
      rfl
    | word | range | hash | openParen | closeParen | comma | semicolon | equals =>
      exact bracketsApart_filter ts

theorem bracketsApart_append : ∀ {ts us : List Token}, (∀ k ∈ us, ∀ c, k ≠ .other c) →
    nextCloses (ts ++ us) = nextCloses ts ∧ bracketsApart (ts ++ us) = bracketsApart ts
  | [], [], _ => ⟨rfl, rfl⟩
  | [], k :: us, h => by
    have ih := @bracketsApart_append [] us fun j hj => h j (List.mem_cons_of_mem _ hj)
    cases k with
    | other c => exact absurd rfl (h _ (by simp) c)
    | range => exact ⟨rfl, ih.2⟩
    | word | hash | openParen | closeParen | comma | semicolon | equals => exact ih
  | k :: ts, us, h => by
    have ih := @bracketsApart_append ts us h
    cases k with
    | other c =>
      refine ⟨rfl, ?_⟩
      rw [List.cons_append, bracketsApart, bracketsApart, ih.1, ih.2]
    | range => exact ⟨rfl, ih.2⟩
    | word | hash | openParen | closeParen | comma | semicolon | equals => exact ih

end Brackets

section Comments

/-- A comment starts somewhere in the text. -/
def HasComment (t : Text) : Prop := ['/', '/'] <:+: t

instance (t : Text) : Decidable (HasComment t) := inferInstanceAs (Decidable (_ <:+: _))

theorem HasComment.of_infix {s t : Text} (h : s <:+: t) (hs : HasComment s) : HasComment t :=
  hs.trans h

theorem beforeComment_of_not {t : Text} (h : ¬ HasComment t) : beforeComment t = t := by
  fun_induction beforeComment t with
  | case1 => rfl
  | case2 => rfl
  | case3 c d t hc =>
    obtain ⟨rfl, rfl⟩ := hc
    exact absurd ⟨[], t, rfl⟩ h
  | case4 c d t _ ih =>
    rw [ih fun hs => h (hs.of_infix (List.suffix_cons c _).isInfix)]

theorem not_hasComment_of_not_mem {t : Text} (h : '/' ∉ t) : ¬ HasComment t := by
  rintro ⟨a, b, rfl⟩
  simp at h

/-- Two texts without a comment are one without a comment unless a slash meets a slash. -/
theorem not_hasComment_append {s t : Text} (hs : ¬ HasComment s) (ht : ¬ HasComment t)
    (h : s.getLast? = some '/' → t.head? ≠ some '/') : ¬ HasComment (s ++ t) := by
  rintro hst
  rcases List.infix_append_iff.1 hst with hst | hst | ⟨a, b, hab, ha, hb⟩
  · exact hs hst
  · exact ht hst
  · obtain ⟨u, rfl⟩ := ha
    obtain ⟨v, rfl⟩ := hb
    rcases a with _ | ⟨x, _ | ⟨y, _ | ⟨z, a⟩⟩⟩ <;>
      simp only [List.nil_append, List.cons_append, List.cons.injEq, reduceCtorEq, and_false] at hab
    · exact ht ⟨[], v, by rw [← hab]; rfl⟩
    · obtain ⟨rfl, rfl⟩ := hab
      exact h (by simp) (by simp)
    · obtain ⟨rfl, rfl, rfl⟩ := hab
      exact hs ⟨u, [], by simp⟩

theorem lineTokens_of_not {t : Text} (h : ¬ HasComment t) : lineTokens t = tokens t := by
  rw [lineTokens, beforeComment_of_not h]

end Comments

section Joining

/-- A joined list begins with its first token; a blank stands behind it between two words. -/
theorem Token.join_cons (t : Token) (ts : List Token) :
    ∃ gap : Text, (∀ c ∈ gap, c = ' ') ∧ join (t :: ts) = t.text ++ (gap ++ join ts) ∧
      (t.isWord = true → ts.head?.any isWord = true → gap ≠ []) := by
  rw [join.eq_def (t :: ts)]
  split
  · rename_i heq
    simp at heq
  · rename_i u v rest heq
    obtain ⟨rfl, rfl⟩ := List.cons.inj heq
    exact ⟨[' '], by simp, rfl, by simp⟩
  · rename_i u rest hwords heq
    obtain ⟨rfl, rfl⟩ := List.cons.inj heq
    refine ⟨[], by simp, rfl, fun ht hts => ?_⟩
    rcases ts with _ | ⟨k, ts⟩
    · simp at hts
    · cases t <;> simp only [isWord, reduceCtorEq] at ht
      cases k <;> simp [isWord] at hts
      exact absurd rfl (hwords _ _ _ rfl)

theorem Token.text_infix_join {k : Token} : ∀ {ts : List Token}, k ∈ ts → k.text <:+: join ts
  | t :: ts, h => by
    obtain ⟨gap, -, hg, -⟩ := join_cons t ts
    rw [hg]
    rcases List.mem_cons.1 h with rfl | h
    · exact (List.prefix_append _ _).isInfix
    · have ih := text_infix_join h
      exact ih.trans ((List.suffix_append gap _).trans (List.suffix_append _ _)).isInfix

theorem Token.head?_join {ts : List Token} (h : ∀ k ∈ ts, k.Lexed)
    (hw : ts.head?.any isWord = false) : ∀ c ∈ (join ts).head?, isWordChar c = false := by
  rcases ts with _ | ⟨k, ts⟩
  · simp [join]
  · obtain ⟨d, u, hd, hword⟩ := head?_text (h k (by simp)) (by simpa using hw)
    obtain ⟨gap, -, hj, -⟩ := join_cons k ts
    intro c hc
    rw [hj, hd] at hc
    obtain rfl : d = c := Option.some.inj hc
    exact hword

/-- In a joined list, no word runs into what follows it. -/
theorem Token.exists_gap_join (k : Token) {ts : List Token} (h : ∀ j ∈ ts, j.Lexed) :
    ∃ gap : Text, (∀ c ∈ gap, c = ' ') ∧ join (k :: ts) = k.text ++ (gap ++ join ts) ∧
      (k.isWord = true → ∀ c ∈ (gap ++ join ts).head?, isWordChar c = false) := by
  obtain ⟨gap, hspace, hj, hwords⟩ := join_cons k ts
  have hblank : ∀ c ∈ gap, isBlank c = true := fun c hc => by
    rw [hspace c hc]
    decide
  refine ⟨gap, hspace, hj, fun hk => head?_gap_append hblank fun hnil => head?_join h ?_⟩
  rw [← Bool.not_eq_true]
  exact fun hhead => hwords hk hhead hnil

/-- A list of tokens is read back from its joined text, if its stray brackets stay apart. -/
theorem tokens_join : ∀ {ts : List Token}, (∀ k ∈ ts, k.Lexed) → bracketsApart ts = true →
    tokens (Token.join ts) = ts
  | [], _, _ => tokens_nil
  | k :: ts, h, hb => by
    have hts : ∀ j ∈ ts, j.Lexed := fun j hj => h j (List.mem_cons_of_mem _ hj)
    obtain ⟨hapart, hnext⟩ := bracketsApart_cons hb
    obtain ⟨gap, hspace, hj, hends⟩ := k.exists_gap_join hts
    have hrest : tokens (gap ++ Token.join ts) = ts := by
      rw [tokens_blanks (fun c hc => by rw [hspace c hc]; decide), tokens_join hts hapart]
    rw [hj, tokens_text_append (h k (by simp)) hends, hrest]
    intro hk
    refine closeRange?_of_nextCloses ?_
    rw [hrest]
    exact hnext hk

/-- What is cut out of the tokens of a text is read back from its joined text. -/
theorem tokens_join_of_infix {t : Text} {ts : List Token} (h : ts <:+: tokens t) :
    tokens (Token.join ts) = ts := by
  obtain ⟨pre, post, hts⟩ := h
  have hapart := bracketsApart_tokens t
  rw [← hts] at hapart
  refine tokens_join (fun k hk => lexed_of_mem_tokens t k ?_)
    (bracketsApart_of_append (bracketsApart_of_append hapart).1).2
  rw [← hts]
  simp [hk]

end Joining

end HdlScaffold
