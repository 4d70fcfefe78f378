import HdlScaffold.Proofs.Comments
import HdlScaffold.Proofs.Rows

/-!
# Texts of tokens

A line has exactly one division into tokens, whatever its brackets and blanks (`Lexes`). Of the text
nothing but blanks is lost (`Lexes.flatMap_text`). A slice of the tokens is read back from its joined
text, unless leaving out blanks has put two slashes side by side in one of its ranges
(`lineTokens_join_iff`); a slash anywhere else is followed by a blank or by a token that is no word.
-/

namespace HdlScaffold

section Grammar

/-- The tokens that a text is made of, from its first character to its last. A word runs as far as it
can, and an opening bracket stands alone only if another one comes before every closing bracket. -/
inductive Lexes : Text → List Token → Prop
  | nil : Lexes [] []
  | blank {c : Char} {t : Text} {ts : List Token} (hc : isBlank c = true) (rest : Lexes t ts) :
    Lexes (c :: t) ts
  | word {w t : Text} {ts : List Token} (hne : w ≠ []) (hall : ∀ c ∈ w, isWordChar c = true)
    (hends : ∀ c ∈ t.head?, isWordChar c = false) (rest : Lexes t ts) :
    Lexes (w ++ t) (.word w :: ts)
  | range {inner t : Text} {ts : List Token} (hopen : '[' ∉ inner) (hclose : ']' ∉ inner)
    (rest : Lexes t ts) : Lexes ('[' :: (inner ++ ']' :: t))
      (.range ('[' :: inner.filter (fun c => !isBlank c) ++ [']']) :: ts)
  | opening {t : Text} {ts : List Token} (halone : ∀ a b, t = a ++ ']' :: b → '[' ∈ a)
    (rest : Lexes t ts) : Lexes ('[' :: t) (.other '[' :: ts)
  | closing {t : Text} {ts : List Token} (rest : Lexes t ts) : Lexes (']' :: t) (.other ']' :: ts)
  | mark {c : Char} {k : Token} {t : Text} {ts : List Token} (hk : Token.ofChar? c = some k)
    (rest : Lexes t ts) : Lexes (c :: t) (k :: ts)

theorem isRangeChar_iff {c : Char} : isRangeChar c = true ↔ c ≠ '[' ∧ c ≠ ']' := by
  simp [isRangeChar]

theorem forall_isRangeChar_iff {inner : Text} :
    (∀ c ∈ inner, isRangeChar c = true) ↔ '[' ∉ inner ∧ ']' ∉ inner := by
  simp only [isRangeChar_iff]
  constructor
  · exact fun h => ⟨fun hm => (h _ hm).1 rfl, fun hm => (h _ hm).2 rfl⟩
  · rintro ⟨hopen, hclose⟩ c hc
    exact ⟨fun h => hopen (h ▸ hc), fun h => hclose (h ▸ hc)⟩

theorem closeRange?_closing (t : Text) : closeRange? (']' :: t) = some ([], t) :=
  closeRange?_eq_some_iff.2 (by simp)

theorem isSome_closeRange? {b : Text} : ∀ {a : Text}, '[' ∉ a →
    (closeRange? (a ++ ']' :: b)).isSome = true
  | [], _ => by rw [List.nil_append, closeRange?_closing, Option.isSome_some]
  | c :: a, h => by
    rw [List.mem_cons, not_or] at h
    by_cases hc : c = ']'
    · rw [hc, List.cons_append, closeRange?_closing, Option.isSome_some]
    · have hskip := closeRange?_append_of_all (a := [c])
        (by simpa using isRangeChar_iff.2 ⟨Ne.symm h.1, hc⟩) (a ++ ']' :: b)
      rw [List.cons_append, ← isSome_closeRange? h.2, ← hskip]
      rfl

theorem closeRange?_eq_none_iff {t : Text} :
    closeRange? t = none ↔ ∀ a b, t = a ++ ']' :: b → '[' ∈ a := by
  constructor
  · rintro h a b rfl
    by_contra hopen
    have := isSome_closeRange? (b := b) hopen
    rw [h] at this
    cases this
  · intro h
    rcases hclose : closeRange? t with _ | ⟨inner, rest⟩
    · rfl
    · obtain ⟨ht, hinner⟩ := closeRange?_eq_some_iff.1 hclose
      exact absurd (h inner rest ht) (forall_isRangeChar_iff.1 hinner).1

theorem lexes_tokens (t : Text) : Lexes t (tokens t) := by
  induction t using lex_induction with
  | nil => rw [tokens_nil]; exact .nil
  | blank c t hc ih => rw [tokens_blank hc]; exact .blank hc ih
  | word w t hne hall hends ih => rw [tokens_word hne hall hends]; exact .word hne hall hends ih
  | range inner t hi ih =>
    obtain ⟨hopen, hclose⟩ := forall_isRangeChar_iff.1 hi
    rw [tokens_range hi]
    exact .range hopen hclose ih
  | opening t h ih => rw [tokens_opening h]; exact .opening (closeRange?_eq_none_iff.1 h) ih
  | closing t ih => rw [tokens_closing]; exact .closing ih
  | mark c k t hk ih => rw [tokens_mark hk]; exact .mark hk ih

namespace Lexes

variable {t : Text} {ts : List Token}

theorem tokens_eq (h : Lexes t ts) : tokens t = ts := by
  induction h with
  | nil => exact tokens_nil
  | blank hc _ ih => rw [tokens_blank hc, ih]
  | word hne hall hends _ ih => rw [tokens_word hne hall hends, ih]
  | range hopen hclose _ ih => rw [tokens_range (forall_isRangeChar_iff.2 ⟨hopen, hclose⟩), ih]
  | opening halone _ ih => rw [tokens_opening (closeRange?_eq_none_iff.2 halone), ih]
  | closing _ ih => rw [tokens_closing, ih]
  | mark hk _ ih => rw [tokens_mark hk, ih]

/-- The texts of the tokens are the text without its blanks. -/
theorem flatMap_text (h : Lexes t ts) : ts.flatMap Token.text = t.filter fun c => !isBlank c := by
  induction h with
  | nil => rfl
  | blank hc _ ih => rw [ih, List.filter_cons_of_neg (by simp [hc])]
  | @word w _ _ _ hall _ _ ih =>
    have hword : w.filter (fun c => !isBlank c) = w :=
      List.filter_eq_self.2 fun c hc => by rw [isBlank_of_isWordChar (hall c hc), Bool.not_false]
    rw [List.flatMap_cons, ih, List.filter_append, hword]
    rfl
  | range _ _ _ ih =>
    rw [List.flatMap_cons, ih, List.filter_cons_of_pos (by decide), List.filter_append,
      List.filter_cons_of_pos (by decide), Token.text]
    simp
  | opening _ _ ih => rw [List.flatMap_cons, ih, List.filter_cons_of_pos (by decide)]; rfl
  | closing _ ih => rw [List.flatMap_cons, ih, List.filter_cons_of_pos (by decide)]; rfl
  | mark hk _ ih =>
    obtain ⟨hblank, -, -, htext⟩ := mark_of_ofChar? hk
    rw [List.flatMap_cons, ih, List.filter_cons_of_pos (by simp [hblank]), htext]
    rfl

/-- Only a range can have a comment in it that was none on the line. -/
theorem not_hasComment_text (h : Lexes t ts) (ht : ¬ HasComment t) :
    ∀ k ∈ ts, k.isRange = false → ¬ HasComment k.text := by
  have htail : ∀ {a b : Text}, ¬ HasComment (a ++ b) → ¬ HasComment b := fun {a b} hab hb =>
    hab (hb.of_infix (List.suffix_append a b).isInfix)
  induction h with
  | nil => simp
  | blank _ _ ih => exact ih (htail (a := [_]) ht)
  | word _ _ _ _ ih =>
    refine List.forall_mem_cons.2 ⟨fun _ hw => ?_, ih (htail ht)⟩
    exact ht (hw.of_infix (List.prefix_append _ _).isInfix)
  | @range inner t ts _ _ _ ih =>
    refine List.forall_mem_cons.2 ⟨fun hrange => Bool.noConfusion hrange, ih ?_⟩
    exact htail (a := '[' :: (inner ++ [']'])) (by simpa using ht)
  | opening _ _ ih =>
    exact List.forall_mem_cons.2 ⟨fun _ => by decide, ih (htail (a := [_]) ht)⟩
  | closing _ ih =>
    exact List.forall_mem_cons.2 ⟨fun _ => by decide, ih (htail (a := [_]) ht)⟩
  | @mark c k _ _ hk _ ih =>
    refine List.forall_mem_cons.2 ⟨fun _ hc => ?_, ih (htail (a := [_]) ht)⟩
    rw [(mark_of_ofChar? hk).2.2.2] at hc
    exact absurd hc.length_le (by simp)

end Lexes

theorem existsUnique_lexes (t : Text) : ∃! ts, Lexes t ts :=
  ⟨tokens t, lexes_tokens t, fun _ h => h.tokens_eq.symm⟩

end Grammar

section Slices

theorem Token.not_hasComment_join : ∀ {ts : List Token},
    (∀ k ∈ ts, k.Lexed ∧ ¬ HasComment k.text) → ¬ HasComment (join ts)
  | [], _ => by decide
  | k :: ts, h => by
    have hts : ∀ j ∈ ts, j.Lexed ∧ ¬ HasComment j.text := fun j hj => h j (List.mem_cons_of_mem _ hj)
    obtain ⟨gap, hspace, hj, hends⟩ := k.exists_gap_join fun j hj => (hts j hj).1
    have hslash : '/' ∉ gap := fun hm => absurd (hspace _ hm) (by decide)
    rw [hj]
    refine Header.not_hasComment_text_append (h k (by simp)).1 (h k (by simp)).2 hends ?_
    exact not_hasComment_append (not_hasComment_of_not_mem hslash) (not_hasComment_join hts)
      fun hlast => absurd (List.mem_of_getLast? hlast) hslash

/-- A slice of the tokens of a line is read back from its joined text, unless one of its ranges has
become the start of a comment. -/
theorem lineTokens_join_iff {t : Text} (ht : ¬ HasComment t) {ts : List Token}
    (hts : ts <:+: tokens t) :
    lineTokens (Token.join ts) = ts ↔ ∀ r, .range r ∈ ts → ¬ HasComment r := by
  have hjoin : tokens (Token.join ts) = ts := tokens_join_of_infix hts
  constructor
  · intro hline r hr hcomment
    have hjoined : HasComment (Token.join ts) := hcomment.of_infix (Token.text_infix_join hr)
    rcases beforeComment_cases (Token.join ts) with heq | ⟨rest, hsplit, -⟩
    · rw [← heq] at hjoined
      exact not_hasComment_beforeComment _ hjoined
    · -- the two slashes are in the texts of the tokens, and not in those of the code before them
      have hall := (lexes_tokens (Token.join ts)).flatMap_text
      have hcode := (lexes_tokens (beforeComment (Token.join ts))).flatMap_text
      rw [← lineTokens, hline] at hcode
      rw [hjoin, hcode, hsplit, List.filter_append, ← hsplit, List.self_eq_append_right,
        List.filter_cons_of_pos (by decide)] at hall
      cases hall
  · intro hranges
    have hcomment : ¬ HasComment (Token.join ts) := by
      refine Token.not_hasComment_join fun k hk => ⟨lexed_of_mem_tokens t k (hts.subset hk), ?_⟩
      cases hrange : k.isRange with
      | false => exact (lexes_tokens t).not_hasComment_text ht k (hts.subset hk) hrange
      | true =>
        cases k <;> simp only [Token.isRange, reduceCtorEq] at hrange
        exact hranges _ hk
    rw [lineTokens_of_not hcomment, hjoin]

/-- Lexing a line succeeds in one way, loses blanks only, and is stable: each slice of the tokens, the
whole among them, is read back from its joined text unless one of its ranges contains two slashes. -/
theorem lineTokens_lossless_stable (line : Text) :
    (∃! ts, Lexes (beforeComment line) ts) ∧ Lexes (beforeComment line) (lineTokens line) ∧
    (lineTokens line).flatMap Token.text = (beforeComment line).filter (fun c => !isBlank c) ∧
    (∀ c, .other c ∈ lineTokens line → c = '[' ∨ c = ']') ∧
    ∀ ts, ts <:+: lineTokens line →
      (lineTokens (Token.join ts) = ts ↔ ∀ r, .range r ∈ ts → ¬ HasComment r) := by
  have hlexes : Lexes (beforeComment line) (lineTokens line) := lexes_tokens _
  refine ⟨existsUnique_lexes _, hlexes, hlexes.flatMap_text, fun c hc => ?_, fun ts hts => ?_⟩
  · exact lexed_of_mem_tokens _ _ hc
  · exact lineTokens_join_iff (not_hasComment_beforeComment line) hts

/-- A line whose first range is a quotient written with a blank between two slashes. -/
def quotientLine : Text := "w [ 7/ /2 ]/ /q, [ x : 0 ] r s] [ // c\n".toList

/-- Its tokens are not read back, those behind the quotient are. -/
theorem lineTokens_lossless_stable_quotientLine :
    lineTokens (Token.join (lineTokens quotientLine)) ≠ lineTokens quotientLine ∧
    lineTokens (Token.join ((lineTokens quotientLine).drop 2)) = (lineTokens quotientLine).drop 2 := by
  have hstable := (lineTokens_lossless_stable quotientLine).2.2.2.2
  have hquotient : Token.range "[7//2]".toList ∈ lineTokens quotientLine := by decide +kernel
  have hranges : ∀ k ∈ (lineTokens quotientLine).drop 2, k.isRange = true → ¬ HasComment k.text := by
    decide +kernel
  refine ⟨fun heq => (hstable _ List.infix_rfl).1 heq _ hquotient (by decide), ?_⟩
  exact (hstable _ (List.drop_suffix 2 _).isInfix).2 fun r hr => hranges _ hr rfl

end Slices

end HdlScaffold
