import HdlScaffold.Proofs.BlockSearch
import HdlScaffold.Proofs.TokenTexts
import Mathlib.Data.List.Chain

/-!
# Delimiters and tokens

The delimiters of a line are looked for character by character, its declarations token by token. Where
no range hides a delimiter the two agree (`Delimiters.ofLine?_agrees`): a mark on the line is a token
(`Token.exists_split`), so parentheses can be counted either way, and as long as no blank follows a
hash, blanks can be left out of the line, so that a parenthesis follows a hash on the line if and only
if its token follows the token of the hash.
-/

namespace HdlScaffold

section Marks

variable {c : Char} {k : Token} {ts : List Token}

/-- The tokens are such as lexing gives, and the character is in none of their ranges. -/
def ShowsMark (c : Char) (ts : List Token) : Prop :=
  ∀ j ∈ ts, j.Lexed ∧ (j.isRange = true → c ∉ j.text)

theorem Token.not_mem_text {j : Token} (hc : ofChar? c = some k) (hj : j.Lexed)
    (hrange : j.isRange = true → c ∉ j.text) (hne : j ≠ k) : c ∉ j.text := by
  obtain ⟨-, hword, hbracket, -⟩ := mark_of_ofChar? hc
  intro hm
  cases j with
  | word w => simp [hj.2 c hm] at hword
  | range r => exact hrange rfl hm
  | other d =>
    obtain rfl : c = d := by simpa [text] using hm
    exact hj.elim (isRangeChar_iff.1 hbracket).1 (isRangeChar_iff.1 hbracket).2
  | hash | openParen | closeParen | comma | semicolon | equals =>
    obtain rfl := List.mem_singleton.1 hm
    exact hne (Option.some.inj hc)

theorem Token.count_flatMap_text (hc : ofChar? c = some k) : ∀ {ts : List Token}, ShowsMark c ts →
    (ts.flatMap text).count c = ts.count k
  | [], _ => rfl
  | j :: ts, h => by
    obtain ⟨⟨hj, hrange⟩, hts⟩ := List.forall_mem_cons.1 h
    rw [List.flatMap_cons, List.count_append, count_flatMap_text hc hts, List.count_cons]
    by_cases hjk : j = k
    · rw [hjk, (mark_of_ofChar? hc).2.2.2, beq_self_eq_true, if_pos rfl, List.count_singleton_self]
      omega
    · rw [List.count_eq_zero.2 (not_mem_text hc hj hrange hjk), if_neg (by simpa using hjk)]
      omega

/-- Where a mark stands in the texts of tokens, its token stands among them. -/
theorem Token.exists_split (hc : ofChar? c = some k) : ∀ {ts : List Token} {x y : Text},
    ShowsMark c ts → ts.flatMap text = x ++ c :: y →
    ∃ a b, ts = a ++ k :: b ∧ a.flatMap text = x ∧ b.flatMap text = y
  | [], x, y, _, heq => by simp at heq
  | j :: ts, x, y, h, heq => by
    obtain ⟨⟨hj, hrange⟩, hts⟩ := List.forall_mem_cons.1 h
    rw [List.flatMap_cons] at heq
    rcases List.append_eq_append_iff.1 heq with ⟨u, hx, hu⟩ | ⟨u, htext, hu⟩
    · obtain ⟨a, b, rfl, ha, hb⟩ := exists_split hc hts hu
      exact ⟨j :: a, b, rfl, by rw [List.flatMap_cons, ha, hx], hb⟩
    · rcases u with _ | ⟨d, u⟩
      · obtain ⟨a, b, rfl, ha, hb⟩ := exists_split (x := []) hc hts hu.symm
        exact ⟨j :: a, b, rfl, by simp [ha, htext], hb⟩
      · -- the mark is in the text of the first token, which is then the mark's token
        obtain ⟨rfl, hy⟩ := List.cons.inj hu
        have hjk : j = k := by
          by_contra hne
          exact not_mem_text hc hj hrange hne (by simp [htext])
        have hone := (mark_of_ofChar? hc).2.2.2
        rw [← hjk, htext, List.append_eq_singleton_iff] at hone
        rcases hone with ⟨rfl, hone⟩ | ⟨-, hone⟩
        · obtain ⟨-, rfl⟩ := List.cons.inj hone
          exact ⟨[], ts, by rw [hjk]; rfl, rfl, hy.symm⟩
        · cases hone

theorem Token.getLast?_text {j : Token} (hj : j.Lexed) : j.text.getLast? = some '#' ↔ j = .hash := by
  cases j with
  | word w =>
    refine ⟨fun h => ?_, fun h => by cases h⟩
    exact absurd (hj.2 _ (List.mem_of_getLast? h)) (by decide)
  | range r =>
    obtain ⟨inner, rfl, -⟩ := hj
    rw [text, ← List.cons_append, List.getLast?_concat]
    simp
  | other d => rcases hj with rfl | rfl <;> simp [text]
  | hash | openParen | closeParen | comma | semicolon | equals => simp [text]

theorem Token.getLast?_flatMap_text (h : ∀ j ∈ ts, j.Lexed) :
    (ts.flatMap text).getLast? = some '#' ↔ ts.getLast? = some .hash := by
  rcases List.eq_nil_or_concat' ts with rfl | ⟨a, j, rfl⟩
  · simp
  · have hj : j.Lexed := h j (by simp)
    obtain ⟨d, hd⟩ := Option.isSome_iff_exists.1 (List.getLast?_isSome.2 (text_ne_nil hj))
    rw [List.flatMap_append, List.flatMap_singleton, List.getLast?_append, List.getLast?_concat, hd,
      Option.some_or, ← hd, getLast?_text hj, Option.some.injEq]

end Marks

/-- The opening parenthesis between `a` and `b` does not directly follow a hash. -/
def Token.OpensBare (ts a b : List Token) : Prop :=
  ts = a ++ .openParen :: b ∧ a.getLast? ≠ some .hash

namespace Delimiters

variable {l : Text} {ts : List Token}

theorem opensParameters_iff :
    (ofText l).opensParameters = true ↔ ∃ a b, l = a ++ '(' :: b ∧ a.getLast? = some '#' := by
  constructor
  · intro h
    obtain ⟨a, c, b, rfl, ha, hc⟩ := @exists_raised opensParameters l {} none rfl h
    rw [opensParameters_add, ha, Bool.false_or, Bool.and_eq_true, decide_eq_true_eq,
      decide_eq_true_eq, Option.or_none] at hc
    obtain ⟨rfl, hlast⟩ := hc
    exact ⟨a, b, rfl, hlast⟩
  · rintro ⟨a, b, rfl, hlast⟩
    obtain ⟨a, rfl⟩ := List.getLast?_eq_some_iff.1 hlast
    rw [List.append_assoc, List.singleton_append]
    exact ofText_opensParameters

theorem opens_iff : (ofText l).opensParameters = true ∨ (ofText l).opensPorts = true ↔ '(' ∈ l := by
  rw [opensParameters_iff, opensPorts_iff]
  constructor
  · rintro (⟨a, b, rfl, -⟩ | ⟨a, b, rfl, -⟩) <;> simp
  · intro h
    obtain ⟨a, b, rfl⟩ := List.append_of_mem h
    by_cases hlast : a.getLast? = some '#'
    · exact Or.inl ⟨a, b, rfl, hlast⟩
    · exact Or.inr ⟨a, b, rfl, hlast⟩

/-- Blanks can be left out where none of them follows a hash. -/
theorem addAll_filter : ∀ {t : Text} (d : Delimiters) {p q : Option Char},
    (p = some '#' ↔ q = some '#') → (p = some '#' → ∀ c ∈ t.head?, isBlank c = false) →
    (t.IsChain fun c e => c = '#' → isBlank e = false) →
    addAll d p t = addAll d q (t.filter fun c => !isBlank c)
  | [], _, _, _, _, _, _ => rfl
  | c :: t, d, p, q, hpq, hhead, htight => by
    obtain ⟨hnext, htight⟩ := List.isChain_cons.1 htight
    by_cases hc : isBlank c = true
    · have hp : p ≠ some '#' := fun hp => by simp [hhead hp c rfl] at hc
      have hhash : c ≠ '#' := by
        rintro rfl
        exact absurd hc (by decide)
      have hquiet : ∀ e ∈ [c], e ≠ '(' ∧ e ≠ ')' ∧ e ≠ ';' := by
        simpa [isQuiet, and_assoc] using isQuiet_of_isBlank hc
      have hadd : d.add p c = d := addAll_of_quiet hquiet d p
      rw [addAll, hadd, List.filter_cons_of_neg (by simp [hc])]
      exact addAll_filter d (by simp [hhash, hpq.not.1 hp]) (fun h => absurd (Option.some.inj h) hhash)
        htight
    · have hadd : d.add p c = d.add q c := by simp only [add, hpq]
      rw [addAll, hadd, List.filter_cons_of_pos (by simpa using hc), addAll]
      exact addAll_filter _ Iff.rfl (fun h e he => hnext e he (Option.some.inj h)) htight

theorem ofText_filter (htight : l.IsChain fun c e => c = '#' → isBlank e = false) :
    ofText (l.filter fun c => !isBlank c) = ofText l :=
  (addAll_filter {} Iff.rfl (by simp) htight).symm

/-- What is said of the delimiters of a line by counting its tokens. -/
structure CountedIn (d : Delimiters) (ts : List Token) : Prop where
  closes : d.closes = ts.count .closeParen
  endsDeclaration : d.endsDeclaration = true ↔ .semicolon ∈ ts
  opens : d.opensParameters = true ∨ d.opensPorts = true ↔ .openParen ∈ ts

/-- What is said of them by the order of its tokens. Closing parentheses are counted behind the first
opening one that does not directly follow a hash. -/
structure PlacedIn (d : Delimiters) (ts : List Token) : Prop where
  opensParameters : d.opensParameters = true ↔ [.hash, .openParen] <:+: ts
  opensPorts : d.opensPorts = true ↔ ∃ a b, Token.OpensBare ts a b
  closesAfterPorts : ∀ a b, Token.OpensBare ts a b → (∀ x y, ¬ Token.OpensBare a x y) →
    d.closesAfterPorts = b.count .closeParen
  closesAfterNone : (∀ a b, ¬ Token.OpensBare ts a b) → d.closesAfterPorts = 0

theorem opensBare_iff (h : ShowsMark '(' ts) :
    (∃ x y, Text.OpensBare (ts.flatMap Token.text) x y) ↔ ∃ a b, Token.OpensBare ts a b := by
  have hlexed : ∀ {a b : List Token}, ts = a ++ .openParen :: b → ∀ j ∈ a, j.Lexed :=
    fun hts j hj => (h j (by simp [hts, hj])).1
  constructor
  · rintro ⟨x, y, htext, hlast⟩
    obtain ⟨a, b, hts, rfl, -⟩ := Token.exists_split (k := .openParen) rfl h htext
    exact ⟨a, b, hts, fun ha => hlast ((Token.getLast?_flatMap_text (hlexed hts)).2 ha)⟩
  · rintro ⟨a, b, hts, hlast⟩
    refine ⟨a.flatMap Token.text, b.flatMap Token.text, by simp [hts, Token.text], fun ha => ?_⟩
    exact hlast ((Token.getLast?_flatMap_text (hlexed hts)).1 ha)

/-- The texts of tokens, one behind the other, have their delimiters where the tokens are. -/
theorem placedIn_ofText (hopen : ShowsMark '(' ts) (hclose : ShowsMark ')' ts) :
    (ofText (ts.flatMap Token.text)).PlacedIn ts := by
  have hports : (ofText (ts.flatMap Token.text)).opensPorts = true ↔ ∃ a b, Token.OpensBare ts a b :=
    opensPorts_iff.trans (opensBare_iff hopen)
  refine ⟨?_, hports, ?_, fun hnone => ?_⟩
  · rw [opensParameters_iff]
    constructor
    · rintro ⟨x, y, htext, hlast⟩
      obtain ⟨a, b, rfl, rfl, -⟩ := Token.exists_split (k := .openParen) rfl hopen htext
      rw [Token.getLast?_flatMap_text fun j hj => (hopen j (by simp [hj])).1] at hlast
      obtain ⟨a, rfl⟩ := List.getLast?_eq_some_iff.1 hlast
      exact ⟨a, b, by simp⟩
    · rintro ⟨a, b, rfl⟩
      exact ⟨a.flatMap Token.text ++ ['#'], b.flatMap Token.text, by simp [Token.text], by simp⟩
  · rintro a b ⟨rfl, hlast⟩ hfirst
    have ha : ShowsMark '(' a := fun j hj => hopen j (by simp [hj])
    have hclosed : (ofText (a.flatMap Token.text)).opensPorts = false := by
      rw [← Bool.not_eq_true, opensPorts_iff, opensBare_iff ha]
      rintro ⟨x, y, hxy⟩
      exact hfirst x y hxy
    have hhash : (a.flatMap Token.text).getLast? ≠ some '#' := fun hl =>
      hlast ((Token.getLast?_flatMap_text fun j hj => (ha j hj).1).1 hl)
    have hb : ShowsMark ')' b := fun j hj => hclose j (by simp [hj])
    rw [List.flatMap_append, List.flatMap_cons, Token.text, List.singleton_append,
      ofText_closesAfterPorts hhash hclosed, Token.count_flatMap_text rfl hb]
  · refine closesAfterPorts_addAll_of_closed (Bool.eq_false_iff.2 fun h => ?_)
    obtain ⟨a, b, hab⟩ := hports.1 h
    exact hnone a b hab

/-- A mark is as often on a line as its token is among the line's tokens. -/
theorem count_eq_count_tokens {c : Char} {k : Token} (hc : Token.ofChar? c = some k)
    (h : ShowsMark c (tokens l)) : l.count c = (tokens l).count k := by
  have hblank := (mark_of_ofChar? hc).1
  rw [← Token.count_flatMap_text hc h, (lexes_tokens l).flatMap_text, List.count_filter (by simp [hblank])]

theorem mem_iff_mem_tokens {c : Char} {k : Token} (hc : Token.ofChar? c = some k)
    (h : ShowsMark c (tokens l)) : c ∈ l ↔ k ∈ tokens l := by
  rw [← List.count_pos_iff, count_eq_count_tokens hc h, List.count_pos_iff]

theorem ofLine?_eq_none_iff : ofLine? l = none ↔ '(' ∉ l ∧ ')' ∉ l ∧ ';' ∉ l := by
  simp only [ofLine?, ite_eq_right_iff, reduceCtorEq, imp_false, List.any_eq_true, Bool.or_eq_true,
    beq_iff_eq, not_exists, not_and, not_or]
  constructor
  · exact fun h => ⟨fun hm => (h _ hm).1.1 rfl, fun hm => (h _ hm).1.2 rfl, fun hm => (h _ hm).2 rfl⟩
  · rintro ⟨hopen, hclose, hend⟩ c hc
    exact ⟨⟨fun h => hopen (h ▸ hc), fun h => hclose (h ▸ hc)⟩, fun h => hend (h ▸ hc)⟩

/-- The delimiters of a line, found on its characters, are those among its tokens, if no comment is on
the line and no range of it contains a delimiter. -/
theorem ofLine?_agrees {line : Text} (hcomment : ¬ HasComment line)
    (hranges : ∀ r, .range r ∈ lineTokens line → '(' ∉ r ∧ ')' ∉ r ∧ ';' ∉ r) :
    (ofLine? line = none ↔ .openParen ∉ lineTokens line ∧ .closeParen ∉ lineTokens line ∧
      .semicolon ∉ lineTokens line) ∧
    ∀ d, ofLine? line = some d → d.CountedIn (lineTokens line) ∧
      ((line.IsChain fun c e => c = '#' → isBlank e = false) → d.PlacedIn (lineTokens line)) := by
  rw [lineTokens_of_not hcomment] at hranges ⊢
  have hshows : ∀ c ∈ ['(', ')', ';'], ShowsMark c (tokens line) := by
    intro c hc j hj
    refine ⟨lexed_of_mem_tokens line j hj, fun hrange => ?_⟩
    cases j <;> simp only [Token.isRange, reduceCtorEq] at hrange
    obtain ⟨hopen, hclose, hend⟩ := hranges _ hj
    simp only [List.mem_cons, List.not_mem_nil, or_false] at hc
    rcases hc with rfl | rfl | rfl
    · exact hopen
    · exact hclose
    · exact hend
  have hopen := hshows '(' (by simp)
  have hclose := hshows ')' (by simp)
  have hend := hshows ';' (by simp)
  refine ⟨?_, fun d hd => ?_⟩
  · rw [ofLine?_eq_none_iff, mem_iff_mem_tokens rfl hopen, mem_iff_mem_tokens rfl hclose,
      mem_iff_mem_tokens rfl hend]
  · obtain rfl : ofText line = d := by rw [← ofLine?_getD, hd, Option.getD_some]
    refine ⟨⟨?_, ?_, ?_⟩, fun htight => ?_⟩
    · rw [ofText, closes_addAll, count_eq_count_tokens rfl hclose, Nat.zero_add]
    · rw [ofText, endsDeclaration_addAll, Bool.false_or, decide_eq_true_eq, mem_iff_mem_tokens rfl hend]
    · rw [opens_iff, mem_iff_mem_tokens rfl hopen]
    · rw [← ofText_filter htight, ← (lexes_tokens line).flatMap_text]
      exact placedIn_ofText hopen hclose

/-- A header on one line, with a range, an index that is left open and a `#` before one parenthesis
only. -/
def openIndexLine : Text := "fifo #(D = [ 3:0 ]) u (.a(b[ (i), .c() ); \n".toList

theorem ofLine?_agrees_openIndexLine : ∃ d, ofLine? openIndexLine = some d ∧
    d.CountedIn (lineTokens openIndexLine) ∧ d.PlacedIn (lineTokens openIndexLine) := by
  have hranges : ∀ r, .range r ∈ lineTokens openIndexLine → '(' ∉ r ∧ ')' ∉ r ∧ ';' ∉ r := by
    have hall : ∀ k ∈ lineTokens openIndexLine, k.isRange = true →
        '(' ∉ k.text ∧ ')' ∉ k.text ∧ ';' ∉ k.text := by decide +kernel
    exact fun r hr => hall _ hr rfl
  obtain ⟨d, hd⟩ : ∃ d, ofLine? openIndexLine = some d := ⟨_, rfl⟩
  obtain ⟨hcounted, hplaced⟩ := (ofLine?_agrees (by decide +kernel) hranges).2 d hd
  exact ⟨d, hd, hcounted, hplaced (by decide +kernel)⟩

end Delimiters

end HdlScaffold
