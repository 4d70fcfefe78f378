import HdlScaffold.Proofs.DeclarationLists
import HdlScaffold.Proofs.DelimiterTokens

/-!
# Values of parameters

A value ends at the first comma, semicolon or closing parenthesis that no open parenthesis holds back
(`takeValue_eq_self_iff`). Braces hold nothing back, and what stands in a range does not count. So a
line `parameter NAME = VALUE` declares one parameter with the whole value exactly when the value is not
blank and all such marks stand inside parentheses (`ParameterContext.declaresOnly_iff`).
-/

namespace HdlScaffold

section Pairs

variable {α : Type} [DecidableEq α] {depth : Nat} {o c k x : α} {l : List α}

/-- Wherever `k` stands in the list, more pairs have been opened than closed before it, when `depth` of
them are open from the start. -/
def Within (depth : Nat) (o c : α) (l : List α) (k : α) : Prop :=
  ∀ i < l.length, l[i]? = some k → (l.take i).count c < depth + (l.take i).count o

instance : Decidable (Within depth o c l k) :=
  inferInstanceAs (Decidable (∀ i < l.length, l[i]? = some k → _))

theorem within_iff : Within depth o c l k ↔
    ∀ u w, l = u ++ k :: w → u.count c < depth + u.count o := by
  constructor
  · rintro h u w rfl
    simpa using h u.length (by simp) (by simp)
  · intro h i hi hk
    refine h (l.take i) (l.drop (i + 1)) ?_
    obtain rfl : l[i] = k := Option.some.inj ((List.getElem?_eq_getElem hi).symm.trans hk)
    rw [← List.drop_eq_getElem_cons hi, List.take_append_drop]

theorem within_cons_iff : Within depth o c (x :: l) k ↔ (x = k → 0 < depth) ∧
    ∀ u w, l = u ++ k :: w → (x :: u).count c < depth + (x :: u).count o := by
  rw [within_iff]
  constructor
  · intro h
    refine ⟨fun hx => ?_, fun u w hl => h (x :: u) w (by rw [hl]; rfl)⟩
    simpa using h [] l (by rw [hx]; rfl)
  · rintro ⟨hfirst, hlater⟩ u w hl
    cases u with
    | nil => simpa using hfirst (List.cons.inj hl).1
    | cons y u =>
      obtain ⟨rfl, htail⟩ := List.cons.inj hl
      exact hlater u w htail

end Pairs

namespace Header

/-- The tokens at which a value ends, unless they stand inside parentheses. -/
def endingMarks : List Token := [.closeParen, .comma, .semicolon]

theorem valueDepth?_eq_none_iff {depth : Nat} {k : Token} :
    valueDepth? depth k = none ↔ k ∈ endingMarks ∧ depth = 0 := by
  cases k <;> simp [valueDepth?, endingMarks]

/-- A value takes all the tokens if they end it nowhere. -/
theorem takeValue_eq_self_iff {v : List Token} {depth : Nat} : takeValue depth v = (v, []) ↔
    ∀ k ∈ endingMarks, Within depth .openParen .closeParen v k := by
  induction v generalizing depth with
  | nil => simp [takeValue, Within]
  | cons j v ih =>
    rcases hd : valueDepth? depth j with _ | d
    · obtain ⟨hj, rfl⟩ := valueDepth?_eq_none_iff.1 hd
      rw [takeValue, hd]
      refine iff_of_false (by simp) fun h => ?_
      exact absurd ((within_cons_iff.1 (h j hj)).1 rfl) (by simp)
    · -- the depth behind the first token makes up for what it opens or closes
      have hcount : ∀ u : List Token,
          u.count .closeParen < d + u.count .openParen ↔
            (j :: u).count .closeParen < depth + (j :: u).count .openParen := fun u => by
        have h := count_of_valueDepth? hd u
        omega
      have hfirst : ∀ k ∈ endingMarks, j = k → 0 < depth := by
        rintro k hk rfl
        refine Nat.pos_of_ne_zero fun hzero => ?_
        rw [valueDepth?_eq_none_iff.2 ⟨hk, hzero⟩] at hd
        cases hd
      have hrest : takeValue depth (j :: v) = (j :: v, []) ↔ takeValue d v = (v, []) := by
        rw [takeValue, hd]
        simp [Prod.ext_iff]
      rw [hrest, ih]
      refine forall₂_congr fun k hk => ?_
      rw [within_cons_iff, within_iff, and_iff_right (hfirst k hk)]
      simp only [hcount]

end Header

section Texts

variable {name v : Text}

/-- The parentheses around a mark can be counted in the text when no range has any. -/
theorem within_tokens {c : Char} {k : Token} (hc : Token.ofChar? c = some k)
    (hopen : ShowsMark '(' (tokens v)) (hclose : ShowsMark ')' (tokens v))
    (h : Within 0 '(' ')' v c) : Within 0 .openParen .closeParen (tokens v) k := by
  rw [within_iff] at h ⊢
  intro a b hab
  have hflat := (lexes_tokens v).flatMap_text
  rw [hab, List.flatMap_append, List.flatMap_cons, (mark_of_ofChar? hc).2.2.2, List.singleton_append]
    at hflat
  obtain ⟨u, u', rfl, hu, hu'⟩ := List.filter_eq_append_iff.1 hflat.symm
  obtain ⟨gap, w, rfl, hgap, -, -⟩ := List.filter_eq_cons_iff.1 hu'
  have hshown : (u ++ gap).filter (fun c => !isBlank c) = a.flatMap Token.text := by
    rw [List.filter_append, hu, List.filter_eq_nil_iff.2 hgap, List.append_nil]
  have hcount : ∀ {m : Char} {j : Token}, Token.ofChar? m = some j →
      ShowsMark m (tokens (u ++ (gap ++ c :: w))) → (u ++ gap).count m = a.count j := by
    intro m j hm hshows
    have ha : ShowsMark m a := fun i hi => hshows i (by simp [hab, hi])
    rw [← Token.count_flatMap_text hm ha, ← hshown,
      List.count_filter (by simp [(mark_of_ofChar? hm).1])]
  have hlt := h (u ++ gap) w (by simp)
  rwa [hcount rfl hopen, hcount rfl hclose] at hlt

theorem tokens_eq_nil_iff : tokens v = [] ↔ ∀ c ∈ v, isBlank c = true := by
  have hflat := (lexes_tokens v).flatMap_text
  have hfilter : v.filter (fun c => !isBlank c) = [] ↔ ∀ c ∈ v, isBlank c = true := by simp
  rw [← hfilter, ← hflat, List.flatMap_eq_nil_iff]
  refine ⟨fun h => by simp [h], fun h => List.eq_nil_iff_forall_not_mem.2 fun k hk => ?_⟩
  exact Token.text_ne_nil (lexed_of_mem_tokens v k hk) (h k hk)

theorem lineTokens_assignment (hname : isIdentifier name = true) (hv : ¬ HasComment v) :
    lineTokens ("parameter ".toList ++ name ++ " = ".toList ++ v)
      = .word "parameter".toList :: .word name :: .equals :: tokens v := by
  have hcomment : ¬ HasComment ("parameter ".toList ++ name ++ " = ".toList ++ v) := by
    have hleft := not_hasComment_around (c := ' ') (by decide : ¬ HasComment "parameter".toList)
      (Style.not_hasComment_identifier hname) (by decide)
    have hall := not_hasComment_around (c := '=') (not_hasComment_around (c := ' ') hleft
      (by decide : ¬ HasComment []) (by decide)) (not_hasComment_around (c := ' ')
      (by decide : ¬ HasComment []) hv (by decide)) (by decide)
    simpa using hall
  have hword := fun c hc => (isWordChar_of_isIdentifier hname c hc).1
  have hkeyword : tokens ("parameter".toList ++ ' ' :: (name ++ ' ' :: '=' :: ' ' :: v))
      = .word "parameter".toList :: tokens (name ++ ' ' :: '=' :: ' ' :: v) := by
    rw [tokens_word (by decide) (by decide) (by simp; decide), tokens_blank (by decide)]
  have hrest : tokens (name ++ ' ' :: '=' :: ' ' :: v) = .word name :: .equals :: tokens v := by
    rw [tokens_word (ne_nil_of_isIdentifier hname) hword (by simp; decide), tokens_blank (by decide),
      tokens_mark (k := .equals) rfl, tokens_blank (by decide)]
  rw [lineTokens_of_not hcomment, ← hrest, ← hkeyword]
  simp

end Texts

section Assignments

variable {name v : Text} {ts : List Token}

theorem Parameter.usableDefault_join (h : ∀ k ∈ ts, k.Lexed) :
    usableDefault (some (Token.join ts)) = if ts = [] then none else some (Token.join ts) := by
  have hempty : Token.join ts = [] ↔ ts = [] := by
    refine ⟨fun hjoin => ?_, by rintro rfl; rfl⟩
    by_contra hne
    obtain ⟨k, rest, rfl⟩ := List.exists_cons_of_ne_nil hne
    obtain ⟨gap, -, hcons, -⟩ := Token.join_cons k rest
    simp [hcons, Token.text_ne_nil (h k (by simp))] at hjoin
  rw [usableDefault, Option.map_some, Token.trim_join h]
  by_cases hts : ts = []
  · subst hts
    rfl
  · simp [hts, hempty, Option.filter]

namespace Header.ParameterContext

/-- The line declares one parameter, with this name and this default. -/
def DeclaresOnly (s : ParameterContext) (line name value : Text) : Prop :=
  ∃ t p, s.feed (lineTokens line) = .ok (t, [p]) ∧ p.outline = (name, some value)

/-- Whatever follows the value is read as more of the declaration. -/
theorem exists_feed_assignment (s : ParameterContext) (hname : isIdentifier name = true)
    (hparameter : name ≠ "parameter".toList) (hlocalparam : name ≠ "localparam".toList)
    (ts : List Token) :
    ∃ p, p.outline = (name, Parameter.usableDefault (some (Token.join (takeValue 0 ts).1))) ∧
      s.feed (.word "parameter".toList :: .word name :: .equals :: ts)
        = (feed ⟨true, false⟩ (takeValue 0 ts).2).map fun x => (x.1, p :: x.2) := by
  have hdeclares : declares ⟨true, true⟩ name (.equals :: ts) = true := by
    simp [declares, hname, isTypePosition, Token.isRange]
  obtain ⟨p, hp, hfeed⟩ := feed_of_declares hparameter hlocalparam hdeclares
  obtain ⟨q, hq, hidentifier, hdefault⟩ :=
    Parameter.exists_create hname (takeDefault (.equals :: ts)).1
  obtain rfl : q = p := Except.ok.inj (hq.symm.trans hp)
  refine ⟨q, by rw [Parameter.outline, hidentifier, hdefault]; rfl, ?_⟩
  rw [feed, if_pos rfl, hfeed]
  rfl

theorem declaresOnly_iff (s : ParameterContext) (hname : isIdentifier name = true)
    (hparameter : name ≠ "parameter".toList) (hlocalparam : name ≠ "localparam".toList)
    (hv : ¬ HasComment v) :
    s.DeclaresOnly ("parameter ".toList ++ name ++ " = ".toList ++ v) name (Token.join (tokens v)) ↔
      (∃ c ∈ v, isBlank c = false) ∧
        ∀ k ∈ endingMarks, Within 0 .openParen .closeParen (tokens v) k := by
  obtain ⟨p, houtline, hfeed⟩ := s.exists_feed_assignment hname hparameter hlocalparam (tokens v)
  have hblank : (∃ c ∈ v, isBlank c = false) ↔ tokens v ≠ [] := by
    rw [Ne, tokens_eq_nil_iff]
    simp
  have hlexed : ∀ k ∈ tokens v, k.Lexed := lexed_of_mem_tokens v
  have hparts := takeValue_append 0 (tokens v)
  rw [← takeValue_eq_self_iff, hblank]
  unfold DeclaresOnly
  rw [lineTokens_assignment hname hv, hfeed]
  constructor
  · rintro ⟨t, q, hq, hqoutline⟩
    obtain ⟨u, ps, hrest⟩ := exists_feed_eq_ok ⟨true, false⟩ (takeValue 0 (tokens v)).2
    rw [hrest] at hq
    simp only [Except.map, Except.ok.injEq, Prod.mk.injEq, List.cons.injEq] at hq
    obtain ⟨-, rfl, -⟩ := hq
    -- a part of the tokens is joined to the same text only if it is the whole
    have hslice : (takeValue 0 (tokens v)).1 <:+: tokens v := ⟨[], _, by simpa using hparts⟩
    rw [houtline, Parameter.usableDefault_join fun k hk => hlexed k (hslice.subset hk)] at hqoutline
    have hdefault := (Prod.mk.inj hqoutline).2
    split_ifs at hdefault with hnil
    have hwhole : (takeValue 0 (tokens v)).1 = tokens v := by
      rw [← tokens_join_of_infix hslice, Option.some.inj hdefault,
        tokens_join_of_infix List.infix_rfl]
    refine ⟨by rwa [hwhole] at hnil, Prod.ext hwhole ?_⟩
    rw [hwhole] at hparts
    simpa using hparts
  · rintro ⟨hne, hvalue⟩
    rw [hvalue] at houtline ⊢
    rw [Parameter.usableDefault_join hlexed, if_neg hne] at houtline
    refine ⟨⟨true, false⟩, p, ?_, houtline⟩
    rw [parameterFeed_nil]
    rfl

/-- A value that is not blank is the default of one parameter exactly when no token ends it. No token
does where every closing parenthesis, comma and semicolon of the text stands inside parentheses and no
range has parentheses of its own. -/
theorem declaresOnly_assignment (s : ParameterContext) (hname : isIdentifier name = true)
    (hparameter : name ≠ "parameter".toList) (hlocalparam : name ≠ "localparam".toList)
    (hv : ¬ HasComment v) :
    (s.DeclaresOnly ("parameter ".toList ++ name ++ " = ".toList ++ v) name (Token.join (tokens v)) ↔
      (∃ c ∈ v, isBlank c = false) ∧
        ∀ k ∈ endingMarks, Within 0 .openParen .closeParen (tokens v) k) ∧
    ((∃ c ∈ v, isBlank c = false) → (∀ c ∈ [')', ',', ';'], Within 0 '(' ')' v c) →
      (∀ g, .range g ∈ tokens v → '(' ∉ g ∧ ')' ∉ g) →
      s.DeclaresOnly ("parameter ".toList ++ name ++ " = ".toList ++ v) name
        (Token.join (tokens v))) := by
  have hiff := s.declaresOnly_iff hname hparameter hlocalparam hv
  refine ⟨hiff, fun hvisible hwithin hranges => hiff.2 ⟨hvisible, ?_⟩⟩
  have hshows : ∀ {m : Char}, (∀ g, .range g ∈ tokens v → m ∉ g) → ShowsMark m (tokens v) := by
    intro m hm j hj
    refine ⟨lexed_of_mem_tokens v j hj, fun hrange => ?_⟩
    cases j <;> simp only [Token.isRange, reduceCtorEq] at hrange
    exact hm _ hj
  have hopen := hshows fun g hg => (hranges g hg).1
  have hclose := hshows fun g hg => (hranges g hg).2
  intro k hk
  simp only [endingMarks, List.mem_cons, List.not_mem_nil, or_false] at hk
  rcases hk with rfl | rfl | rfl
  · exact within_tokens (c := ')') rfl hopen hclose (hwithin _ (by simp))
  · exact within_tokens (c := ',') rfl hopen hclose (hwithin _ (by simp))
  · exact within_tokens (c := ';') rfl hopen hclose (hwithin _ (by simp))

theorem declaresOnly_assignment_call :
    DeclaresOnly {} "parameter W = f(A, \x7bB, C\x7d[1:0]) + (2)".toList "W".toList
      "f(A,\x7bB,C\x7d[1:0])+(2)".toList := by
  have htokens : tokens "f(A, \x7bB, C\x7d[1:0]) + (2)".toList
      = [.word "f".toList, .openParen, .word "A".toList, .comma, .word "\x7bB".toList, .comma,
        .word "C\x7d".toList, .range "[1:0]".toList, .closeParen, .word "+".toList, .openParen,
        .word "2".toList, .closeParen] := by
    decide +kernel
  have hranges : ∀ g, .range g ∈ tokens "f(A, \x7bB, C\x7d[1:0]) + (2)".toList →
      '(' ∉ g ∧ ')' ∉ g := by
    rw [htokens]
    simp
  have h := (@declaresOnly_assignment "W".toList "f(A, \x7bB, C\x7d[1:0]) + (2)".toList {}
    (by decide) (by decide) (by decide) (by decide)).2 ⟨'f', by decide, by decide⟩ (by decide +kernel)
    hranges
  rw [htokens] at h
  exact h

/-- A brace holds no comma back: the rest of the value is read as a second name. -/
theorem not_declaresOnly_braces :
    (∀ c ∈ [',', '\x7d'], Within 0 '\x7b' '\x7d' "\x7bB, C, D\x7d".toList c) ∧
      ¬ DeclaresOnly {} "parameter A = \x7bB, C, D\x7d".toList "A".toList
        (Token.join (tokens "\x7bB, C, D\x7d".toList)) ∧
      ((feed {} (lineTokens "parameter A = \x7bB, C, D\x7d".toList)).toOption.map fun x =>
        x.2.map Parameter.outline) = some [("A".toList, some "\x7bB".toList), ("C".toList, none)] := by
  have houtlines : ((feed {} (lineTokens "parameter A = \x7bB, C, D\x7d".toList)).toOption.map fun x =>
      x.2.map Parameter.outline) = some [("A".toList, some "\x7bB".toList), ("C".toList, none)] := by
    decide +kernel
  refine ⟨by decide +kernel, ?_, houtlines⟩
  rintro ⟨t, p, hfeed, -⟩
  rw [hfeed] at houtlines
  simp [Except.toOption] at houtlines

end Header.ParameterContext

end Assignments

end HdlScaffold
