import HdlScaffold.Proofs.Declarations
import HdlScaffold.Proofs.Extraction

/-!
# Lines cut at delimiters

The readers of declarations look ahead in three ways: past ranges for the name that makes a word a
type, behind a name for its equals sign, and through a value for its end. Each look stays inside the
tokens that it started in, if these end in a delimiter (`isTypePosition_append`,
`takeDefault_append`). So a line may be cut behind a delimiter, or two lines be joined there, and the
same is declared from every context (`feed_append_of_delimiter`).
-/

namespace HdlScaffold.Header

section LookAhead

variable {xs ys : List Token} {k : Token}

theorem isTypePosition_append (h : ∃ k ∈ xs, k.isRange = false) (ys : List Token) :
    isTypePosition (xs ++ ys) = isTypePosition xs := by
  have hne : xs.dropWhile Token.isRange ≠ [] := by
    intro hnil
    obtain ⟨k, hk, hrange⟩ := h
    simp [List.dropWhile_eq_nil_iff.1 hnil k hk] at hrange
  obtain ⟨k, rest, hd⟩ := List.exists_cons_of_ne_nil hne
  unfold isTypePosition
  rw [List.dropWhile_append, hd]
  cases k <;> rfl

/-- The last of the tokens is neither a word nor a range. -/
def EndsInMark (ts : List Token) : Prop :=
  ∀ k ∈ ts.getLast?, k.isWord = false ∧ k.isRange = false

/-- The last of the tokens ends a value, and no parenthesis opens behind their first equals sign. -/
structure EndsValues (ts : List Token) : Prop where
  last : ∀ k ∈ ts.getLast?, k = .comma ∨ k = .semicolon ∨ k = .closeParen
  no_open : .openParen ∉ ts.dropWhile (· != .equals)

theorem mem_getLast?_of_suffix (h : ys <:+ xs) (hk : k ∈ ys.getLast?) : k ∈ xs.getLast? := by
  obtain ⟨front, rfl⟩ := h
  rw [List.getLast?_append, Option.mem_def.1 hk]
  rfl

theorem EndsInMark.of_suffix (h : EndsInMark xs) (hs : ys <:+ xs) : EndsInMark ys :=
  fun k hk => h k (mem_getLast?_of_suffix hs hk)

theorem EndsValues.of_suffix (h : EndsValues xs) (hs : ys <:+ xs) : EndsValues ys := by
  refine ⟨fun k hk => h.last k (mem_getLast?_of_suffix hs hk), fun hopen => h.no_open ?_⟩
  obtain ⟨front, rfl⟩ := hs
  rw [List.dropWhile_append]
  split_ifs
  · exact hopen
  · exact List.mem_append_right _ ((List.dropWhile_suffix _).subset hopen)

theorem EndsValues.endsInMark (h : EndsValues xs) : EndsInMark xs := by
  intro k hk
  rcases h.last k hk with rfl | rfl | rfl <;> exact ⟨rfl, rfl⟩

theorem EndsInMark.exists_behind (h : EndsInMark (k :: xs)) (hk : k.isWord = true) :
    ∃ j ∈ xs, j.isRange = false := by
  have hne : xs ≠ [] := by
    rintro rfl
    simp [(h k rfl).1] at hk
  have hlast := List.getLast?_eq_some_getLast hne
  have hj := h _ (mem_getLast?_of_suffix (List.suffix_cons k xs) hlast)
  exact ⟨_, List.getLast_mem hne, hj.2⟩

theorem takeValue_append_of_stop (hopen : .openParen ∉ xs) (hstop : ∃ k ∈ xs, valueDepth? 0 k = none)
    (ys : List Token) : takeValue 0 (xs ++ ys) = ((takeValue 0 xs).1, (takeValue 0 xs).2 ++ ys) := by
  induction xs with
  | nil => simp at hstop
  | cons k xs ih =>
    simp only [List.mem_cons, not_or] at hopen
    rw [List.cons_append, takeValue, takeValue]
    rcases hk : valueDepth? 0 k with _ | depth
    · rfl
    · -- nothing opens, so the depth stays zero
      have hdepth : depth = 0 := by
        cases k <;> simp_all [valueDepth?]
      have hrest : ∃ j ∈ xs, valueDepth? 0 j = none := by
        simpa [hk] using hstop
      simp only [hdepth, ih hopen.2 hrest]

theorem takeDefault_append (h : EndsValues xs) (hne : xs ≠ []) (ys : List Token) :
    takeDefault (xs ++ ys) = ((takeDefault xs).1, (takeDefault xs).2 ++ ys) := by
  obtain ⟨k, rest, rfl⟩ := List.exists_cons_of_ne_nil hne
  cases k with
  | equals =>
    have hopen : Token.openParen ∉ rest := fun hmem => h.no_open (by simp [hmem])
    have hrest : rest ≠ [] := by
      rintro rfl
      simpa using h.last .equals rfl
    have hlast := List.getLast?_eq_some_getLast hrest
    have hstop : ∃ k ∈ rest, valueDepth? 0 k = none := by
      refine ⟨_, List.getLast_mem hrest, ?_⟩
      rcases h.last _ (mem_getLast?_of_suffix (List.suffix_cons _ _) hlast) with hk | hk | hk <;>
        rw [hk] <;> rfl
    rw [List.cons_append, takeDefault, takeDefault, takeValue_append_of_stop hopen hstop]
  | word | range | hash | openParen | closeParen | comma | semicolon | other => rfl

theorem takeDefault_suffix (ts : List Token) : (takeDefault ts).2 <:+ ts := by
  rcases takeDefault_cases ts with h | ⟨vs, rest, h, rfl, -⟩
  · rw [h]
  · rw [h]
    exact ⟨.equals :: vs, rfl⟩

end LookAhead

section Ports

namespace PortContext

theorem step_append {s : PortContext} {k : Token} {rest : List Token}
    (h : k.isWord = true → ∃ j ∈ rest, j.isRange = false) (ys : List Token) :
    s.step k (rest ++ ys) = s.step k rest := by
  cases k with
  | word w =>
    have hname : isPortName w (rest ++ ys) = isPortName w rest := by
      rw [isPortName, isPortName, isTypePosition_append (h rfl) ys]
    simp only [step, hname]
  | range | hash | openParen | closeParen | comma | semicolon | equals | other => rfl

theorem feed_append {xs : List Token} (h : EndsInMark xs) (ys : List Token) (s : PortContext) :
    s.feed (xs ++ ys) = feedLines feed s [xs, ys] := by
  induction xs generalizing s with
  | nil =>
    simp only [List.nil_append, feedLines, feed, bind, Except.bind, pure, Except.pure]
    rcases s.feed ys with e | ⟨t, ps⟩ <;> simp
  | cons k rest ih =>
    simp only [feedLines, bind, Except.bind, pure, Except.pure] at ih ⊢
    simp only [List.cons_append, feed, step_append h.exists_behind ys, bind, Except.bind, pure,
      Except.pure]
    rcases s.step k rest with e | ⟨u, found⟩
    · rfl
    · simp only [ih (h.of_suffix (List.suffix_cons k rest)) u]
      rcases u.feed rest with e | ⟨v, more⟩
      · rfl
      · rcases hv : v.feed ys with e | ⟨t, last⟩ <;> simp [hv]

theorem exists_step_eq_ok (s : PortContext) (k : Token) (rest : List Token) :
    ∃ t ps, s.step k rest = .ok (t, ps) := by
  fun_cases step s k rest with
  | case2 w d _ _ hname =>
    simp only [isPortName, Bool.and_eq_true] at hname
    have hsolid := solid_of_isIdentifier hname.2.1.2
    exact ⟨_, _, by rw [Port.create_of_solid d _ hsolid]; rfl⟩
  | case1 | case3 | case4 | case5 | case6 | case7 | case8 | case9 | case10 | case11 =>
    exact ⟨_, _, rfl⟩

theorem exists_feed_eq_ok (s : PortContext) :
    ∀ ts : List Token, ∃ t ps, s.feed ts = .ok (t, ps)
  | [] => ⟨s, [], rfl⟩
  | k :: rest => by
    obtain ⟨u, found, hstep⟩ := s.exists_step_eq_ok k rest
    obtain ⟨t, more, hfeed⟩ := u.exists_feed_eq_ok rest
    exact ⟨t, found ++ more, by simp only [feed, hstep, hfeed, bind, Except.bind, pure, Except.pure]⟩

end PortContext

end Ports

section Parameters

namespace ParameterContext

/-- The context after a token that declares nothing. -/
def pass (s : ParameterContext) : Token → ParameterContext
  | .word w =>
    if w = "parameter".toList then ⟨true, true⟩
    else if w = "localparam".toList then ⟨false, false⟩
    else s
  | .closeParen => ⟨false, false⟩
  | .semicolon => ⟨false, false⟩
  | .comma => { s with expectsName := s.declaring || s.expectsName }
  | _ => s

/-- The token is a word that declares a parameter here. -/
def Declares (s : ParameterContext) (k : Token) (rest : List Token) : Prop :=
  ∃ w, k = .word w ∧ w ≠ "parameter".toList ∧ w ≠ "localparam".toList ∧ s.declares w rest = true

variable {s : ParameterContext} {k : Token} {rest : List Token}

theorem feed_of_not_declares (h : ¬ s.Declares k rest) : s.feed (k :: rest) = (s.pass k).feed rest := by
  cases k with
  | word w =>
    rw [feed, pass]
    split_ifs with hparameter hlocalparam hdeclares
    · rfl
    · rfl
    · exact absurd ⟨w, rfl, hparameter, hlocalparam, hdeclares⟩ h
    · rfl
  | closeParen | semicolon | comma => rw [feed, pass]
  | range | hash | openParen | equals | other => rw [feed] <;> simp [pass]

theorem feed_of_declares {w : Text} (hparameter : w ≠ "parameter".toList)
    (hlocalparam : w ≠ "localparam".toList) (h : s.declares w rest = true) :
    ∃ p, Parameter.create w (takeDefault rest).1 = .ok p ∧
      s.feed (.word w :: rest) = (feed { s with expectsName := false } (takeDefault rest).2).map
        fun x => (x.1, p :: x.2) := by
  have hw : isIdentifier w = true := by
    simp only [declares, Bool.and_eq_true] at h
    exact h.1.2
  obtain ⟨p, hp, -⟩ := Parameter.exists_create hw (takeDefault rest).1
  refine ⟨p, hp, ?_⟩
  rw [feed, if_neg hparameter, if_neg hlocalparam, if_pos h, hp]
  rcases feed { s with expectsName := false } (takeDefault rest).2 with e | ⟨t, ps⟩ <;> rfl

/-- Tokens are passed one by one, or with the default behind a name that they declare. -/
theorem feed_induction {motive : ParameterContext → List Token → Prop}
    (nil : ∀ s, motive s [])
    (pass : ∀ s k rest, ¬ s.Declares k rest → motive (s.pass k) rest → motive s (k :: rest))
    (name : ∀ s w rest, w ≠ "parameter".toList → w ≠ "localparam".toList → s.declares w rest = true →
      motive { s with expectsName := false } (takeDefault rest).2 → motive s (.word w :: rest)) :
    ∀ (s : ParameterContext) (ts : List Token), motive s ts
  | s, [] => nil s
  | s, k :: rest => by
    by_cases h : s.Declares k rest
    · obtain ⟨w, rfl, hparameter, hlocalparam, hdeclares⟩ := h
      have hlength := length_takeDefault_le rest
      exact name s w rest hparameter hlocalparam hdeclares (feed_induction nil pass name _ _)
    · exact pass s k rest h (feed_induction nil pass name _ rest)
termination_by _ ts => ts.length
decreasing_by all_goals grind

theorem exists_feed_eq_ok (s : ParameterContext) (ts : List Token) :
    ∃ t ps, s.feed ts = .ok (t, ps) := by
  induction s, ts using feed_induction with
  | nil s => exact ⟨s, [], by rw [feed]⟩
  | pass s k rest h ih => rwa [feed_of_not_declares h]
  | name s w rest hparameter hlocalparam hdeclares ih =>
    obtain ⟨p, -, hfeed⟩ := feed_of_declares hparameter hlocalparam hdeclares
    obtain ⟨t, ps, ih⟩ := ih
    exact ⟨t, p :: ps, by rw [hfeed, ih]; rfl⟩

theorem declares_append {w : Text} (h : ∃ j ∈ rest, j.isRange = false) (ys : List Token) :
    s.declares w (rest ++ ys) = s.declares w rest := by
  rw [declares, declares, isTypePosition_append h ys]

theorem feed_append {xs : List Token} (ys : List Token) (s : ParameterContext) :
    EndsValues xs → s.feed (xs ++ ys) = feedLines feed s [xs, ys] := by
  induction s, xs using feed_induction with
  | nil s =>
    intro _
    simp only [List.nil_append, feedLines, feed, bind, Except.bind, pure, Except.pure]
    rcases s.feed ys with e | ⟨t, ps⟩ <;> simp
  | pass s k rest h ih =>
    intro hxs
    have hys : ¬ s.Declares k (rest ++ ys) := by
      rintro ⟨w, rfl, hparameter, hlocalparam, hdeclares⟩
      rw [declares_append (hxs.endsInMark.exists_behind rfl)] at hdeclares
      exact h ⟨w, rfl, hparameter, hlocalparam, hdeclares⟩
    rw [List.cons_append, feed_of_not_declares hys, ih (hxs.of_suffix (List.suffix_cons _ _)),
      feedLines, feedLines, feed_of_not_declares h]
  | name s w rest hparameter hlocalparam hdeclares ih =>
    intro hxs
    have hrest : EndsValues rest := hxs.of_suffix (List.suffix_cons _ _)
    have hmark := hxs.endsInMark.exists_behind (k := .word w) rfl
    have hne : rest ≠ [] := by
      rintro rfl
      simp at hmark
    have hdefault := takeDefault_append hrest hne ys
    obtain ⟨p, hp, hfeed⟩ := feed_of_declares hparameter hlocalparam hdeclares
    obtain ⟨q, hq, hfeed'⟩ := feed_of_declares hparameter hlocalparam
      ((declares_append hmark ys).trans hdeclares)
    rw [hdefault] at hq hfeed'
    obtain rfl : p = q := Except.ok.inj (hp.symm.trans hq)
    rw [List.cons_append, hfeed', ih (hrest.of_suffix (takeDefault_suffix rest)), feedLines, feedLines,
      hfeed]
    rcases feed { s with expectsName := false } (takeDefault rest).2 with e | ⟨u, found⟩
    · rfl
    · simp only [Except.map, feedLines, bind, Except.bind, pure, Except.pure]
      rcases u.feed ys with e | ⟨t, more⟩ <;> rfl

end ParameterContext

end Parameters

/-- Behind a delimiter, a new line makes no difference: to the ports where no word and no range comes
last, to the parameters where no value is open. -/
theorem feed_append_of_delimiter (xs ys : List Token) :
    (EndsInMark xs → ∀ s : PortContext, ∃ t ps, s.feed (xs ++ ys) = .ok (t, ps) ∧
      feedLines PortContext.feed s [xs, ys] = .ok (t, ps)) ∧
    (EndsValues xs → ∀ s : ParameterContext, ∃ t ps, s.feed (xs ++ ys) = .ok (t, ps) ∧
      feedLines ParameterContext.feed s [xs, ys] = .ok (t, ps)) := by
  refine ⟨fun h s => ?_, fun h s => ?_⟩
  · obtain ⟨t, ps, hfeed⟩ := s.exists_feed_eq_ok (xs ++ ys)
    exact ⟨t, ps, hfeed, by rw [← PortContext.feed_append h, hfeed]⟩
  · obtain ⟨t, ps, hfeed⟩ := s.exists_feed_eq_ok (xs ++ ys)
    exact ⟨t, ps, hfeed, by rw [← ParameterContext.feed_append ys s h, hfeed]⟩

-- input [7:0] a = 1,
def cutInput : List Token :=
  [.word "input".toList, .range "[7:0]".toList, .word "a".toList, .equals, .word "1".toList, .comma]

theorem feed_append_of_delimiter_cutInput : EndsInMark cutInput ∧ EndsValues cutInput ∧
    (∃ t ps, PortContext.feed {} (cutInput ++ [.word "b".toList]) = .ok (t, ps) ∧
      feedLines PortContext.feed {} [cutInput, [.word "b".toList]] = .ok (t, ps)) ∧
    ∃ t ps, ParameterContext.feed ⟨true, true⟩ (cutInput ++ [.word "b".toList]) = .ok (t, ps) ∧
      feedLines ParameterContext.feed ⟨true, true⟩ [cutInput, [.word "b".toList]] = .ok (t, ps) := by
  have hvalues : EndsValues cutInput := by
    constructor <;> simp [cutInput]
  have hmark : EndsInMark cutInput := hvalues.endsInMark
  have hcut := feed_append_of_delimiter cutInput [.word "b".toList]
  exact ⟨hmark, hvalues, hcut.1 hmark {}, hcut.2 hvalues ⟨true, true⟩⟩

end HdlScaffold.Header
