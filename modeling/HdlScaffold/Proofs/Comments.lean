import HdlScaffold.Proofs.IdleLines
import HdlScaffold.Proofs.ModuleFile
import HdlScaffold.Proofs.Respacing

/-!
# Comments

Only tokens are taken from a line up to its comment; its header, its timescale and its delimiters are
looked for in the line as it stands. Still, a comment without delimiters says nothing: a name or a
quantity ends where the comment begins, and a slash in a timescale cannot be the first of two. So a
source reads the same without its comments (`Module.ofSource?_withoutComments`), but for one thing: a
comment that stands alone on a last line without a line feed is a line, and taken away it is none.
-/

namespace HdlScaffold

section Spans

variable {p : Char → Bool} {x y : Text}

theorem takeWhile_append_of_stop (hy : ∀ c ∈ y.head?, p c = false) :
    ∀ x : Text, (x ++ y).takeWhile p = x.takeWhile p
  | [] => by
    cases y with
    | nil => rfl
    | cons c y => exact List.takeWhile_cons_of_neg (by simp [hy c rfl])
  | c :: x => by
    rw [List.cons_append, List.takeWhile_cons, List.takeWhile_cons, takeWhile_append_of_stop hy x]

theorem dropWhile_append_of_stop (hy : ∀ c ∈ y.head?, p c = false) :
    ∀ x : Text, (x ++ y).dropWhile p = x.dropWhile p ++ y
  | [] => by
    cases y with
    | nil => rfl
    | cons c y => exact List.dropWhile_cons_of_neg (by simp [hy c rfl])
  | c :: x => by
    rw [List.cons_append, List.dropWhile_cons, List.dropWhile_cons, dropWhile_append_of_stop hy x]
    split_ifs <;> rfl

end Spans

/-- The text is blank, or a comment: nothing on a line is read from it. -/
def Text.IsVoid (y : Text) : Prop :=
  (∀ c ∈ y, isBlank c = true) ∨ ∃ rest, y = '/' :: '/' :: rest

namespace Text.IsVoid

variable {x y : Text}

theorem head? (h : y.IsVoid) {p : Char → Bool} (hblank : ∀ c, isBlank c = true → p c = false)
    (hslash : p '/' = false) : ∀ c ∈ y.head?, p c = false := by
  intro c hc
  rcases h with h | ⟨rest, rfl⟩
  · exact hblank c (h c (List.mem_of_mem_head? hc))
  · rw [← Option.some.inj hc]
    exact hslash

/-- Blanks that come in front of such a text leave such a text. -/
theorem trimStart_append (h : y.IsVoid) (x : Text) :
    ∃ z : Text, z.IsVoid ∧ (x ++ y).trimStart = x.trimStart ++ z := by
  induction x with
  | nil =>
    refine ⟨y.trimStart, ?_, rfl⟩
    rcases h with h | ⟨rest, rfl⟩
    · exact Or.inl fun c hc => h c ((List.dropWhile_suffix _).subset hc)
    · exact Or.inr ⟨rest, rfl⟩
  | cons c x ih =>
    by_cases hc : isBlank c = true
    · obtain ⟨z, hz, htrim⟩ := ih
      refine ⟨z, hz, ?_⟩
      rw [trimStart, trimStart, List.cons_append, List.dropWhile_cons_of_pos hc,
        List.dropWhile_cons_of_pos hc]
      exact htrim
    · refine ⟨y, h, ?_⟩
      rw [trimStart, trimStart, List.cons_append, List.dropWhile_cons_of_neg hc,
        List.dropWhile_cons_of_neg hc, List.cons_append]

theorem takeName?_append (h : y.IsVoid) (x : Text) :
    takeName? (x ++ y) = (takeName? x).map fun found => (found.1, found.2 ++ y) := by
  have hname := h.head? (p := isNameChar) (fun _ => isNameChar_of_isBlank) (by decide)
  cases x with
  | nil =>
    cases y with
    | nil => rfl
    | cons c y =>
      have hc : isNameStart c = false := by
        by_contra hstart
        have := isNameChar_of_isNameStart (by simpa using hstart)
        rw [hname c rfl] at this
        cases this
      exact if_neg (by simp [hc])
  | cons c x =>
    rw [List.cons_append, takeName?, takeName?, takeWhile_append_of_stop hname,
      dropWhile_append_of_stop hname]
    split_ifs <;> rfl

theorem afterKeyword?_append (h : y.IsVoid) (keyword x : Text) :
    afterKeyword? keyword (x ++ y) = (afterKeyword? keyword x).map (· ++ y) := by
  rw [afterKeyword?, afterKeyword?, h.takeName?_append]
  rcases takeName? x with _ | ⟨name, rest⟩
  · rfl
  · simp only [Option.map_some, Option.bind_eq_bind, Option.bind_some]
    split_ifs <;> rfl

theorem headerName?_append (h : y.IsVoid) (x : Text) : headerName? (x ++ y) = headerName? x := by
  obtain ⟨z, hz, htrim⟩ := h.trimStart_append x
  rw [headerName?, headerName?, htrim, hz.afterKeyword?_append]
  rcases afterKeyword? "module".toList x.trimStart with _ | rest
  · rfl
  · obtain ⟨w, hw, htrim'⟩ := hz.trimStart_append rest
    simp only [Option.map_some, Option.bind_eq_bind, Option.bind_some]
    rw [htrim', hw.takeName?_append]
    rcases takeName? rest.trimStart with _ | ⟨name, after⟩ <;> rfl

theorem takeQuantity?_append (h : y.IsVoid) (x : Text) :
    takeQuantity? (x ++ y) = (takeQuantity? x).map fun found => (found.1, found.2 ++ y) := by
  have hquantity := h.head? (p := isQuantityChar) (fun c hc => by
    by_contra hq
    have := isBlank_of_isQuantityChar (by simpa using hq)
    rw [hc] at this
    cases this) (by decide)
  simp only [takeQuantity?, takeWhile_append_of_stop hquantity, dropWhile_append_of_stop hquantity]
  split_ifs <;> rfl

theorem dropOpening?_cons (c d : Char) (t : Text) :
    Text.dropOpening? [c] (d :: t) = if c = d then some t else none := by
  simp [Text.dropOpening?]

/-- Where a mark is looked for that such a text does not begin with, only the part before counts. -/
theorem dropOpening?_append {c : Char} (hc : ∀ d ∈ y.head?, c ≠ d) (x : Text) :
    Text.dropOpening? [c] (x ++ y) = (Text.dropOpening? [c] x).map (· ++ y) := by
  cases x with
  | nil =>
    cases y with
    | nil => rfl
    | cons d y => rw [List.nil_append, dropOpening?_cons, if_neg (hc d rfl)]; rfl
  | cons d x =>
    rw [List.cons_append, dropOpening?_cons, dropOpening?_cons]
    split_ifs <;> rfl

/-- The slash of a comment is the first of two, and no quantity begins with the second. -/
theorem takeQuantity?_of_slash (h : y.IsVoid) {rest : Text}
    (hy : Text.dropOpening? ['/'] y = some rest) : takeQuantity? rest.trimStart = none := by
  rcases h with h | ⟨comment, rfl⟩
  · cases y with
    | nil => cases hy
    | cons d y =>
      rw [dropOpening?_cons, Option.ite_none_right_eq_some] at hy
      have hd := h d (by simp)
      rw [← hy.1] at hd
      exact absurd hd (by decide)
  · rw [dropOpening?_cons, if_pos rfl] at hy
    rw [← Option.some.inj hy]
    rfl

theorem unitAndPrecision?_append (h : y.IsVoid) (x : Text) :
    unitAndPrecision? (x ++ y) = unitAndPrecision? x := by
  obtain ⟨z, hz, htrim⟩ := h.trimStart_append x
  rw [unitAndPrecision?, unitAndPrecision?, htrim, hz.takeQuantity?_append]
  rcases takeQuantity? x.trimStart with _ | ⟨unit, rest⟩
  · rfl
  obtain ⟨w, hw, htrim'⟩ := hz.trimStart_append rest
  simp only [Option.map_some, Option.bind_eq_bind, Option.bind_some, htrim']
  rcases rest.trimStart with _ | ⟨c, after⟩
  · rcases hslash : Text.dropOpening? ['/'] w with _ | comment
    · rw [List.nil_append, hslash]
      rfl
    · rw [List.nil_append, hslash, Option.bind_some, hw.takeQuantity?_of_slash hslash]
      rfl
  · rw [List.cons_append, dropOpening?_cons, dropOpening?_cons]
    split_ifs
    · obtain ⟨v, hv, htrim''⟩ := hw.trimStart_append after
      rw [Option.bind_some, Option.bind_some, htrim'', hv.takeQuantity?_append]
      rcases takeQuantity? (Text.trimStart after) with _ | ⟨precision, last⟩ <;> rfl
    · rfl

theorem timescale?_append (h : y.IsVoid) (x : Text) : timescale? (x ++ y) = timescale? x := by
  obtain ⟨z, hz, htrim⟩ := h.trimStart_append x
  have hmark : ∀ d ∈ z.head?, '\x60' ≠ d := by
    intro d hd
    simpa using hz.head? (p := ('\x60' == ·)) (fun c hc => by
      rw [beq_eq_false_iff_ne]
      rintro rfl
      revert hc
      decide) (by decide) d hd
  rw [timescale?, timescale?, htrim, dropOpening?_append hmark]
  rcases Text.dropOpening? ['\x60'] x.trimStart with _ | rest
  · rfl
  simp only [Option.map_some, Option.bind_eq_bind, Option.bind_some, hz.afterKeyword?_append]
  rcases afterKeyword? "timescale".toList rest with _ | after
  · rfl
  · exact hz.unitAndPrecision?_append after

end Text.IsVoid

section Lines

variable {a b x y : Text}

/-- The character opens and ends nothing. -/
def isQuiet (c : Char) : Bool := c != '(' && c != ')' && c != ';'

theorem isQuiet_of_isBlank {c : Char} (h : isBlank c = true) : isQuiet c = true := by
  have hne : ∀ d, isBlank d = false → (c != d) = true := by
    intro d hd
    rw [bne_iff_ne]
    rintro rfl
    rw [h] at hd
    cases hd
  simp [isQuiet, hne '(' (by decide), hne ')' (by decide), hne ';' (by decide)]

theorem ofLine?_append_of_quiet (hy : ∀ c ∈ y, isQuiet c = true) (x : Text) :
    Delimiters.ofLine? (x ++ y) = Delimiters.ofLine? x := by
  have hquiet : ∀ c ∈ y, c ≠ '(' ∧ c ≠ ')' ∧ c ≠ ';' := by
    simpa [isQuiet, and_assoc] using hy
  have hany : (y.any fun c => c == '(' || c == ')' || c == ';') = false := by
    simpa [and_assoc] using hquiet
  rw [Delimiters.ofLine?, Delimiters.ofLine?, List.any_append, hany, Bool.or_false,
    Delimiters.addAll_append, Delimiters.addAll_of_quiet hquiet]

theorem tokens_append_of_blank (hy : ∀ c ∈ y, isBlank c = true) (x : Text) :
    tokens (x ++ y) = tokens x := by
  have hrange : closeRange? y = none := by
    have hdrop : y.dropWhile isRangeChar = [] :=
      List.dropWhile_eq_nil_iff.2 fun c hc => isRangeChar_of_isBlank (hy c hc)
    rw [closeRange?, hdrop]
  have hnone : tokens y = [] := by
    have := tokens_blanks hy []
    rwa [List.append_nil, tokens_nil] at this
  rw [tokens_append x (fun c hc => isWordChar_of_isBlank (hy c (List.mem_of_mem_head? hc))) hrange,
    hnone, List.append_nil]

/-- A line is all code, or a comment follows its code, whatever the line goes on with. -/
theorem beforeComment_cases (a : Text) : beforeComment a = a ∨
    ∃ rest, a = beforeComment a ++ '/' :: '/' :: rest ∧
      ∀ b, beforeComment (a ++ b) = beforeComment a := by
  induction a with
  | nil => exact Or.inl rfl
  | cons c a ih =>
    by_cases hc : c = '/' ∧ a.head? = some '/'
    · obtain ⟨rfl, ha⟩ := hc
      obtain ⟨rest, rfl⟩ := List.head?_eq_some_iff.1 ha
      exact Or.inr ⟨rest, rfl, fun b => rfl⟩
    · rw [Respaced.beforeComment_cons, if_neg hc]
      rcases ih with heq | ⟨rest, ha, happend⟩
      · rw [heq]
        exact Or.inl rfl
      · refine Or.inr ⟨rest, by rw [List.cons_append, ← ha], fun b => ?_⟩
        have hhead : (a ++ b).head? = a.head? := by
          rw [List.head?_append, Option.or_of_isSome]
          rw [ha]
          simp
        rw [List.cons_append, Respaced.beforeComment_cons, hhead, if_neg hc, happend]

theorem isPrefix_beforeComment (a : Text) : beforeComment a <+: a := by
  rcases beforeComment_cases a with heq | ⟨rest, ha, -⟩
  · rw [heq]
  · exact ⟨_, ha.symm⟩

theorem not_hasComment_beforeComment (a : Text) : ¬ HasComment (beforeComment a) := by
  induction a with
  | nil => decide
  | cons c a ih =>
    rw [Respaced.beforeComment_cons]
    split_ifs with hc
    · decide
    · rw [HasComment, List.infix_cons_iff]
      rintro (hslashes | hcomment)
      · -- a second slash at the head of the code is one at the head of the line
        obtain ⟨rfl, hslash⟩ := List.cons_prefix_cons.1 hslashes
        obtain ⟨rest, hrest⟩ := hslash.trans (isPrefix_beforeComment a)
        exact hc ⟨rfl, by rw [← hrest]; rfl⟩
      · exact ih hcomment

/-- A line says the same without its comment, if no delimiter is in the comment. -/
theorem alike_beforeComment (hb : ∀ c ∈ b, isBlank c = true)
    (hquiet : ∀ x y, a ++ b = x ++ '/' :: '/' :: y → ∀ c ∈ y, isQuiet c = true) :
    (a ++ b).Alike (beforeComment a ++ b) := by
  rcases beforeComment_cases a with heq | ⟨rest, ha, happend⟩
  · rw [heq]
    exact ⟨rfl, rfl, rfl, rfl⟩
  · have hsplit : a ++ b = beforeComment a ++ '/' :: '/' :: (rest ++ b) := by
      rw [← List.cons_append, ← List.cons_append, ← List.append_assoc, ← ha]
    have hcomment : Text.IsVoid ('/' :: '/' :: (rest ++ b)) := Or.inr ⟨_, rfl⟩
    have hvoid : b.IsVoid := Or.inl hb
    have hquiet' : ∀ c ∈ '/' :: '/' :: (rest ++ b), isQuiet c = true :=
      List.forall_mem_cons.2 ⟨by decide, List.forall_mem_cons.2 ⟨by decide, hquiet _ _ hsplit⟩⟩
    have hslash : '/' ∉ b := fun h => absurd (hb _ h) (by decide)
    have hcode : ¬ HasComment (beforeComment a ++ b) :=
      not_hasComment_append (not_hasComment_beforeComment a) (not_hasComment_of_not_mem hslash)
        fun _ h => hslash (List.mem_of_mem_head? h)
    refine ⟨?_, ?_, ?_, ?_⟩
    · rw [hsplit, hcomment.headerName?_append, hvoid.headerName?_append]
    · rw [hsplit, hcomment.timescale?_append, hvoid.timescale?_append]
    · rw [lineTokens, happend, lineTokens_of_not hcode, tokens_append_of_blank hb]
    · rw [hsplit, ofLine?_append_of_quiet hquiet',
        ofLine?_append_of_quiet fun c hc => isQuiet_of_isBlank (hb c hc)]

/-- A comment alone on its line says nothing. -/
theorem idle_comment {rest : Text} (hquiet : ∀ c ∈ rest, isQuiet c = true) :
    Text.Idle ('/' :: '/' :: rest) := by
  have hvoid : Text.IsVoid ('/' :: '/' :: rest) := Or.inr ⟨_, rfl⟩
  have hquiet' : ∀ c ∈ '/' :: '/' :: rest, isQuiet c = true :=
    List.forall_mem_cons.2 ⟨by decide, List.forall_mem_cons.2 ⟨by decide, hquiet⟩⟩
  exact ⟨hvoid.headerName?_append [], hvoid.timescale?_append [], tokens_nil,
    ofLine?_append_of_quiet hquiet' []⟩

end Lines

namespace Text

/-- The text from here on without its comments, inside of one or not. The line feeds stay. -/
def dropComments : Bool → Text → Text
  | _, [] => []
  | inside, c :: t =>
    if c = '\n' then c :: dropComments false t
    else if inside then dropComments true t
    else if c = '/' ∧ t.head? = some '/' then dropComments true t
    else c :: dropComments false t

/-- The text without its comments, each of them from two slashes to the end of the line. -/
def withoutComments (t : Text) : Text := dropComments false t

/-- No delimiter is in a comment. -/
def QuietComments (t : Text) : Prop :=
  ∀ l ∈ t.lines, ∀ comment ∈ l.tails, ['/', '/'] <+: comment → ∀ c ∈ comment, isQuiet c = true

/-- The last line is all comment, and no line feed ends it. -/
def EndsInRemark (t : Text) : Prop :=
  ∃ l ∈ t.lines.getLast?, ['/', '/'] <+: l ∧ '\n' ∉ l

instance (t : Text) : Decidable t.QuietComments :=
  inferInstanceAs (Decidable (∀ l ∈ t.lines, ∀ comment ∈ l.tails, _ → _))

instance (t : Text) : Decidable t.EndsInRemark :=
  inferInstanceAs (Decidable (∃ l ∈ t.lines.getLast?, _ ∧ _))

variable {a t : Text}

theorem dropComments_inside (ha : '\n' ∉ a) (ht : ∀ c ∈ t.head?, c = '\n') :
    dropComments true (a ++ t) = dropComments false t := by
  induction a with
  | nil =>
    cases t with
    | nil => rfl
    | cons c t =>
      obtain rfl := ht c rfl
      rfl
  | cons c a ih =>
    rw [List.mem_cons, not_or] at ha
    rw [List.cons_append, dropComments, if_neg (Ne.symm ha.1), if_pos rfl, ih ha.2]

theorem withoutComments_append (ha : '\n' ∉ a) (ht : ∀ c ∈ t.head?, c = '\n') :
    withoutComments (a ++ t) = beforeComment a ++ withoutComments t := by
  induction a with
  | nil => rfl
  | cons c a ih =>
    rw [List.mem_cons, not_or] at ha
    have hhead : (a ++ t).head? = some '/' ↔ a.head? = some '/' := by
      cases a with
      | nil => exact iff_of_false (fun h => absurd (ht _ h) (by decide)) (by simp)
      | cons d a => rfl
    rw [List.cons_append, withoutComments, dropComments, if_neg (Ne.symm ha.1),
      if_neg Bool.false_ne_true, Respaced.beforeComment_cons]
    by_cases hc : c = '/' ∧ a.head? = some '/'
    · rw [if_pos hc, if_pos ⟨hc.1, hhead.2 hc.2⟩]
      exact dropComments_inside ha.2 ht
    · rw [if_neg hc, if_neg fun h => hc ⟨h.1, hhead.1 h.2⟩, ← withoutComments, ih ha.2,
        List.cons_append]

theorem QuietComments.isQuiet {l x y : Text} (h : t.QuietComments) (hl : l ∈ t.lines)
    (hxy : l = x ++ '/' :: '/' :: y) : ∀ c ∈ y, isQuiet c = true := by
  intro c hc
  have hsuffix : '/' :: '/' :: y ∈ l.tails := (List.mem_tails _ _).2 ⟨x, hxy.symm⟩
  exact h l hl _ hsuffix ⟨y, rfl⟩ c (by simp [hc])

theorem not_endsInRemark_nil : ¬ EndsInRemark [] := by simp [EndsInRemark]

theorem endsInRemark_append_newline (ha : '\n' ∉ a) :
    EndsInRemark (a ++ '\n' :: t) ↔ EndsInRemark t := by
  unfold EndsInRemark
  rw [lines_append_newline ha, List.getLast?_cons]
  rcases t.lines.getLast? with _ | l
  · simp
  · simp

theorem newline_not_mem_beforeComment (ha : '\n' ∉ a) : '\n' ∉ beforeComment a :=
  fun h => ha ((isPrefix_beforeComment a).subset h)

/-- A line in front stays a line without its comment, by its line feed. -/
theorem LongerBy.append_newline {n : Nat} (ha : '\n' ∉ a)
    (hquiet : ∀ x y, a ++ ['\n'] = x ++ '/' :: '/' :: y → ∀ c ∈ y, isQuiet c = true)
    (h : t.LongerBy n t.withoutComments) :
    LongerBy n (a ++ '\n' :: t) (withoutComments (a ++ '\n' :: t)) := by
  obtain ⟨front, idle, ht, hfront, hidle, hn⟩ := h
  refine ⟨(a ++ ['\n']) :: front, idle, ?_, ?_, hidle, hn⟩
  · rw [lines_append_newline ha, ht, List.cons_append]
  · rw [withoutComments_append ha (by simp)]
    show List.Forall₂ _ _ (lines (beforeComment a ++ '\n' :: t.withoutComments))
    rw [lines_append_newline (newline_not_mem_beforeComment ha)]
    exact .cons (alike_beforeComment (by decide) hquiet) hfront

/-- A last line without a line feed is gone with its comment if it has nothing else. -/
theorem longerBy_of_last (hne : a ≠ []) (ha : '\n' ∉ a)
    (hquiet : ∀ x y, a = x ++ '/' :: '/' :: y → ∀ c ∈ y, isQuiet c = true) :
    (['/', '/'] <+: a → a.LongerBy 1 a.withoutComments) ∧
      (¬ ['/', '/'] <+: a → a.LongerBy 0 a.withoutComments) := by
  have hlines := lines_of_not_mem hne ha
  have hcode : a.withoutComments = beforeComment a := by
    have happend := withoutComments_append ha (t := []) (by simp)
    rwa [List.append_nil, show withoutComments [] = [] from rfl, List.append_nil] at happend
  rw [hcode]
  constructor
  · rintro ⟨rest, rfl⟩
    exact ⟨[], ['/' :: '/' :: rest], hlines, .nil, by simpa using idle_comment (hquiet [] rest rfl),
      rfl⟩
  · intro hslashes
    have hkept : beforeComment a ≠ [] := by
      intro hnil
      rcases beforeComment_cases a with heq | ⟨rest, hrest, -⟩
      · exact hne (heq.symm.trans hnil)
      · rw [hnil] at hrest
        exact hslashes ⟨rest, hrest.symm⟩
    have halike := alike_beforeComment (a := a) (b := []) (by simp) (by simpa using hquiet)
    rw [List.append_nil, List.append_nil] at halike
    refine ⟨[a], [], hlines, ?_, by simp, rfl⟩
    rw [lines_of_not_mem hkept (newline_not_mem_beforeComment ha)]
    exact .cons halike .nil

/-- The lines without their comments are like the lines, but a remark that ends the text is gone. -/
theorem longerBy_withoutComments (h : t.QuietComments) :
    (t.EndsInRemark → t.LongerBy 1 t.withoutComments) ∧
      (¬ t.EndsInRemark → t.LongerBy 0 t.withoutComments) := by
  induction t using line_induction with
  | nil => exact ⟨fun h => absurd h not_endsInRemark_nil, fun _ => ⟨[], [], rfl, .nil, by simp, rfl⟩⟩
  | last a hne ha =>
    have hlines := lines_of_not_mem hne ha
    have hremark : EndsInRemark a ↔ ['/', '/'] <+: a := by
      rw [EndsInRemark, hlines]
      simp [ha]
    rw [hremark]
    exact longerBy_of_last hne ha fun x y => h.isQuiet (by rw [hlines]; exact List.mem_singleton_self a)
  | line a t ha ih =>
    have hlines := lines_append_newline ha t
    have hquiet : t.QuietComments := fun l hl => h l (by rw [hlines]; exact List.mem_cons_of_mem _ hl)
    have hfirst : ∀ x y, a ++ ['\n'] = x ++ '/' :: '/' :: y → ∀ c ∈ y, isQuiet c = true :=
      fun x y => h.isQuiet (by rw [hlines]; exact List.mem_cons_self)
    rw [endsInRemark_append_newline ha]
    exact ⟨fun hr => ((ih hquiet).1 hr).append_newline ha hfirst,
      fun hr => ((ih hquiet).2 hr).append_newline ha hfirst⟩

end Text

namespace Module

/-- A source reads the same without its comments, errors and the lines they name included, if no
delimiter is in a comment. A remark that ends the source counts as a line, as long as it is there. -/
theorem ofSource?_withoutComments (t : Text) (h : t.QuietComments) :
    (Header.firstTimescale? (.ofBytes t.encode)).answer
      = (Header.firstTimescale? (.ofBytes t.withoutComments.encode)).answer ∧
    (¬ t.EndsInRemark → ofSource? t.encode = ofSource? t.withoutComments.encode) ∧
    (t.EndsInRemark →
      ofSource? t.encode = (ofSource? t.withoutComments.encode).mapError (Error.linesLater 1)) := by
  obtain ⟨hremark, hnone⟩ := Text.longerBy_withoutComments h
  have habreast := LineReader.abreast_ofBytes t t.withoutComments
  refine ⟨?_, fun hr => ?_, fun hr => ofSource?_of_longerBy (hremark hr)⟩
  · by_cases hr : t.EndsInRemark
    · exact Header.firstTimescale?_of_longerBy (hremark hr) habreast
    · exact Header.firstTimescale?_of_longerBy (hnone hr) habreast
  · rw [ofSource?_of_longerBy (hnone hr), mapError_linesLater_zero]

/-- A header that is left open, with a remark in the place of its ports. -/
def remarkedHeader : Text := "module m // no ports yet\n// module".toList

theorem ofSource?_withoutComments_remarkedHeader :
    remarkedHeader.QuietComments ∧ remarkedHeader.EndsInRemark ∧
    ofSource? remarkedHeader.encode
      = (ofSource? remarkedHeader.withoutComments.encode).mapError (Error.linesLater 1) := by
  have hquiet : remarkedHeader.QuietComments := by decide +kernel
  have hremark : remarkedHeader.EndsInRemark := by decide +kernel
  exact ⟨hquiet, hremark, (ofSource?_withoutComments _ hquiet).2.2 hremark⟩

theorem ofSource?_withoutComments_ne : remarkedHeader.QuietComments ∧
    ofSource? remarkedHeader.encode ≠ ofSource? remarkedHeader.withoutComments.encode := by
  have hwith : (ofSource? remarkedHeader.encode).map Option.isSome
      = .error (.unclosed .parameter 2) := by decide +kernel
  have hwithout : (ofSource? remarkedHeader.withoutComments.encode).map Option.isSome
      = .error (.unclosed .parameter 1) := by decide +kernel
  refine ⟨by decide +kernel, fun heq => ?_⟩
  rw [heq, hwithout] at hwith
  simp at hwith

end Module

end HdlScaffold
