import HdlScaffold.Proofs.SideBySide
import HdlScaffold.Proofs.WellFormed

/-!
# Respaced texts

A text is respaced by making its gaps wider or narrower: a gap is a run of blanks within a line, and none
may close up or open. Everything that is read from a line, its comment and its brackets included, goes by
where the gaps are and not by how wide they are, so the lines of respaced texts are alike
(`Respaced.alike`, `Respaced.lines`).
-/

namespace HdlScaffold

/-- The character may stand in a gap: a blank that ends no line. -/
def isGapChar (c : Char) : Bool := isBlank c && c != '\n'

/-- A run of blanks within a line. -/
def Text.IsGap (g : Text) : Prop := g ≠ [] ∧ ∀ c ∈ g, isGapChar c = true

/-- The texts are the same but for the width of their gaps. -/
inductive Respaced : Text → Text → Prop
  | nil : Respaced [] []
  | cons (c : Char) {a b : Text} : Respaced a b → Respaced (c :: a) (c :: b)
  | gap {g h a b : Text} : g.IsGap → h.IsGap → Respaced a b → Respaced (g ++ a) (h ++ b)

theorem isBlank_of_isGapChar {c : Char} (h : isGapChar c = true) : isBlank c = true :=
  (Bool.and_eq_true_iff.1 h).1

theorem isGapChar_of_not_blank {c : Char} (h : isBlank c = false) : isGapChar c = false := by
  rw [isGapChar, h, Bool.false_and]

theorem ne_of_isGapChar {c d : Char} (hc : isGapChar c = true) (hd : isGapChar d = false) : c ≠ d := by
  rintro rfl
  rw [hc] at hd
  cases hd

section Gaps

variable {p : Char → Bool} {v : Bool} {g : Text}

theorem takeWhile_gap_append (hp : ∀ c, isGapChar c = true → p c = v) (hg : g.IsGap) (t : Text) :
    (g ++ t).takeWhile p = if v then g ++ t.takeWhile p else [] := by
  cases v with
  | true => exact List.takeWhile_append_of_pos fun c hc => hp c (hg.2 c hc)
  | false =>
    obtain ⟨c, g, rfl⟩ := List.exists_cons_of_ne_nil hg.1
    exact List.takeWhile_cons_of_neg (by simp [hp c (hg.2 c (by simp))])

theorem dropWhile_gap_append (hp : ∀ c, isGapChar c = true → p c = v) (hg : g.IsGap) (t : Text) :
    (g ++ t).dropWhile p = if v then t.dropWhile p else g ++ t := by
  cases v with
  | true => exact List.dropWhile_append_of_pos fun c hc => hp c (hg.2 c hc)
  | false =>
    obtain ⟨c, g, rfl⟩ := List.exists_cons_of_ne_nil hg.1
    exact List.dropWhile_cons_of_neg (by simp [hp c (hg.2 c (by simp))])

end Gaps

namespace Respaced

variable {a b : Text}

theorem refl : ∀ t : Text, Respaced t t
  | [] => .nil
  | c :: t => .cons c (refl t)

theorem symm (h : Respaced a b) : Respaced b a := by
  induction h with
  | nil => exact .nil
  | cons c _ ih => exact .cons c ih
  | gap hg hh _ ih => exact .gap hh hg ih

theorem append {x y : Text} (h : Respaced a b) (h' : Respaced x y) : Respaced (a ++ x) (b ++ y) := by
  induction h with
  | nil => exact h'
  | cons c _ ih => exact .cons c ih
  | gap hg hh _ ih =>
    rw [List.append_assoc, List.append_assoc]
    exact .gap hg hh ih

theorem eq_nil (h : Respaced [] b) : b = [] := by
  generalize hx : ([] : Text) = x at h
  cases h with
  | nil => rfl
  | cons => cases hx
  | gap hg => exact absurd (List.append_eq_nil_iff.1 hx.symm).1 hg.1

/-- Outside of gaps the texts go on with the same character. -/
theorem exists_cons {c : Char} (hc : isGapChar c = false) (h : Respaced (c :: a) b) :
    ∃ t, b = c :: t ∧ Respaced a t := by
  generalize hx : c :: a = x at h
  cases h with
  | nil => cases hx
  | cons d h =>
    obtain ⟨rfl, rfl⟩ := List.cons.inj hx
    exact ⟨_, rfl, h⟩
  | gap hg _ _ =>
    obtain ⟨d, g, rfl⟩ := List.exists_cons_of_ne_nil hg.1
    obtain ⟨rfl, -⟩ := List.cons.inj hx
    exact absurd rfl (ne_of_isGapChar (hg.2 c (by simp)) hc)

/-- A blank in one text may be missing in the other, if there is a blank in its place. -/
theorem exists_blanks {c : Char} (hc : isBlank c = true) (h : Respaced (c :: a) b) :
    ∃ g t, b = g ++ t ∧ (∀ d ∈ g, isBlank d = true) ∧ Respaced a t := by
  generalize hx : c :: a = x at h
  cases h with
  | nil => cases hx
  | cons d h =>
    obtain ⟨rfl, rfl⟩ := List.cons.inj hx
    exact ⟨[c], _, rfl, by simpa using hc, h⟩
  | gap hg hh h =>
    rename_i g w x y
    obtain ⟨d, g, rfl⟩ := List.exists_cons_of_ne_nil hg.1
    obtain ⟨rfl, rfl⟩ := List.cons.inj hx
    have hw : ∀ d ∈ w, isBlank d = true := fun d hd => isBlank_of_isGapChar (hh.2 d hd)
    -- the gap is over with this blank, or what is left of it is still a gap
    by_cases hne : g = []
    · exact ⟨w, y, rfl, hw, by rwa [hne]⟩
    · exact ⟨[], w ++ y, rfl, by simp, .gap ⟨hne, fun d hd => hg.2 d (by simp [hd])⟩ hh h⟩

section Spans

variable {p : Char → Bool} {v : Bool}

theorem takeWhile (hp : ∀ c, isGapChar c = true → p c = v) (h : Respaced a b) :
    Respaced (a.takeWhile p) (b.takeWhile p) := by
  induction h with
  | nil => exact .nil
  | cons c _ ih =>
    by_cases hc : p c = true
    · rw [List.takeWhile_cons_of_pos hc, List.takeWhile_cons_of_pos hc]
      exact .cons c ih
    · rw [List.takeWhile_cons_of_neg hc, List.takeWhile_cons_of_neg hc]
      exact .nil
  | gap hg hh _ ih =>
    rw [takeWhile_gap_append hp hg, takeWhile_gap_append hp hh]
    cases v with
    | true => exact .gap hg hh ih
    | false => exact .nil

theorem dropWhile (hp : ∀ c, isGapChar c = true → p c = v) (h : Respaced a b) :
    Respaced (a.dropWhile p) (b.dropWhile p) := by
  induction h with
  | nil => exact .nil
  | cons c h ih =>
    by_cases hc : p c = true
    · rw [List.dropWhile_cons_of_pos hc, List.dropWhile_cons_of_pos hc]
      exact ih
    · rw [List.dropWhile_cons_of_neg hc, List.dropWhile_cons_of_neg hc]
      exact .cons c h
  | gap hg hh h ih =>
    rw [dropWhile_gap_append hp hg, dropWhile_gap_append hp hh]
    cases v with
    | true => exact ih
    | false => exact .gap hg hh h

theorem filter (hp : ∀ c, isGapChar c = true → p c = false) (h : Respaced a b) :
    a.filter p = b.filter p := by
  have hgap : ∀ {g : Text}, g.IsGap → g.filter p = [] := fun hg =>
    List.filter_eq_nil_iff.2 fun c hc => by simp [hp c (hg.2 c hc)]
  induction h with
  | nil => rfl
  | cons c _ ih => rw [List.filter_cons, List.filter_cons, ih]
  | gap hg hh _ ih => rw [List.filter_append, List.filter_append, hgap hg, hgap hh, ih]

/-- What gaps do not belong to is found the same in both. -/
theorem takeWhile_eq (hp : ∀ c, isGapChar c = true → p c = false) (h : Respaced a b) :
    a.takeWhile p = b.takeWhile p := by
  have hall : ∀ t : Text, (t.takeWhile p).filter p = t.takeWhile p := fun t =>
    List.filter_eq_self.2 fun _ hc => List.mem_takeWhile_imp hc
  rw [← hall a, (h.takeWhile hp).filter hp, hall b]

end Spans

theorem any_eq {p : Char → Bool} (hp : ∀ c, isGapChar c = true → p c = false) (h : Respaced a b) :
    a.any p = b.any p := by
  have hany : ∀ t : Text, (t.filter p).any p = t.any p := fun t => by simp [List.any_filter]
  rw [← hany a, h.filter hp, hany b]

theorem head?_eq_some {c : Char} (hc : isGapChar c = false) (h : Respaced a b)
    (ha : a.head? = some c) : b.head? = some c := by
  obtain ⟨t, rfl⟩ := List.head?_eq_some_iff.1 ha
  obtain ⟨u, rfl, -⟩ := h.exists_cons hc
  rfl

theorem closeRange?_eq_some {inner rest : Text} (h : Respaced a b)
    (ha : closeRange? a = some (inner, rest)) :
    ∃ i r, closeRange? b = some (i, r) ∧ Respaced inner i ∧ Respaced rest r := by
  have hrange : ∀ c, isGapChar c = true → isRangeChar c = true := fun c hc =>
    isRangeChar_of_isBlank (isBlank_of_isGapChar hc)
  have hdrop := h.dropWhile hrange
  unfold closeRange? at ha
  split at ha
  · rename_i rest' hd
    obtain ⟨rfl, rfl⟩ := Prod.mk.inj (Option.some.inj ha)
    rw [hd] at hdrop
    obtain ⟨r, hr, hrest⟩ := hdrop.exists_cons (by decide)
    refine ⟨b.takeWhile isRangeChar, r, ?_, h.takeWhile hrange, hrest⟩
    rw [closeRange?, hr]
    rfl
  · cases ha

/-- The tokens go by where gaps are. -/
theorem tokens_eq (h : Respaced a b) : tokens a = tokens b := by
  have hword : ∀ c, isGapChar c = true → isWordChar c = false := fun c hc =>
    isWordChar_of_isBlank (isBlank_of_isGapChar hc)
  have hsolid : ∀ {c}, ¬ isBlank c = true → isGapChar c = false := fun hc =>
    isGapChar_of_not_blank (Bool.eq_false_iff.2 hc)
  fun_induction tokens a generalizing b with
  | case1 => rw [h.eq_nil, tokens_nil]
  | case2 c t hc ih =>
    obtain ⟨g, u, rfl, hg, hu⟩ := h.exists_blanks hc
    rw [tokens_blanks hg, ih hu]
  | case3 c t hc hw ih =>
    obtain ⟨u, rfl, hu⟩ := h.exists_cons (hsolid hc)
    rw [tokens, if_neg hc, if_pos hw, hu.takeWhile_eq hword, ih (hu.dropWhile hword)]
  | case4 t inner rest hr hc hw ih =>
    obtain ⟨u, rfl, hu⟩ := h.exists_cons (hsolid hc)
    obtain ⟨i, r, hi, hinner, hrest⟩ := hu.closeRange?_eq_some hr
    obtain ⟨rfl, hrange⟩ := closeRange?_eq_some_iff.1 hi
    have hblank : ∀ d, isGapChar d = true → (!isBlank d) = false := fun d hd => by
      rw [isBlank_of_isGapChar hd, Bool.not_true]
    rw [tokens_range hrange, ih hrest, hinner.filter hblank]
  | case5 t hr hc hw ih =>
    obtain ⟨u, rfl, hu⟩ := h.exists_cons (hsolid hc)
    -- a partner in the other text would be one in this text too
    have hopen : closeRange? u = none := by
      rcases hcu : closeRange? u with _ | ⟨i, r⟩
      · rfl
      · obtain ⟨_, _, ht, -⟩ := hu.symm.closeRange?_eq_some hcu
        rw [hr] at ht
        cases ht
    rw [tokens_opening hopen, ih hu]
  | case6 c t hc hw hb ih =>
    obtain ⟨u, rfl, hu⟩ := h.exists_cons (hsolid hc)
    rw [tokens, if_neg hc, if_neg hw, if_neg hb, ih hu]

theorem beforeComment_cons (c : Char) (t : Text) : beforeComment (c :: t) =
    if c = '/' ∧ t.head? = some '/' then [] else c :: beforeComment t := by
  cases t with
  | nil => simp [beforeComment]
  | cons d t => simp [beforeComment]

theorem beforeComment_gap_append {g : Text} (hg : ∀ c ∈ g, isGapChar c = true) (t : Text) :
    beforeComment (g ++ t) = g ++ beforeComment t := by
  induction g with
  | nil => rfl
  | cons c g ih =>
    have hc : c ≠ '/' := ne_of_isGapChar (hg c (by simp)) (by decide)
    rw [List.cons_append, beforeComment_cons, if_neg fun h => hc h.1,
      ih fun d hd => hg d (by simp [hd]), List.cons_append]

theorem beforeComment (h : Respaced a b) : Respaced (beforeComment a) (beforeComment b) := by
  induction h with
  | nil => exact .nil
  | @cons c x y h ih =>
    have hslash : ∀ {x y : Text}, Respaced x y → x.head? = some '/' → y.head? = some '/' :=
      fun hxy => hxy.head?_eq_some (by decide)
    rw [beforeComment_cons, beforeComment_cons]
    by_cases hc : c = '/' ∧ x.head? = some '/'
    · rw [if_pos hc, if_pos ⟨hc.1, hslash h hc.2⟩]
      exact .nil
    · rw [if_neg hc, if_neg fun hc' => hc ⟨hc'.1, hslash h.symm hc'.2⟩]
      exact .cons c ih
  | gap hg hh _ ih =>
    rw [beforeComment_gap_append hg.2, beforeComment_gap_append hh.2]
    exact .gap hg hh ih

theorem lineTokens_eq (h : Respaced a b) : lineTokens a = lineTokens b := h.beforeComment.tokens_eq

section Delimiters

open Delimiters

theorem addAll_gap_append {g : Text} (hg : g.IsGap) (d : Delimiters) (p : Option Char) (t : Text) :
    ∃ c, isGapChar c = true ∧ addAll d p (g ++ t) = addAll d (some c) t := by
  have hquiet : ∀ c ∈ g, c ≠ '(' ∧ c ≠ ')' ∧ c ≠ ';' := fun c hc =>
    ⟨ne_of_isGapChar (hg.2 c hc) (by decide), ne_of_isGapChar (hg.2 c hc) (by decide),
      ne_of_isGapChar (hg.2 c hc) (by decide)⟩
  refine ⟨g.getLast hg.1, hg.2 _ (List.getLast_mem hg.1), ?_⟩
  rw [addAll_append, addAll_of_quiet hquiet, List.getLast?_eq_some_getLast hg.1, Option.some_or]

/-- Of the character before, only a hash counts. -/
theorem addAll_eq (h : Respaced a b) : ∀ (d : Delimiters) {p q : Option Char},
    (p = some '#' ↔ q = some '#') → addAll d p a = addAll d q b := by
  induction h with
  | nil => exact fun _ _ _ _ => rfl
  | cons c h ih =>
    intro d p q hpq
    have hadd : d.add p c = d.add q c := by simp only [add, hpq]
    rw [addAll, addAll, hadd]
    exact ih _ Iff.rfl
  | gap hg hh _ ih =>
    intro d p q _
    obtain ⟨c, hc, hleft⟩ := addAll_gap_append hg d p _
    obtain ⟨e, he, hright⟩ := addAll_gap_append hh d q _
    rw [hleft, hright]
    have hhash : ∀ {x}, isGapChar x = true → some x ≠ some '#' := fun hx hs =>
      ne_of_isGapChar hx (by decide) (Option.some.inj hs)
    exact ih d ⟨fun hs => absurd hs (hhash hc), fun hs => absurd hs (hhash he)⟩

theorem ofLine?_eq (h : Respaced a b) : ofLine? a = ofLine? b := by
  unfold ofLine?
  rw [h.addAll_eq {} Iff.rfl, h.any_eq fun c hc => ?_]
  simp only [Bool.or_eq_false_iff, beq_eq_false_iff_ne]
  exact ⟨⟨ne_of_isGapChar hc (by decide), ne_of_isGapChar hc (by decide)⟩,
    ne_of_isGapChar hc (by decide)⟩

end Delimiters

section Names

theorem trimStart (h : Respaced a b) : Respaced a.trimStart b.trimStart :=
  h.dropWhile fun _ => isBlank_of_isGapChar

theorem takeName?_eq_some {n r : Text} (h : Respaced a b) (ha : takeName? a = some (n, r)) :
    ∃ u, takeName? b = some (n, u) ∧ Respaced r u := by
  have hname : ∀ c, isGapChar c = true → isNameChar c = false := fun c hc =>
    isNameChar_of_isBlank (isBlank_of_isGapChar hc)
  rcases a with _ | ⟨c, t⟩
  · cases ha
  · rw [takeName?, Option.ite_none_right_eq_some] at ha
    obtain ⟨hc, ha⟩ := ha
    obtain ⟨rfl, rfl⟩ := Prod.mk.inj (Option.some.inj ha)
    have hstart : isGapChar c = false := by
      by_contra hgap
      have hnot := hname c (by simpa using hgap)
      rw [isNameChar_of_isNameStart hc] at hnot
      cases hnot
    obtain ⟨u, rfl, hu⟩ := h.exists_cons hstart
    refine ⟨u.dropWhile isNameChar, ?_, hu.dropWhile hname⟩
    rw [takeName?, if_pos hc, hu.takeWhile_eq hname]

theorem afterKeyword?_eq_some {keyword r : Text} (h : Respaced a b)
    (ha : afterKeyword? keyword a = some r) :
    ∃ u, afterKeyword? keyword b = some u ∧ Respaced r u := by
  simp only [afterKeyword?, Option.bind_eq_bind, Option.bind_eq_some_iff] at ha
  obtain ⟨⟨name, rest⟩, hname, ha⟩ := ha
  rw [Option.ite_none_right_eq_some] at ha
  obtain ⟨rfl, ha⟩ := ha
  obtain rfl := Option.some.inj ha
  obtain ⟨u, hu, hrest⟩ := h.takeName?_eq_some hname
  refine ⟨u, ?_, hrest⟩
  simp only [afterKeyword?, hu, Option.bind_eq_bind, Option.bind_some, if_true]

theorem headerName?_eq_some {n : Text} (h : Respaced a b) (ha : headerName? a = some n) :
    headerName? b = some n := by
  simp only [headerName?, Option.bind_eq_bind, Option.bind_eq_some_iff] at ha
  obtain ⟨rest, hkeyword, ⟨name, after⟩, hname, ha⟩ := ha
  obtain ⟨u, hu, hrest⟩ := h.trimStart.afterKeyword?_eq_some hkeyword
  obtain ⟨v, hv, -⟩ := hrest.trimStart.takeName?_eq_some hname
  simp only [headerName?, hu, hv, Option.bind_eq_bind, Option.bind_some]
  exact ha

theorem headerName?_eq (h : Respaced a b) : headerName? a = headerName? b :=
  Option.ext fun _ => ⟨h.headerName?_eq_some, h.symm.headerName?_eq_some⟩

end Names

section Timescales

theorem dropOpening?_eq_some {c : Char} {r : Text} (hc : isGapChar c = false) (h : Respaced a b)
    (ha : Text.dropOpening? [c] a = some r) :
    ∃ u, Text.dropOpening? [c] b = some u ∧ Respaced r u := by
  rw [Text.dropOpening?, Option.ite_none_right_eq_some, List.isPrefixOf_iff_prefix] at ha
  obtain ⟨⟨t, rfl⟩, ha⟩ := ha
  obtain rfl : t = r := Option.some.inj ha
  obtain ⟨u, rfl, hu⟩ := h.exists_cons hc
  exact ⟨u, by simp [Text.dropOpening?], hu⟩

theorem takeQuantity?_eq_some {n r : Text} (h : Respaced a b) (ha : takeQuantity? a = some (n, r)) :
    ∃ u, takeQuantity? b = some (n, u) ∧ Respaced r u := by
  have hquantity : ∀ c, isGapChar c = true → isQuantityChar c = false := by
    intro c hc
    have hdot : c ≠ '.' := ne_of_isGapChar hc (by decide)
    rw [isQuantityChar, beq_eq_false_iff_ne.2 hdot, Bool.or_false, Bool.eq_false_iff]
    intro hn
    rw [isGapChar, isBlank_of_isAlphanum hn] at hc
    cases hc
  simp only [takeQuantity?, Option.ite_none_left_eq_some] at ha
  obtain ⟨hne, ha⟩ := ha
  obtain ⟨rfl, rfl⟩ := Prod.mk.inj (Option.some.inj ha)
  refine ⟨b.dropWhile isQuantityChar, ?_, h.dropWhile hquantity⟩
  rw [h.takeWhile_eq hquantity] at hne ⊢
  rw [takeQuantity?, if_neg hne]

theorem unitAndPrecision?_eq_some {n : Text} (h : Respaced a b)
    (ha : unitAndPrecision? a = some n) : unitAndPrecision? b = some n := by
  simp only [unitAndPrecision?, Option.bind_eq_bind, Option.bind_eq_some_iff] at ha
  obtain ⟨⟨unit, rest⟩, hunit, after, hslash, ⟨precision, last⟩, hprecision, ha⟩ := ha
  obtain ⟨u, hu, hrest⟩ := h.trimStart.takeQuantity?_eq_some hunit
  obtain ⟨v, hv, hafter⟩ := hrest.trimStart.dropOpening?_eq_some (by decide) hslash
  obtain ⟨w, hw, -⟩ := hafter.trimStart.takeQuantity?_eq_some hprecision
  simp only [unitAndPrecision?, hu, hv, hw, Option.bind_eq_bind, Option.bind_some]
  exact ha

theorem timescale?_eq_some {n : Text} (h : Respaced a b) (ha : timescale? a = some n) :
    timescale? b = some n := by
  simp only [timescale?, Option.bind_eq_bind, Option.bind_eq_some_iff] at ha
  obtain ⟨rest, hmark, after, hkeyword, ha⟩ := ha
  obtain ⟨u, hu, hrest⟩ := h.trimStart.dropOpening?_eq_some (by decide) hmark
  obtain ⟨v, hv, hafter⟩ := hrest.afterKeyword?_eq_some hkeyword
  simp only [timescale?, hu, hv, Option.bind_eq_bind, Option.bind_some]
  exact hafter.unitAndPrecision?_eq_some ha

theorem timescale?_eq (h : Respaced a b) : timescale? a = timescale? b :=
  Option.ext fun _ => ⟨h.timescale?_eq_some, h.symm.timescale?_eq_some⟩

end Timescales

theorem alike (h : Respaced a b) : a.Alike b :=
  ⟨h.headerName?_eq, h.timescale?_eq, h.lineTokens_eq, h.ofLine?_eq⟩

theorem mem {c : Char} (hc : isGapChar c = false) (h : Respaced a b) (ha : c ∈ a) : c ∈ b := by
  have hmem : c ∈ a.filter (· == c) := List.mem_filter.2 ⟨ha, beq_self_eq_true c⟩
  rw [h.filter fun d hd => beq_eq_false_iff_ne.2 (ne_of_isGapChar hd hc)] at hmem
  exact List.mem_of_mem_filter hmem

/-- A line feed stands in no gap, so both texts have it. -/
theorem exists_line {t : Text} (ha : '\n' ∉ a) (h : Respaced (a ++ '\n' :: t) b) :
    ∃ x y, b = x ++ '\n' :: y ∧ '\n' ∉ x ∧ Respaced a x ∧ Respaced t y := by
  have hinside : ∀ c, isGapChar c = true → (c != '\n') = true := fun c hc =>
    (Bool.and_eq_true_iff.1 hc).2
  have hline : ∀ c ∈ a, (c != '\n') = true := by
    intro c hc
    rw [bne_iff_ne]
    rintro rfl
    exact ha hc
  have hfirst := h.takeWhile hinside
  have hrest := h.dropWhile hinside
  rw [takeWhile_append_of_head hline (by simp)] at hfirst
  rw [dropWhile_append_of_head hline (by simp)] at hrest
  obtain ⟨y, hy, hty⟩ := hrest.exists_cons (by decide)
  refine ⟨b.takeWhile (· != '\n'), y, ?_, fun hn => ?_, hfirst, hty⟩
  · rw [← hy, List.takeWhile_append_dropWhile]
  · simpa using List.mem_takeWhile_imp hn

/-- The lines of respaced texts are respaced one by one. -/
theorem lines (h : Respaced a b) : List.Forall₂ Respaced a.lines b.lines := by
  induction a using Text.line_induction generalizing b with
  | nil =>
    rw [h.eq_nil]
    exact .nil
  | last a hne ha =>
    have hb : b ≠ [] := by
      rintro rfl
      exact hne h.symm.eq_nil
    rw [Text.lines_of_not_mem hne ha,
      Text.lines_of_not_mem hb fun hn => ha (h.symm.mem (by decide) hn)]
    exact .cons h .nil
  | line a t ha ih =>
    obtain ⟨x, y, rfl, hx, hax, hty⟩ := h.exists_line ha
    rw [Text.lines_append_newline ha, Text.lines_append_newline hx]
    exact .cons (hax.append (refl _)) (ih hty)

end Respaced

end HdlScaffold
