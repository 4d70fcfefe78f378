import HdlScaffold.Proofs.Blocks
import HdlScaffold.Proofs.Extraction
import HdlScaffold.Proofs.Places
import Mathlib.Data.Nat.Find

/-!
# Searching for blocks

The search for a block is told by the lines of the source alone: the first line that stops it, whether
the block opens there, the first line that ends the block, and the declarations on the lines between
the two (`BlockRule.Finds`). The two searches, with all their steps back, follow this rule from wherever
the reader stands, and they leave the reader before the line that they ended on
(`Header.finds_iff_of_standsAt`).
-/

namespace HdlScaffold

open Header

/-- Line `j` is the first from line `k` on with the property. -/
structure IsFirst (P : Nat → Text → Prop) (ls : List Text) (k j : Nat) : Prop where
  le : k ≤ j
  holds : ∃ l, ls[j]? = some l ∧ P j l
  first : ∀ i l, k ≤ i → i < j → ls[i]? = some l → ¬ P i l

/-- How a kind of block is found. -/
structure BlockRule (α : Type) where
  block : Block
  /-- The search stops on the line. -/
  Stops : Text → Prop
  /-- The block opens on the line. -/
  Opens : Text → Prop
  /-- The block ends on the line, which may be the one that opens it. -/
  Ends : Bool → Text → Prop
  /-- The declarations on the lines of a block. -/
  Declares : List Text → List α → Prop

/-- What the search from line `k` on answers, and the line that it ends before. -/
inductive BlockRule.Finds {α : Type} (R : BlockRule α) (ls : List Text) (k : Nat) :
    Except Error (List α) → Nat → Prop
  | missing : (∀ i l, k ≤ i → ls[i]? = some l → ¬ R.Stops l) →
      R.Finds ls k (.error (.unclosed R.block ls.length)) ls.length
  | absent {j : Nat} {l : Text} : IsFirst (fun _ => R.Stops) ls k j → ls[j]? = some l →
      ¬ R.Opens l → R.Finds ls k (.ok []) j
  | unclosed {j : Nat} {l : Text} : IsFirst (fun _ => R.Stops) ls k j → ls[j]? = some l →
      R.Opens l → (∀ i m, j ≤ i → ls[i]? = some m → ¬ R.Ends (i == j) m) →
      R.Finds ls k (.error (.unclosed R.block ls.length)) ls.length
  | closed {j e : Nat} {l : Text} {as : List α} : IsFirst (fun _ => R.Stops) ls k j →
      ls[j]? = some l → R.Opens l → IsFirst (fun i => R.Ends (i == j)) ls j e →
      R.Declares (ls.extract j (e + 1)) as → R.Finds ls k (.ok as) e

/-- The line is `a`, an opening parenthesis with no hash before it, and `b`. -/
def Text.OpensBare (l a b : Text) : Prop := l = a ++ '(' :: b ∧ a.getLast? ≠ some '#'

/-- Parameters stand between a parenthesis after a hash and the next closing one. -/
def parameterRule : BlockRule Parameter where
  block := .parameter
  Stops l := ∃ d ∈ Delimiters.ofLine? l, d.opensParameters ∨ d.opensPorts ∨ d.endsDeclaration
  Opens l := ∃ d ∈ Delimiters.ofLine? l, d.opensParameters
  Ends _ l := ')' ∈ l
  Declares ls ps := ∃ u, feedLines ParameterContext.feed {} (ls.map lineTokens) = .ok (u, ps)

/-- On the line that opens the ports, only what follows the parenthesis can close them. -/
def portRule : BlockRule Port where
  block := .port
  Stops l := ∃ d ∈ Delimiters.ofLine? l, d.opensPorts ∨ d.endsDeclaration
  Opens l := ∃ d ∈ Delimiters.ofLine? l, d.opensPorts
  Ends opening l :=
    if opening then ∃ a b, l.OpensBare a b ∧ (∀ c d, ¬ a.OpensBare c d) ∧ ')' ∈ b
    else ∃ d ∈ Delimiters.ofLine? l, d.endsPorts
  Declares ls ps := ∃ u, feedLines PortContext.feed {} (ls.map lineTokens) = .ok (u, ps)

section Lines

variable {P : Nat → Text → Prop} {ls : List Text} {k j : Nat}

theorem isFirst_or_none (P : Nat → Text → Prop) (ls : List Text) (k : Nat) :
    (∀ i l, k ≤ i → ls[i]? = some l → ¬ P i l) ∨ ∃ j, IsFirst P ls k j := by
  classical
  by_cases h : ∃ j, k ≤ j ∧ ∃ l, ls[j]? = some l ∧ P j l
  · obtain ⟨hk, hj⟩ := Nat.find_spec h
    refine Or.inr ⟨Nat.find h, hk, hj, fun i l hi hlt hl hP => ?_⟩
    exact Nat.find_min h hlt ⟨hi, l, hl, hP⟩
  · exact Or.inl fun i l hi hl hP => h ⟨i, hi, l, hl, hP⟩

theorem IsFirst.lt_length (h : IsFirst P ls k j) : j < ls.length := by
  obtain ⟨l, hl, -⟩ := h.holds
  exact (List.getElem?_eq_some_iff.1 hl).1

theorem IsFirst.unique {i : Nat} (h : IsFirst P ls k j) (h' : IsFirst P ls k i) : j = i := by
  obtain ⟨l, hl, hP⟩ := h.holds
  obtain ⟨m, hm, hQ⟩ := h'.holds
  rcases Nat.lt_trichotomy j i with hlt | heq | hlt
  · exact absurd hP (h'.first j l h.le hlt hl)
  · exact heq
  · exact absurd hQ (h.first i m h'.le hlt hm)

theorem IsFirst.not_none (h : IsFirst P ls k j) : ¬ ∀ i l, k ≤ i → ls[i]? = some l → ¬ P i l := by
  obtain ⟨l, hl, hP⟩ := h.holds
  exact fun hnone => hnone j l h.le hl hP

/-- A rule whose declarations are determined by the lines determines all of the search. -/
theorem BlockRule.Finds.unique {α : Type} {R : BlockRule α}
    (hR : ∀ {ls as bs}, R.Declares ls as → R.Declares ls bs → as = bs) {x y : Except Error (List α)}
    {e f : Nat} (h : R.Finds ls k x e) (h' : R.Finds ls k y f) : x = y ∧ e = f := by
  have hsame : ∀ {i j l m}, IsFirst (fun _ => R.Stops) ls k i → IsFirst (fun _ => R.Stops) ls k j →
      ls[i]? = some l → ls[j]? = some m → i = j ∧ l = m := by
    intro i j l m hi hj hl hm
    obtain rfl := hi.unique hj
    exact ⟨rfl, Option.some.inj (hl.symm.trans hm)⟩
  cases h with
  | missing hnone =>
    cases h' with
    | missing => exact ⟨rfl, rfl⟩
    | absent hj | unclosed hj | closed hj => exact absurd hnone hj.not_none
  | absent hj hl hopens =>
    cases h' with
    | missing hnone => exact absurd hnone hj.not_none
    | absent hi => exact ⟨rfl, hj.unique hi⟩
    | unclosed hi hm hopens' | closed hi hm hopens' =>
      obtain ⟨rfl, rfl⟩ := hsame hj hi hl hm
      exact absurd hopens' hopens
  | unclosed hj hl hopens hends =>
    cases h' with
    | missing | unclosed => exact ⟨rfl, rfl⟩
    | absent hi hm hopens' =>
      obtain ⟨rfl, rfl⟩ := hsame hj hi hl hm
      exact absurd hopens hopens'
    | closed hi hm _ he =>
      obtain ⟨rfl, rfl⟩ := hsame hj hi hl hm
      exact absurd hends he.not_none
  | closed hj hl hopens he hdeclares =>
    cases h' with
    | missing hnone => exact absurd hnone hj.not_none
    | absent hi hm hopens' =>
      obtain ⟨rfl, rfl⟩ := hsame hj hi hl hm
      exact absurd hopens hopens'
    | unclosed hi hm _ hends =>
      obtain ⟨rfl, rfl⟩ := hsame hj hi hl hm
      exact absurd hends he.not_none
    | closed hi hm _ he' hdeclares' =>
      obtain ⟨rfl, rfl⟩ := hsame hj hi hl hm
      obtain rfl := he.unique he'
      exact ⟨congrArg _ (hR hdeclares hdeclares'), rfl⟩

theorem getElem?_extract (ls : List Text) (k j i : Nat) :
    (ls.extract k j)[i]? = if k + i < j then ls[k + i]? else none := by
  rw [List.extract_eq_take_drop, List.getElem?_take, List.getElem?_drop]
  by_cases h : k + i < j
  · rw [if_pos h, if_pos (by omega)]
  · rw [if_neg h, if_neg (by omega)]

theorem length_extract (hj : j ≤ ls.length) : (ls.extract k j).length = j - k := by
  rw [List.extract_eq_take_drop, List.length_take, List.length_drop]
  omega

theorem mem_extract {l : Text} (h : l ∈ ls.extract k j) : ∃ i, k ≤ i ∧ i < j ∧ ls[i]? = some l := by
  obtain ⟨i, hi⟩ := List.getElem?_of_mem h
  rw [getElem?_extract, Option.ite_none_right_eq_some] at hi
  exact ⟨k + i, by omega, hi.1, hi.2⟩

theorem drop_eq_extract_append (hk : k ≤ j) : ls.drop k = ls.extract k j ++ ls.drop j := by
  rw [List.extract_eq_take_drop, show ls.drop j = (ls.drop k).drop (j - k) by
    rw [List.drop_drop, Nat.add_sub_cancel' hk], List.take_append_drop]

theorem drop_eq_cons {l : Text} (h : ls[j]? = some l) : ls.drop j = l :: ls.drop (j + 1) := by
  obtain ⟨hj, rfl⟩ := List.getElem?_eq_some_iff.1 h
  exact List.drop_eq_getElem_cons hj

theorem extract_concat {l : Text} (hk : k ≤ j) (h : ls[j]? = some l) :
    ls.extract k (j + 1) = ls.extract k j ++ [l] := by
  have hnext : ls.drop k = _ := drop_eq_extract_append (Nat.le_succ_of_le hk)
  rw [drop_eq_extract_append hk, drop_eq_cons h, ← List.singleton_append, ← List.append_assoc] at hnext
  exact (List.append_cancel_right hnext).symm

theorem add_beq_self (k i : Nat) : (k + i == k) = (i == 0) := by
  rw [Bool.eq_iff_iff, beq_iff_eq, beq_iff_eq]
  omega

end Lines

namespace Delimiters

/-- A flag raised along a text was raised by one of its characters, the first that does so. -/
theorem exists_raised {flag : Delimiters → Bool} : ∀ {t : Text} {d : Delimiters} {p : Option Char},
    flag d = false → flag (addAll d p t) = true → ∃ a c b, t = a ++ c :: b ∧
      flag (addAll d p a) = false ∧ flag ((addAll d p a).add (a.getLast?.or p) c) = true
  | [], d, p, hd, h => by simp [addAll, hd] at h
  | c :: t, d, p, hd, h => by
    by_cases hc : flag (d.add p c) = true
    · exact ⟨[], c, t, rfl, hd, hc⟩
    · rw [addAll] at h
      obtain ⟨a, e, b, rfl, ha, he⟩ := exists_raised (Bool.eq_false_iff.2 hc) h
      exact ⟨c :: a, e, b, rfl, ha, by rwa [getLast?_cons_or]⟩

theorem exists_bare_of_opensPorts {t : Text} {d : Delimiters} {p : Option Char}
    (hd : d.opensPorts = false) (h : (addAll d p t).opensPorts = true) :
    ∃ a b, t = a ++ '(' :: b ∧ a.getLast?.or p ≠ some '#' ∧ (addAll d p a).opensPorts = false := by
  obtain ⟨a, c, b, rfl, ha, hc⟩ := exists_raised hd h
  rw [opensPorts_add, ha, Bool.false_or, Bool.and_eq_true, decide_eq_true_eq,
    decide_eq_true_eq] at hc
  obtain ⟨rfl, hp⟩ := hc
  exact ⟨a, b, rfl, hp, ha⟩

theorem opensPorts_iff {l : Text} : (ofText l).opensPorts = true ↔ ∃ a b, l.OpensBare a b := by
  constructor
  · intro h
    obtain ⟨a, b, hl, hlast, -⟩ := exists_bare_of_opensPorts rfl h
    exact ⟨a, b, hl, by simpa using hlast⟩
  · rintro ⟨a, b, rfl, hlast⟩
    exact ofText_opensPorts hlast

theorem closesOwnPorts_iff {l : Text} : (ofText l).closesOwnPorts = true ↔
    ∃ a b, l.OpensBare a b ∧ (∀ c d, ¬ a.OpensBare c d) ∧ ')' ∈ b := by
  have hcloses : ∀ {a b : Text}, a.getLast? ≠ some '#' → (ofText a).opensPorts = false →
      ((ofText (a ++ '(' :: b)).closesOwnPorts = true ↔ ')' ∈ b) := by
    intro a b hlast ha
    rw [closesOwnPorts, ofText_closesAfterPorts hlast ha, decide_eq_true_eq, ge_iff_le,
      List.one_le_count_iff]
  have hnone : ∀ {a : Text}, (ofText a).opensPorts = false ↔ ∀ c d, ¬ a.OpensBare c d := by
    intro a
    rw [← Bool.not_eq_true, opensPorts_iff]
    simp only [not_exists]
  constructor
  · intro h
    by_cases hopen : (ofText l).opensPorts = true
    · obtain ⟨a, b, rfl, hlast, ha⟩ := exists_bare_of_opensPorts rfl hopen
      rw [Option.or_none] at hlast
      exact ⟨a, b, ⟨rfl, hlast⟩, hnone.1 ha, (hcloses hlast ha).1 h⟩
    · have hzero : (ofText l).closesAfterPorts = 0 :=
        closesAfterPorts_addAll_of_closed (Bool.eq_false_iff.2 hopen)
      simp [closesOwnPorts, hzero] at h
  · rintro ⟨a, b, ⟨rfl, hlast⟩, ha, hb⟩
    exact (hcloses hlast (hnone.2 ha)).2 hb

end Delimiters

namespace Header

open Reading

variable {α σ : Type}

/-- The search goes by the rule, line by line. -/
structure FollowsRule (R : BlockRule α) (opens? : Text → Option Bool)
    (gather : σ → Text → Except Error (σ ⊕ List α)) (start : σ) : Prop where
  goes_on : ∀ l, ¬ R.Stops l → opens? l = none
  opens : ∀ l, R.Stops l → R.Opens l → opens? l = some true
  stops : ∀ l, R.Stops l → ¬ R.Opens l → opens? l = some false
  through : ∀ ls, (∀ i l, ls[i]? = some l → ¬ R.Ends (i == 0) l) → ∃ s, Through gather start ls s
  closes : ∀ ls l, (∀ i k, ls[i]? = some k → ¬ R.Ends (i == 0) k) → R.Ends ls.isEmpty l →
    ∃ s as, Through gather start ls s ∧ gather s l = .ok (.inr as) ∧ R.Declares (ls ++ [l]) as

theorem standsAt_extract {r : LineReader} {t : Text} {k j : Nat} {b : Bool}
    (h : r.StandsAt t ⟨k, b⟩) (hk : k ≤ j) (hj : j ≤ t.lines.length) :
    (r.pass (t.lines.extract k j)).StandsAt t ⟨j, false⟩ := by
  have hahead : t.lines.extract k j <+: t.lines.drop k :=
    ⟨t.lines.drop j, (drop_eq_extract_append hk).symm⟩
  have hpass := h.pass hahead
  have hlength : k + (t.lines.extract k j).length = j := by
    rw [length_extract hj]
    omega
  rwa [hlength] at hpass

theorem standsAt_drop {r : LineReader} {t : Text} {k : Nat} {b : Bool} (h : r.StandsAt t ⟨k, b⟩) :
    (r.pass (t.lines.drop k)).StandsAt t ⟨t.lines.length, false⟩ := by
  have hpass := h.pass (List.prefix_rfl)
  rwa [List.length_drop, Nat.add_sub_cancel' h.passed_le] at hpass

section Seeking

variable {R : BlockRule α} {opens? : Text → Option Bool}
  {gather : σ → Text → Except Error (σ ⊕ List α)} {start : σ} {absent ends : Nat → Note}
  {r : LineReader} {t : Text} {k : Nat} {b : Bool}

/-- The search for the line that opens a block stops where the rule says. -/
theorem FollowsRule.find?_of_isFirst (hR : FollowsRule R opens? gather start)
    (h : r.StandsAt t ⟨k, b⟩) {j : Nat} (hj : IsFirst (fun _ => R.Stops) t.lines k j) {l : Text}
    (hl : t.lines[j]? = some l) {opening : Bool} (hopening : opens? l = some opening) :
    ∃ line, (find? opens?).Yields r (some (opening, line)) (r.pass (t.lines.extract k j)) := by
  have hbefore := h.before
  rw [drop_eq_extract_append hj.le, drop_eq_cons hl] at hbefore
  refine ⟨_, find?_of_before hbefore (fun m hm => ?_) hopening⟩
  obtain ⟨i, hi, hlt, hm⟩ := mem_extract hm
  exact hR.goes_on m (hj.first i m hi hlt hm)

theorem FollowsRule.until?_of_isFirst (hR : FollowsRule R opens? gather start)
    (h : r.StandsAt t ⟨k, b⟩) {e : Nat} (he : IsFirst (fun i => R.Ends (i == k)) t.lines k e) :
    ∃ line as, (until? gather start).Yields r (some (as, line)) (r.pass (t.lines.extract k e)) ∧
      R.Declares (t.lines.extract k (e + 1)) as := by
  obtain ⟨l, hl, hends⟩ := he.holds
  have hbefore := h.before
  rw [drop_eq_extract_append he.le, drop_eq_cons hl] at hbefore
  have hempty : (t.lines.extract k e).isEmpty = (e == k) := by
    have hk := he.le
    rw [Bool.eq_iff_iff, List.isEmpty_iff_length_eq_zero, length_extract he.lt_length.le, beq_iff_eq]
    omega
  obtain ⟨s, as, hthrough, hlast, hdeclares⟩ := hR.closes (t.lines.extract k e) l (by
    intro i m hm
    rw [getElem?_extract, Option.ite_none_right_eq_some] at hm
    rw [← add_beq_self k]
    exact he.first (k + i) m (Nat.le_add_right k i) hm.1 hm.2) (by rwa [hempty])
  rw [extract_concat he.le hl]
  exact ⟨_, as, until?_of_through hbefore hthrough hlast, hdeclares⟩

theorem FollowsRule.finds (hR : FollowsRule R opens? gather start) (absent ends : Nat → Note)
    (h : r.StandsAt t ⟨k, b⟩) :
    ∃ e, R.Finds t.lines k (seek R.block opens? gather start absent ends r).answer e ∧
      (seek R.block opens? gather start absent ends r).reader.StandsAt t ⟨e, false⟩ := by
  rcases isFirst_or_none (fun _ => R.Stops) t.lines k with hnone | ⟨j, hj⟩
  -- the source ends before the search stops
  · have hend := standsAt_drop h
    have hfind : (find? opens?).Yields r none (r.pass (t.lines.drop k)) := by
      refine find?_of_end h.before fun m hm => ?_
      obtain ⟨i, hi⟩ := List.getElem?_of_mem hm
      rw [List.getElem?_drop] at hi
      exact hR.goes_on m (hnone (k + i) m (Nat.le_add_right k i) hi)
    obtain ⟨notes, hrun⟩ : (seek R.block opens? gather start absent ends).Fails r _ _ :=
      hfind.bind_fails (fails_unclosed R.block _)
    rw [hrun, hend.lineNumber_eq]
    exact ⟨_, .missing hnone, hend⟩
  · obtain ⟨l, hl, hstops⟩ := hj.holds
    have hpass := standsAt_extract h hj.le hj.lt_length.le
    by_cases hopens : R.Opens l
    · obtain ⟨line, hfind⟩ := hR.find?_of_isFirst h hj hl (hR.opens l hstops hopens)
      -- the search has stepped back, so the opening line is gathered again with the others
      rcases isFirst_or_none (fun i => R.Ends (i == j)) t.lines j with hnone | ⟨e, he⟩
      · have hend := standsAt_drop hpass
        obtain ⟨s, hthrough⟩ := hR.through (t.lines.drop j) (by
          intro i m hm
          rw [List.getElem?_drop] at hm
          rw [← add_beq_self j]
          exact hnone (j + i) m (Nat.le_add_right j i) hm)
        obtain ⟨notes, hrun⟩ : (seek R.block opens? gather start absent ends).Fails r _ _ :=
          hfind.bind_fails ((until?_of_end hpass.before hthrough).bind_fails (fails_unclosed R.block _))
        rw [hrun, hend.lineNumber_eq]
        exact ⟨_, .unclosed hj hl hopens hnone, hend⟩
      · obtain ⟨line', as, huntil, hdeclares⟩ := hR.until?_of_isFirst hpass he
        obtain ⟨notes, hrun⟩ : (seek R.block opens? gather start absent ends).Yields r as _ :=
          hfind.bind (huntil.bind ((yields_note _ _).bind (yields_pure _ _)))
        rw [hrun]
        exact ⟨e, .closed hj hl hopens he hdeclares, standsAt_extract hpass he.le he.lt_length.le⟩
    · obtain ⟨line, hfind⟩ := hR.find?_of_isFirst h hj hl (hR.stops l hstops hopens)
      obtain ⟨notes, hrun⟩ : (seek R.block opens? gather start absent ends).Yields r [] _ :=
        hfind.bind ((yields_note _ _).bind (yields_pure _ _))
      rw [hrun]
      exact ⟨j, .absent hj hl hopens, hpass⟩

end Seeking

section Rules

/-- Lines that cannot fail one by one are read to the end. -/
theorem exists_feedLines {feed : σ → List Token → Except Error (σ × List α)} {I : σ → Prop}
    (hfeed : ∀ s (l : Text), I s → ∃ u as, feed s (lineTokens l) = .ok (u, as) ∧ I u) :
    ∀ {s : σ}, I s → ∀ ls : List Text,
      ∃ u as, feedLines feed s (ls.map lineTokens) = .ok (u, as)
  | s, _, [] => ⟨s, [], rfl⟩
  | s, hs, l :: ls => by
    obtain ⟨u, found, hl, hu⟩ := hfeed s l hs
    obtain ⟨v, more, hls⟩ := exists_feedLines hfeed hu ls
    refine ⟨v, found ++ more, ?_⟩
    simp only [List.map_cons, feedLines, hl, hls, bind, Except.bind, pure, Except.pure]

theorem exists_feedLines_parameters (ls : List Text) :
    ∃ u ps, feedLines ParameterContext.feed {} (ls.map lineTokens) = .ok (u, ps) := by
  refine exists_feedLines (I := fun _ => True) (fun s l _ => ?_) trivial ls
  obtain ⟨u, ps, hfeed, -⟩ := s.exists_feed (t := beforeComment l) List.infix_rfl
  exact ⟨u, ps, hfeed, trivial⟩

theorem exists_feedLines_ports (ls : List Text) :
    ∃ u ps, feedLines PortContext.feed {} (ls.map lineTokens) = .ok (u, ps) := by
  refine exists_feedLines (I := PortContext.Sound) (fun s l hs => ?_) (by simp [PortContext.Sound]) ls
  obtain ⟨u, ps, hfeed, hu, -⟩ := PortContext.exists_feed hs (lexed_of_mem_tokens (beforeComment l))
  exact ⟨u, ps, hfeed, hu⟩

theorem followsRule_parameters :
    FollowsRule parameterRule parametersOpen? gatherParameters ({}, []) := by
  have hends : ∀ {ls : List Text}, (∀ (i : Nat) l, ls[i]? = some l → ')' ∉ l) →
      ∀ l ∈ ls, parametersEnd l = false := by
    intro ls h l hl
    obtain ⟨i, hi⟩ := List.getElem?_of_mem hl
    rw [parametersEnd_eq, decide_eq_false (h i l hi)]
  refine ⟨fun l h => ?_, fun l _ h => ?_, fun l h h' => ?_, fun ls h => ?_, fun ls l h hl => ?_⟩
  · simp only [parameterRule] at h
    rcases hd : Delimiters.ofLine? l with _ | d <;> simp_all [parametersOpen?]
  · obtain ⟨d, hd, h⟩ := h
    simp_all [parametersOpen?]
  · obtain ⟨d, hd, h⟩ := h
    simp_all [parametersOpen?, parameterRule]
  · obtain ⟨u, ps, hfeed⟩ := exists_feedLines_parameters ls
    exact ⟨_, through_gatherParameters (hends h) hfeed⟩
  · obtain ⟨u, ps, hfeed⟩ := exists_feedLines_parameters (ls ++ [l])
    have hall := hfeed
    rw [List.map_append] at hfeed
    obtain ⟨s, found, more, hf, hm, rfl⟩ := feedLines_concat hfeed
    refine ⟨_, found ++ more, through_gatherParameters (hends h) hf, ?_, u, hall⟩
    rw [gatherParameters_eq hm, parametersEnd_eq, decide_eq_true (show ')' ∈ l from hl)]
    rfl

theorem portsEnd_eq_true_iff {opening : Bool} {l : Text} :
    portsEnd opening l = true ↔ portRule.Ends opening l := by
  cases opening with
  | true =>
    rw [portsEnd_eq, if_pos rfl]
    exact Delimiters.closesOwnPorts_iff
  | false =>
    show _ ↔ ∃ d ∈ Delimiters.ofLine? l, d.endsPorts = true
    unfold portsEnd
    rcases Delimiters.ofLine? l with _ | d <;> simp

theorem followsRule_ports : FollowsRule portRule portsOpen? gatherPorts (true, {}, []) := by
  have hfirst : ∀ {ls : List Text}, (∀ (i : Nat) l, ls[i]? = some l → ¬ portRule.Ends (i == 0) l) →
      ∀ l ∈ ls.head?, portsEnd true l = false := by
    intro ls h l hl
    rw [← Bool.not_eq_true, portsEnd_eq_true_iff]
    exact h 0 l (by rwa [← List.head?_eq_getElem?])
  have hlater : ∀ {ls : List Text}, (∀ (i : Nat) l, ls[i]? = some l → ¬ portRule.Ends (i == 0) l) →
      ∀ l ∈ ls.tail, portsEnd false l = false := by
    intro ls h l hl
    obtain ⟨i, hi⟩ := List.getElem?_of_mem hl
    rw [← Bool.not_eq_true, portsEnd_eq_true_iff]
    exact h (i + 1) l (by rwa [List.getElem?_tail] at hi)
  refine ⟨fun l h => ?_, fun l _ h => ?_, fun l h h' => ?_, fun ls h => ?_, fun ls l h hl => ?_⟩
  · simp only [portRule] at h
    rcases hd : Delimiters.ofLine? l with _ | d <;> simp_all [portsOpen?]
  · obtain ⟨d, hd, h⟩ := h
    simp_all [portsOpen?]
  · obtain ⟨d, hd, h⟩ := h
    simp_all [portsOpen?, portRule]
  · obtain ⟨u, ps, hfeed⟩ := exists_feedLines_ports ls
    exact ⟨_, through_gatherPorts (hfirst h) (hlater h) hfeed⟩
  · obtain ⟨u, ps, hfeed⟩ := exists_feedLines_ports (ls ++ [l])
    have hall := hfeed
    rw [List.map_append] at hfeed
    obtain ⟨s, found, more, hf, hm, rfl⟩ := feedLines_concat hfeed
    refine ⟨_, found ++ more, through_gatherPorts (hfirst h) (hlater h) hf, ?_, u, hall⟩
    rw [gatherPorts_eq hm, Bool.true_and, portsEnd_eq_true_iff.2 hl]
    rfl

end Rules

theorem feedLines_inj {feed : σ → List Token → Except Error (σ × List α)} {s : σ}
    {tss : List (List Token)} {as bs : List α} (ha : ∃ u, feedLines feed s tss = .ok (u, as))
    (hb : ∃ u, feedLines feed s tss = .ok (u, bs)) : as = bs := by
  obtain ⟨u, ha⟩ := ha
  obtain ⟨v, hb⟩ := hb
  rw [ha] at hb
  exact (Prod.mk.inj (Except.ok.inj hb)).2

/-- From wherever the reader stands in a text, each search answers what the rule of its block says and
nothing else, and the next line is the one that the search ended on. -/
theorem finds_iff_of_standsAt {r : LineReader} {t : Text} {k : Nat} {b : Bool}
    (h : r.StandsAt t ⟨k, b⟩) :
    (∃ e, (∀ x f, parameterRule.Finds t.lines k x f ↔ x = (parameterBlock r).answer ∧ f = e) ∧
      (parameterBlock r).reader.StandsAt t ⟨e, false⟩ ∧
      (parameterBlock r).reader.next.1 = .ok t.lines[e]?) ∧
    (∃ e, (∀ x f, portRule.Finds t.lines k x f ↔ x = (portBlock r).answer ∧ f = e) ∧
      (portBlock r).reader.StandsAt t ⟨e, false⟩ ∧
      (portBlock r).reader.next.1 = .ok t.lines[e]?) := by
  obtain ⟨e, hfinds, hstands⟩ := followsRule_parameters.finds .noParameterBlock .parameterBlockEnds h
  obtain ⟨e', hfinds', hstands'⟩ := followsRule_ports.finds .noPortList .portBlockEnds h
  rw [parameterBlock_eq_seek, portBlock_eq_seek]
  refine ⟨⟨e, fun x f => ⟨fun hx => hx.unique feedLines_inj hfinds, ?_⟩, hstands, hstands.fst_next⟩,
    ⟨e', fun x f => ⟨fun hx => hx.unique feedLines_inj hfinds', ?_⟩, hstands', hstands'.fst_next⟩⟩
  · rintro ⟨rfl, rfl⟩
    exact hfinds
  · rintro ⟨rfl, rfl⟩
    exact hfinds'

/-- The line that closes the parameters opens the ports. -/
def sharedLineHeader : Text := "module m #(\nparameter A = 1\n) (input a,\nb);\n".toList

theorem finds_iff_sharedLineHeader :
    let r := LineReader.ofBytes sharedLineHeader.encode
    let s := r.next.2
    (r.StandsAt sharedLineHeader ⟨0, false⟩ ∧
      (parameterBlock r).answer.map (List.map Parameter.outline) = .ok [(['A'], some ['1'])] ∧
      ∃ e, parameterRule.Finds sharedLineHeader.lines 0 (parameterBlock r).answer e ∧
        (parameterBlock r).reader.next.1 = .ok sharedLineHeader.lines[e]?) ∧
    s.StandsAt sharedLineHeader ⟨1, true⟩ ∧
    (∃ e, parameterRule.Finds sharedLineHeader.lines 1 (parameterBlock s).answer e) ∧
    ∃ e, portRule.Finds sharedLineHeader.lines 1 (portBlock s).answer e ∧
      (portBlock s).reader.next.1 = .ok sharedLineHeader.lines[e]? := by
  have hstart := LineReader.standsAt_ofBytes sharedLineHeader
  have hstands := (hstart.perform .next).2
  have hplace : (Place.perform sharedLineHeader.lines {} .next).2 = ⟨1, true⟩ := by decide
  rw [hplace] at hstands
  obtain ⟨⟨e, hfirst, -, hclosing⟩, -⟩ := finds_iff_of_standsAt hstart
  obtain ⟨⟨f, hparameters, -⟩, g, hports, -, hnext⟩ := finds_iff_of_standsAt hstands
  exact ⟨⟨hstart, by decide +kernel, e, (hfirst _ _).2 ⟨rfl, rfl⟩, hclosing⟩,
    hstands, ⟨f, (hparameters _ _).2 ⟨rfl, rfl⟩⟩, g, (hports _ _).2 ⟨rfl, rfl⟩, hnext⟩

end Header

end HdlScaffold
