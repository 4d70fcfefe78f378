import HdlScaffold.Proofs.DeclarationLists

/-!
# Widths along a port declaration

Types and ranges may stand in front of every name of a port declaration, not only of the first. A comma
takes back none of the ranges before it, so a name has all ranges since the direction
(`PortContext.exists_feedLines_typedNames`). The ranges in front of a later name are therefore added to
those it shares. They are its width only when there is nothing to share
(`PortContext.feedLines_rangedNames`).
-/

namespace HdlScaffold.Header

/-- A name in a port list with the types and ranges in front of it. -/
structure TypedName extends PortName where
  typing : List Token
  type_parts : ∀ k ∈ typing, IsTypePart k ∧ StaysInside k := by simp
  groups : ∀ g ∈ rangesOf typing, g.IsGroup := by simp [rangesOf]

namespace TypedName

def phrase (e : TypedName) : List Token := e.typing ++ e.tokens

/-- The ports that the names declare, behind the ranges `gs` of the same declaration. -/
def ports (d : Direction) : List Text → List TypedName → List Port
  | _, [] => []
  | gs, e :: es =>
    ⟨d, e.name, (gathered (gs ++ rangesOf e.typing)).map .literal,
        solid_of_isIdentifier e.identifier⟩ ::
      ports d (gs ++ rangesOf e.typing) es

theorem isGroup_of_mem (e : TypedName) {gs : List Text} (hgs : ∀ g ∈ gs, g.IsGroup) :
    ∀ g ∈ gs ++ rangesOf e.typing, g.IsGroup := fun g hg =>
  (List.mem_append.1 hg).elim (hgs g) (e.groups g)

end TypedName

theorem rangesOf_map_range (gs : List Text) : rangesOf (gs.map .range) = gs := by
  unfold rangesOf
  rw [List.filterMap_map]
  exact List.filterMap_some

/-- The name with ranges in front of it. -/
def PortName.ranged (n : PortName) (gs : List Text) (hgs : ∀ g ∈ gs, g.IsGroup) : TypedName where
  toPortName := n
  typing := gs.map .range
  type_parts := by
    intro k hk
    obtain ⟨g, -, rfl⟩ := List.mem_map.1 hk
    exact ⟨trivial, trivial⟩
  groups := by rwa [rangesOf_map_range]

theorem outline_literal {d : Direction} {name : Text} {width : Option Text} (h : name.Solid) :
    (Port.mk d name (width.map .literal) h).outline = (d, name, width) := by
  rcases width with _ | w <;> rfl

theorem isGroup_of_lineTokens (lines : List Text) {g : Text}
    (h : .range g ∈ (lines.map lineTokens).flatten) : g.IsGroup := by
  obtain ⟨ts, hts, hg⟩ := List.mem_flatten.1 h
  obtain ⟨line, -, rfl⟩ := List.mem_map.1 hts
  exact lexed_of_mem_tokens _ _ hg

theorem flatten_ne_nil {gs : List Text} (hne : gs ≠ []) (hgs : ∀ g ∈ gs, g.IsGroup) :
    gs.flatten ≠ [] := by
  obtain ⟨g, gs, rfl⟩ := List.exists_cons_of_ne_nil hne
  obtain ⟨inner, rfl, -⟩ := hgs g (by simp)
  simp

namespace PortContext

variable {d : Direction} {gs : List Text} {later : List Token}

/-- A name has the ranges before it in the declaration and those in front of it. -/
theorem takes_typedName (hgs : ∀ g ∈ gs, g.IsGroup) (e : TypedName) (hl : EndsEntry later) :
    Takes feed ⟨some d, gathered gs, true⟩ e.phrase later
      ⟨some d, gathered (gs ++ rangesOf e.typing), false⟩ (TypedName.ports d gs [e]) := by
  have hname := takes_name d (gathered (gs ++ rangesOf e.typing)) e.toPortName hl
  rw [map_ofToken_gathered (e.isGroup_of_mem hgs)] at hname
  intro rest hrest
  refine Eq.trans ?_ (hname rest hrest)
  unfold TypedName.phrase PortName.tokens
  rw [List.append_assoc]
  exact feed_typing e.identifier gs e.type_parts

theorem exists_run_typedNames : ∀ (es : List TypedName) (gs : List Text), (∀ g ∈ gs, g.IsGroup) →
    EndsEntry later → ∃ t, Run feed later ⟨some d, gathered gs, true⟩
      (separated (es.map fun e => [e.phrase])) t (TypedName.ports d gs es)
  | [], gs, _, _ => ⟨_, .nil _⟩
  | [e], gs, hgs, hl => ⟨_, .single (takes_typedName hgs e hl)⟩
  | e :: e' :: es, gs, hgs, hl => by
    -- the comma expects a name again, and the ranges stay
    obtain ⟨t, ht⟩ := exists_run_typedNames (e' :: es) _ (e.isGroup_of_mem hgs) hl
    exact ⟨t, .cons (takes_typedName hgs e (by simp [EndsEntry])) (.cons takes_portComma ht)⟩

/-- Each name of a declaration has all ranges since the direction, on whatever lines that begin at the
commas or at the parenthesis. -/
theorem exists_feedLines_typedNames (d : Direction) (e : TypedName) (es : List TypedName)
    (closed : Bool) (s : PortContext) (rows : List (List (List Token)))
    (hrows : rows.flatten = separated ([.word d.keyword :: e.phrase] :: es.map fun e => [e.phrase]) ++
      closing closed) :
    ∃ t, feedLines feed s (rows.map List.flatten) = .ok (t, TypedName.ports d [] (e :: es)) := by
  refine exists_feedLines_of_run (fun _ => rfl) (fun _ _ => ⟨_, takes_portClose⟩) ?_ hrows
  intro later hl
  have hfront : ∀ rest, s.feed (.word d.keyword :: e.phrase ++ rest)
      = feed ⟨some d, gathered [], true⟩ (e.phrase ++ rest) := fun rest =>
    feed_of_quiet_step (by simp [step, gathered])
  obtain ⟨t, ht⟩ := exists_run_typedNames (d := d) (e :: es) [] (by simp) hl
  exact ⟨t, ht.of_front hfront⟩

/-- The ranges in front of the second of two names are added to those of the first. They stand alone
only when the first name has none. -/
theorem feedLines_rangedNames (d : Direction) (n n' : PortName) (gs hs : List Text) (hne : hs ≠ [])
    (s : PortContext) (lines : List Text)
    (hlines : lines.map lineTokens
        = [.word d.keyword :: gs.map .range ++ n.tokens ++ [.comma] ++ (hs.map .range ++ n'.tokens)] ∨
      lines.map lineTokens
        = [.word d.keyword :: gs.map .range ++ n.tokens ++ [.comma], hs.map .range ++ n'.tokens]) :
    ∃ t p q, feedLines feed s (lines.map lineTokens) = .ok (t, [p, q]) ∧
      p.outline = (d, n.name, gathered gs) ∧ q.outline = (d, n'.name, some (gs ++ hs).flatten) ∧
      (q.outline = (d, n'.name, some hs.flatten) ↔ gs = []) := by
  have hflat : (lines.map lineTokens).flatten = .word d.keyword :: gs.map .range ++ n.tokens ++
      [.comma] ++ (hs.map .range ++ n'.tokens) := by
    rcases hlines with h | h <;> rw [h] <;> simp
  have hgs : ∀ g ∈ gs, g.IsGroup := fun g hg =>
    isGroup_of_lineTokens lines (by rw [hflat]; simp [hg])
  have hhs : ∀ g ∈ hs, g.IsGroup := fun g hg =>
    isGroup_of_lineTokens lines (by rw [hflat]; simp [hg])
  have hfeed : ∃ t, feedLines feed s (lines.map lineTokens)
      = .ok (t, TypedName.ports d [] [n.ranged gs hgs, n'.ranged hs hhs]) := by
    rcases hlines with h | h <;> rw [h]
    · obtain ⟨t, ht⟩ := exists_feedLines_typedNames d (n.ranged gs hgs) [n'.ranged hs hhs] false s
        [[_, [.comma], _]] rfl
      exact ⟨t, by simpa [TypedName.phrase, PortName.ranged] using ht⟩
    · obtain ⟨t, ht⟩ := exists_feedLines_typedNames d (n.ranged gs hgs) [n'.ranged hs hhs] false s
        [[_, [.comma]], [_]] rfl
      exact ⟨t, by simpa [TypedName.phrase, PortName.ranged] using ht⟩
  obtain ⟨t, ht⟩ := hfeed
  have hlater : gathered (gs ++ hs) = some (gs ++ hs).flatten := by simp [gathered, hne]
  refine ⟨t, _, _, ht, ?_, ?_, ?_⟩
  · rw [outline_literal]
    simp [PortName.ranged, rangesOf_map_range]
  · rw [outline_literal]
    simp [PortName.ranged, rangesOf_map_range, hlater]
  · rw [outline_literal]
    simp only [PortName.ranged, rangesOf_map_range, List.nil_append, hlater, Prod.mk.injEq,
      Option.some.injEq, true_and, List.flatten_append, List.append_left_eq_self]
    exact ⟨fun h => by_contra fun hgs' => flatten_ne_nil hgs' hgs h, by rintro rfl; rfl⟩

theorem feedLines_rangedNames_cut :
    ∃ t p q, feedLines feed {}
        (["inout [7:0] a,".toList, "[3:0] [1:0] b // own".toList].map lineTokens) = .ok (t, [p, q]) ∧
      p.outline = (.inout, "a".toList, some "[7:0]".toList) ∧
      q.outline = (.inout, "b".toList, some "[7:0][3:0][1:0]".toList) := by
  obtain ⟨t, p, q, hfeed, hp, hq, -⟩ := feedLines_rangedNames .inout
    { name := "a".toList, ranges := [], value := none }
    { name := "b".toList, ranges := [], value := none }
    ["[7:0]".toList] ["[3:0]".toList, "[1:0]".toList] (by simp) {}
    ["inout [7:0] a,".toList, "[3:0] [1:0] b // own".toList] (Or.inr (by decide +kernel))
  exact ⟨t, p, q, hfeed, hp, hq⟩

/-- A second name with a range of its own does not have that range for its width. -/
theorem feedLines_ownRange : ¬ ∃ t p q,
    feedLines feed {} (["input [7:0] a, [3:0] b".toList].map lineTokens) = .ok (t, [p, q]) ∧
      p.outline = (.input, "a".toList, some "[7:0]".toList) ∧
      q.outline = (.input, "b".toList, some "[3:0]".toList) := by
  have houtlines : (feedLines feed {} (["input [7:0] a, [3:0] b".toList].map lineTokens)).toOption.map
      (fun x => x.2.map Port.outline) = some [(.input, "a".toList, some "[7:0]".toList),
        (.input, "b".toList, some "[7:0][3:0]".toList)] := by
    decide +kernel
  rintro ⟨t, p, q, hfeed, -, hq⟩
  rw [hfeed] at houtlines
  simp [Except.toOption, hq] at houtlines

end PortContext

end HdlScaffold.Header
