import HdlScaffold.Proofs.LineCuts

/-!
# Lists of declarations

A port list is made of declarations, each with a direction, types and ranges, and one name or more;
behind a name may stand ranges of its own and a value (`PortDeclaration`). A parameter list is made of
entries, each with types and ranges, a name and perhaps a value, the first with the keyword
(`ParameterEntry`). Reading recovers every such list: one port for each name, with the direction and
the ranges of its declaration (`PortContext.exists_feedLines_declarations`), and one parameter for each
entry, with the value as its default (`ParameterContext.exists_feedLines_entries`). A new line may begin
at every comma.
-/

namespace HdlScaffold.Header

section Lists

variable {σ α : Type} {feed : σ → List Token → Except Error (σ × List α)}
variable {s t u : σ} {as : List α} {later : List Token}

/-- The parenthesis behind a list, if there is one. -/
def closing (closed : Bool) : List (List Token) := if closed then [[.closeParen]] else []

/-- What stands in front of a list's first entry counts only by the context that it leads to. -/
theorem Run.of_front {p q : List Token} {entries : List (List (List Token))}
    (h : ∀ rest, feed s (p ++ rest) = feed t (q ++ rest))
    (hrun : Run feed later t (separated ([q] :: entries)) u as) :
    Run feed later s (separated ([p] :: entries)) u as := by
  rcases entries with _ | ⟨entry, entries⟩
  all_goals
    obtain _ | ⟨htakes, hrest⟩ := hrun
    exact .cons (fun rest hr => by rw [h, htakes rest hr]) hrest

theorem exists_feedLines_of_run {ps : List (List Token)} {closed : Bool}
    {rows : List (List (List Token))} (hnil : ∀ s, feed s [] = .ok (s, []))
    (hclose : ∀ s later, ∃ t, Takes feed s [.closeParen] later t [])
    (hrun : ∀ later, EndsEntry later → ∃ t, Run feed later s ps t as)
    (hrows : rows.flatten = ps ++ closing closed) :
    ∃ t, feedLines feed s (rows.map List.flatten) = .ok (t, as) := by
  have hall : ∃ t, Run feed [] s rows.flatten t as := by
    rw [hrows]
    cases closed with
    | false =>
      obtain ⟨t, ht⟩ := hrun [] (by simp [EndsEntry])
      exact ⟨t, by simpa [closing] using ht⟩
    | true =>
      obtain ⟨t, ht⟩ := hrun [.closeParen] (by simp [EndsEntry])
      obtain ⟨u, hu⟩ := hclose t []
      have hclosed : Run feed [] s (ps ++ [[.closeParen]]) u (as ++ []) := ht.append (.single hu)
      exact ⟨u, by simpa [closing] using hclosed⟩
  obtain ⟨t, ht⟩ := hall
  exact ⟨t, ht.feedLines hnil⟩

/-- The token may stand before a declared name: a range, or a name that is used as a type. -/
def IsTypePart : Token → Prop
  | .word w => isIdentifier w = true
  | .range _ => True
  | _ => False

theorem isTypePosition_typing {name : Text} (hname : isIdentifier name = true) {rest : List Token} :
    ∀ {typing : List Token}, (∀ k ∈ typing, IsTypePart k) →
      isTypePosition (typing ++ .word name :: rest) = true
  | [], _ => hname
  | k :: typing, h => by
    have hk := h k (by simp)
    have ih : isTypePosition (typing ++ .word name :: rest) = true :=
      isTypePosition_typing hname fun j hj => h j (List.mem_cons_of_mem _ hj)
    cases k with
    | word w => exact hk
    | range r => exact ih
    | hash | openParen | closeParen | comma | semicolon | equals | other => exact hk.elim

theorem isTypePosition_of_prefix {ts rest : List Token} (h : isTypePosition ts = false)
    (hr : rest <+: ts) : isTypePosition rest = false := by
  obtain ⟨tail, rfl⟩ := hr
  by_cases hmark : ∃ k ∈ rest, k.isRange = false
  · rwa [isTypePosition_append hmark] at h
  · have hnil : rest.dropWhile Token.isRange = [] := by
      simpa [List.dropWhile_eq_nil_iff] using hmark
    simp [isTypePosition, hnil]

end Lists

section Ports

/-- The token neither opens a port declaration nor ends the list. -/
def StaysInside : Token → Prop
  | .word w => Direction.ofKeyword? w = none
  | .closeParen => False
  | .semicolon => False
  | _ => True

/-- A name in a port list, with the ranges and the value behind it. -/
structure PortName where
  name : Text
  ranges : List Text
  value : Option (List Token)
  identifier : isIdentifier name = true := by decide
  no_direction : Direction.ofKeyword? name = none := by decide
  no_type : name ∉ portTypeKeywords := by decide
  inside : ∀ v ∈ value, ∀ k ∈ v, StaysInside k ∧ k ≠ .comma := by simp

namespace PortName

def trailing (n : PortName) : List Token :=
  n.ranges.map .range ++ n.value.elim [] (.equals :: ·)

def tokens (n : PortName) : List Token := .word n.name :: n.trailing

end PortName

def rangesOf (ts : List Token) : List Text :=
  ts.filterMap fun
    | .range r => some r
    | _ => none

/-- Ranges written one after another, if there are any. -/
def gathered (gs : List Text) : Option Text := if gs = [] then none else some gs.flatten

/-- A direction with its types and ranges, and the names that it holds for. -/
structure PortDeclaration where
  direction : Direction
  typing : List Token
  first : PortName
  others : List PortName
  type_parts : ∀ k ∈ typing, IsTypePart k ∧ StaysInside k := by simp
  groups : ∀ g ∈ rangesOf typing, g.IsGroup := by simp [rangesOf]

namespace PortDeclaration

def names (d : PortDeclaration) : List PortName := d.first :: d.others

/-- The declaration, divided at its commas. -/
def phrases (d : PortDeclaration) : List (List Token) :=
  separated ([.word d.direction.keyword :: d.typing ++ d.first.tokens] ::
    d.others.map fun n => [n.tokens])

def width (d : PortDeclaration) : Option Width := (gathered (rangesOf d.typing)).map .literal

def ports (d : PortDeclaration) : List Port :=
  d.names.map fun n => ⟨d.direction, n.name, d.width, solid_of_isIdentifier n.identifier⟩

end PortDeclaration

theorem gathered_concat (gs : List Text) (g : Text) :
    gathered (gs ++ [g]) = some ((gathered gs).getD [] ++ g) := by
  by_cases h : gs = [] <;> simp [gathered, h]

theorem map_ofToken_gathered {gs : List Text} (h : ∀ g ∈ gs, g.IsGroup) :
    (gathered gs).map Width.ofToken = (gathered gs).map .literal := by
  by_cases hnil : gs = []
  · simp [gathered, hnil]
  · have hgroups : Text.IsGroups gs.flatten := ⟨gs, hnil, rfl, h⟩
    simp [gathered, hnil, hgroups.ofToken_eq]

namespace PortContext

variable {s : PortContext} {k : Token} {rest later : List Token}

/-- Up to the name, the ranges are gathered and the types are passed. -/
theorem feed_typing {d : Direction} {name : Text} (hname : isIdentifier name = true) :
    ∀ {typing : List Token} (gs : List Text), (∀ k ∈ typing, IsTypePart k ∧ StaysInside k) →
      feed ⟨some d, gathered gs, true⟩ (typing ++ .word name :: rest)
        = feed ⟨some d, gathered (gs ++ rangesOf typing), true⟩ (.word name :: rest)
  | [], gs, _ => by simp [rangesOf]
  | k :: typing, gs, h => by
    have htyping : ∀ j ∈ typing, IsTypePart j ∧ StaysInside j := fun j hj =>
      h j (List.mem_cons_of_mem _ hj)
    have hk := h k (by simp)
    cases k with
    | word w =>
      have htype : isTypePosition (typing ++ .word name :: rest) = true :=
        isTypePosition_typing hname fun j hj => (htyping j hj).1
      have hstep : step ⟨some d, gathered gs, true⟩ (.word w) (typing ++ .word name :: rest)
          = .ok (⟨some d, gathered gs, true⟩, []) := by
        have hdirection : Direction.ofKeyword? w = none := hk.2
        simp [step, hdirection, isPortName, htype]
      rw [List.cons_append, feed_of_quiet_step hstep, feed_typing hname gs htyping]
      rfl
    | range r =>
      have hstep : step ⟨some d, gathered gs, true⟩ (.range r) (typing ++ .word name :: rest)
          = .ok (⟨some d, gathered (gs ++ [r]), true⟩, []) := by
        rw [gathered_concat]
        rfl
      rw [List.cons_append, feed_of_quiet_step hstep, feed_typing hname (gs ++ [r]) htyping,
        List.append_assoc]
      rfl
    | hash | openParen | closeParen | comma | semicolon | equals | other => exact hk.1.elim

/-- Behind a name nothing counts until the next comma. -/
theorem step_still (hs : s.expectsName = false) (hk : StaysInside k) (hcomma : k ≠ .comma)
    (rest : List Token) : s.step k rest = .ok (s, []) := by
  cases k with
  | word w =>
    have hdirection : Direction.ofKeyword? w = none := hk
    rcases hd : s.direction with _ | d <;> simp [step, hdirection, hd, hs]
  | range r => simp [step, hs]
  | equals =>
    obtain ⟨direction, width, expectsName⟩ := s
    obtain rfl : expectsName = false := hs
    rfl
  | comma => exact absurd rfl hcomma
  | closeParen | semicolon => exact hk.elim
  | hash | openParen | other => rfl

theorem takes_still (hs : s.expectsName = false) : ∀ {ts : List Token},
    (∀ k ∈ ts, StaysInside k ∧ k ≠ .comma) → Takes feed s ts later s []
  | [], _ => takes_of_feed_eq fun _ => rfl
  | k :: ts, h => by
    have hk : Takes feed s [k] (ts ++ later) s [] :=
      takes_of_step fun rest _ => step_still hs (h k (by simp)).1 (h k (by simp)).2 rest
    exact hk.append (takes_still hs fun j hj => h j (List.mem_cons_of_mem _ hj))

theorem isTypePosition_trailing (n : PortName) (hl : EndsEntry later) :
    isTypePosition (n.trailing ++ later) = false := by
  unfold PortName.trailing
  induction n.ranges with
  | nil =>
    rcases n.value with _ | v
    · exact hl.isTypePosition_eq
    · rfl
  | cons r ranges ih => exact ih

theorem staysInside_trailing (n : PortName) : ∀ k ∈ n.trailing, StaysInside k ∧ k ≠ .comma := by
  intro k hk
  rcases List.mem_append.1 hk with hk | hk
  · obtain ⟨r, -, rfl⟩ := List.mem_map.1 hk
    exact ⟨trivial, by simp⟩
  · rcases hv : n.value with _ | v <;> simp only [hv, Option.elim] at hk
    · simp at hk
    · rcases List.mem_cons.1 hk with rfl | hk
      · exact ⟨trivial, by simp⟩
      · exact n.inside v hv k hk

theorem takes_name (d : Direction) (width : Option Text) (n : PortName) (hl : EndsEntry later) :
    Takes feed ⟨some d, width, true⟩ n.tokens later ⟨some d, width, false⟩
      [⟨d, n.name, width.map Width.ofToken, solid_of_isIdentifier n.identifier⟩] := by
  have hword : Takes feed ⟨some d, width, true⟩ [.word n.name] (n.trailing ++ later)
      ⟨some d, width, false⟩
      [⟨d, n.name, width.map Width.ofToken, solid_of_isIdentifier n.identifier⟩] := by
    refine takes_of_step fun rest hrest => ?_
    have hname : isPortName n.name rest = true := by
      have htype := isTypePosition_of_prefix (isTypePosition_trailing n hl) hrest
      simp [isPortName, n.no_type, n.identifier, htype]
    simp only [step, n.no_direction, hname, Bool.and_self, if_true,
      Port.create_of_solid d _ (solid_of_isIdentifier n.identifier)]
    rfl
  -- no name is expected behind the word, so ranges and value pass by
  exact hword.append (takes_still rfl (staysInside_trailing n))

theorem exists_run_declaration (d : PortDeclaration) (hl : EndsEntry later) (s : PortContext) :
    ∃ t, Run feed later s d.phrases t d.ports := by
  -- from the direction on, every name finds the same direction and the same ranges
  have hfront : ∀ rest, s.feed (.word d.direction.keyword :: d.typing ++ d.first.tokens ++ rest)
      = feed ⟨some d.direction, gathered (rangesOf d.typing), true⟩ (d.first.tokens ++ rest) := by
    intro rest
    have hkeyword : s.step (.word d.direction.keyword) (d.typing ++ (d.first.tokens ++ rest))
        = .ok (⟨some d.direction, gathered [], true⟩, []) := by
      simp [step, gathered]
    rw [List.cons_append, List.cons_append, List.append_assoc, feed_of_quiet_step hkeyword]
    exact feed_typing d.first.identifier [] d.type_parts
  have hentry : ∀ n ∈ d.names, ∀ (s : PortContext) (later : List Token),
      s = ⟨some d.direction, gathered (rangesOf d.typing), true⟩ → EndsEntry later →
      ∃ t, t = ⟨some d.direction, gathered (rangesOf d.typing), false⟩ ∧ Run feed later s [n.tokens] t
        [⟨d.direction, n.name, d.width, solid_of_isIdentifier n.identifier⟩] := by
    rintro n - s later rfl hl
    have htakes := takes_name d.direction (gathered (rangesOf d.typing)) n hl
    rw [map_ofToken_gathered d.groups] at htakes
    exact ⟨_, rfl, .single htakes⟩
  obtain ⟨t, ht⟩ := run_separated (fun s later hs => ⟨_, by rw [hs]; rfl, takes_portComma⟩) hl hentry
    _ rfl
  rw [← List.map_eq_flatMap] at ht
  exact ⟨t, ht.of_front hfront⟩

/-- Every port list is recovered, from any context and on any lines that begin at its commas or at
its parenthesis. -/
theorem exists_feedLines_declarations (ds : List PortDeclaration) (closed : Bool) (s : PortContext)
    {rows : List (List (List Token))}
    (hrows : rows.flatten = separated (ds.map PortDeclaration.phrases) ++ closing closed) :
    ∃ t, feedLines feed s (rows.map List.flatten) = .ok (t, ds.flatMap PortDeclaration.ports) := by
  refine exists_feedLines_of_run (fun _ => rfl) (fun _ _ => ⟨_, takes_portClose⟩) ?_ hrows
  intro later hl
  refine run_separated (I := fun _ => True) (J := fun _ => True)
    (fun _ _ _ => ⟨_, trivial, takes_portComma⟩) hl ?_ s trivial
  intro d _ s later _ hl
  obtain ⟨t, ht⟩ := exists_run_declaration d hl s
  exact ⟨t, trivial, ht⟩

end PortContext

-- input word_t [3:0] wire [7:0] a [0:3], b = 1
def typedInputs : PortDeclaration where
  direction := .input
  typing := [.word "word_t".toList, .range "[3:0]".toList, .word "wire".toList,
    .range "[7:0]".toList]
  first := { name := "a".toList, ranges := ["[0:3]".toList], value := none }
  others := [{
    name := "b".toList
    ranges := []
    value := some [.word "1".toList]
    inside := by
      simp only [Option.mem_def, Option.some.injEq, forall_eq', List.mem_singleton, forall_eq,
        StaysInside]
      decide }]
  type_parts := by
    simp only [List.mem_cons, List.not_mem_nil, or_false, forall_eq_or_imp, forall_eq, IsTypePart,
      StaysInside]
    decide
  groups := by
    simp only [rangesOf, List.filterMap_cons, List.filterMap_nil, List.mem_cons, List.not_mem_nil,
      or_false, forall_eq_or_imp, forall_eq]
    exact ⟨⟨"3:0".toList, by decide⟩, "7:0".toList, by decide⟩

-- output q
def plainOutput : PortDeclaration where
  direction := .output
  typing := []
  first := { name := "q".toList, ranges := [], value := none }
  others := []

theorem PortContext.exists_feedLines_declarations_typed : ∃ t, feedLines PortContext.feed {}
    [.word "input".toList :: typedInputs.typing ++
        [.word "a".toList, .range "[0:3]".toList, .comma],
      [.word "b".toList, .equals, .word "1".toList, .comma, .word "output".toList,
        .word "q".toList, .closeParen]] =
    .ok (t, [⟨.input, "a".toList, some (.literal "[3:0][7:0]".toList), by decide⟩,
      ⟨.input, "b".toList, some (.literal "[3:0][7:0]".toList), by decide⟩,
      ⟨.output, "q".toList, none, by decide⟩]) := by
  have hrows : [[.word "input".toList :: typedInputs.typing ++ typedInputs.first.tokens, [.comma]],
      [[.word "b".toList, .equals, .word "1".toList], [.comma],
        [.word "output".toList, .word "q".toList], [.closeParen]]].flatten =
      separated ([typedInputs, plainOutput].map PortDeclaration.phrases) ++ closing true := rfl
  exact exists_feedLines_declarations [typedInputs, plainOutput] true {} hrows

end Ports

section Parameters

/-- Behind `depth` open parentheses the tokens close these and no others, and their commas and
semicolons stand inside parentheses. -/
structure Enclosed (depth : Nat) (v : List Token) : Prop where
  closes_le : ∀ u ∈ v.inits, u.count .closeParen ≤ depth + u.count .openParen
  closes_eq : v.count .closeParen = depth + v.count .openParen
  inside : ∀ u ∈ v.inits, u.getLast? = some .comma ∨ u.getLast? = some .semicolon →
    u.count .closeParen < depth + u.count .openParen

structure IsValue (v : List Token) : Prop where
  ne_nil : v ≠ []
  lexed : ∀ k ∈ v, k.Lexed
  enclosed : Enclosed 0 v

/-- A parameter in a list: perhaps the keyword, types and ranges, the name, and perhaps a value. -/
structure ParameterEntry where
  keyword : Bool
  typing : List Token
  name : Text
  value : Option (List Token)
  type_parts : ∀ k ∈ typing, IsTypePart k ∧ k ≠ .word "parameter".toList ∧
    k ≠ .word "localparam".toList := by simp
  identifier : isIdentifier name = true := by decide
  ne_parameter : name ≠ "parameter".toList := by decide
  ne_localparam : name ≠ "localparam".toList := by decide
  isValue : ∀ v ∈ value, IsValue v := by simp

theorem IsValue.trimmed_join {v : List Token} (h : IsValue v) : (Token.join v).Trimmed := by
  refine ⟨?_, Token.trim_join h.lexed⟩
  obtain ⟨k, rest, rfl⟩ := List.exists_cons_of_ne_nil h.ne_nil
  obtain ⟨gap, -, hjoin, -⟩ := Token.join_cons k rest
  simp [hjoin, Token.text_ne_nil (h.lexed k (by simp))]

namespace ParameterEntry

def trailing (e : ParameterEntry) : List Token := e.value.elim [] (.equals :: ·)

def tokens (e : ParameterEntry) : List Token :=
  (if e.keyword then [.word "parameter".toList] else []) ++ e.typing ++ .word e.name :: e.trailing

def parameter (e : ParameterEntry) : Parameter where
  identifier := e.name
  default := e.value.map Token.join
  identifier_trimmed := (solid_of_isIdentifier e.identifier).trimmed
  default_trimmed := by
    intro t ht
    obtain ⟨v, hv, rfl⟩ := Option.map_eq_some_iff.1 ht
    exact (e.isValue v hv).trimmed_join

end ParameterEntry

theorem count_of_valueDepth? {depth d : Nat} {k : Token} (h : valueDepth? depth k = some d)
    (u : List Token) : depth + (k :: u).count .openParen + u.count .closeParen
      = d + u.count .openParen + (k :: u).count .closeParen := by
  cases k <;> simp only [valueDepth?, Option.ite_none_left_eq_some, Option.some.injEq] at h <;>
    simp <;> omega

theorem Enclosed.exists_valueDepth? {depth : Nat} {k : Token} {v : List Token}
    (h : Enclosed depth (k :: v)) : ∃ d, valueDepth? depth k = some d := by
  have hle := h.closes_le [k] (by simp)
  have hinside := h.inside [k] (by simp)
  cases k <;> simp [valueDepth?] at hle hinside ⊢ <;> omega

theorem Enclosed.tail {depth d : Nat} {k : Token} {v : List Token} (h : Enclosed depth (k :: v))
    (hd : valueDepth? depth k = some d) : Enclosed d v := by
  have hmem : ∀ u ∈ v.inits, k :: u ∈ (k :: v).inits := fun u hu => by simpa using hu
  -- what the first token opens or closes is made up for by the new depth
  refine ⟨fun u hu => ?_, ?_, fun u hu hlast => ?_⟩
  · have hle := h.closes_le _ (hmem u hu)
    have hcount := count_of_valueDepth? hd u
    omega
  · have heq := h.closes_eq
    have hcount := count_of_valueDepth? hd v
    omega
  · have hne : u ≠ [] := by
      rintro rfl
      simp at hlast
    have hlt := h.inside _ (hmem u hu) (by rwa [List.getLast?_cons_of_ne_nil hne])
    have hcount := count_of_valueDepth? hd u
    omega

theorem takeValue_of_enclosed {rest : List Token} (hr : EndsEntry rest) {v : List Token} :
    ∀ {depth : Nat}, Enclosed depth v → takeValue depth (v ++ rest) = (v, rest) := by
  induction v with
  | nil =>
    intro depth h
    obtain rfl : depth = 0 := by simpa using h.closes_eq.symm
    rcases rest with _ | ⟨k, rest⟩
    · rfl
    · rcases hr k rfl with rfl | rfl <;> rfl
  | cons k v ih =>
    intro depth h
    obtain ⟨d, hd⟩ := h.exists_valueDepth?
    rw [List.cons_append, takeValue, hd]
    simp only [ih (h.tail hd)]

namespace ParameterContext

variable {s : ParameterContext} {later rest : List Token}

theorem feed_parameterTyping {name : Text} (hname : isIdentifier name = true) :
    ∀ {typing : List Token}, (∀ k ∈ typing, IsTypePart k ∧ k ≠ .word "parameter".toList ∧
        k ≠ .word "localparam".toList) →
      s.feed (typing ++ .word name :: rest) = s.feed (.word name :: rest)
  | [], _ => rfl
  | k :: typing, h => by
    have htyping : ∀ j ∈ typing, IsTypePart j ∧ j ≠ .word "parameter".toList ∧
        j ≠ .word "localparam".toList := fun j hj => h j (List.mem_cons_of_mem _ hj)
    have htype : isTypePosition (typing ++ .word name :: rest) = true :=
      isTypePosition_typing hname fun j hj => (htyping j hj).1
    have hk := h k (by simp)
    have hquiet : ¬ s.Declares k (typing ++ .word name :: rest) := by
      rintro ⟨w, -, -, -, hdeclares⟩
      simp [declares, htype] at hdeclares
    have hpass : s.pass k = s := by
      cases k with
      | word w =>
        have hparameter : w ≠ "parameter".toList := fun hw => hk.2.1 (by rw [hw])
        have hlocalparam : w ≠ "localparam".toList := fun hw => hk.2.2 (by rw [hw])
        rw [pass, if_neg hparameter, if_neg hlocalparam]
      | range => rfl
      | hash | openParen | closeParen | comma | semicolon | equals | other => exact hk.1.elim
    rw [List.cons_append, feed_of_not_declares hquiet, hpass, feed_parameterTyping hname htyping]

theorem takeDefault_trailing (e : ParameterEntry) (hr : EndsEntry rest) :
    takeDefault (e.trailing ++ rest) = (e.value.map Token.join, rest) := by
  unfold ParameterEntry.trailing
  rcases hv : e.value with _ | v
  · rcases rest with _ | ⟨k, rest⟩
    · rfl
    · rcases hr k rfl with rfl | rfl <;> rfl
  · simp only [Option.elim, List.cons_append, takeDefault,
      takeValue_of_enclosed hr (e.isValue v hv).enclosed, Option.map_some]

theorem isTypePosition_parameterTrailing (e : ParameterEntry) (hr : EndsEntry rest) :
    isTypePosition (e.trailing ++ rest) = false := by
  unfold ParameterEntry.trailing
  rcases e.value with _ | v
  · exact hr.isTypePosition_eq
  · rfl

/-- An entry declares its parameter where a name may come; one with the keyword does so anywhere. -/
theorem takes_entry (e : ParameterEntry) (hs : e.keyword = true ∨ s = ⟨true, true⟩)
    (hl : EndsEntry later) : Takes feed s e.tokens later ⟨true, false⟩ [e.parameter] := by
  intro rest hrest
  have hr := hl.of_prefix hrest
  have hfront : s.feed (e.tokens ++ rest)
      = feed ⟨true, true⟩ (.word e.name :: (e.trailing ++ rest)) := by
    rw [← feed_parameterTyping e.identifier e.type_parts]
    rcases hkeyword : e.keyword with _ | _
    · obtain rfl : s = ⟨true, true⟩ := by simpa [hkeyword] using hs
      simp [ParameterEntry.tokens, hkeyword]
    · simp only [ParameterEntry.tokens, hkeyword, if_true, List.cons_append, List.nil_append,
        List.append_assoc]
      rw [feed, if_pos rfl]
  have hdeclares : declares ⟨true, true⟩ e.name (e.trailing ++ rest) = true := by
    simp [declares, e.identifier, isTypePosition_parameterTrailing e hr]
  obtain ⟨p, hp, hfeed⟩ := feed_of_declares e.ne_parameter e.ne_localparam hdeclares
  rw [takeDefault_trailing e hr] at hp hfeed
  obtain rfl : e.parameter = p := Except.ok.inj ((create_default e.parameter).symm.trans hp)
  rw [hfront, hfeed]
  rfl

/-- Every parameter list is recovered, from any context and on any lines that begin at the commas
between its entries or at its parenthesis. -/
theorem exists_feedLines_entries (es : List ParameterEntry) (closed : Bool) (s : ParameterContext)
    (hfirst : ∀ e ∈ es.head?, e.keyword = true) {rows : List (List (List Token))}
    (hrows : rows.flatten = separated (es.map fun e => [e.tokens]) ++ closing closed) :
    ∃ t, feedLines feed s (rows.map List.flatten) = .ok (t, es.map ParameterEntry.parameter) := by
  refine exists_feedLines_of_run parameterFeed_nil (fun _ _ => ⟨_, takes_parameterClose⟩) ?_ hrows
  intro later hl
  have hentry : ∀ e ∈ es, ∀ (s : ParameterContext) (later : List Token), s = ⟨true, true⟩ →
      EndsEntry later → ∃ t, t = ⟨true, false⟩ ∧ Run feed later s [e.tokens] t [e.parameter] :=
    fun e _ s later hs hl => ⟨_, rfl, .single (takes_entry e (Or.inr hs) hl)⟩
  obtain ⟨t, ht⟩ := run_separated (fun s later hs => ⟨_, by rw [hs]; rfl, takes_parameterComma⟩) hl
    hentry _ rfl
  rw [← List.map_eq_flatMap] at ht
  -- the keyword of the first entry makes up for any other context
  rcases es with _ | ⟨e, es⟩
  · exact ⟨s, .nil s⟩
  · have hkeyword : e.keyword = true := hfirst e rfl
    refine ⟨t, ht.of_front fun rest => ?_⟩
    simp only [ParameterEntry.tokens, hkeyword, if_true, List.cons_append, feed]

end ParameterContext

-- parameter int [3:0] A = f(parameter, 2)
def typedParameter : ParameterEntry where
  keyword := true
  typing := [.word "int".toList, .range "[3:0]".toList]
  name := "A".toList
  value := some [.word "f".toList, .openParen, .word "parameter".toList, .comma, .word "2".toList,
    .closeParen]
  type_parts := by
    simp only [List.mem_cons, List.not_mem_nil, or_false, forall_eq_or_imp, forall_eq, IsTypePart]
    decide
  isValue := by
    rintro v hv
    obtain rfl := Option.some.inj hv
    refine ⟨by simp, ?_, by decide, by decide, by decide⟩
    simp only [List.mem_cons, List.not_mem_nil, or_false, forall_eq_or_imp, forall_eq, Token.Lexed]
    decide

-- B
def plainParameter : ParameterEntry where
  keyword := false
  typing := []
  name := "B".toList
  value := none

theorem ParameterContext.exists_feedLines_entries_typed : ∃ t ps, feedLines ParameterContext.feed {}
    [[.word "parameter".toList, .word "int".toList, .range "[3:0]".toList, .word "A".toList, .equals,
        .word "f".toList, .openParen, .word "parameter".toList, .comma, .word "2".toList, .closeParen,
        .comma],
      [.word "B".toList, .closeParen]] = .ok (t, ps) ∧
    ps.map Parameter.outline =
      [("A".toList, some "f(parameter,2)".toList), ("B".toList, none)] := by
  have hrows : [[typedParameter.tokens, [.comma]], [plainParameter.tokens, [.closeParen]]].flatten =
      separated ([typedParameter, plainParameter].map fun e => [e.tokens]) ++ closing true := rfl
  obtain ⟨t, ht⟩ := exists_feedLines_entries [typedParameter, plainParameter] true {}
    (by simp [typedParameter]) hrows
  exact ⟨t, _, ht, by decide⟩

end Parameters

end HdlScaffold.Header
