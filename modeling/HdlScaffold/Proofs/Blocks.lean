import HdlScaffold.Proofs.LineReading

/-!
# Blocks of a header

A line's part in a header is told by its delimiters, and those can be read off a text piece by piece
(`Delimiters.addAll_append`). Parameters and ports are looked for in the same way (`seek`): the search
for a block passes the lines that say nothing about it; the block then takes in the declarations of its
lines up to the one that closes it, and the reader is left before that line
(`parameterBlock_of_lines`, `portBlock_of_lines`).
-/

namespace HdlScaffold

namespace Delimiters

/-- The delimiters of a line, none of them set when it has none. -/
def ofText (l : Text) : Delimiters := addAll {} none l

theorem getLast?_cons_or (c : Char) (a : Text) (p : Option Char) :
    (c :: a).getLast?.or p = a.getLast?.or (some c) := by
  cases a with
  | nil => rfl
  | cons e a => simp [List.getLast?_cons]

theorem addAll_append : ∀ (d : Delimiters) (p : Option Char) (a b : Text),
    addAll d p (a ++ b) = addAll (addAll d p a) (a.getLast?.or p) b
  | _, _, [], _ => rfl
  | d, p, c :: a, b => by
    rw [List.cons_append, addAll, addAll_append, getLast?_cons_or]
    rfl

theorem addAll_of_quiet : ∀ {t : Text}, (∀ c ∈ t, c ≠ '(' ∧ c ≠ ')' ∧ c ≠ ';') →
    ∀ (d : Delimiters) (p : Option Char), addAll d p t = d
  | [], _, _, _ => rfl
  | c :: t, h, d, p => by
    obtain ⟨ho, hc, hs⟩ := h c (by simp)
    rw [addAll, add, if_neg ho, if_neg hc, if_neg hs,
      addAll_of_quiet fun e he => h e (by simp [he])]

theorem ofLine?_getD (l : Text) : (ofLine? l).getD {} = ofText l := by
  unfold ofLine?
  split_ifs with h
  · rfl
  · have hq : ∀ c ∈ l, c ≠ '(' ∧ c ≠ ')' ∧ c ≠ ';' := by
      intro c hc
      simp only [Bool.not_eq_true, List.any_eq_false, Bool.or_eq_true, beq_iff_eq, not_or] at h
      exact ⟨(h c hc).1.1, (h c hc).1.2, (h c hc).2⟩
    exact (addAll_of_quiet hq {} none).symm

theorem closes_add (d : Delimiters) (p : Option Char) (c : Char) :
    (d.add p c).closes = d.closes + if c = ')' then 1 else 0 := by
  by_cases ho : c = '('
  · subst ho
    unfold add
    split_ifs <;> simp_all
  · by_cases hc : c = ')'
    · simp [add, hc]
    · by_cases hs : c = ';' <;> simp [add, ho, hc, hs]

theorem closes_addAll : ∀ (d : Delimiters) (p : Option Char) (t : Text),
    (addAll d p t).closes = d.closes + t.count ')'
  | _, _, [] => rfl
  | d, p, c :: t => by
    rw [addAll, closes_addAll, closes_add, List.count_cons, Nat.add_assoc, Nat.add_comm (t.count _)]
    simp only [beq_iff_eq]

theorem opensPorts_add (d : Delimiters) (p : Option Char) (c : Char) :
    (d.add p c).opensPorts = (d.opensPorts || (decide (c = '(') && decide (p ≠ some '#'))) := by
  unfold add
  split_ifs <;> simp_all

theorem opensParameters_add (d : Delimiters) (p : Option Char) (c : Char) :
    (d.add p c).opensParameters
      = (d.opensParameters || (decide (c = '(') && decide (p = some '#'))) := by
  unfold add
  split_ifs <;> simp_all

theorem endsDeclaration_add (d : Delimiters) (p : Option Char) (c : Char) :
    (d.add p c).endsDeclaration = (d.endsDeclaration || decide (c = ';')) := by
  unfold add
  split_ifs <;> simp_all

theorem closesAfterPorts_add (d : Delimiters) (p : Option Char) (c : Char) :
    (d.add p c).closesAfterPorts
      = d.closesAfterPorts + if d.opensPorts = true ∧ c = ')' then 1 else 0 := by
  unfold add
  split_ifs <;> simp_all

theorem endsDeclaration_addAll : ∀ (d : Delimiters) (p : Option Char) (t : Text),
    (addAll d p t).endsDeclaration = (d.endsDeclaration || decide (';' ∈ t))
  | d, _, [] => by simp [addAll]
  | d, p, c :: t => by
    rw [addAll, endsDeclaration_addAll, endsDeclaration_add]
    simp [Bool.or_assoc, eq_comm]

/-- A flag that only an opening parenthesis raises, and that nothing lowers, is kept along a text
without one, or once it is raised. -/
theorem addAll_keeps {flag : Delimiters → Bool}
    (hflag : ∀ d p c, c ≠ '(' ∨ flag d = true → flag (d.add p c) = flag d) :
    ∀ {t : Text} {d : Delimiters}, '(' ∉ t ∨ flag d = true → ∀ p, flag (addAll d p t) = flag d
  | [], _, _, _ => rfl
  | c :: t, d, h, p => by
    have hc : flag (d.add p c) = flag d :=
      hflag d p c (h.imp_left fun h hc => h (by simp [hc]))
    rw [addAll, addAll_keeps hflag, hc]
    rw [hc]
    exact h.imp_left fun h hm => h (by simp [hm])

theorem opensPorts_addAll {t : Text} {d : Delimiters} (h : '(' ∉ t ∨ d.opensPorts = true)
    (p : Option Char) : (addAll d p t).opensPorts = d.opensPorts :=
  addAll_keeps (fun d p c hc => by rcases hc with hc | hc <;> simp [opensPorts_add, hc]) h p

theorem opensParameters_addAll {t : Text} {d : Delimiters} (h : '(' ∉ t ∨ d.opensParameters = true)
    (p : Option Char) : (addAll d p t).opensParameters = d.opensParameters :=
  addAll_keeps (fun d p c hc => by rcases hc with hc | hc <;> simp [opensParameters_add, hc]) h p

theorem closesAfterPorts_addAll_of_closed : ∀ {t : Text} {d : Delimiters} {p : Option Char},
    (addAll d p t).opensPorts = false → (addAll d p t).closesAfterPorts = d.closesAfterPorts
  | [], _, _, _ => rfl
  | c :: t, d, p, h => by
    have hd : d.opensPorts = false := by
      by_contra hd
      have hopen := opensPorts_addAll (t := c :: t) (Or.inr (by simpa using hd)) p
      rw [h] at hopen
      exact hd hopen.symm
    rw [addAll] at h ⊢
    rw [closesAfterPorts_addAll_of_closed h, closesAfterPorts_add]
    simp [hd]

theorem closesAfterPorts_addAll_of_open : ∀ {t : Text} {d : Delimiters} {p : Option Char},
    d.opensPorts = true → (addAll d p t).closesAfterPorts = d.closesAfterPorts + t.count ')'
  | [], _, _, _ => rfl
  | c :: t, d, p, h => by
    have hopen : (d.add p c).opensPorts = true := by simp [opensPorts_add, h]
    rw [addAll, closesAfterPorts_addAll_of_open hopen, closesAfterPorts_add, List.count_cons,
      Nat.add_assoc, Nat.add_comm (t.count _)]
    simp [h]

section Openings

variable {a b : Text}

/-- A parenthesis directly after a hash opens the parameter list and no port list. -/
theorem ofText_opensParameters : (ofText (a ++ '#' :: '(' :: b)).opensParameters = true := by
  rw [ofText, addAll_append, addAll, addAll, opensParameters_addAll (Or.inr _)] <;>
    simp [opensParameters_add]

/-- A parenthesis with no hash before it opens the port list. -/
theorem ofText_opensPorts (ha : a.getLast? ≠ some '#') :
    (ofText (a ++ '(' :: b)).opensPorts = true := by
  rw [ofText, addAll_append, addAll, opensPorts_addAll (Or.inr _)] <;> simp [opensPorts_add, ha]

theorem ofText_closesAfterPorts (ha : a.getLast? ≠ some '#') (hopen : (ofText a).opensPorts = false) :
    (ofText (a ++ '(' :: b)).closesAfterPorts = b.count ')' := by
  have hclosed : (ofText a).closesAfterPorts = 0 := closesAfterPorts_addAll_of_closed hopen
  rw [ofText] at hclosed
  rw [ofText, addAll_append, addAll, closesAfterPorts_addAll_of_open (by simp [opensPorts_add, ha]),
    closesAfterPorts_add, hclosed]
  simp

theorem ofText_not_opensParameters (ha : '(' ∉ a) (hlast : a.getLast? ≠ some '#') (hb : '(' ∉ b) :
    (ofText (a ++ '(' :: b)).opensParameters = false := by
  rw [ofText, addAll_append, addAll, opensParameters_addAll (Or.inl hb), opensParameters_add,
    opensParameters_addAll (Or.inl ha)]
  simp [hlast]

end Openings

end Delimiters

namespace Header

open Delimiters (ofText)

theorem parametersOpen?_eq (l : Text) : parametersOpen? l =
    if (ofText l).opensParameters then some true
    else if (ofText l).opensPorts || (ofText l).endsDeclaration then some false else none := by
  rw [← Delimiters.ofLine?_getD]
  unfold parametersOpen?
  rcases Delimiters.ofLine? l with _ | d <;> rfl

theorem portsOpen?_eq (l : Text) : portsOpen? l =
    if (ofText l).opensPorts then some true
    else if (ofText l).endsDeclaration then some false else none := by
  rw [← Delimiters.ofLine?_getD]
  unfold portsOpen?
  rcases Delimiters.ofLine? l with _ | d <;> rfl

theorem portsEnd_eq (opening : Bool) (l : Text) : portsEnd opening l =
    if opening then (ofText l).closesOwnPorts else (ofText l).endsPorts := by
  rw [← Delimiters.ofLine?_getD]
  unfold portsEnd
  rcases Delimiters.ofLine? l with _ | d
  · cases opening <;> rfl
  · rfl

theorem parametersEnd_eq (l : Text) : parametersEnd l = decide (')' ∈ l) := by
  have hc : (ofText l).closes = l.count ')' := by
    rw [ofText, Delimiters.closes_addAll, Nat.zero_add]
  have : parametersEnd l = decide ((ofText l).closes ≥ 1) := by
    rw [← Delimiters.ofLine?_getD]
    unfold parametersEnd
    rcases Delimiters.ofLine? l with _ | d <;> rfl
  rw [this, hc]
  simp [Nat.one_le_iff_ne_zero, List.count_eq_zero]

/-- A line without closing parentheses ends no port block. -/
theorem portsEnd_of_not_mem {l : Text} (h : ')' ∉ l) : portsEnd false l = false := by
  have hc : (ofText l).closes = 0 := by
    rw [ofText, Delimiters.closes_addAll, Nat.zero_add, List.count_eq_zero]
    exact h
  rw [portsEnd_eq]
  simp [Delimiters.endsPorts, hc]

section Feeding

variable {σ α : Type}

/-- The declarations found on lines fed one after another. -/
def feedLines (feed : σ → List Token → Except Error (σ × List α)) :
    σ → List (List Token) → Except Error (σ × List α)
  | s, [] => .ok (s, [])
  | s, ts :: tss => do
    let (s, found) ← feed s ts
    let (s, more) ← feedLines feed s tss
    return (s, found ++ more)

theorem feedLines_cons {feed : σ → List Token → Except Error (σ × List α)} {s u : σ}
    {ts : List Token} {tss : List (List Token)} {as : List α}
    (h : feedLines feed s (ts :: tss) = .ok (u, as)) :
    ∃ t found more, feed s ts = .ok (t, found) ∧ feedLines feed t tss = .ok (u, more) ∧
      as = found ++ more := by
  rw [feedLines] at h
  rcases hf : feed s ts with e | ⟨t, found⟩ <;> rw [hf] at h
  · simp [bind, Except.bind] at h
  · rcases hm : feedLines feed t tss with e | ⟨v, more⟩
    · simp [bind, Except.bind, hm] at h
    · simp only [bind, Except.bind, hm, pure, Except.pure, Except.ok.injEq, Prod.mk.injEq] at h
      obtain ⟨rfl, rfl⟩ := h
      exact ⟨t, found, more, rfl, hm, rfl⟩

theorem feedLines_append {feed : σ → List Token → Except Error (σ × List α)} {u : σ}
    {tss' : List (List Token)} :
    ∀ {tss : List (List Token)} {s : σ} {as : List α},
      feedLines feed s (tss ++ tss') = .ok (u, as) →
      ∃ t found more, feedLines feed s tss = .ok (t, found) ∧
        feedLines feed t tss' = .ok (u, more) ∧ as = found ++ more
  | [], s, as, h => ⟨s, [], as, rfl, h, rfl⟩
  | ts :: tss, s, as, h => by
    obtain ⟨t, found, more, hf, hm, rfl⟩ := feedLines_cons h
    obtain ⟨v, found', more', hf', hm', rfl⟩ := feedLines_append hm
    refine ⟨v, found ++ found', more', ?_, hm', by rw [List.append_assoc]⟩
    rw [feedLines, hf]
    simp [bind, Except.bind, hf', pure, Except.pure]

/-- The last line of a block is fed like the others. -/
theorem feedLines_concat {feed : σ → List Token → Except Error (σ × List α)} {s u : σ}
    {tss : List (List Token)} {ts : List Token} {as : List α}
    (h : feedLines feed s (tss ++ [ts]) = .ok (u, as)) :
    ∃ t found more, feedLines feed s tss = .ok (t, found) ∧ feed t ts = .ok (u, more) ∧
      as = found ++ more := by
  obtain ⟨t, found, more, hf, hm, rfl⟩ := feedLines_append h
  obtain ⟨v, last, none, hl, hn, rfl⟩ := feedLines_cons hm
  simp only [feedLines, Except.ok.injEq, Prod.mk.injEq] at hn
  obtain ⟨rfl, rfl⟩ := hn
  exact ⟨t, found, last, hf, hl, by rw [List.append_nil]⟩

end Feeding

section Seeking

open Reading

variable {α σ : Type}

/-- The search for a block, with what the two kinds of block differ in left open. -/
def seek (block : Block) (opens? : Text → Option Bool)
    (gather : σ → Text → Except Error (σ ⊕ List α)) (start : σ) (absent ends : Nat → Note) :
    Reading (List α) := do
  match ← Reading.find? opens? with
  | none => Reading.unclosed block
  | some (false, line) =>
    Reading.note (absent line)
    return []
  | some (true, _) =>
    match ← Reading.until? gather start with
    | none => Reading.unclosed block
    | some (declared, line) =>
      Reading.note (ends line)
      return declared

theorem parameterBlock_eq_seek : parameterBlock =
    seek .parameter parametersOpen? gatherParameters ({}, []) .noParameterBlock .parameterBlockEnds := by
  refine congrArg (find? parametersOpen? >>= ·) (funext fun found => ?_)
  rcases found with _ | ⟨_ | _, _⟩
  · rfl
  · rfl
  · refine congrArg (until? gatherParameters ({}, []) >>= ·) (funext fun gathered => ?_)
    rcases gathered with _ | _ <;> rfl

theorem portBlock_eq_seek : portBlock =
    seek .port portsOpen? gatherPorts (true, {}, []) .noPortList .portBlockEnds := by
  refine congrArg (find? portsOpen? >>= ·) (funext fun found => ?_)
  rcases found with _ | ⟨_ | _, _⟩
  · rfl
  · rfl
  · refine congrArg (until? gatherPorts (true, {}, []) >>= ·) (funext fun gathered => ?_)
    rcases gathered with _ | _ <;> rfl

variable {block : Block} {opens? : Text → Option Bool}
  {gather : σ → Text → Except Error (σ ⊕ List α)} {start s : σ} {absent ends : Nat → Note}
  {r : LineReader} {rest : Bytes}

theorem seek_of_absent (pre : List Text) {l : Text} {post : List Text}
    (h : r.Before (pre ++ l :: post) rest) (hpre : ∀ k ∈ pre, opens? k = none)
    (hl : opens? l = some false) :
    (seek block opens? gather start absent ends).Yields r [] (r.pass pre) :=
  (find?_of_before h hpre hl).bind ((yields_note _ _).bind (yields_pure _ _))

theorem head?_append_cons {mid post : List α} {l : α} :
    (mid ++ l :: post).head? = (mid ++ [l]).head? := by
  cases mid <;> rfl

/-- The lines from the one that opens the block are gathered up to the one that closes it. -/
theorem seek_of_through (pre mid : List Text) {l : Text} {post : List Text}
    (h : r.Before (pre ++ (mid ++ l :: post)) rest) (hpre : ∀ k ∈ pre, opens? k = none)
    (hopen : ∀ k ∈ (mid ++ [l]).head?, opens? k = some true)
    (hmid : Through gather start mid s) {as : List α} (hl : gather s l = .ok (.inr as)) :
    (seek block opens? gather start absent ends).Yields r as (r.pass (pre ++ mid)) := by
  have hgather := until?_of_through h.pass hmid hl
  rw [LineReader.pass_pass] at hgather
  obtain ⟨k, ks, hk⟩ : ∃ k ks, mid ++ l :: post = k :: ks := List.exists_cons_of_ne_nil (by simp)
  have hkopen : opens? k = some true := hopen k (by
    rw [← head?_append_cons, hk]
    rfl)
  rw [hk] at h
  exact (find?_of_before h hpre hkopen).bind
    (hgather.bind ((yields_note _ _).bind (yields_pure _ _)))

end Seeking

section Blocks

open Reading

variable {r : LineReader} {rest : Bytes}

theorem gatherParameters_eq {s u : ParameterContext} {acc ps : List Parameter} {l : Text}
    (h : s.feed (lineTokens l) = .ok (u, ps)) : gatherParameters (s, acc) l
      = .ok (if parametersEnd l then .inr (acc ++ ps) else .inl (u, acc ++ ps)) := by
  rw [gatherParameters, h]
  rfl

theorem gatherPorts_eq {b : Bool} {s u : PortContext} {acc ps : List Port} {l : Text}
    (h : s.feed (lineTokens l) = .ok (u, ps)) : gatherPorts (b, s, acc) l
      = .ok (if portsEnd b l then .inr (acc ++ ps) else .inl (false, u, acc ++ ps)) := by
  rw [gatherPorts, h]
  rfl

theorem through_gatherParameters {u : ParameterContext} {ps : List Parameter} :
    ∀ {ls : List Text} {s : ParameterContext} {acc : List Parameter},
      (∀ l ∈ ls, parametersEnd l = false) →
      feedLines ParameterContext.feed s (ls.map lineTokens) = .ok (u, ps) →
      Through gatherParameters (s, acc) ls (u, acc ++ ps)
  | [], s, acc, _, h => by
    simp only [List.map_nil, feedLines, Except.ok.injEq, Prod.mk.injEq] at h
    obtain ⟨rfl, rfl⟩ := h
    show (s, acc) = _
    rw [List.append_nil]
  | l :: ls, s, acc, hend, h => by
    obtain ⟨t, found, more, hf, hm, rfl⟩ := feedLines_cons h
    refine ⟨(t, acc ++ found), ?_, ?_⟩
    · rw [gatherParameters_eq hf, hend l (by simp)]
      rfl
    · rw [← List.append_assoc]
      exact through_gatherParameters (fun k hk => hend k (by simp [hk])) hm

theorem through_gatherPorts {u : PortContext} {ps : List Port} :
    ∀ {ls : List Text} {b : Bool} {s : PortContext} {acc : List Port},
      (∀ l ∈ ls.head?, portsEnd b l = false) → (∀ l ∈ ls.tail, portsEnd false l = false) →
      feedLines PortContext.feed s (ls.map lineTokens) = .ok (u, ps) →
      Through gatherPorts (b, s, acc) ls (b && ls.isEmpty, u, acc ++ ps)
  | [], b, s, acc, _, _, h => by
    simp only [List.map_nil, feedLines, Except.ok.injEq, Prod.mk.injEq] at h
    obtain ⟨rfl, rfl⟩ := h
    show (b, s, acc) = _
    rw [List.append_nil, List.isEmpty_nil, Bool.and_true]
  | l :: ls, b, s, acc, hfirst, hend, h => by
    obtain ⟨t, found, more, hf, hm, rfl⟩ := feedLines_cons h
    refine ⟨(false, t, acc ++ found), ?_, ?_⟩
    · rw [gatherPorts_eq hf, hfirst l (by simp)]
      rfl
    · have hls : ∀ k ∈ ls, portsEnd false k = false := hend
      rw [← List.append_assoc]
      have ih : Through gatherPorts (false, t, acc ++ found) ls
          (false && ls.isEmpty, u, acc ++ found ++ more) :=
        through_gatherPorts (fun k hk => hls k (List.mem_of_mem_head? hk))
          (fun k hk => hls k (List.mem_of_mem_tail hk)) hm
      simpa using ih

/-- With a port list or the end of the declaration first, there are no parameters. -/
theorem parameterBlock_of_absent (pre : List Text) {l : Text} {post : List Text}
    (h : r.Before (pre ++ l :: post) rest) (hpre : ∀ k ∈ pre, parametersOpen? k = none)
    (hl : parametersOpen? l = some false) : parameterBlock.Yields r [] (r.pass pre) := by
  rw [parameterBlock_eq_seek]
  exact seek_of_absent pre h hpre hl

/-- The parameters are those on the lines from the one that opens the block to the one that closes
it. -/
theorem parameterBlock_of_lines (pre mid : List Text) {l : Text} {post : List Text}
    (h : r.Before (pre ++ (mid ++ l :: post)) rest)
    (hpre : ∀ k ∈ pre, parametersOpen? k = none)
    (hopen : ∀ k ∈ (mid ++ [l]).head?, parametersOpen? k = some true)
    (hmid : ∀ k ∈ mid, parametersEnd k = false) (hl : parametersEnd l = true)
    {u : ParameterContext} {ps : List Parameter}
    (hfeed : feedLines ParameterContext.feed {} ((mid ++ [l]).map lineTokens) = .ok (u, ps)) :
    parameterBlock.Yields r ps (r.pass (pre ++ mid)) := by
  rw [List.map_append] at hfeed
  obtain ⟨t, found, more, hf, hm, rfl⟩ := feedLines_concat hfeed
  have hlast : gatherParameters (t, [] ++ found) l = .ok (.inr (found ++ more)) := by
    rw [gatherParameters_eq hm, hl]
    rfl
  rw [parameterBlock_eq_seek]
  exact seek_of_through pre mid h hpre hopen (through_gatherParameters hmid hf) hlast

/-- With the end of the declaration first, there are no ports. -/
theorem portBlock_of_absent (pre : List Text) {l : Text} {post : List Text}
    (h : r.Before (pre ++ l :: post) rest) (hpre : ∀ k ∈ pre, portsOpen? k = none)
    (hl : portsOpen? l = some false) : portBlock.Yields r [] (r.pass pre) := by
  rw [portBlock_eq_seek]
  exact seek_of_absent pre h hpre hl

/-- The ports are those on the lines from the one that opens the block to the one that closes it. -/
theorem portBlock_of_lines (pre mid : List Text) {l : Text} {post : List Text}
    (h : r.Before (pre ++ (mid ++ l :: post)) rest) (hpre : ∀ k ∈ pre, portsOpen? k = none)
    (hopen : ∀ k ∈ (mid ++ [l]).head?, portsOpen? k = some true)
    (hfirst : ∀ k ∈ mid.head?, portsEnd true k = false)
    (hmid : ∀ k ∈ mid.tail, portsEnd false k = false) (hl : portsEnd mid.isEmpty l = true)
    {u : PortContext} {ps : List Port}
    (hfeed : feedLines PortContext.feed {} ((mid ++ [l]).map lineTokens) = .ok (u, ps)) :
    portBlock.Yields r ps (r.pass (pre ++ mid)) := by
  rw [List.map_append] at hfeed
  obtain ⟨t, found, more, hf, hm, rfl⟩ := feedLines_concat hfeed
  have hlast : gatherPorts (true && mid.isEmpty, t, [] ++ found) l = .ok (.inr (found ++ more)) := by
    rw [gatherPorts_eq hm, Bool.true_and, hl]
    rfl
  rw [portBlock_eq_seek]
  exact seek_of_through pre mid h hpre hopen (through_gatherPorts hfirst hmid hf) hlast

end Blocks

/-- The first line that names a module starts the header, and the two blocks follow from there. -/
theorem firstModule?_of_blocks {source rest : Bytes} {pre post : List Text} {l name : Text}
    (h : BeginsWith source (pre ++ l :: post) rest) (hpre : ∀ k ∈ pre, headerName? k = none)
    (hl : headerName? l = some name) {ps : List Parameter} {qs : List Port} {s t : LineReader}
    (hps : parameterBlock.Yields ((LineReader.ofBytes source).pass pre) ps s)
    (hqs : portBlock.Yields s qs t) {m : Module} (hm : Module.create name ps qs = .ok m) :
    firstModule?.Yields (.ofBytes source) (some m) t := by
  have hfind := Reading.find?_of_before (LineReader.ofBytes_before h) hpre hl
  refine (Reading.yields_restart _).bind (hfind.bind ((Reading.yields_note _ _).bind
    (hps.bind (hqs.bind ((Reading.yields_note _ _).bind ?_)))))
  rw [hm]
  exact (Reading.yields_pure m t).bind (Reading.yields_pure _ _)

end Header

end HdlScaffold
