import HdlScaffold.Header.Reading
import Mathlib.Data.List.Basic
import Mathlib.Tactic.SplitIfs

/-!
# Reading lines

A reader in step stands before lines of a text (`Before`): no line was passed over undecoded, and the
bytes to come begin with the lines. Each line handed out can be taken back, so a search that answers
on a line leaves the reader before that line, past exactly the lines in front of it
(`until?_of_through`).
-/

namespace HdlScaffold

section Pieces

variable {α : Type} [DecidableEq α] {sep : α}

/-- The pieces of a list, each with the separator that ends it. -/
def pieces (sep : α) : List α → List (List α)
  | [] => []
  | x :: t =>
    if x = sep then [x] :: pieces sep t
    else
      match pieces sep t with
      | [] => [[x]]
      | l :: ls => (x :: l) :: ls

/-- What stands in front of the first separator belongs to the first piece. -/
theorem pieces_append : ∀ {a : List α}, a ≠ [] → sep ∉ a → ∀ t : List α,
    pieces sep (a ++ t) = match pieces sep t with
      | [] => [a]
      | l :: ls => (a ++ l) :: ls
  | [], h, _, _ => absurd rfl h
  | [x], _, hx, t => by
    rw [List.singleton_append, pieces, if_neg fun h => hx (by simp [h])]
    cases pieces sep t <;> rfl
  | x :: y :: a, _, hx, t => by
    have hy : sep ∉ y :: a := fun h => hx (List.mem_cons_of_mem _ h)
    rw [List.cons_append, pieces, if_neg fun h => hx (by simp [h]), pieces_append (by simp) hy]
    cases pieces sep t <;> rfl

theorem pieces_append_cons {a : List α} (ha : sep ∉ a) (t : List α) :
    pieces sep (a ++ sep :: t) = (a ++ [sep]) :: pieces sep t := by
  have hpiece : pieces sep (sep :: t) = [sep] :: pieces sep t := by rw [pieces, if_pos rfl]
  by_cases hne : a = []
  · rw [hne]
    exact hpiece
  · rw [pieces_append hne ha, hpiece]

end Pieces

section Bytes

theorem eq_newline_of_mem {c : Char} (h : (10 : UInt8) ∈ String.utf8EncodeChar c) : c = '\n' := by
  have hval : ∀ n : Nat, 128 ≤ n → n < 256 → (10 : UInt8) ≠ UInt8.ofNat n := by
    intro n hn hlt heq
    have := congrArg UInt8.toNat heq
    rw [UInt8.toNat_ofNat_of_lt' hlt] at this
    simp at this
    omega
  unfold String.utf8EncodeChar at h
  simp only [] at h
  split_ifs at h with h1 h2 h3 <;> simp only [List.mem_cons, List.not_mem_nil, or_false] at h
  · have := congrArg UInt8.toNat h
    rw [UInt8.toNat_ofNat_of_lt' (Nat.lt_of_le_of_lt h1 (by decide))] at this
    exact Char.ext (UInt32.toNat_inj.1 (by simpa using this.symm))
  · rcases h with h | h <;> exact absurd h (hval _ (by omega) (by omega))
  · rcases h with h | h | h <;> exact absurd h (hval _ (by omega) (by omega))
  · rcases h with h | h | h | h <;> exact absurd h (hval _ (by omega) (by omega))

theorem newline_not_mem_encode {t : Text} (h : '\n' ∉ t) : (10 : UInt8) ∉ t.encode := by
  intro hm
  obtain ⟨c, hc, hb⟩ := List.mem_flatMap.1 hm
  rw [eq_newline_of_mem hb] at hc
  exact h hc

theorem encode_newline : Text.encode ['\n'] = [10] := by decide

theorem encode_ne_nil {t : Text} (h : t ≠ []) : t.encode ≠ [] := by
  obtain ⟨c, u, rfl⟩ := List.exists_cons_of_ne_nil h
  intro he
  rw [Text.encode, List.flatMap_cons] at he
  exact String.utf8EncodeChar_ne_nil (List.append_eq_nil_iff.1 he).1

theorem firstLine_append_newline : ∀ {a : Bytes}, (10 : UInt8) ∉ a → ∀ b,
    firstLine (a ++ 10 :: b) = a ++ [10]
  | [], _, b => by simp [firstLine]
  | x :: a, h, b => by
    simp only [List.mem_cons, not_or] at h
    rw [List.cons_append, firstLine, if_neg (Ne.symm h.1), firstLine_append_newline h.2,
      List.cons_append]

theorem firstLine_of_not_mem : ∀ {a : Bytes}, (10 : UInt8) ∉ a → firstLine a = a
  | [], _ => rfl
  | x :: a, h => by
    simp only [List.mem_cons, not_or] at h
    rw [firstLine, if_neg (Ne.symm h.1), firstLine_of_not_mem h.2]

/-- The text ends in its only line feed. -/
def Text.IsLine (l : Text) : Prop := ∃ t : Text, l = t ++ ['\n'] ∧ '\n' ∉ t

/-- The bytes begin with these lines, and `rest` follows the last of them. -/
def BeginsWith : Bytes → List Text → Bytes → Prop
  | b, [], rest => b = rest
  | b, l :: ls, rest =>
    l ≠ [] ∧ firstLine b = l.encode ∧ BeginsWith (b.drop l.encode.length) ls rest

theorem BeginsWith.append : ∀ {b c rest : Bytes} {ls ls' : List Text}, BeginsWith b ls c →
    BeginsWith c ls' rest → BeginsWith b (ls ++ ls') rest
  | _, _, _, [], _, h, h' => by
    have : _ = _ := h
    rwa [this]
  | _, _, _, _ :: _, _, h, h' => ⟨h.1, h.2.1, h.2.2.append h'⟩

theorem beginsWith_of_isLine : ∀ {ls : List Text}, (∀ l ∈ ls, l.IsLine) → ∀ rest : Bytes,
    BeginsWith (Text.encode ls.flatten ++ rest) ls rest
  | [], _, rest => rfl
  | l :: ls, h, rest => by
    obtain ⟨t, rfl, ht⟩ := h l (by simp)
    have ih := beginsWith_of_isLine (fun k hk => h k (List.mem_cons_of_mem _ hk)) rest
    refine ⟨by simp, ?_, ?_⟩
    · rw [List.flatten_cons, Text.encode_append, Text.encode_append, encode_newline,
        List.append_assoc, List.append_assoc, List.singleton_append]
      exact firstLine_append_newline (newline_not_mem_encode ht) _
    · rw [List.flatten_cons, Text.encode_append (t ++ ['\n']), List.append_assoc, List.drop_left]
      exact ih

/-- What follows a text on its last line is nothing, or a line feed and anything. -/
theorem beginsWith_last {t : Text} (hne : t ≠ []) (ht : '\n' ∉ t) {rest : Bytes}
    (hrest : rest = [] ∨ rest.head? = some 10) :
    ∃ l rest', (l = t ∨ l = t ++ ['\n']) ∧ BeginsWith (t.encode ++ rest) [l] rest' := by
  rcases hrest with rfl | hrest
  · refine ⟨t, [], Or.inl rfl, hne, ?_, ?_⟩
    · rw [List.append_nil]
      exact firstLine_of_not_mem (newline_not_mem_encode ht)
    · simp [BeginsWith]
  · obtain ⟨b, rfl⟩ := List.head?_eq_some_iff.1 hrest
    refine ⟨t ++ ['\n'], b, Or.inr rfl, by simp, ?_, ?_⟩
    · rw [Text.encode_append, encode_newline]
      exact firstLine_append_newline (newline_not_mem_encode ht) b
    · rw [Text.encode_append, encode_newline, show t.encode ++ 10 :: b = (t.encode ++ [10]) ++ b by
        simp, List.drop_left]
      rfl

end Bytes

namespace LineReader

/-- The reader stands before these lines with `rest` behind them, and every line it has passed was
handed out. -/
structure Before (r : LineReader) (ls : List Text) (rest : Bytes) : Prop where
  offset_eq : r.offset = r.position
  begins : BeginsWith r.remaining ls rest

/-- The reader after it has handed out a line. -/
def handOut (r : LineReader) (l : Text) : LineReader :=
  { r with
    position := r.position + l.encode.length
    offset := r.offset + l.encode.length
    lastLength := l.encode.length
    lineNumber := r.lineNumber + 1 }

/-- The reader past these lines, with no line to step back over. -/
def pass (r : LineReader) (ls : List Text) : LineReader :=
  { r with
    position := r.position + (Text.encode ls.flatten).length
    offset := r.offset + (Text.encode ls.flatten).length
    lastLength := 0
    lineNumber := r.lineNumber + ls.length }

theorem ofBytes_before {source rest : Bytes} {ls : List Text} (h : BeginsWith source ls rest) :
    (ofBytes source).Before ls rest := ⟨rfl, h⟩

variable {r : LineReader} {l : Text} {ls : List Text} {rest : Bytes}

theorem next_of_before (h : r.Before (l :: ls) rest) : r.next = (.ok (some l), r.handOut l) := by
  obtain ⟨hne, hf, -⟩ := h.begins
  unfold next
  simp only [hf, encode_ne_nil hne, if_false, Text.decode?_encode]
  rfl

theorem next_of_end (h : r.remaining = []) : r.next = (.ok none, r.pass []) := by
  unfold next
  simp only [h, firstLine, if_true]
  simp [pass]

theorem Before.handOut (h : r.Before (l :: ls) rest) : (r.handOut l).Before ls rest := by
  refine ⟨?_, ?_⟩
  · simp only [LineReader.handOut, h.offset_eq]
  · have := h.begins.2.2
    rwa [remaining, List.drop_drop] at this

theorem stepBack_handOut (h : r.Before (l :: ls) rest) : (r.handOut l).stepBack = r.pass [] := by
  have hlen : l.encode.length ≠ 0 := by simpa using encode_ne_nil h.begins.1
  unfold stepBack
  rw [if_neg (by simpa [LineReader.handOut] using hlen)]
  simp [LineReader.handOut, pass, h.offset_eq]

theorem pass_handOut (r : LineReader) (l : Text) (ls : List Text) :
    (r.handOut l).pass ls = r.pass (l :: ls) := by
  simp [LineReader.handOut, pass, Nat.add_assoc, Nat.add_comm 1]

theorem pass_pass (r : LineReader) (ls ls' : List Text) :
    (r.pass ls).pass ls' = r.pass (ls ++ ls') := by
  simp [pass, Nat.add_assoc]

theorem Before.pass : ∀ {pre : List Text} {r : LineReader}, r.Before (pre ++ ls) rest →
    (r.pass pre).Before ls rest
  | [], _, h => ⟨by simpa [LineReader.pass] using h.offset_eq, by
      simpa [LineReader.pass, remaining] using h.begins⟩
  | l :: pre, r, h => by
    rw [← pass_handOut]
    exact Before.pass (Before.handOut h)

end LineReader

namespace Header.Reading

variable {α β σ : Type} {r : LineReader} {rest : Bytes}

theorem bind_of_ok {x : Reading α} {f : α → Reading β} {a : α} (h : (x r).answer = .ok a) :
    (x >>= f) r =
      { f a (x r).reader with notes := (x r).notes ++ (f a (x r).reader).notes } := by
  show andThen x f r = _
  unfold andThen
  simp only [h]

theorem bind_of_error {x : Reading α} {f : α → Reading β} {e : Error}
    (h : (x r).answer = .error e) : (x >>= f) r = ⟨.error e, (x r).reader, (x r).notes⟩ := by
  show andThen x f r = _
  unfold andThen
  simp only [h]

/-- The reading answers `a` and leaves the reader at `s`. -/
def Yields (x : Reading α) (r : LineReader) (a : α) (s : LineReader) : Prop :=
  ∃ notes, x r = ⟨.ok a, s, notes⟩

theorem Yields.bind {x : Reading α} {f : α → Reading β} {a : α} {b : β} {r s t : LineReader}
    (hx : x.Yields r a s) (hf : (f a).Yields s b t) : (x >>= f).Yields r b t := by
  obtain ⟨n, hn⟩ := hx
  obtain ⟨k, hk⟩ := hf
  refine ⟨n ++ k, ?_⟩
  rw [bind_of_ok (a := a) (by rw [hn]), hn]
  simp only [hk]

theorem yields_pure (a : α) (r : LineReader) : (pure a : Reading α).Yields r a r := ⟨[], rfl⟩

theorem yields_note (n : Note) (r : LineReader) : (note n).Yields r () r := ⟨[n], rfl⟩

theorem yields_restart (r : LineReader) : restart.Yields r () r.restart := ⟨[], rfl⟩

/-- The reading ends in the error `e` and leaves the reader at `s`. -/
def Fails (x : Reading α) (r : LineReader) (e : Error) (s : LineReader) : Prop :=
  ∃ notes, x r = ⟨.error e, s, notes⟩

theorem Yields.bind_fails {x : Reading α} {f : α → Reading β} {a : α} {e : Error}
    {r s t : LineReader} (hx : x.Yields r a s) (hf : (f a).Fails s e t) : (x >>= f).Fails r e t := by
  obtain ⟨n, hn⟩ := hx
  obtain ⟨k, hk⟩ := hf
  refine ⟨n ++ k, ?_⟩
  rw [bind_of_ok (a := a) (by rw [hn]), hn]
  simp only [hk]

theorem fails_unclosed (block : Block) (r : LineReader) :
    (unclosed block : Reading α).Fails r (.unclosed block r.lineNumber) r := ⟨[], rfl⟩

theorem until?_of_next_error {step : σ → Text → Except Error (σ ⊕ β)} {s : σ} {e : Error}
    {r r' : LineReader} (h : r.next = (.error e, r')) : until? step s r = ⟨.error e, r', []⟩ := by
  rw [until?.eq_def]
  split <;> rename_i heq <;> rw [h] at heq <;>
    simp only [Prod.mk.injEq, reduceCtorEq, false_and, Except.error.injEq] at heq
  obtain ⟨rfl, rfl⟩ := heq
  rfl

theorem until?_of_next_none {step : σ → Text → Except Error (σ ⊕ β)} {s : σ} {r r' : LineReader}
    (h : r.next = (.ok none, r')) : until? step s r = ⟨.ok none, r', []⟩ := by
  rw [until?.eq_def]
  split <;> rename_i heq <;> rw [h] at heq <;>
    simp only [Prod.mk.injEq, reduceCtorEq, false_and, Except.ok.injEq, true_and] at heq
  rw [heq]

theorem until?_of_next_some {step : σ → Text → Except Error (σ ⊕ β)} {s : σ} {r r' : LineReader}
    {l : Text} (h : r.next = (.ok (some l), r')) : until? step s r =
      match step s l with
      | .error e => ⟨.error e, r', []⟩
      | .ok (.inl t) => until? step t r'
      | .ok (.inr b) => ⟨.ok (some (b, r'.lineNumber)), r'.stepBack, []⟩ := by
  rw [until?.eq_def]
  split <;> rename_i heq <;> rw [h] at heq <;>
    simp only [Prod.mk.injEq, reduceCtorEq, false_and, Except.ok.injEq, Option.some.injEq] at heq
  obtain ⟨rfl, rfl⟩ := heq
  rfl

/-- `step` goes on over all these lines. -/
def Through (step : σ → Text → Except Error (σ ⊕ β)) : σ → List Text → σ → Prop
  | s, [], s' => s = s'
  | s, l :: ls, s' => ∃ t, step s l = .ok (.inl t) ∧ Through step t ls s'

/-- A search that answers on a line leaves the reader before it. -/
theorem until?_of_through {step : σ → Text → Except Error (σ ⊕ β)} {b : β} {l : Text}
    {post : List Text} :
    ∀ {pre : List Text} {s s' : σ} {r : LineReader}, r.Before (pre ++ l :: post) rest →
      Through step s pre s' → step s' l = .ok (.inr b) →
      (until? step s).Yields r (some (b, r.lineNumber + pre.length + 1)) (r.pass pre)
  | [], s, s', r, h, hs, hl => by
    obtain rfl : s = s' := hs
    refine ⟨[], ?_⟩
    rw [until?_of_next_some (LineReader.next_of_before h), hl]
    simp only [LineReader.stepBack_handOut h]
    rfl
  | k :: pre, s, s', r, h, ⟨t, ht, hs⟩, hl => by
    obtain ⟨notes, ih⟩ := until?_of_through h.handOut hs hl
    refine ⟨notes, ?_⟩
    rw [until?_of_next_some (LineReader.next_of_before h), ht]
    simp only [ih, LineReader.pass_handOut]
    simp [LineReader.handOut, Nat.add_assoc, Nat.add_comm 1]

theorem through_of_none {pick : Text → Option β} : ∀ {ls : List Text}, (∀ k ∈ ls, pick k = none) →
    Through (fun (_ : Unit) line => .ok ((pick line).elim (.inl ()) .inr)) () ls ()
  | [], _ => rfl
  | k :: ls, h =>
    ⟨(), by simp [h k (by simp)], through_of_none fun j hj => h j (List.mem_cons_of_mem _ hj)⟩

/-- The first line on which `pick` answers is found with the reader left before it. -/
theorem find?_of_before {pick : Text → Option β} {b : β} {l : Text} {pre post : List Text}
    (h : r.Before (pre ++ l :: post) rest) (hpre : ∀ k ∈ pre, pick k = none)
    (hl : pick l = some b) :
    (find? pick).Yields r (some (b, r.lineNumber + pre.length + 1)) (r.pass pre) := by
  exact until?_of_through h (through_of_none hpre) (by simp [hl])

/-- A search that goes on over every line of the source answers nothing and leaves the reader at the
end. -/
theorem until?_of_end {step : σ → Text → Except Error (σ ⊕ β)} :
    ∀ {ls : List Text} {s s' : σ} {r : LineReader}, r.Before ls [] → Through step s ls s' →
      (until? step s).Yields r none (r.pass ls)
  | [], s, s', r, h, _ => ⟨[], until?_of_next_none (LineReader.next_of_end h.begins)⟩
  | l :: ls, s, s', r, h, ⟨t, ht, hs⟩ => by
    obtain ⟨notes, ih⟩ := until?_of_end h.handOut hs
    refine ⟨notes, ?_⟩
    rw [until?_of_next_some (LineReader.next_of_before h), ht]
    simp only [ih, LineReader.pass_handOut]

theorem find?_of_end {pick : Text → Option β} {ls : List Text} (h : r.Before ls [])
    (hls : ∀ k ∈ ls, pick k = none) : (find? pick).Yields r none (r.pass ls) :=
  until?_of_end h (through_of_none hls)

end Header.Reading

end HdlScaffold
