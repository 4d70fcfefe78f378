import HdlScaffold.Proofs.Outcomes

/-!
# A header is read where it stands

Reading a header looks at no line behind the one that ends its ports, and of the lines in front of the
header it keeps nothing but their number. So complete lines may be followed by anything once a module
was found in them, and lines that are no headers may be put in front of any source
(`Module.ofSource?_append`).
-/

namespace HdlScaffold

/-- The error as it is when so many lines more come first. -/
def Error.linesLater (n : Nat) : Error → Error
  | unclosed block line => unclosed block (n + line)
  | e => e

namespace Module

theorem Verdict.answer_add (n k : Nat) (rest : Bytes) (v : Verdict) :
    v.answer (n + k) rest = (v.answer k rest).mapError (Error.linesLater n) := by
  cases v with
  | noHeader =>
    rw [answer, answer]
    split_ifs <;> rfl
  | found m => rfl
  | cutOff block =>
    rw [answer, answer, Block.cutOff, Block.cutOff]
    split_ifs <;> rfl

/-- A module that was found in complete lines is found whatever comes behind them, and lines that are
no headers change nothing in front of a source but the number of the line in an error. -/
theorem ofSource?_append :
    (∀ (s t : Bytes) (m : Module), s.EndsLine → ofSource? s = .ok (some m) →
      ofSource? (s ++ t) = .ok (some m)) ∧
    ∀ p s : Bytes, p.EndsLine → (∀ b ∈ p.lines, ∃ l, Text.decode? b = some l ∧ ¬ l.IsHeader) →
      ofSource? (p ++ s) = (ofSource? s).mapError (Error.linesLater p.lines.length) := by
  constructor
  · intro s t m hs hm
    obtain ⟨ls, rest, hbegins, hend, -⟩ := Bytes.exists_readable s
    obtain ⟨v, -, hverdict⟩ := exists_verdict ls
    have hanswer := hverdict [] s rest (by simp) hbegins (Or.inl hend)
    -- only a verdict that found a module answers with one
    have hv : v = .found m := by
      rw [hm] at hanswer
      cases v with
      | noHeader =>
        rw [Verdict.answer] at hanswer
        split_ifs at hanswer
        simp at hanswer
      | found m' => simpa [Verdict.answer, eq_comm] using hanswer
      | cutOff block => simp [Verdict.answer] at hanswer
    rw [hverdict [] (s ++ t) (rest ++ t) (by simp) (hbegins.append_right hs t) (Or.inr ⟨m, hv⟩), hv]
    rfl
  · intro p s hp hquiet
    obtain ⟨front, gone, hfront, hgone, hlines⟩ := Bytes.exists_readable p
    obtain ⟨rfl, hnone⟩ := (Bytes.forall_lines_iff hgone hlines).1 hquiet
    obtain ⟨ls, rest, hbegins, hend, -⟩ := Bytes.exists_readable s
    obtain ⟨v, -, hverdict⟩ := exists_verdict ls
    have hheaders : ∀ l ∈ front, headerName? l = none := fun l hl => by
      rw [← Option.not_isSome_iff_eq_none, isSome_headerName?_iff]
      exact hnone l hl
    have hcount : p.lines.length = front.length := by
      simp [hlines]
    rw [hverdict front (p ++ s) rest hheaders ((hfront.append_right hp s).append hbegins)
      (Or.inl hend), hverdict [] s rest (by simp) hbegins (Or.inl hend), List.length_append,
      Verdict.answer_add, hcount]
    rfl

/-- A header on one line. -/
def closedHeader : Bytes := Text.encode "module m (input a);\n".toList

/-- Two lines that are no headers, though one of them mentions a module. -/
def remarks : Bytes := Text.encode "// module n (\n\n".toList

theorem ofSource?_append_remarks :
    (∃ m, ofSource? closedHeader = .ok (some m) ∧
      ofSource? (closedHeader ++ [0xff, 0x0a, 0x28]) = .ok (some m)) ∧
    ofSource? openHeader = .error (.unclosed .port 3) ∧
    ofSource? (remarks ++ openHeader) = .error (.unclosed .port 5) := by
  obtain ⟨m, hm⟩ : ∃ m, ofSource? closedHeader = .ok (some m) := by
    have hread : (ofSource? closedHeader).toOption.map Option.isSome = some true := by
      decide +kernel
    rcases h : ofSource? closedHeader with e | _ | m <;> rw [h] at hread
    · simp [Except.toOption] at hread
    · simp [Except.toOption] at hread
    · exact ⟨m, rfl⟩
  have hlines : remarks.lines = ["// module n (\n", "\n"].map fun l => Text.encode l.toList := by
    decide
  have hquiet : ∀ b ∈ remarks.lines, ∃ l, Text.decode? b = some l ∧ ¬ l.IsHeader := by
    rw [hlines]
    simp only [← isSome_headerName?_iff, List.mem_map, forall_exists_index, and_imp,
      forall_apply_eq_imp_iff₂, Text.decode?_encode]
    decide
  refine ⟨⟨m, hm, ofSource?_append.1 _ _ m (by decide +kernel) hm⟩, ofSource?_openHeader, ?_⟩
  rw [ofSource?_append.2 remarks openHeader (by decide +kernel) hquiet, ofSource?_openHeader,
    hlines]
  rfl

end Module

end HdlScaffold
