import HdlScaffold.Failure
import HdlScaffold.Proofs.IntegerWidths
import HdlScaffold.Proofs.Lexing
import Mathlib.Data.List.TakeWhile

/-!
# Settings files are read again

What a codec of settings files has to do is said part by part (`Settings.Codec.Conforms`): TOML 1.0 says
how a document is written and how it is read, and the keys of the settings, with their defaults, say what
a table gives. For every such codec settings can be written exactly if their numbers have room, a written
document gives the settings back unless their tab width is zero, and settings that were read can be
written (`Settings.ofText_toText`). The standard codec is one of them (`Settings.Codec.conforms_standard`).
-/

namespace HdlScaffold

namespace Toml

/-- The word stands for the value: a truth value, or a decimal numeral without a sign and without zeros
in front, for a number below the limit. -/
inductive Spells : Text → Value → Prop
  | integer {word : Text} {n : Nat} (h : word.PlainDecimal n) (hn : n < integerLimit) :
      Spells word (.integer n)
  | boolean (b : Bool) : Spells (if b then "true" else "false").toList (.boolean b)

/-- Key by key, the words stand for the values of the table. -/
def SpellsTable : List (Text × Text) → Table → Prop :=
  List.Forall₂ fun l e => l.1 = e.1 ∧ Spells l.2 e.2

/-- A key without quotes. -/
def IsBare (t : Text) : Prop := t ≠ [] ∧ ∀ c ∈ t, isBareChar c = true

instance (t : Text) : Decidable (IsBare t) := inferInstanceAs (Decidable (_ ∧ _))

/-- The table sets bare keys, each once. -/
structure Table.Plain (table : Table) : Prop where
  bare : ∀ key ∈ table.map Prod.fst, IsBare key
  nodup : (table.map Prod.fst).Nodup

end Toml

namespace Settings

open Toml (Table SpellsTable document integerLimit)

/-- The table gives the settings: it has no other keys, and a key that it lacks has its default. -/
structure GivenBy (table : Table) (s : Settings) : Prop where
  known : ∀ key ∈ table.map Prod.fst, key ∈ keys
  tabWidth : (table.lookup tabWidthKey).getD (.integer Indent.defaultTabWidth) = .integer s.tabWidth
  column : (table.lookup columnKey).getD (.integer Indent.defaultColumn) = .integer s.column
  stripEndings : (table.lookup stripEndingsKey).getD (.boolean true) = .boolean s.stripEndings

/-- What is asked of a codec, part by part. -/
structure Codec.Conforms (codec : Codec) : Prop where
  /-- A document with a line for each key is read as what its words stand for. -/
  parse_document : ∀ {ls : List (Text × Text)} {table : Table}, table.Plain → SpellsTable ls table →
    codec.parse? (document ls) = some table
  /-- No document sets a key twice. -/
  parse_nodup : ∀ {t : Text} {table : Table}, codec.parse? t = some table →
    (table.map Prod.fst).Nodup
  /-- Every integer that is read has 64 bits with a sign. -/
  parse_lt : ∀ {t key : Text} {table : Table} {n : Int}, codec.parse? t = some table →
    (key, .integer n) ∈ table → n < integerLimit
  /-- A table of numbers and truth values is written with a line for each key. -/
  print_document : ∀ {table : Table}, table.Plain → (∀ e ∈ table, ∃ word, Toml.Spells word e.2) →
    ∃ ls, SpellsTable ls table ∧ codec.print? table = some (document ls)
  /-- An integer with more than 64 bits is not written. -/
  print_large : ∀ {key : Text} {table : Table} {n : Int}, (key, .integer n) ∈ table →
    integerLimit ≤ n → codec.print? table = none
  /-- A table gives settings by its keys. -/
  ofTable_iff : ∀ {table : Table} {s : Settings}, (table.map Prod.fst).Nodup →
    (codec.ofTable? table = some s ↔ GivenBy table s)
  /-- Settings are written with all their keys. -/
  toTable_eq : ∀ s : Settings, codec.toTable s =
    [(tabWidthKey, .integer s.tabWidth), (columnKey, .integer s.column),
      (stripEndingsKey, .boolean s.stripEndings)]

end Settings

namespace Toml

section Numbers

variable {n : Nat}

theorem digit?_of_isDigit {c : Char} (h : c.isDigit = true) :
    digit? 10 c = some (c.toNat - '0'.toNat) := by
  have hvalue : c.toNat - '0'.toNat < 10 := by
    have hdigit := (Char.isDigit_iff_toNat.1 h).2
    have hnine : '9'.toNat - '0'.toNat < 10 := by decide
    omega
  simp only [digit?, h, if_true, Option.filter_some, decide_eq_true hvalue]

theorem moreDigits?_eq {ds : Text} (h : ∀ c ∈ ds, c.isDigit = true) :
    moreDigits? 10 n ds = some (Nat.ofDigitChars 10 ds n) := by
  induction ds generalizing n with
  | nil => rfl
  | cons c ds ih =>
    have hc := h c List.mem_cons_self
    have hunderscore : c ≠ '_' := by
      rintro rfl
      exact absurd hc (by decide)
    rw [moreDigits?.eq_3 _ _ _ _ fun _ _ hsame _ => hunderscore hsame, digit?_of_isDigit hc,
      Option.bind_some, ih fun d hd => h d (List.mem_cons_of_mem _ hd), Nat.ofDigitChars_cons,
      Nat.mul_comm]

theorem decimal?_of_plainDecimal {word : Text} (h : word.PlainDecimal n) :
    decimal? word = some n := by
  have hread : Nat.ofDigitChars 10 word 0 = n := (Text.ofDigitChars_eq_decimal _).trans h.value
  obtain ⟨c, ds, rfl⟩ := List.exists_cons_of_ne_nil h.digits.1
  by_cases hzero : c = '0'
  · subst hzero
    obtain rfl := h.no_zero ds rfl
    rw [← hread]
    rfl
  · have hdigits := h.digits.2
    rw [decimal?.eq_3 _ (by simp [hzero]) (by simp [hzero]), digits?,
      digit?_of_isDigit (hdigits c List.mem_cons_self), Option.bind_some,
      moreDigits?_eq fun d hd => hdigits d (List.mem_cons_of_mem _ hd), ← hread,
      Nat.ofDigitChars_cons, Nat.mul_zero, Nat.zero_add]

theorem inRange_natCast : inRange n = true ↔ n < integerLimit := by
  simp only [inRange, Bool.and_eq_true, decide_eq_true_eq]
  omega

/-- Only a sign or a letter behind a zero makes a numeral anything but decimal. -/
theorem integer?_of_plainDecimal {word : Text} (h : word.PlainDecimal n) (hn : n < integerLimit) :
    integer? word = some n := by
  unfold integer?
  split
  · exact absurd (h.no_zero _ rfl) (by simp)
  · exact absurd (h.no_zero _ rfl) (by simp)
  · exact absurd (h.no_zero _ rfl) (by simp)
  · exact absurd rfl (h.digits.ne_cons (by decide) _)
  · exact absurd rfl (h.digits.ne_cons (by decide) _)
  · rw [decimal?_of_plainDecimal h, Option.map_some, Option.filter_some]
    exact if_pos (inRange_natCast.2 hn)

theorem lt_of_integer? {word : Text} {v : Int} (h : integer? word = some v) : v < integerLimit := by
  unfold integer? at h
  have hrange := (Option.filter_eq_some_iff.1 h).2
  simp only [inRange, Bool.and_eq_true, decide_eq_true_eq] at hrange
  exact hrange.2

end Numbers

section Values

variable {v : Value} {word : Text}

theorem Spells.value?_eq (h : Spells word v) : value? word = some v := by
  cases h with
  | boolean b => cases b <;> decide
  | integer h hn =>
    have htrue : word ≠ "true".toList := h.digits.ne_cons (by decide) _
    have hfalse : word ≠ "false".toList := h.digits.ne_cons (by decide) _
    rw [value?, if_neg htrue, if_neg hfalse, integer?_of_plainDecimal h hn]
    rfl

theorem Spells.isBare (h : Spells word v) : IsBare word := by
  cases h with
  | boolean b => cases b <;> decide
  | integer h hn =>
    refine ⟨h.digits.1, fun c hc => ?_⟩
    simp [isBareChar, Char.isAlphanum, h.digits.2 c hc]

theorem lt_of_value? {n : Int} (h : value? word = some (.integer n)) : n < integerLimit := by
  unfold value? at h
  split_ifs at h
  · cases h
  · cases h
  · obtain ⟨m, hm, hmn⟩ := Option.map_eq_some_iff.1 h
    obtain rfl := Value.integer.inj hmn
    exact lt_of_integer? hm

/-- A value that some word stands for is written as such a word. -/
theorem exists_word?_of_spells (h : Spells word v) : ∃ w, v.word? = some w ∧ Spells w v := by
  cases h with
  | boolean b => exact ⟨_, rfl, .boolean b⟩
  | @integer _ n _ hn =>
    have hrange : inRange (Int.ofNat n) = true := inRange_natCast.2 hn
    refine ⟨Text.ofNat n, ?_, .integer (Text.plainDecimal_ofNat n) hn⟩
    show Value.word? (.integer (Int.ofNat n)) = _
    simp only [Value.word?, hrange, if_true]

end Values

section Lines

variable {v : Value} {key : Text} {c x : Char}

theorem IsBare.ne_of_mem (h : IsBare key) (hc : c ∈ key) (hx : isBareChar x = false) : c ≠ x := by
  rintro rfl
  rw [h.2 c hc] at hx
  cases hx

theorem IsBare.isSpace_eq_false (h : IsBare key) (hc : c ∈ key) : isSpace c = false := by
  have hblank : c ≠ ' ' := h.ne_of_mem hc (by decide)
  have htab : c ≠ '\t' := h.ne_of_mem hc (by decide)
  simp [isSpace, hblank, htab]

theorem IsBare.dropWhile_isSpace (h : IsBare key) (rest : Text) :
    (key ++ rest).dropWhile isSpace = key ++ rest := by
  obtain ⟨c, k, rfl⟩ := List.exists_cons_of_ne_nil h.1
  rw [List.cons_append, List.dropWhile_cons_of_neg]
  simp [h.isSpace_eq_false List.mem_cons_self]

theorem IsBare.isLineEnd_eq_false (h : IsBare key) (rest : Text) :
    isLineEnd (key ++ rest) = false := by
  unfold isLineEnd
  rw [h.dropWhile_isSpace]
  obtain ⟨c, k, rfl⟩ := List.exists_cons_of_ne_nil h.1
  have hcomment : c ≠ '#' := h.ne_of_mem List.mem_cons_self (by decide)
  simp [hcomment]

theorem IsBare.key?_eq (h : IsBare key) {rest : Text}
    (hrest : ∀ c ∈ rest.head?, isBareChar c = false) : key? (key ++ rest) = some (key, rest) := by
  have hquote : ∀ q : Char, isBareChar q = false → ∀ t, key ++ rest ≠ q :: t := by
    intro q hq t heq
    obtain ⟨c, k, rfl⟩ := List.exists_cons_of_ne_nil h.1
    exact h.ne_of_mem List.mem_cons_self hq (List.cons.inj heq).1
  rw [key?.eq_3 _ (hquote _ (by decide)) (hquote _ (by decide)), takeWhile_append_of_head h.2 hrest,
    dropWhile_append_of_head h.2 hrest, if_neg h.1]

/-- The line that sets a key to a word. -/
def setting (l : Text × Text) : Text := l.1 ++ " = ".toList ++ l.2

theorem line?_setting {word : Text} (hkey : IsBare key) (hv : Spells word v) :
    line? (setting (key, word)) = some (some (key, v)) := by
  have hword := hv.isBare
  have hinside : ∀ c ∈ word, (!isSpace c && c != '#') = true := by
    intro c hc
    have hcomment : c ≠ '#' := hword.ne_of_mem hc (by decide)
    simp [hword.isSpace_eq_false hc, hcomment]
  have hblank : (' ' :: word).dropWhile isSpace = word := by
    have hdrop := hword.dropWhile_isSpace []
    rw [List.append_nil] at hdrop
    exact (List.dropWhile_cons_of_pos (by decide)).trans hdrop
  have hhead : ∀ c ∈ (" = ".toList ++ word).head?, isBareChar c = false := by
    intro c hc
    obtain rfl : ' ' = c := Option.some.inj hc
    decide
  have hsign : Text.dropOpening? ['='] ((" = ".toList ++ word).dropWhile isSpace)
      = some (' ' :: word) := rfl
  unfold line? setting
  rw [List.append_assoc, hkey.isLineEnd_eq_false, if_neg Bool.false_ne_true, hkey.dropWhile_isSpace,
    hkey.key?_eq hhead]
  simp only [Option.bind_eq_bind, Option.bind_some, hsign, hblank]
  rw [List.takeWhile_eq_self_iff.2 hinside, hv.value?_eq, List.dropWhile_eq_nil_iff.2 hinside]
  rfl

/-- A line that is read sets a key to a value that its word stands for. -/
theorem exists_value?_of_line? {t : Text} (h : line? t = some (some (key, v))) :
    ∃ word, value? word = some v := by
  unfold line? at h
  split_ifs at h
  · cases h
  · simp only [Option.bind_eq_bind, Option.bind_eq_some_iff] at h
    obtain ⟨⟨k, rest⟩, -, rest', -, w, hw, hend⟩ := h
    split_ifs at hend
    cases hend
    exact ⟨_, hw⟩

end Lines

section Documents

variable {table : Table} {ls : List (Text × Text)} {t : Text}

theorem splitOn_flatMap_lines {lines : List Text} (h : ∀ l ∈ lines, '\n' ∉ l) :
    (lines.flatMap (· ++ ['\n'])).splitOn '\n' = lines ++ [[]] := by
  induction lines with
  | nil => rfl
  | cons l lines ih =>
    rw [List.flatMap_cons, List.append_assoc, List.singleton_append,
      List.splitOn_append_cons_self_of_not_mem (h l List.mem_cons_self),
      ih fun k hk => h k (List.mem_cons_of_mem _ hk), List.cons_append]

theorem not_mem_setting {l : Text × Text} {x : Char} (hl : IsBare l.1 ∧ IsBare l.2)
    (hbare : isBareChar x = false) (hx : x ∉ " = ".toList) : x ∉ setting l := by
  intro hmem
  rcases List.mem_append.1 hmem with hmem | hmem
  · rcases List.mem_append.1 hmem with hmem | hmem
    · exact hl.1.ne_of_mem hmem hbare rfl
    · exact hx hmem
  · exact hl.2.ne_of_mem hmem hbare rfl

theorem lines_document (h : ∀ l ∈ ls, IsBare l.1 ∧ IsBare l.2) :
    lines (document ls) = ls.map setting ++ [[]] := by
  have hmem : ∀ x : Char, isBareChar x = false → x ∉ " = ".toList →
      ∀ l ∈ ls.map setting, x ∉ l := by
    intro x hbare hx k hk
    obtain ⟨l, hl, rfl⟩ := List.mem_map.1 hk
    exact not_mem_setting (h l hl) hbare hx
  have hdocument : document ls = (ls.map setting).flatMap (· ++ ['\n']) := by
    rw [document, List.flatMap_map]
    rfl
  have hmark : Text.dropOpening? ['\uFEFF'] (document ls) = none := by
    refine if_neg fun hopens => ?_
    have hfirst := (List.isPrefixOf_iff_prefix.1 hopens).subset List.mem_cons_self
    rw [hdocument, List.mem_flatMap] at hfirst
    obtain ⟨l, hl, hfirst⟩ := hfirst
    rcases List.mem_append.1 hfirst with hfirst | hfirst
    · exact hmem _ (by decide) (by decide) l hl hfirst
    · exact absurd hfirst (by decide)
  have hreturn : ∀ l ∈ ls.map setting, withoutReturn l = l := by
    intro l hl
    exact if_neg fun hlast => hmem '\r' (by decide) (by decide) l hl (List.mem_of_getLast? hlast)
  unfold lines
  simp only [hmark, Option.getD_none]
  rw [hdocument, splitOn_flatMap_lines (hmem '\n' (by decide) (by decide)), List.dropLast_concat,
    List.getLast?_concat, List.map_congr_left hreturn, List.map_id']
  rfl

theorem mapM_line?_settings (hbare : ∀ key ∈ table.map Prod.fst, IsBare key)
    (h : SpellsTable ls table) : (ls.map setting).mapM line? = some (table.map some) := by
  induction h with
  | nil => rfl
  | @cons l e ls table hl _ ih =>
    obtain ⟨key, word⟩ := l
    obtain ⟨key', v⟩ := e
    obtain ⟨rfl, hv⟩ := hl
    rw [List.map_cons, List.mapM_cons, line?_setting (hbare _ List.mem_cons_self) hv,
      ih fun k hk => hbare k (List.mem_cons_of_mem _ hk)]
    rfl

theorem SpellsTable.isBare (hbare : ∀ key ∈ table.map Prod.fst, IsBare key)
    (h : SpellsTable ls table) : ∀ l ∈ ls, IsBare l.1 ∧ IsBare l.2 := by
  induction h with
  | nil => simp
  | @cons l e ls table hl _ ih =>
    intro k hk
    rcases List.mem_cons.1 hk with rfl | hk
    · exact ⟨hl.1 ▸ hbare e.1 List.mem_cons_self, hl.2.isBare⟩
    · exact ih (fun key hkey => hbare key (List.mem_cons_of_mem _ hkey)) k hk

/-- A document is read as what it sets. -/
theorem parse?_document (hplain : table.Plain) (h : SpellsTable ls table) :
    parse? (document ls) = some table := by
  have hempty : [[]].mapM line? = some [none] := rfl
  have hentries : entries? (document ls) = some table := by
    rw [entries?, lines_document (h.isBare hplain.bare), List.mapM_append,
      mapM_line?_settings hplain.bare h, hempty]
    simp
  rw [parse?, hentries, Option.filter_some, if_pos (decide_eq_true hplain.nodup)]

theorem nodup_of_parse? (h : parse? t = some table) : (table.map Prod.fst).Nodup := by
  simpa using (Option.filter_eq_some_iff.1 h).2

theorem exists_of_mapM {α β : Type} {f : α → Option β} {xs : List α} {ys : List β}
    (h : xs.mapM f = some ys) : ∀ y ∈ ys, ∃ x ∈ xs, f x = some y := by
  induction xs generalizing ys with
  | nil =>
    obtain rfl := Option.some.inj h
    simp
  | cons x xs ih =>
    simp only [List.mapM_cons, Option.bind_eq_bind, Option.bind_eq_some_iff, Option.pure_def,
      Option.some.injEq] at h
    obtain ⟨y, hy, zs, hzs, rfl⟩ := h
    intro z hz
    rcases List.mem_cons.1 hz with rfl | hz
    · exact ⟨x, List.mem_cons_self, hy⟩
    · obtain ⟨w, hw, hfw⟩ := ih hzs z hz
      exact ⟨w, List.mem_cons_of_mem _ hw, hfw⟩

theorem lt_of_parse? {key : Text} {n : Int} (h : parse? t = some table)
    (hn : (key, .integer n) ∈ table) : n < integerLimit := by
  obtain ⟨hentries, -⟩ := Option.filter_eq_some_iff.1 h
  obtain ⟨found, hfound, rfl⟩ := Option.map_eq_some_iff.1 hentries
  have hmem : some (key, .integer n) ∈ found := by simpa using hn
  obtain ⟨l, -, hl⟩ := exists_of_mapM hfound _ hmem
  obtain ⟨word, hword⟩ := exists_value?_of_line? hl
  exact lt_of_value? hword

/-- A table is written value by value, in the words that they have. -/
theorem exists_assignments (h : ∀ e ∈ table, ∃ word, Spells word e.2) :
    ∃ ls, SpellsTable ls table ∧ table.mapM assignment? = some ls := by
  induction table with
  | nil => exact ⟨[], .nil, rfl⟩
  | cons e table ih =>
    obtain ⟨word, hword⟩ := h e List.mem_cons_self
    obtain ⟨w, hw, hspells⟩ := exists_word?_of_spells hword
    obtain ⟨ls, hls, hmap⟩ := ih fun e' he' => h e' (List.mem_cons_of_mem _ he')
    refine ⟨(e.1, w) :: ls, .cons ⟨rfl, hspells⟩ hls, ?_⟩
    rw [List.mapM_cons, assignment?, hw, hmap]
    rfl

theorem exists_print? (h : ∀ e ∈ table, ∃ word, Spells word e.2) :
    ∃ ls, SpellsTable ls table ∧ print? table = some (document ls) := by
  obtain ⟨ls, hls, hmap⟩ := exists_assignments h
  exact ⟨ls, hls, by rw [print?, hmap, Option.map_some]⟩

theorem mapM_eq_none {α β : Type} {f : α → Option β} {xs : List α} {x : α} (hx : x ∈ xs)
    (h : f x = none) : xs.mapM f = none := by
  induction xs with
  | nil => cases hx
  | cons y xs ih =>
    rw [List.mapM_cons]
    rcases List.mem_cons.1 hx with rfl | hx
    · rw [h]
      rfl
    · rw [ih hx]
      cases f y <;> rfl

theorem print?_of_large {key : Text} {n : Int} (hn : (key, .integer n) ∈ table)
    (hlarge : integerLimit ≤ n) : print? table = none := by
  have hrange : ¬ inRange n = true := by
    simp only [inRange, Bool.and_eq_true, decide_eq_true_eq]
    omega
  have hword : assignment? (key, .integer n) = none := by
    simp only [assignment?, Value.word?, hrange, if_false, Option.map_none, Bool.false_eq_true]
  rw [print?, mapM_eq_none hn hword, Option.map_none]

end Documents

section Fields

variable {α : Type} {table : Table} {key : Text} {read : Value → Option α} {write : α → Value}

/-- A field that is read as what it is written as has the value that the table gives it. -/
theorem Table.field?_eq_some_iff (hread : ∀ v a, read v = some a ↔ v = write a)
    (hwrite : Function.Injective write) (default a : α) :
    table.field? key read default = some a ↔ (table.lookup key).getD (write default) = write a := by
  unfold field?
  cases table.lookup key with
  | none =>
    rw [Option.getD_none, hwrite.eq_iff]
    exact Option.some_inj
  | some v => exact hread v a

theorem Value.natural?_eq_some_iff (v : Value) (n : Nat) :
    v.natural? = some n ↔ v = .integer n := by
  cases v with
  | integer m => cases m <;> simp [natural?, Int.toNat?]
  | boolean b => simp [natural?]
  | other => simp [natural?]

theorem Value.boolean?_eq_some_iff (v : Value) (b : Bool) :
    v.boolean? = some b ↔ v = .boolean b := by
  cases v <;> simp [boolean?]

end Fields

end Toml

namespace Settings

open Toml (Table document integerLimit)

variable {s : Settings} {codec : Codec} {table : Table} {t : Text}

theorem ofTable?_eq_some_iff : ofTable? table = some s ↔ GivenBy table s := by
  have hinteger : Function.Injective fun n : Nat => Toml.Value.integer n := fun m n h =>
    Int.ofNat.inj (Toml.Value.integer.inj h)
  have hboolean : Function.Injective Toml.Value.boolean := fun b c h => Toml.Value.boolean.inj h
  have hnumber : ∀ key default n, table.field? key Toml.Value.natural? default = some n ↔
      (table.lookup key).getD (.integer default) = .integer n := fun _ =>
    Toml.Table.field?_eq_some_iff Toml.Value.natural?_eq_some_iff hinteger
  have htruth : ∀ key default b, table.field? key Toml.Value.boolean? default = some b ↔
      (table.lookup key).getD (.boolean default) = .boolean b := fun _ =>
    Toml.Table.field?_eq_some_iff Toml.Value.boolean?_eq_some_iff hboolean
  have hknown : (table.all fun e => keys.contains e.1) = true ↔
      ∀ key ∈ table.map Prod.fst, key ∈ keys := by
    simp only [List.all_eq_true, List.contains_iff_mem, List.forall_mem_map]
  constructor
  · intro h
    unfold ofTable? at h
    split_ifs at h with hall
    simp only [Option.bind_eq_bind, Option.bind_eq_some_iff, Option.pure_def] at h
    obtain ⟨tabWidth, htabWidth, column, hcolumn, stripEndings, hstrip, hs⟩ := h
    obtain rfl := Option.some.inj hs
    exact ⟨hknown.1 hall, (hnumber _ _ _).1 htabWidth, (hnumber _ _ _).1 hcolumn,
      (htruth _ _ _).1 hstrip⟩
  · intro h
    unfold ofTable?
    simp only [if_pos (hknown.2 h.known), (hnumber _ _ _).2 h.tabWidth, (hnumber _ _ _).2 h.column,
      (htruth _ _ _).2 h.stripEndings]
    rfl

/-- The standard codec does what is asked of a codec. -/
theorem Codec.conforms_standard : Codec.standard.Conforms where
  parse_document := Toml.parse?_document
  parse_nodup := Toml.nodup_of_parse?
  parse_lt := Toml.lt_of_parse?
  print_document _ := Toml.exists_print?
  print_large := Toml.print?_of_large
  ofTable_iff _ := ofTable?_eq_some_iff
  toTable_eq _ := rfl

/-- Both numbers have room in a document. -/
structure Fits (s : Settings) : Prop where
  tabWidth : s.tabWidth < integerLimit
  column : s.column < integerLimit

theorem plain_toTable (s : Settings) : s.toTable.Plain := by
  have hkeys : s.toTable.map Prod.fst = keys := rfl
  refine ⟨?_, ?_⟩
  · rw [hkeys]
    decide
  · rw [hkeys]
    decide

theorem givenBy_toTable (s : Settings) : GivenBy s.toTable s where
  known _ h := h
  tabWidth := rfl
  column := rfl
  stripEndings := rfl

theorem Fits.exists_spells (h : s.Fits) : ∀ e ∈ s.toTable, ∃ word, Toml.Spells word e.2 := by
  intro e he
  simp only [toTable, List.mem_cons, List.not_mem_nil, or_false] at he
  rcases he with rfl | rfl | rfl
  · exact ⟨_, .integer (Text.plainDecimal_ofNat _) h.tabWidth⟩
  · exact ⟨_, .integer (Text.plainDecimal_ofNat _) h.column⟩
  · exact ⟨_, .boolean _⟩

/-- A number that is in the table, or else the default, has room. -/
theorem lt_of_getD_lookup {key : Text} {default n : Nat} (hdefault : default < integerLimit)
    (hlt : ∀ {key : Text} {n : Int}, (key, .integer n) ∈ table → n < integerLimit)
    (h : (table.lookup key).getD (.integer default) = .integer n) : n < integerLimit := by
  cases hfound : table.lookup key with
  | none =>
    rw [hfound, Option.getD_none] at h
    have := Toml.Value.integer.inj h
    omega
  | some v =>
    rw [hfound, Option.getD_some] at h
    subst h
    obtain ⟨before, after, hentries, -⟩ := List.lookup_eq_some_iff.1 hfound
    have hmem : (key, .integer n) ∈ table := by simp [hentries]
    exact Int.ofNat_lt.1 (hlt hmem)

/-- Settings that were read have room in a document. -/
theorem Codec.Conforms.fits (hc : codec.Conforms)
    (h : (codec.parse? t).bind codec.ofTable? = some s) : s.Fits := by
  obtain ⟨table, htable, hs⟩ := Option.bind_eq_some_iff.1 h
  have hgiven := (hc.ofTable_iff (hc.parse_nodup htable)).1 hs
  exact ⟨lt_of_getD_lookup (by decide) (hc.parse_lt htable) hgiven.tabWidth,
    lt_of_getD_lookup (by decide) (hc.parse_lt htable) hgiven.column⟩

/-- Settings that have room are written, and read again from what was written. -/
theorem Codec.Conforms.exists_toText (hc : codec.Conforms) (h : s.Fits) :
    ∃ t, s.toText codec = .ok t ∧ (codec.parse? t).bind codec.ofTable? = some s := by
  have htable : codec.toTable s = s.toTable := hc.toTable_eq s
  obtain ⟨ls, hls, hprint⟩ := hc.print_document (plain_toTable s) h.exists_spells
  refine ⟨document ls, ?_, ?_⟩
  · rw [toText, htable, hprint]
  · rw [hc.parse_document (plain_toTable s) hls, Option.bind_some]
    exact (hc.ofTable_iff (plain_toTable s).nodup).2 (givenBy_toTable s)

theorem Codec.Conforms.toText_of_large (hc : codec.Conforms)
    (h : integerLimit ≤ s.tabWidth ∨ integerLimit ≤ s.column) :
    s.toText codec = .error .unwritableSettings := by
  have hprint : codec.print? (codec.toTable s) = none := by
    rw [hc.toTable_eq]
    rcases h with h | h
    · exact hc.print_large List.mem_cons_self (Int.ofNat_le.2 h)
    · exact hc.print_large (List.mem_cons_of_mem _ List.mem_cons_self) (Int.ofNat_le.2 h)
  rw [toText, hprint]

/-- Settings that are read are refused for a tab width of zero, and only for that. -/
theorem ofText_of_bind (h : (codec.parse? t).bind codec.ofTable? = some s) :
    ofText t codec = if s.tabWidth = 0 then .error .zeroTabWidth else .ok s := by
  rw [ofText, h]
  by_cases hzero : s.tabWidth = 0
  · simp [check, isValid, hzero, bind, Except.bind]
  · simp [check, isValid, hzero, bind, Except.bind, pure, Except.pure]

theorem bind_of_ofText (h : ofText t codec = .ok s) :
    (codec.parse? t).bind codec.ofTable? = some s ∧ s.tabWidth ≠ 0 := by
  cases hread : (codec.parse? t).bind codec.ofTable? with
  | none => simp [ofText, hread] at h
  | some found =>
    rw [ofText_of_bind hread] at h
    split_ifs at h with hzero
    obtain rfl := Except.ok.inj h
    exact ⟨rfl, hzero⟩

/-- For every codec that conforms, settings can be written if their numbers have 63 bits. What is
written gives them back, unless the tab width is zero, and settings that were read can be written. -/
theorem ofText_toText (hc : codec.Conforms) (s : Settings) :
    (s.tabWidth ≤ 2 ^ 63 - 1 → s.column ≤ 2 ^ 63 - 1 → ∃ t, s.toText codec = .ok t ∧
      (1 ≤ s.tabWidth → ofText t codec = .ok s) ∧
      (s.tabWidth = 0 → ofText t codec = .error .zeroTabWidth)) ∧
    (2 ^ 63 - 1 < s.tabWidth ∨ 2 ^ 63 - 1 < s.column →
      s.toText codec = .error .unwritableSettings) ∧
    ∀ t, ofText t codec = .ok s →
      1 ≤ s.tabWidth ∧ ∃ u, s.toText codec = .ok u ∧ ofText u codec = .ok s := by
  have hlimit : integerLimit = 2 ^ 63 := by decide
  refine ⟨fun hwidth hcolumn => ?_, fun hlarge => ?_, fun t ht => ?_⟩
  · have hfits : s.Fits := ⟨by omega, by omega⟩
    obtain ⟨t, hwrite, hread⟩ := hc.exists_toText hfits
    refine ⟨t, hwrite, fun hone => ?_, fun hzero => ?_⟩
    · rw [ofText_of_bind hread, if_neg (by omega)]
    · rw [ofText_of_bind hread, if_pos hzero]
  · exact hc.toText_of_large (by omega)
  · obtain ⟨hread, hne⟩ := bind_of_ofText ht
    obtain ⟨u, hwrite, hagain⟩ := hc.exists_toText (hc.fits hread)
    refine ⟨Nat.one_le_iff_ne_zero.2 hne, u, hwrite, ?_⟩
    rw [ofText_of_bind hagain, if_neg hne]

/-- The greatest tab width that can be written. -/
def widestSettings : Settings := { tabWidth := 2 ^ 63 - 1, column := 0, stripEndings := false }

/-- A document that is not how settings are written. -/
def foreignDocument : Text := "# tabs\r\n'tab_width'= 0x1_0 # hexadecimal".toList

theorem ofText_toText_limits :
    Codec.standard.Conforms ∧
    (∃ t, widestSettings.toText = .ok t ∧ ofText t = .ok widestSettings) ∧
    (∃ t, toText { tabWidth := 0 } = .ok t ∧ ofText t = .error .zeroTabWidth) ∧
    toText { column := 2 ^ 63 } = .error .unwritableSettings ∧
    ofText foreignDocument = .ok { tabWidth := 16 } ∧
    ∃ u, toText { tabWidth := 16 } = .ok u ∧ ofText u = .ok { tabWidth := 16 } := by
  have hc := Codec.conforms_standard
  have hforeign : ofText foreignDocument = .ok { tabWidth := 16 } := by rfl
  obtain ⟨t, hwide, hread, -⟩ := (ofText_toText hc widestSettings).1 (by decide) (by decide)
  obtain ⟨u, hzero, -, hrefused⟩ := (ofText_toText hc { tabWidth := 0 }).1 (by decide) (by decide)
  exact ⟨hc, ⟨t, hwide, hread (by decide)⟩, ⟨u, hzero, hrefused rfl⟩,
    (ofText_toText hc { column := 2 ^ 63 }).2.1 (by decide), hforeign,
    ((ofText_toText hc { tabWidth := 16 }).2.2 _ hforeign).2⟩

end Settings

end HdlScaffold
