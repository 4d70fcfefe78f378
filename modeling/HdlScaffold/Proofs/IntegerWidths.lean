import HdlScaffold.Port
import Mathlib.Data.List.Induction
import Mathlib.Data.Nat.Digits.Defs
import Mathlib.Tactic.SplitIfs

/-!
# Integer widths

A width may be given as a numeral with a sign and leading zeros. Numerals are read twice, as a signed
word to refuse those that are not positive and as an unsigned word for the number of bits. Inside the
two ranges the readings agree with what a numeral denotes (`Text.Denotes`): a port is refused its width
or has as many bits as the numeral says. A numeral beyond the ranges is taken for the name of a
parameter, a negative one too (`Port.ofDescription_numeral`).
-/

namespace HdlScaffold

namespace Text

variable {ds t : Text} {v : Int}

/-- The number that decimal digits denote, the ones last. -/
def decimal (ds : Text) : Nat := Nat.ofDigits 10 (ds.reverse.map fun c => c.toNat - '0'.toNat)

def IsDigits (ds : Text) : Prop := ds ≠ [] ∧ ∀ c ∈ ds, c.isDigit = true

/-- The integer that decimal digits denote, with or without a sign in front. -/
inductive Denotes : Text → Int → Prop
  | unsigned {ds : Text} (h : ds.IsDigits) : Denotes ds ds.decimal
  | plus {ds : Text} (h : ds.IsDigits) : Denotes ('+' :: ds) ds.decimal
  | minus {ds : Text} (h : ds.IsDigits) : Denotes ('-' :: ds) (-ds.decimal)

/-- The digits denote the number, and no zero stands in front of other digits. -/
structure PlainDecimal (ds : Text) (n : Nat) : Prop where
  digits : ds.IsDigits
  value : ds.decimal = n
  no_zero : ∀ r, ds = '0' :: r → r = []

/-- Reading digit by digit from the front gives each digit its place value. -/
theorem ofDigitChars_eq_decimal (ds : Text) : Nat.ofDigitChars 10 ds 0 = ds.decimal := by
  induction ds using List.reverseRecOn with
  | nil => rfl
  | append_singleton ds c ih =>
    rw [Nat.ofDigitChars_append, ih, Nat.ofDigitChars_cons, Nat.ofDigitChars_nil, decimal, decimal,
      List.reverse_append, List.reverse_singleton, List.singleton_append, List.map_cons,
      Nat.ofDigits_cons]
    omega

theorem decimal_lt (h : ∀ c ∈ ds, c.isDigit = true) : ds.decimal < 10 ^ ds.length := by
  have hlt := Nat.ofDigits_lt_base_pow_length (b := 10)
    (l := ds.reverse.map fun c => c.toNat - '0'.toNat) (by omega) fun x hx => by
      obtain ⟨c, hc, rfl⟩ := List.mem_map.1 hx
      have hdigit := (Char.isDigit_iff_toNat.1 (h c (List.mem_reverse.1 hc))).2
      have hnine : '9'.toNat - '0'.toNat < 10 := by decide
      omega
  rwa [List.length_map, List.length_reverse] at hlt

theorem plainDecimal_ofNat (n : Nat) : (ofNat n).PlainDecimal n := by
  have hdigits : ∀ c ∈ ofNat n, c.isDigit = true := fun c hc =>
    Nat.isDigit_of_mem_toDigits (by omega) (by omega) hc
  have hvalue : (ofNat n).decimal = n := by
    rw [← ofDigitChars_eq_decimal, ofNat, Nat.ofDigitChars_toDigits (by omega) (by omega)]
  refine ⟨⟨Nat.toDigits_ne_nil, hdigits⟩, hvalue, fun r hr => ?_⟩
  by_contra hne
  -- the digits behind a zero would denote the same number, and shorter
  rw [hr] at hdigits hvalue
  have hsame : decimal r = n := by
    rw [← hvalue, decimal, decimal, List.reverse_cons, List.map_append]
    exact (Nat.ofDigits_append_zero _).symm
  have hlt : n < 10 ^ r.length := hsame ▸ decimal_lt fun c hc => hdigits c (List.mem_cons_of_mem _ hc)
  have hlength := (Nat.length_toDigits_le_iff (b := 10) (by omega) (List.length_pos_iff.2 hne)).2 hlt
  rw [← ofNat, hr, List.length_cons] at hlength
  omega

namespace IsDigits

theorem digits?_eq (h : ds.IsDigits) : digits? ds = some ds.decimal := by
  rw [digits?, if_pos ⟨h.1, List.all_eq_true.2 h.2⟩, ofDigitChars_eq_decimal]

theorem ne_cons (h : ds.IsDigits) {c : Char} (hc : c.isDigit = false) (r : Text) : ds ≠ c :: r := by
  rintro rfl
  rw [h.2 c (by simp)] at hc
  cases hc

end IsDigits

namespace Denotes

theorem integer?_eq (h : t.Denotes v) : t.integer? = some v := by
  cases h with
  | unsigned hds =>
    rw [integer?.eq_3 t (hds.ne_cons (by decide)) (hds.ne_cons (by decide)), hds.digits?_eq]
    rfl
  | plus hds => rw [integer?, hds.digits?_eq]; rfl
  | minus hds => rw [integer?, hds.digits?_eq]; rfl

/-- The number that is read without a sign, if it is not zero, is the one denoted. -/
theorem natural?_eq_some_iff (h : t.Denotes v) {limit n : Nat} :
    t.natural? limit = some (n + 1) ↔ v = (n + 1 : Nat) ∧ n + 1 < limit := by
  have hread : ∀ {ds : Text}, ds.IsDigits →
      ((digits? ds).filter (· < limit) = some (n + 1)
        ↔ (ds.decimal : Int) = (n + 1 : Nat) ∧ n + 1 < limit) := by
    intro ds hds
    rw [hds.digits?_eq, Option.filter_eq_some_iff, Option.some.injEq, decide_eq_true_eq,
      Int.ofNat_inj]
  cases h with
  | unsigned hds =>
    unfold natural?
    split
    · exact absurd rfl (hds.ne_cons (by decide) _)
    · exact hread hds
  | plus hds => exact hread hds
  | @minus ds hds =>
    have hsign : digits? ('-' :: ds) = none := if_neg (by simp)
    show (digits? ('-' :: ds)).filter (· < limit) = _ ↔ _
    rw [hsign, Option.filter_none]
    constructor
    · intro hnone
      cases hnone
    · omega

theorem ne_nil (h : t.Denotes v) : t ≠ [] := by
  cases h with
  | unsigned hds => exact hds.1
  | plus _ => simp
  | minus _ => simp

theorem head?_ne (h : t.Denotes v) : t.head? ≠ some '[' := by
  intro hhead
  obtain ⟨r, hr⟩ := List.head?_eq_some_iff.1 hhead
  cases h with
  | unsigned hds => exact hds.ne_cons (by decide) r hr
  | plus _ => simp at hr
  | minus _ => simp at hr

end Denotes

end Text

namespace Width

variable {t : Text} {v : Int}

theorem isNonPositive_iff (h : t.Denotes v) : isNonPositive t = true ↔ -2 ^ 127 ≤ v ∧ v ≤ 0 := by
  have hlimit : (signedLimit : Int) = 2 ^ 127 := by decide
  rw [isNonPositive, Text.signed?, h.integer?_eq, Option.filter_some]
  simp only [Bool.and_eq_true, decide_eq_true_eq, hlimit]
  split_ifs with hrange
  · rw [Option.any_some, decide_eq_true_eq]
    exact ⟨fun hv => ⟨hrange.1, hv⟩, And.right⟩
  · rw [Option.any_none]
    exact ⟨nofun, fun hv => by omega⟩

theorem ofToken_of_bits (h : t.Denotes v) (htrim : t.trim = t) (hone : 1 ≤ v) (hlt : v < 2 ^ 64) :
    ofToken t = bits v.toNat := by
  have hlimit : bitsLimit = 2 ^ 64 := by decide
  obtain ⟨n, rfl⟩ : ∃ n : Nat, v = (n + 1 : Nat) := ⟨(v - 1).toNat, by omega⟩
  have hread : t.natural? bitsLimit = some (n + 1) := h.natural?_eq_some_iff.2 ⟨rfl, by omega⟩
  simp only [ofToken, htrim, hread, Int.toNat_natCast]

theorem ofToken_of_beyond (h : t.Denotes v) (htrim : t.trim = t) (hv : v < 1 ∨ 2 ^ 64 ≤ v) :
    ofToken t = parameter t := by
  have hlimit : bitsLimit = 2 ^ 64 := by decide
  simp only [ofToken, htrim]
  split
  · rename_i n hread
    obtain ⟨rfl, hlt⟩ := h.natural?_eq_some_iff.1 hread
    omega
  · rw [if_neg h.head?_ne]

end Width

namespace Port

theorem create_of_solid_trim (direction : Direction) {name : Text} (width : Option Width)
    (h : name.trim.Solid) : create direction name width = .ok ⟨direction, name.trim, width, h⟩ := by
  rw [← create_of_solid direction width h]
  unfold create
  simp only [Text.trim_trim]

theorem ofDescription_of_token (direction : Direction) {name token : Text} (hname : name.trim.Solid)
    (hhash : '#' ∉ name) (htoken : token.trim ≠ []) :
    ofDescription direction (name ++ '#' :: token) =
      if Width.isNonPositive token.trim then
        .error (.invalidSpec (name ++ '#' :: token) .widthNotPositive)
      else .ok ⟨direction, name.trim, some (Width.ofToken token.trim), hname⟩ := by
  simp only [ofDescription, Text.cutAt?_append token hhash, create_of_solid_trim direction _ hname,
    if_neg hname.1, if_neg htoken]

/-- A width that is a numeral is refused if it is not positive, and is a number of bits if it is
positive and fits a word. A numeral that fits neither word is taken for a parameter. -/
theorem ofDescription_numeral (direction : Direction) {name token : Text} {v : Int}
    (hname : name.trim.Solid) (hhash : '#' ∉ name) (hv : token.trim.Denotes v) :
    (-2 ^ 127 ≤ v → v ≤ 0 → ofDescription direction (name ++ '#' :: token)
      = .error (.invalidSpec (name ++ '#' :: token) .widthNotPositive)) ∧
    (1 ≤ v → v ≤ 2 ^ 64 - 1 → ofDescription direction (name ++ '#' :: token)
        = .ok ⟨direction, name.trim, some (.bits v.toNat), hname⟩ ∧
      ∃ ds : Text, ds.PlainDecimal (v - 1).toNat ∧
        (Width.bits v.toNat).text = '[' :: (ds ++ ":0]".toList)) ∧
    (v < -2 ^ 127 ∨ 2 ^ 64 ≤ v → ofDescription direction (name ++ '#' :: token)
      = .ok ⟨direction, name.trim, some (.parameter token.trim), hname⟩) := by
  have htrim : token.trim.trim = token.trim := Text.trim_trim token
  rw [ofDescription_of_token direction hname hhash hv.ne_nil]
  refine ⟨fun hlow hhigh => ?_, fun hone hword => ⟨?_, ?_⟩, fun hbeyond => ?_⟩
  · rw [if_pos ((Width.isNonPositive_iff hv).2 ⟨hlow, hhigh⟩)]
  · rw [if_neg fun h => by have := (Width.isNonPositive_iff hv).1 h; omega,
      Width.ofToken_of_bits hv htrim hone (by omega)]
  · refine ⟨_, Text.plainDecimal_ofNat _, ?_⟩
    have hcount : (v - 1).toNat = v.toNat - 1 := by omega
    rw [hcount]
    rfl
  · rw [if_neg fun h => by have := (Width.isNonPositive_iff hv).1 h; omega,
      Width.ofToken_of_beyond hv htrim (by omega)]

/-- The digits of the greatest magnitude of a signed word. -/
def signedDigits : Text := "170141183460469231731687303715884105728".toList

/-- The digits of the greatest unsigned word, with a zero in front. -/
def wordDigits : Text := "018446744073709551615".toList

theorem ofDescription_numeral_limits :
    ofDescription .input ("a#-".toList ++ signedDigits)
      = .error (.invalidSpec ("a#-".toList ++ signedDigits) .widthNotPositive) ∧
    (ofDescription .output (" q# +".toList ++ wordDigits)).map outline
      = .ok (.output, ['q'], some "[18446744073709551614:0]".toList) := by
  have hleast : Text.Denotes (Text.trim ('-' :: signedDigits)) (-signedDigits.decimal) := by
    rw [Text.trim_of_no_blank (by decide +kernel)]
    exact .minus ⟨by decide, by decide +kernel⟩
  have hgreatest : Text.Denotes (Text.trim (" +".toList ++ wordDigits)) wordDigits.decimal := by
    have htrim : Text.trim (" +".toList ++ wordDigits) = '+' :: wordDigits := by decide +kernel
    rw [htrim]
    exact .plus ⟨by decide, by decide +kernel⟩
  have hrefused := ofDescription_numeral .input (by decide : Text.Solid (Text.trim ['a'])) (by decide)
    hleast
  have hbits := ofDescription_numeral .output (by decide : Text.Solid (Text.trim " q".toList))
    (by decide) hgreatest
  refine ⟨hrefused.1 (by decide +kernel) (by decide +kernel), ?_⟩
  have hdescription : " q# +".toList ++ wordDigits
      = " q".toList ++ '#' :: (" +".toList ++ wordDigits) := rfl
  rw [hdescription, (hbits.2.1 (by decide +kernel) (by decide +kernel)).1]
  decide +kernel

def beyondDigits : Text := "170141183460469231731687303715884105729".toList

/-- The next number below is no signed word any more, and a port gets it as its width. -/
theorem ofDescription_belowSigned :
    Text.Denotes (Text.trim ('-' :: beyondDigits)) (-170141183460469231731687303715884105729) ∧
    (ofDescription .input ("a#-".toList ++ beyondDigits)).map outline
      = .ok (.input, ['a'], some ("[-".toList ++ beyondDigits ++ "-1:0]".toList)) := by
  have hvalue : (170141183460469231731687303715884105729 : Int) = beyondDigits.decimal := by
    decide +kernel
  refine ⟨?_, by decide +kernel⟩
  rw [Text.trim_of_no_blank (by decide +kernel), hvalue]
  exact .minus ⟨by decide, by decide +kernel⟩

end Port

end HdlScaffold
