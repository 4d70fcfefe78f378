import HdlScaffold.Text.Basic

/-!
# Texts as bytes

The UTF-8 form of a text, and back. Reading accepts exactly what writing produces: overlong forms,
surrogates and cut sequences are refused.
-/

namespace HdlScaffold

/-- A run of bytes. -/
abbrev Bytes := List UInt8

namespace Text

/-- The UTF-8 bytes of a text. -/
def encode (t : Text) : Bytes := t.flatMap String.utf8EncodeChar

/-- The text whose UTF-8 bytes these are, if there is one. -/
def decode? (b : Bytes) : Option Text := b.toByteArray.utf8Decode?.map Array.toList

/-- The number of bytes of a text. -/
def byteLength : Text → Nat
  | [] => 0
  | c :: t => c.utf8Size + byteLength t

@[simp] theorem encode_nil : encode [] = [] := rfl

@[simp] theorem encode_append (s t : Text) : encode (s ++ t) = encode s ++ encode t :=
  List.flatMap_append

theorem length_encode (t : Text) : t.encode.length = t.byteLength := by
  induction t with
  | nil => rfl
  | cons c t ih =>
    rw [byteLength, ← ih, encode, List.flatMap_cons, List.length_append,
      String.length_utf8EncodeChar, encode]

@[simp] theorem decode?_encode (t : Text) : decode? t.encode = some t := by
  have h : t.encode.toByteArray.utf8Decode? = some t.toArray := List.utf8Decode?_utf8Encode
  simp [decode?, h]

theorem encode_of_decode? {b : Bytes} {t : Text} (h : decode? b = some t) : t.encode = b := by
  obtain ⟨a, ha, rfl⟩ := Option.map_eq_some_iff.1 h
  have := ByteArray.utf8Encode_get_utf8Decode? (b := b.toByteArray) (h := by simp [ha])
  simp only [ha, Option.get_some] at this
  exact List.toByteArray_inj.1 this

end Text

end HdlScaffold
