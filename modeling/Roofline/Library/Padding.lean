import Mathlib.Data.List.Basic

/-! Texts that are extended in place: what is written goes over the last byte of a file, which
loses nothing as long as the text ends in a byte of padding. -/
namespace Roofline.Library

def encode (text : String) : List UInt8 := text.toList.flatMap String.utf8EncodeChar

/-- What a file holds after a write at one byte before its end. -/
def overwriteLast (bytes more : List UInt8) : List UInt8 := bytes.dropLast ++ more

private theorem encode_append (s t : String) : encode (s ++ t) = encode s ++ encode t := by
  rw [encode, String.toList_append, List.flatMap_append]
  rfl

/-- A text whose last character is a byte that nobody misses. -/
structure Padded where
  kept : String
  pad : Char
  oneByte : pad.utf8Size = 1

namespace Padded

def text (t : Padded) : String := t.kept ++ String.singleton t.pad

/-- A write over the padding that leaves new padding behind. -/
def extend (t : Padded) (more : String) (pad : Char) (h : pad.utf8Size = 1) : Padded := ⟨t.kept ++ more, pad, h⟩

theorem text_ne_empty (t : Padded) : t.text ≠ "" := by
  intro h
  have hlist : t.text.toList = [] := by rw [h]; rfl
  simp [text] at hlist

/-- Without its last character the text is the one that is kept. -/
theorem ofList_dropLast (t : Padded) : String.ofList t.text.toList.dropLast = t.kept := by
  rw [text, String.toList_append, String.toList_singleton, List.dropLast_concat, String.ofList_toList]

/-- In bytes, too, a write over the last one replaces the padding and nothing else. -/
theorem encode_overwrite (t : Padded) (more : String) :
    overwriteLast (encode t.text) (encode more) = encode (t.kept ++ more) := by
  obtain ⟨byte, hbyte⟩ : ∃ byte, String.utf8EncodeChar t.pad = [byte] := by
    apply List.length_eq_one_iff.mp
    rw [String.length_utf8EncodeChar, t.oneByte]
  have hpad : encode (String.singleton t.pad) = [byte] := by
    rw [encode, String.toList_singleton, List.flatMap_singleton, hbyte]
  rw [text, encode_append, encode_append, hpad, overwriteLast, List.dropLast_concat]

end Padded
end Roofline.Library
