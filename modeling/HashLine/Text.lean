import HashLine.Byte

/-! Text and its UTF-8 form. Decoding is strict: no surrogates, no overlong forms and nothing past
U+10FFFF. Each undoes the other. -/

namespace HashLine

def utf8 (text : String) : Bytes :=
  text.toUTF8.data.toList

def decode? (bytes : Bytes) : Option String :=
  String.fromUTF8? bytes.toByteArray

theorem utf8_eq_flatMap (text : String) : utf8 text = text.toList.flatMap String.utf8EncodeChar := by
  have h : text.toByteArray = text.toList.utf8Encode := by
    rw [← String.toByteArray_ofList, String.ofList_toList]
  simp [utf8, String.toUTF8, h, List.utf8Encode, List.data_toByteArray]

theorem decode?_utf8 (text : String) : decode? (utf8 text) = some text := by
  have h : (utf8 text).toByteArray = text.toByteArray := by
    apply ByteArray.ext
    simp [utf8, String.toUTF8, List.data_toByteArray]
  rw [decode?, h, String.fromUTF8?, dif_pos text.isValidUTF8]
  rfl

theorem utf8_of_decode? {bytes : Bytes} {text : String} (h : decode? bytes = some text) :
    utf8 text = bytes := by
  simp only [decode?, String.fromUTF8?] at h
  split at h
  · simp only [Option.some.injEq] at h
    subst h
    simp [utf8, String.fromUTF8, String.toUTF8, List.data_toByteArray]
  · simp at h

end HashLine
