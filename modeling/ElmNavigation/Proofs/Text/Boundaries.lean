import ElmNavigation.Text.Utf8
import Mathlib.Data.String.Basic

/-! Bytes and characters of a source. The program counts bytes, and a place in a text is the characters
before it; so an offset stands between two characters exactly when it is the number of bytes of some first
part of the text. What stands between two such offsets are the characters between the two places. -/

namespace ElmNavigation.Text

theorem utf8Len_eq_byteLength (text : List Char) : String.utf8Len text = byteLength text := by
  induction text with
  | nil => rfl
  | cons c text ih => rw [String.utf8Len_cons, ih, byteLength_cons, Nat.add_comm]

theorem utf8ByteSize_ofList (text : List Char) : (String.ofList text).utf8ByteSize = byteLength text := by
  have hbytes : (String.ofList text).toByteArray = (octets text).toByteArray := String.toByteArray_ofList
  rw [← String.size_toByteArray, hbytes, List.size_toByteArray, length_octets]

theorem utf8ByteSize_eq (source : String) : source.utf8ByteSize = byteLength source.toList := by
  rw [← utf8ByteSize_ofList, String.ofList_toList]

/-- The bytes before a place end between two characters. -/
theorem isValid_byteLength {source : String} {before after : List Char}
    (h : source.toList = before ++ after) : String.Pos.Raw.IsValid source ⟨byteLength before⟩ := by
  apply String.Pos.Raw.isValid_iff_exists_append.mpr
  refine ⟨String.ofList before, String.ofList after, ?_, ?_⟩
  · rw [← String.ofList_append, ← h, String.ofList_toList]
  · rw [← utf8ByteSize_ofList]
    rfl

/-- An offset between two characters is the number of bytes before a place. -/
theorem exists_split_of_isValid {source : String} {offset : Nat}
    (h : String.Pos.Raw.IsValid source ⟨offset⟩) :
    ∃ before after, source.toList = before ++ after ∧ offset = byteLength before := by
  obtain ⟨first, second, rfl, hfirst⟩ := String.Pos.Raw.isValid_iff_exists_append.mp h
  refine ⟨first.toList, second.toList, String.toList_append, ?_⟩
  rw [← utf8ByteSize_eq]
  exact congrArg String.Pos.Raw.byteIdx hfirst

/-- The bytes between two places are those of the characters between them. -/
theorem extract_byteLength {source : String} {before between after : List Char}
    (h : source.toList = before ++ (between ++ after)) :
    String.Pos.Raw.extract source ⟨byteLength before⟩ ⟨byteLength before + byteLength between⟩ =
      String.ofList between := by
  have hextract := String.extract_of_valid before between after
  rwa [utf8Len_eq_byteLength, utf8Len_eq_byteLength, List.append_assoc, ← h, String.ofList_toList] at hextract

end ElmNavigation.Text
