import Subraum.Lib.RustStr

/-!
# `str::from_utf8`

Bytes are the encoding of at most one string.
-/

namespace RustStr

/-- `str::from_utf8`. -/
def fromUtf8 (bytes : List UInt8) : Option String := String.fromUTF8? bytes.toByteArray

theorem toByteArray_toList (b : ByteArray) : b.toList.toByteArray = b := by
  apply ByteArray.ext
  apply Array.toList_inj.mp
  rw [List.toList_data_toByteArray, toList_eq]

theorem toList_toByteArray (bytes : List UInt8) : bytes.toByteArray.toList = bytes := by
  rw [toList_eq, List.toList_data_toByteArray]

theorem fromUtf8_toUTF8 (s : String) : fromUtf8 s.toUTF8.toList = some s := by
  have hvalid : s.toByteArray.IsValidUTF8 := s.isValidUTF8
  have hbytes : s.toUTF8.toList.toByteArray = s.toByteArray := toByteArray_toList s.toByteArray
  rw [fromUtf8, hbytes, String.fromUTF8?, dif_pos hvalid]
  rfl

/-- Only the encoding of a string is read as that string. -/
theorem fromUtf8_eq_some_iff {bytes : List UInt8} {s : String} :
    fromUtf8 bytes = some s ↔ bytes = s.toUTF8.toList := by
  refine ⟨fun h => ?_, fun h => h ▸ fromUtf8_toUTF8 s⟩
  rw [fromUtf8, String.fromUTF8?] at h
  split at h
  · obtain rfl := Option.some.inj h
    exact (toList_toByteArray bytes).symm
  · exact absurd h.symm (Option.some_ne_none s)

end RustStr
