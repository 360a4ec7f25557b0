import Mathlib.Data.List.Basic
import WordSwitch.Bytes

/-!
# The bytes of a text

The bytes of a text are those of its characters one after another, so they can
be computed without an array.
-/

namespace WordSwitch
namespace Bytes

theorem toList_toByteArray (bytes : Bytes) :
    bytes.toByteArray.toList = bytes := by
  have loop : ∀ (array : ByteArray) (index : Nat) (read : Bytes),
      ByteArray.toList.loop array index read =
        read.reverse ++ array.data.toList.drop index := by
    intro array index read
    fun_induction ByteArray.toList.loop array index read with
    | case1 index read inside hypothesis =>
      have index_lt : index < array.data.toList.length := inside
      have item : array.get! index = array.data.toList[index] := by
        exact getElem!_pos array.data index inside
      rw [hypothesis, List.reverse_cons, List.append_assoc,
        List.singleton_append, item, ← List.drop_eq_getElem_cons index_lt]
    | case2 index read outside =>
      have length_le : array.data.toList.length ≤ index := Nat.le_of_not_lt outside
      rw [List.drop_eq_nil_of_le length_le, List.append_nil]
  rw [ByteArray.toList, loop]
  simp

theorem ofString_eq (text : String) :
    ofString text = text.toList.flatMap String.utf8EncodeChar := by
  have bytes_eq : text.toUTF8 = (String.ofList text.toList).toByteArray := by
    rw [String.ofList_toList]
    rfl
  rw [ofString, bytes_eq, String.toByteArray_ofList, List.utf8Encode,
    toList_toByteArray]

/-- A text of ASCII characters has their codes as bytes. -/
theorem ofString_ofList
    {chars : List Char}
    (ascii : ∀ char ∈ chars, char.toNat < 128) :
    ofString (String.ofList chars) =
      chars.map fun char => UInt8.ofNat char.toNat := by
  have encoded : chars.flatMap String.utf8EncodeChar =
      chars.flatMap fun char => [UInt8.ofNat char.toNat] := by
    refine List.flatMap_congr fun char member => ?_
    have small : char.utf8Size = 1 :=
      Char.utf8Size_eq_one_iff.mpr (Nat.le_of_lt_succ (ascii char member))
    rw [String.utf8EncodeChar_eq_singleton small]
    rfl
  rw [ofString_eq, String.toList_ofList, encoded, List.map_eq_flatMap]

end Bytes
end WordSwitch
