import QueryEngine.Text.Bytes

/-!
# The order of texts

The bytes of a text determine it, so that texts are equal exactly if neither comes before the other.
-/

namespace QueryEngine.Text

theorem bytes_injective {a b : String} (h : bytes a = bytes b) : a = b := by
  have hencoded : a.toList.utf8Encode = b.toList.utf8Encode := congrArg List.toByteArray h
  rw [← String.toByteArray_ofList, ← String.toByteArray_ofList, String.ofList_toList,
    String.ofList_toList] at hencoded
  exact String.toByteArray_inj.mp hencoded

theorem compareBytes_eq_eq_iff {a b : String} : compareBytes a b = .eq ↔ a = b := by
  rw [compareBytes, Std.compare_eq_iff_eq]
  exact ⟨bytes_injective, congrArg bytes⟩

theorem swap_compareBytes (a b : String) : (compareBytes a b).swap = compareBytes b a := by
  rw [compareBytes, compareBytes, ← Std.OrientedOrd.eq_swap]

end QueryEngine.Text
