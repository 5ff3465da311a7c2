/-
Texts as bytes.

The bytes of a text are those of its characters, one after the other, and a
text can be made of its bytes again. A byte below 128 stands for a character
by itself and is never part of another one; this is what lets a reader of
bytes find the end of a quoted text.
-/
import ShiftReduce.Json.Token

namespace ShiftReduce.Json

theorem toList_loop (bs : ByteArray) (i : Nat) (bytes : List UInt8) :
    ByteArray.toList.loop bs i bytes
      = bytes.reverse ++ bs.data.toList.drop i := by
  fun_induction ByteArray.toList.loop bs i bytes with
  | case1 i bytes hlt ih =>
      have hlength : i < bs.data.toList.length := by simpa using hlt
      have hget : bs.get! i = bs.data.toList[i] := by
        show bs.data[i]! = _
        rw [getElem!_pos bs.data i hlt, Array.getElem_toList]
      rw [ih, List.drop_eq_getElem_cons hlength, hget]
      simp
  | case2 i bytes hlt =>
      have hlength : bs.data.toList.length ≤ i := by simpa using hlt
      rw [List.drop_eq_nil_of_le hlength, List.append_nil]

theorem toList_eq (bs : ByteArray) : bs.toList = bs.data.toList := by
  unfold ByteArray.toList
  rw [toList_loop]
  simp

/-- The bytes of a text are those of its characters. -/
theorem bytesOf_eq (s : String) :
    bytesOf s = s.toList.flatMap String.utf8EncodeChar := by
  unfold bytesOf
  rw [toList_eq]
  show s.toByteArray.data.toList = _
  have hbytes : s.toByteArray = s.toList.utf8Encode := by
    rw [← String.toByteArray_ofList, String.ofList_toList]
  rw [hbytes, List.utf8Encode, List.data_toByteArray]

theorem bytesOf_append (s t : String) :
    bytesOf (s ++ t) = bytesOf s ++ bytesOf t := by
  simp [bytesOf_eq]

theorem bytesOf_ofList (cs : List Char) :
    bytesOf (String.ofList cs) = cs.flatMap String.utf8EncodeChar := by
  rw [bytesOf_eq, String.toList_ofList]

/-- A text can be made of its bytes. -/
theorem fromUTF8?_bytesOf (s : String) :
    String.fromUTF8? ⟨(bytesOf s).toArray⟩ = some s := by
  have hbytes : (⟨(bytesOf s).toArray⟩ : ByteArray) = s.toByteArray := by
    unfold bytesOf
    rw [toList_eq]
    rfl
  rw [hbytes]
  unfold String.fromUTF8?
  rw [dif_pos s.isValidUTF8]
  rfl

/-- A character with a code below 128 is a single byte. -/
theorem utf8EncodeChar_of_lt {c : Char} (h : c.toNat < 128) :
    String.utf8EncodeChar c = [c.toNat.toUInt8] := by
  unfold String.utf8EncodeChar
  exact if_pos (by show c.toNat ≤ 127; omega)

theorem bytesOf_singleton {c : Char} (h : c.toNat < 128) :
    bytesOf (String.ofList [c]) = [ascii c] := by
  rw [bytesOf_ofList, List.flatMap_singleton, utf8EncodeChar_of_lt h]
  rfl

/-- All bytes of any other character are above. -/
theorem le_of_mem_utf8EncodeChar {c : Char} (h : ¬ c.toNat < 128) {b : UInt8}
    (hb : b ∈ String.utf8EncodeChar c) : 128 ≤ b.toNat := by
  have hlarge : ¬ c.val.toNat ≤ 127 := fun hsmall =>
    h (by show c.val.toNat < 128; omega)
  unfold String.utf8EncodeChar at hb
  simp only [if_neg hlarge] at hb
  have hbyte : ∀ n, 128 ≤ n → n < 256 → 128 ≤ (UInt8.ofNat n).toNat := by
    intro n hlow hhigh
    rw [UInt8.toNat_ofNat_of_lt' hhigh]
    exact hlow
  split at hb
  · simp only [List.mem_cons, List.not_mem_nil, or_false] at hb
    rcases hb with rfl | rfl <;> apply hbyte <;> omega
  · split at hb
    · simp only [List.mem_cons, List.not_mem_nil, or_false] at hb
      rcases hb with rfl | rfl | rfl <;> apply hbyte <;> omega
    · simp only [List.mem_cons, List.not_mem_nil, or_false] at hb
      rcases hb with rfl | rfl | rfl | rfl <;> apply hbyte <;> omega

end ShiftReduce.Json
