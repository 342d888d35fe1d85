import IeumChain.Library.ByteCodec

/-!
# Reading texts from bytes

Bytes that are no UTF-8 are no text. Texts can be split off at either end: what is left of
the bytes is a text exactly if the whole is.
-/
namespace ByteCodec

/-- The text with these bytes, if there is one. -/
def decodeUtf8 (bytes : Bytes) : Option String := String.fromUTF8? ⟨bytes.toArray⟩

theorem decodeUtf8_eq_some {bytes : Bytes} {s : String} :
    decodeUtf8 bytes = some s ↔ utf8 s = bytes := by
  simp only [decodeUtf8, String.fromUTF8?, utf8]
  split_ifs with h
  · simp only [Option.some.injEq]
    constructor
    · rintro rfl
      rfl
    · rintro rfl
      rfl
  · simp only [false_iff]
    rintro rfl
    exact h s.isValidUTF8

@[simp] theorem decodeUtf8_utf8 (s : String) : decodeUtf8 (utf8 s) = some s :=
  decodeUtf8_eq_some.2 rfl

/-- A text falls apart where its bytes do, at a boundary of characters. -/
theorem exists_append_of_utf8 {t : String} {a b : Bytes} (h : utf8 t = a ++ b)
    (hvalid : String.Pos.Raw.IsValid t ⟨a.length⟩) :
    ∃ x y, t = x ++ y ∧ utf8 x = a ∧ utf8 y = b := by
  obtain ⟨x, y, rfl, hlength⟩ := String.Pos.Raw.isValid_iff_exists_append.1 hvalid
  have hsize : (utf8 x).length = a.length := by
    rw [utf8_length]
    exact (congrArg String.Pos.Raw.byteIdx hlength).symm
  rw [utf8_append] at h
  exact ⟨x, y, rfl, List.append_inj h hsize⟩

theorem exists_append_of_utf8_left {t s : String} {b : Bytes} (h : utf8 t = utf8 s ++ b) :
    ∃ y, t = s ++ y ∧ utf8 y = b := by
  have hvalid : String.Pos.Raw.IsValid t ⟨(utf8 s).length⟩ := by
    rw [String.Pos.Raw.isValid_iff_isValidUTF8_extract_zero]
    have hbytes : t.toByteArray = s.toByteArray ++ ⟨b.toArray⟩ := by
      apply ByteArray.ext
      apply Array.toList_inj.1
      simpa [utf8] using h
    constructor
    · have hlength := congrArg List.length h
      rw [List.length_append, utf8_length] at hlength
      simp only [String.Pos.Raw.le_iff, String.byteIdx_rawEndPos]
      omega
    · rw [hbytes, utf8_length, ByteArray.extract_append_eq_left]
      exact s.isValidUTF8
      exact (String.size_toByteArray ..).symm
  obtain ⟨x, y, rfl, hx, hy⟩ := exists_append_of_utf8 h hvalid
  exact ⟨y, by rw [utf8_inj hx], hy⟩

theorem exists_append_of_utf8_right {t s : String} {a : Bytes} (hs : s ≠ "")
    (h : utf8 t = a ++ utf8 s) : ∃ x, t = x ++ s ∧ utf8 x = a := by
  have hpositive : 0 < s.toByteArray.size := by
    rw [Nat.pos_iff_ne_zero, ne_eq, ByteArray.size_eq_zero_iff, String.toByteArray_eq_empty_iff]
    exact hs
  have hbytes : t.toByteArray = ⟨a.toArray⟩ ++ s.toByteArray := by
    apply ByteArray.ext
    apply Array.toList_inj.1
    simpa [utf8] using h
  have hsize : t.toByteArray.size = a.length + s.toByteArray.size := by
    rw [hbytes, ByteArray.size_append]
    rfl
  -- The first byte of a text is the first byte of a character, wherever the text stands.
  have hvalid : String.Pos.Raw.IsValid t ⟨a.length⟩ := by
    have hinside : a.length < t.toByteArray.size := by omega
    refine String.Pos.Raw.isValid_iff_isUTF8FirstByte.2 (.inr ⟨?_, ?_⟩)
    · rw [String.Pos.Raw.lt_iff, String.byteIdx_rawEndPos, ← String.size_toByteArray]
      exact hinside
    · have hfirst := s.isValidUTF8.isUTF8FirstByte_getElem_zero hpositive
      simp only [String.getUTF8Byte, hbytes]
      rw [ByteArray.getElem_append_right (by exact le_refl a.length)]
      have hzero : a.length - (⟨a.toArray⟩ : ByteArray).size = 0 := Nat.sub_self _
      simp only [hzero]
      exact hfirst
  obtain ⟨x, y, rfl, hx, hy⟩ := exists_append_of_utf8 h hvalid
  exact ⟨x, by rw [utf8_inj hy], hx⟩

/-- Bytes after a text are read on their own. -/
theorem decodeUtf8_utf8_append (s : String) (bytes : Bytes) :
    decodeUtf8 (utf8 s ++ bytes) = (decodeUtf8 bytes).map (s ++ ·) := by
  ext t
  simp only [decodeUtf8_eq_some, Option.map_eq_some_iff]
  constructor
  · exact fun h => (exists_append_of_utf8_left h).imp fun _ => fun ⟨ht, hy⟩ => ⟨hy, ht.symm⟩
  · rintro ⟨y, rfl, rfl⟩
    exact utf8_append s y

/-- So are the bytes before a text. -/
theorem decodeUtf8_append_utf8 (bytes : Bytes) (s : String) :
    decodeUtf8 (bytes ++ utf8 s) = (decodeUtf8 bytes).map (· ++ s) := by
  by_cases hs : s = ""
  · subst hs
    simp [utf8]
  · ext t
    simp only [decodeUtf8_eq_some, Option.map_eq_some_iff]
    constructor
    · intro h
      obtain ⟨x, ht, hx⟩ := exists_append_of_utf8_right hs h
      exact ⟨x, hx, ht.symm⟩
    · rintro ⟨x, rfl, rfl⟩
      exact utf8_append x s

/-- A byte below 128 stands for itself. -/
theorem toNat_of_mem_utf8EncodeChar {c : Char} {b : UInt8} (hb : b.toNat < 128)
    (h : b ∈ String.utf8EncodeChar c) : c.toNat = b.toNat := by
  have htoNat : c.toNat = c.val.toNat := rfl
  have hmod : ∀ n, (UInt8.ofNat n).toNat = n % 256 := fun n => UInt8.toNat_ofNat' ..
  simp only [String.utf8EncodeChar] at h
  split_ifs at h with h₁ h₂ h₃
  all_goals
    simp only [List.mem_cons, List.not_mem_nil, or_false] at h
    rcases h with rfl | rfl | rfl | rfl
  all_goals
    rw [hmod] at hb ⊢
    omega

theorem exists_char_of_mem_utf8 {s : String} {b : UInt8} (hb : b.toNat < 128) (h : b ∈ utf8 s) :
    ∃ c ∈ s.toList, c.toNat = b.toNat := by
  obtain ⟨chars, rfl⟩ := s.exists_eq_ofList
  rw [utf8_ofList, List.mem_flatMap] at h
  obtain ⟨c, hc, hbyte⟩ := h
  rw [String.toList_ofList]
  exact ⟨c, hc, toNat_of_mem_utf8EncodeChar hb hbyte⟩

end ByteCodec
