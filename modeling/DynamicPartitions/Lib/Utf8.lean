import Mathlib

/-!
# Bytes that encode text

A byte string is text when it is the concatenation of the encodings of Unicode
characters. A byte below 128 is always a character of its own, so such bytes split
text into text on both sides.
-/
namespace DynamicPartitions.Lib.Utf8

/-- The encoding of a sequence of Unicode characters. -/
def encode (text : List Char) : List UInt8 := text.flatMap String.utf8EncodeChar

/-- The bytes encode some text. -/
def IsText (bytes : List UInt8) : Prop := ∃ text : List Char, bytes = encode text

theorem encode_cons (c : Char) (text : List Char) :
    encode (c :: text) = String.utf8EncodeChar c ++ encode text := rfl

/-- Bytes encode at most one text. -/
theorem encode_injective : Function.Injective encode := by
  intro s t h
  have hbytes : s.utf8Encode = t.utf8Encode := congrArg List.toByteArray h
  apply String.ofList_injective
  rw [← String.toByteArray_inj, String.toByteArray_ofList, String.toByteArray_ofList]
  exact hbytes

theorem encodeChar_injective : Function.Injective String.utf8EncodeChar := by
  intro c d h
  have hlists : encode [c] = encode [d] := congrArg (· ++ []) h
  exact List.singleton_injective (encode_injective hlists)

theorem isText_nil : IsText [] := ⟨[], rfl⟩

theorem isText_char (c : Char) : IsText (String.utf8EncodeChar c) :=
  ⟨[c], (List.append_nil _).symm⟩

theorem IsText.append {bytes others : List UInt8} (h : IsText bytes) (hothers : IsText others) :
    IsText (bytes ++ others) := by
  obtain ⟨text, rfl⟩ := h
  obtain ⟨text', rfl⟩ := hothers
  exact ⟨text ++ text', List.flatMap_append.symm⟩

theorem length_encodeChar_pos (c : Char) : 0 < (String.utf8EncodeChar c).length :=
  (String.length_utf8EncodeChar c).symm ▸ c.utf8Size_pos

/-- The code point of a character lies below the surrogates or above them. -/
theorem toNat_range (c : Char) : c.toNat < 0xD800 ∨ 0xDFFF < c.toNat ∧ c.toNat < 0x110000 := c.valid

/-! ## The four lengths -/

theorem encode_one {c : Char} (h : c.toNat < 0x80) :
    String.utf8EncodeChar c = [UInt8.ofNat c.toNat] := if_pos (show c.toNat ≤ 0x7F by omega)

theorem encode_two {c : Char} (h : 0x80 ≤ c.toNat) (h' : c.toNat < 0x800) :
    String.utf8EncodeChar c =
      [UInt8.ofNat (c.toNat / 64 % 32 + 0xC0), UInt8.ofNat (c.toNat % 64 + 0x80)] := by
  refine (if_neg ?_).trans (if_pos ?_)
  · show ¬ c.toNat ≤ 0x7F
    omega
  · show c.toNat ≤ 0x7FF
    omega

theorem encode_three {c : Char} (h : 0x800 ≤ c.toNat) (h' : c.toNat < 0x10000) :
    String.utf8EncodeChar c =
      [UInt8.ofNat (c.toNat / 4096 % 16 + 0xE0), UInt8.ofNat (c.toNat / 64 % 64 + 0x80),
        UInt8.ofNat (c.toNat % 64 + 0x80)] := by
  refine (if_neg ?_).trans ((if_neg ?_).trans (if_pos ?_))
  · show ¬ c.toNat ≤ 0x7F
    omega
  · show ¬ c.toNat ≤ 0x7FF
    omega
  · show c.toNat ≤ 0xFFFF
    omega

theorem encode_four {c : Char} (h : 0x10000 ≤ c.toNat) :
    String.utf8EncodeChar c =
      [UInt8.ofNat (c.toNat / 262144 % 8 + 0xF0), UInt8.ofNat (c.toNat / 4096 % 64 + 0x80),
        UInt8.ofNat (c.toNat / 64 % 64 + 0x80), UInt8.ofNat (c.toNat % 64 + 0x80)] := by
  refine (if_neg ?_).trans ((if_neg ?_).trans (if_neg ?_))
  · show ¬ c.toNat ≤ 0x7F
    omega
  · show ¬ c.toNat ≤ 0x7FF
    omega
  · show ¬ c.toNat ≤ 0xFFFF
    omega

/-- The ranges of code points, one for each length of an encoding. -/
theorem range_cases (c : Char) :
    c.toNat < 0x80 ∨ 0x80 ≤ c.toNat ∧ c.toNat < 0x800 ∨ 0x800 ≤ c.toNat ∧ c.toNat < 0x10000 ∨
      0x10000 ≤ c.toNat := by
  omega

/-- The character of a code point outside the surrogates. -/
theorem exists_char {cp : Nat} (h : cp < 0xD800 ∨ 0xDFFF < cp ∧ cp < 0x110000) :
    ∃ c : Char, c.toNat = cp :=
  ⟨Char.ofNat cp, by rw [Char.ofNat, dif_pos h]; rfl⟩

/-! ## Bytes below 128 -/

/-- A byte below 128 within an encoding is the whole encoding. -/
theorem encode_eq_of_mem {c : Char} {b : UInt8} (hb : b.toNat < 0x80)
    (hmem : b ∈ String.utf8EncodeChar c) : String.utf8EncodeChar c = [b] := by
  have hlead : ∀ n, n < 0x80 → b ≠ UInt8.ofNat (n + 0x80) := by
    rintro n hn rfl
    rw [UInt8.toNat_ofNat'] at hb
    omega
  obtain h | ⟨h, h'⟩ | ⟨h, h'⟩ | h := range_cases c
  · rw [encode_one h] at hmem ⊢
    rw [List.mem_singleton.mp hmem]
  · simp only [encode_two h h', List.mem_cons, List.not_mem_nil, or_false] at hmem
    obtain hmem | hmem := hmem
    · exact absurd hmem (hlead (c.toNat / 64 % 32 + 0x40) (by omega))
    · exact absurd hmem (hlead (c.toNat % 64) (by omega))
  · simp only [encode_three h h', List.mem_cons, List.not_mem_nil, or_false] at hmem
    obtain hmem | hmem | hmem := hmem
    · exact absurd hmem (hlead (c.toNat / 4096 % 16 + 0x60) (by omega))
    · exact absurd hmem (hlead (c.toNat / 64 % 64) (by omega))
    · exact absurd hmem (hlead (c.toNat % 64) (by omega))
  · simp only [encode_four h, List.mem_cons, List.not_mem_nil, or_false] at hmem
    obtain hmem | hmem | hmem | hmem := hmem
    · exact absurd hmem (hlead (c.toNat / 262144 % 8 + 0x70) (by omega))
    · exact absurd hmem (hlead (c.toNat / 4096 % 64) (by omega))
    · exact absurd hmem (hlead (c.toNat / 64 % 64) (by omega))
    · exact absurd hmem (hlead (c.toNat % 64) (by omega))

/-- A byte below 128 splits text into text on both sides. -/
theorem IsText.split {before after : List UInt8} {b : UInt8} (hb : b.toNat < 0x80)
    (h : IsText (before ++ b :: after)) : IsText before ∧ IsText after := by
  obtain ⟨text, htext⟩ := h
  induction text generalizing before with
  | nil => exact absurd htext (by simp [encode])
  | cons c text ih =>
    rw [encode_cons, List.append_eq_append_iff] at htext
    obtain ⟨inner, hc, hrest⟩ | ⟨inner, hbefore, hrest⟩ := htext
    · cases inner with
      | nil =>
        obtain ⟨-, hafter⟩ := @ih [] hrest
        rw [List.append_nil] at hc
        exact ⟨hc ▸ isText_char c, hafter⟩
      | cons b' inner =>
        obtain ⟨rfl, hafter⟩ := List.cons.inj hrest
        have hwhole := encode_eq_of_mem hb (hc ▸ List.mem_append_right before List.mem_cons_self)
        have hlength := congrArg List.length (hc.symm.trans hwhole)
        simp only [List.length_append, List.length_cons, List.length_nil] at hlength
        obtain rfl := List.length_eq_zero_iff.mp (show before.length = 0 by omega)
        obtain rfl := List.length_eq_zero_iff.mp (show inner.length = 0 by omega)
        exact ⟨isText_nil, text, hafter⟩
    · obtain ⟨hinner, hafter⟩ := ih hrest.symm
      exact ⟨hbefore ▸ (isText_char c).append hinner, hafter⟩

end DynamicPartitions.Lib.Utf8
