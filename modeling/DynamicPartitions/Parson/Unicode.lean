import DynamicPartitions.Lib.Utf8
import DynamicPartitions.Parson.Value

/-!
# The UTF-8 check of `lib/parson.c`

`json_value_init_string` refuses a C string that `is_valid_utf8` does not accept. The
check works on unsigned bytes and on 32-bit code points, as the source does, and it
accepts exactly the encodings of Unicode text.
-/
namespace DynamicPartitions.Parson.Unicode

open DynamicPartitions.Lib.Utf8
open DynamicPartitions.Parson.Value

/-- The bytes of a C string, read as unsigned. -/
def codes (string : CString) : List UInt8 := string.map Char.toUInt8

theorem codes_append (s t : CString) : codes (s ++ t) = codes s ++ codes t := List.map_append

/-- `IS_CONT`. -/
def isCont (b : UInt8) : Bool := b &&& 0xC0 == 0x80

def numBytesInUtf8Sequence (c : UInt8) : Nat :=
  if c = 0xC0 ∨ c = 0xC1 ∨ c > 0xF4 ∨ isCont c then 0
  else if c &&& 0x80 = 0 then 1
  else if c &&& 0xE0 = 0xC0 then 2
  else if c &&& 0xF0 = 0xE0 then 3
  else if c &&& 0xF8 = 0xF0 then 4
  else 0

/-- The byte at an index; behind the last one stands the terminating zero. -/
def byteAt (string : List UInt8) (index : Nat) : UInt8 := string.getD index 0

/-- One more continuation byte: `cp = (cp << 6) | (byte & 0x3F)`. -/
def shiftIn (cp : UInt32) (byte : UInt8) : UInt32 := cp <<< 6 ||| (byte.toUInt32 &&& 0x3F)

/-- The code point `verify_utf8_sequence` puts together. -/
def assemble (string : List UInt8) (len : Nat) : Option UInt32 :=
  let first := (byteAt string 0).toUInt32
  if len = 1 then some first
  else if len = 2 ∧ isCont (byteAt string 1) then some (shiftIn (first &&& 0x1F) (byteAt string 1))
  else if len = 3 ∧ isCont (byteAt string 1) ∧ isCont (byteAt string 2) then
    some (shiftIn (shiftIn (first &&& 0xF) (byteAt string 1)) (byteAt string 2))
  else if len = 4 ∧ isCont (byteAt string 1) ∧ isCont (byteAt string 2) ∧ isCont (byteAt string 3) then
    some (shiftIn (shiftIn (shiftIn (first &&& 0x7) (byteAt string 1)) (byteAt string 2))
      (byteAt string 3))
  else none

/-- `verify_utf8_sequence`: the length of the sequence, if it is one. -/
def verifyUtf8Sequence (string : List UInt8) : Option Nat :=
  let len := numBytesInUtf8Sequence (byteAt string 0)
  match assemble string len with
  | none => none
  | some cp =>
    -- overlong encodings
    if cp < 0x80 ∧ len > 1 ∨ cp < 0x800 ∧ len > 2 ∨ cp < 0x10000 ∧ len > 3 then none
    -- invalid unicode
    else if cp > 0x10FFFF then none
    -- surrogate halves
    else if cp ≥ 0xD800 ∧ cp ≤ 0xDFFF then none
    else some len

/-- The loop of `is_valid_utf8`; every round goes on by at least one byte. -/
def isValidUtf8Loop : Nat → List UInt8 → Bool
  | _, [] => true
  | 0, _ :: _ => false
  | fuel + 1, string =>
    match verifyUtf8Sequence string with
    | none => false
    | some len => isValidUtf8Loop fuel (string.drop len)

def isValidUtf8 (string : CString) : Bool := isValidUtf8Loop string.length (codes string)

/-- `json_value_init_string`. -/
def jsonValueInitString (string : CString) : Option JsonValue :=
  if isValidUtf8 string then some (.string string) else none

/-! ## The masks as ranges -/

theorem forall_byte {P : UInt8 → Prop} (h : ∀ n < 256, P (UInt8.ofNat n)) (b : UInt8) : P b := by
  have hb := h b.toNat b.toNat_lt
  rwa [UInt8.ofNat_toNat] at hb

theorem isCont_iff : ∀ b : UInt8, isCont b = true ↔ 0x80 ≤ b.toNat ∧ b.toNat < 0xC0 :=
  forall_byte (by decide +kernel)

theorem numBytes_one : ∀ b : UInt8, numBytesInUtf8Sequence b = 1 ↔ b.toNat < 0x80 :=
  forall_byte (by decide +kernel)

theorem numBytes_two : ∀ b : UInt8,
    numBytesInUtf8Sequence b = 2 ↔ 0xC2 ≤ b.toNat ∧ b.toNat < 0xE0 := forall_byte (by decide +kernel)

theorem numBytes_three : ∀ b : UInt8,
    numBytesInUtf8Sequence b = 3 ↔ 0xE0 ≤ b.toNat ∧ b.toNat < 0xF0 := forall_byte (by decide +kernel)

theorem numBytes_four : ∀ b : UInt8,
    numBytesInUtf8Sequence b = 4 ↔ 0xF0 ≤ b.toNat ∧ b.toNat < 0xF5 := forall_byte (by decide +kernel)

theorem toNat_shiftIn {cp : UInt32} (byte : UInt8) (h : cp.toNat < 2 ^ 26) :
    (shiftIn cp byte).toNat = cp.toNat * 64 + byte.toNat % 64 := by
  have hshift : (cp <<< 6).toNat = cp.toNat * 64 := by
    rw [UInt32.toNat_shiftLeft, show (6 : UInt32).toNat % 32 = 6 from rfl, Nat.shiftLeft_eq]
    omega
  have hmask : (byte.toUInt32 &&& 0x3F).toNat = byte.toNat % 64 :=
    Nat.and_two_pow_sub_one_eq_mod byte.toNat 6
  have hor := Nat.shiftLeft_add_eq_or_of_lt (show byte.toNat % 64 < 2 ^ 6 by omega) cp.toNat
  rw [Nat.shiftLeft_eq] at hor
  show ((cp <<< 6) ||| (byte.toUInt32 &&& 0x3F)).toNat = _
  rw [UInt32.toNat_or, hshift, hmask, ← hor]

theorem toNat_first (byte : UInt8) (k : Nat) (mask : UInt32) (hmask : mask.toNat = 2 ^ k - 1) :
    (byte.toUInt32 &&& mask).toNat = byte.toNat % 2 ^ k := by
  rw [UInt32.toNat_and, hmask, Nat.and_two_pow_sub_one_eq_mod, UInt8.toNat_toUInt32]

theorem toNat_two (a b : UInt8) :
    (shiftIn (a.toUInt32 &&& 0x1F) b).toNat = a.toNat % 32 * 64 + b.toNat % 64 := by
  have hfirst : (a.toUInt32 &&& 0x1F).toNat = a.toNat % 32 := toNat_first a 5 0x1F rfl
  rw [toNat_shiftIn b (by omega), hfirst]

theorem toNat_three (a b c : UInt8) : (shiftIn (shiftIn (a.toUInt32 &&& 0xF) b) c).toNat =
    (a.toNat % 16 * 64 + b.toNat % 64) * 64 + c.toNat % 64 := by
  have hfirst : (a.toUInt32 &&& 0xF).toNat = a.toNat % 16 := toNat_first a 4 0xF rfl
  have hsecond := toNat_shiftIn b (show (a.toUInt32 &&& 0xF).toNat < 2 ^ 26 by omega)
  rw [toNat_shiftIn c (by omega), hsecond, hfirst]

theorem toNat_four (a b c d : UInt8) :
    (shiftIn (shiftIn (shiftIn (a.toUInt32 &&& 0x7) b) c) d).toNat =
      ((a.toNat % 8 * 64 + b.toNat % 64) * 64 + c.toNat % 64) * 64 + d.toNat % 64 := by
  have hfirst : (a.toUInt32 &&& 0x7).toNat = a.toNat % 8 := toNat_first a 3 0x7 rfl
  have hsecond := toNat_shiftIn b (show (a.toUInt32 &&& 0x7).toNat < 2 ^ 26 by omega)
  have hthird := toNat_shiftIn c (show (shiftIn (a.toUInt32 &&& 0x7) b).toNat < 2 ^ 26 by omega)
  rw [toNat_shiftIn d (by omega), hthird, hsecond, hfirst]

/-! ## One sequence -/

/-- The code point needs no shorter sequence. -/
def Shortest (cp len : Nat) : Prop :=
  (1 < len → 0x80 ≤ cp) ∧ (2 < len → 0x800 ≤ cp) ∧ (3 < len → 0x10000 ≤ cp)

theorem verify_iff (string : List UInt8) (len : Nat) : verifyUtf8Sequence string = some len ↔
    numBytesInUtf8Sequence (byteAt string 0) = len ∧ ∃ cp, assemble string len = some cp ∧
      Shortest cp.toNat len ∧ (cp.toNat < 0xD800 ∨ 0xDFFF < cp.toNat ∧ cp.toNat < 0x110000) := by
  unfold verifyUtf8Sequence Shortest
  simp only [UInt32.lt_iff_toNat_lt, UInt32.le_iff_toNat_le, UInt32.reduceToNat, gt_iff_lt, ge_iff_le]
  generalize numBytesInUtf8Sequence (byteAt string 0) = n
  cases hcp : assemble string n with
  | none =>
    simp only [reduceCtorEq, false_iff, not_and]
    rintro rfl ⟨cp, hsome, -⟩
    exact absurd hsome (by rw [hcp]; exact Option.some_ne_none cp |>.symm)
  | some cp =>
    constructor
    · intro h
      dsimp only at h
      split_ifs at h with hlong hlarge hsurrogate
      obtain rfl := Option.some.inj h
      exact ⟨rfl, cp, hcp, by omega, by omega⟩
    · rintro ⟨rfl, cp', hsome, hshort, hscalar⟩
      obtain rfl := Option.some.inj (hcp.symm.trans hsome)
      dsimp only
      rw [if_neg (by omega), if_neg (by omega), if_neg (by omega)]

/-- A continuation byte is not the terminating zero. -/
theorem lt_length_of_isCont {string : List UInt8} {index : Nat} (h : isCont (byteAt string index)) :
    index < string.length := by
  by_contra hout
  rw [byteAt, List.getD_eq_default _ _ (Nat.le_of_not_lt hout)] at h
  exact absurd h (by decide)

theorem byte_eq {b : UInt8} {n : Nat} (h : n = b.toNat) : UInt8.ofNat n = b := by
  rw [h, UInt8.ofNat_toNat]

theorem exists_three {a : UInt8} {tail : List UInt8} (h : 2 < (a :: tail).length) :
    ∃ b d rest, tail = b :: d :: rest := by
  obtain ⟨b, tail, rfl⟩ := List.exists_cons_of_length_pos (Nat.lt_of_succ_lt (Nat.lt_of_succ_lt_succ h))
  obtain ⟨d, rest, rfl⟩ :=
    List.exists_cons_of_length_pos (Nat.lt_of_succ_lt_succ (Nat.lt_of_succ_lt_succ h))
  exact ⟨b, d, rest, rfl⟩

/-- A verified sequence is the encoding of a character. -/
theorem verify_sound {string : List UInt8} {len : Nat} (hne : string ≠ [])
    (h : verifyUtf8Sequence string = some len) :
    ∃ c, (String.utf8EncodeChar c).length = len ∧ string = String.utf8EncodeChar c ++ string.drop len := by
  obtain ⟨hlen, cp, hcp, ⟨htwo, hthree, hfour⟩, hscalar⟩ := (verify_iff string len).mp h
  obtain ⟨c, hc⟩ := exists_char hscalar
  refine ⟨c, ?_⟩
  obtain ⟨a, tail, rfl⟩ := List.exists_cons_of_ne_nil hne
  replace hlen : numBytesInUtf8Sequence a = len := hlen
  unfold assemble at hcp
  split_ifs at hcp with hone htwo' hthree' hfour'
  · subst hone
    rw [numBytes_one] at hlen
    have hvalue : a.toNat = c.toNat := by
      rw [hc, ← Option.some.inj hcp]
      exact (UInt8.toNat_toUInt32 a).symm
    rw [encode_one (by omega), byte_eq hvalue.symm]
    exact ⟨rfl, rfl⟩
  · obtain ⟨rfl, hb⟩ := htwo'
    obtain ⟨b, rest, rfl⟩ := List.exists_cons_of_length_pos (Nat.lt_of_succ_lt_succ (lt_length_of_isCont hb))
    have hvalue := hc.trans ((congrArg UInt32.toNat (Option.some.inj hcp)).symm.trans (toNat_two a b))
    replace hb := (isCont_iff b).mp hb
    rw [numBytes_two] at hlen
    rw [encode_two (by omega) (by omega), byte_eq (show _ = a.toNat by omega),
      byte_eq (show _ = b.toNat by omega)]
    exact ⟨rfl, rfl⟩
  · obtain ⟨rfl, hb, hd⟩ := hthree'
    obtain ⟨b, d, rest, rfl⟩ := exists_three (lt_length_of_isCont hd)
    have hvalue := hc.trans ((congrArg UInt32.toNat (Option.some.inj hcp)).symm.trans (toNat_three a b d))
    replace hb := (isCont_iff b).mp hb
    replace hd := (isCont_iff d).mp hd
    rw [numBytes_three] at hlen
    rw [encode_three (by omega) (by omega), byte_eq (show _ = a.toNat by omega),
      byte_eq (show _ = b.toNat by omega), byte_eq (show _ = d.toNat by omega)]
    exact ⟨rfl, rfl⟩
  · obtain ⟨rfl, hb, hd, he⟩ := hfour'
    obtain ⟨b, d, tail, rfl⟩ := exists_three (Nat.lt_of_succ_lt (lt_length_of_isCont he))
    obtain ⟨e, rest, rfl⟩ := List.exists_cons_of_length_pos
      (Nat.lt_of_succ_lt_succ (Nat.lt_of_succ_lt_succ (Nat.lt_of_succ_lt_succ (lt_length_of_isCont he))))
    have hvalue := hc.trans ((congrArg UInt32.toNat (Option.some.inj hcp)).symm.trans (toNat_four a b d e))
    replace hb := (isCont_iff b).mp hb
    replace hd := (isCont_iff d).mp hd
    replace he := (isCont_iff e).mp he
    rw [numBytes_four] at hlen
    rw [encode_four (by omega), byte_eq (show _ = a.toNat by omega), byte_eq (show _ = b.toNat by omega),
      byte_eq (show _ = d.toNat by omega), byte_eq (show _ = e.toNat by omega)]
    exact ⟨rfl, rfl⟩

/-- The encoding of a character is verified, whatever stands behind it. -/
theorem verify_complete (c : Char) (rest : List UInt8) :
    verifyUtf8Sequence (String.utf8EncodeChar c ++ rest) = some (String.utf8EncodeChar c).length := by
  have hscalar := toNat_range c
  have hbyte : ∀ n, n < 256 → (UInt8.ofNat n).toNat = n := fun n hn => UInt8.toNat_ofNat_of_lt' hn
  rw [verify_iff]
  obtain h | ⟨h, h'⟩ | ⟨h, h'⟩ | h := range_cases c
  · have hfirst := hbyte c.toNat (by omega)
    rw [encode_one h]
    have hvalue : (UInt8.ofNat c.toNat).toUInt32.toNat = c.toNat := (UInt8.toNat_toUInt32 _).trans hfirst
    refine ⟨(numBytes_one _).mpr (hfirst.symm ▸ h), (UInt8.ofNat c.toNat).toUInt32, rfl, ?_⟩
    rw [hvalue]
    exact ⟨⟨by simp, by simp, by simp⟩, hscalar⟩
  · have ha := hbyte (c.toNat / 64 % 32 + 0xC0) (by omega)
    have hb := hbyte (c.toNat % 64 + 0x80) (by omega)
    rw [encode_two h h']
    generalize UInt8.ofNat (c.toNat / 64 % 32 + 0xC0) = a at ha ⊢
    generalize UInt8.ofNat (c.toNat % 64 + 0x80) = b at hb ⊢
    have hvalue := toNat_two a b
    have hcont := (isCont_iff b).mpr (by omega)
    refine ⟨(numBytes_two a).mpr (by omega), shiftIn (a.toUInt32 &&& 0x1F) b, if_pos ⟨rfl, hcont⟩, ?_⟩
    rw [show (shiftIn (a.toUInt32 &&& 0x1F) b).toNat = c.toNat by omega]
    exact ⟨⟨fun _ => h, by simp, by simp⟩, hscalar⟩
  · have ha := hbyte (c.toNat / 4096 % 16 + 0xE0) (by omega)
    have hb := hbyte (c.toNat / 64 % 64 + 0x80) (by omega)
    have hd := hbyte (c.toNat % 64 + 0x80) (by omega)
    rw [encode_three h h']
    generalize UInt8.ofNat (c.toNat / 4096 % 16 + 0xE0) = a at ha ⊢
    generalize UInt8.ofNat (c.toNat / 64 % 64 + 0x80) = b at hb ⊢
    generalize UInt8.ofNat (c.toNat % 64 + 0x80) = d at hd ⊢
    have hvalue := toNat_three a b d
    have hconts : isCont b = true ∧ isCont d = true :=
      ⟨(isCont_iff b).mpr (by omega), (isCont_iff d).mpr (by omega)⟩
    refine ⟨(numBytes_three a).mpr (by omega), shiftIn (shiftIn (a.toUInt32 &&& 0xF) b) d,
      if_pos ⟨rfl, hconts⟩, ?_⟩
    rw [show (shiftIn (shiftIn (a.toUInt32 &&& 0xF) b) d).toNat = c.toNat by omega]
    exact ⟨⟨fun _ => by omega, fun _ => h, by simp⟩, hscalar⟩
  · have ha := hbyte (c.toNat / 262144 % 8 + 0xF0) (by omega)
    have hb := hbyte (c.toNat / 4096 % 64 + 0x80) (by omega)
    have hd := hbyte (c.toNat / 64 % 64 + 0x80) (by omega)
    have he := hbyte (c.toNat % 64 + 0x80) (by omega)
    rw [encode_four h]
    generalize UInt8.ofNat (c.toNat / 262144 % 8 + 0xF0) = a at ha ⊢
    generalize UInt8.ofNat (c.toNat / 4096 % 64 + 0x80) = b at hb ⊢
    generalize UInt8.ofNat (c.toNat / 64 % 64 + 0x80) = d at hd ⊢
    generalize UInt8.ofNat (c.toNat % 64 + 0x80) = e at he ⊢
    have hvalue := toNat_four a b d e
    have hconts : isCont b = true ∧ isCont d = true ∧ isCont e = true :=
      ⟨(isCont_iff b).mpr (by omega), (isCont_iff d).mpr (by omega), (isCont_iff e).mpr (by omega)⟩
    refine ⟨(numBytes_four a).mpr (by omega), shiftIn (shiftIn (shiftIn (a.toUInt32 &&& 0x7) b) d) e,
      if_pos ⟨rfl, hconts⟩, ?_⟩
    rw [show (shiftIn (shiftIn (shiftIn (a.toUInt32 &&& 0x7) b) d) e).toNat = c.toNat by omega]
    exact ⟨⟨fun _ => by omega, fun _ => by omega, fun _ => h⟩, hscalar⟩

/-! ## Whole strings -/

theorem isValidUtf8Loop_char (fuel : Nat) (c : Char) (rest : List UInt8) :
    isValidUtf8Loop (fuel + 1) (String.utf8EncodeChar c ++ rest) = isValidUtf8Loop fuel rest := by
  have hverify := verify_complete c rest
  have hdrop : (String.utf8EncodeChar c ++ rest).drop (String.utf8EncodeChar c).length = rest :=
    List.drop_left
  obtain ⟨b, tail, heq⟩ := List.exists_cons_of_length_pos (length_encodeChar_pos c)
  generalize (String.utf8EncodeChar c).length = len at hverify hdrop
  rw [heq, List.cons_append] at hverify hdrop ⊢
  simp only [isValidUtf8Loop, hverify, hdrop]

theorem isValidUtf8Loop_iff (fuel : Nat) : ∀ bytes : List UInt8, bytes.length ≤ fuel →
    (isValidUtf8Loop fuel bytes = true ↔ IsText bytes) := by
  induction fuel with
  | zero =>
    intro bytes hfuel
    obtain rfl := List.length_eq_zero_iff.mp (Nat.le_zero.mp hfuel)
    exact iff_of_true rfl isText_nil
  | succ fuel ih =>
    intro bytes hfuel
    cases bytes with
    | nil => exact iff_of_true rfl isText_nil
    | cons b tail =>
      constructor
      · intro h
        simp only [isValidUtf8Loop] at h
        cases hverify : verifyUtf8Sequence (b :: tail) with
        | none =>
          rw [hverify] at h
          cases h
        | some len =>
          rw [hverify] at h
          obtain ⟨c, hlen, hbytes⟩ := verify_sound (List.cons_ne_nil b tail) hverify
          have hpos : 0 < len := hlen ▸ length_encodeChar_pos c
          have hrest := (ih ((b :: tail).drop len) (by rw [List.length_drop]; omega)).mp h
          rw [hbytes]
          exact (isText_char c).append hrest
      · rintro ⟨text, htext⟩
        cases text with
        | nil => cases htext
        | cons c text =>
          have hpos := length_encodeChar_pos c
          rw [htext, encode_cons] at hfuel ⊢
          rw [List.length_append] at hfuel
          rw [isValidUtf8Loop_char]
          exact (ih (encode text) (by omega)).mpr ⟨text, rfl⟩

/-- What stands behind a character of a text is text. -/
theorem isText_behind {c : Char} {rest : List UInt8} (h : IsText (String.utf8EncodeChar c ++ rest)) :
    IsText rest := by
  have hloop := (isValidUtf8Loop_iff (rest.length + 4 + 1) _ (by
    rw [List.length_append, String.length_utf8EncodeChar]
    have := c.utf8Size_le_four
    omega)).mpr h
  rw [isValidUtf8Loop_char] at hloop
  exact (isValidUtf8Loop_iff (rest.length + 4) rest (Nat.le_add_right _ _)).mp hloop

/-- `is_valid_utf8` accepts a string exactly when its bytes encode Unicode text. -/
theorem isValidUtf8_iff (string : CString) : isValidUtf8 string = true ↔ IsText (codes string) :=
  isValidUtf8Loop_iff string.length (codes string) (Nat.le_of_eq (List.length_map _))

/-- `json_value_init_string` takes exactly the C strings that are the UTF-8 encoding of a
Unicode text, which is then the only one they encode, and it takes them as they are. -/
theorem jsonValueInitString_exact (string : CString) (value : JsonValue) :
    jsonValueInitString string = some value ↔
      value = .string string ∧ ∃! text : List Char, codes string = text.flatMap String.utf8EncodeChar := by
  have hvalid := isValidUtf8_iff string
  have hunique : IsText (codes string) ↔ ∃! text, codes string = encode text :=
    ⟨fun ⟨text, htext⟩ => ⟨text, htext, fun _ h => encode_injective (h.symm.trans htext)⟩,
      fun h => h.exists⟩
  unfold jsonValueInitString
  constructor
  · intro h
    split_ifs at h with htext
    exact ⟨(Option.some.inj h).symm, hunique.mp (hvalid.mp htext)⟩
  · rintro ⟨rfl, htext⟩
    exact if_pos (hvalid.mpr (hunique.mpr htext))

end DynamicPartitions.Parson.Unicode
