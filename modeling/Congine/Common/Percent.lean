import Mathlib.Data.List.Basic
import Mathlib.Data.String.Basic
/-!
# Percent-encoded fragments

The fragment of a URI spells a text by its octets in UTF-8: a character
the fragment grammar allows stands for itself, any octet may stand as `%`
and two hexadecimal digits. Decoding reads every other character as
itself, and fails at a `%` that two digits do not follow and at octets
that are no UTF-8.
-/

namespace Congine

namespace Percent

def hexValue? (c : Char) : Option ℕ :=
  if '0' ≤ c ∧ c ≤ '9' then some (c.toNat - 48)
  else if 'a' ≤ c ∧ c ≤ 'f' then some (c.toNat - 87)
  else if 'A' ≤ c ∧ c ≤ 'F' then some (c.toNat - 55)
  else none

/-- The octets that are spelled. -/
def octets : List Char → Option (List UInt8)
  | [] => some []
  | c :: cs =>
      if c = '%' then
        match cs with
        | high :: low :: rest =>
            (hexValue? high).bind fun h => (hexValue? low).bind fun l =>
              (octets rest).map (UInt8.ofNat (16 * h + l) :: ·)
        | _ => none
      else (octets cs).map (String.utf8EncodeChar c ++ ·)

/-- The text a fragment spells. -/
def decode (s : String) : Option String :=
  (octets s.toList).bind fun bytes => String.fromUTF8? bytes.toByteArray

/-- The characters a fragment has unencoded. -/
def isFragmentChar (c : Char) : Bool :=
  c.isAlphanum || "-._~!$&'()*+,;=:@/?".toList.contains c

def hexDigit (n : ℕ) : Char := "0123456789ABCDEF".toList.getD n '0'

def encodeOctet (byte : UInt8) : List Char :=
  ['%', hexDigit (byte.toNat / 16), hexDigit (byte.toNat % 16)]

def encodeChar (c : Char) : List Char :=
  if isFragmentChar c then [c] else (String.utf8EncodeChar c).flatMap encodeOctet

/-- The fragment that spells a text. -/
def encode (s : String) : String := String.ofList (s.toList.flatMap encodeChar)

/-! ## Octets -/

theorem octets_cons_of_ne {c : Char} (h : c ≠ '%') (cs : List Char) :
    octets (c :: cs) = (octets cs).map (String.utf8EncodeChar c ++ ·) := by
  cases cs with
  | nil => simp [octets, h]
  | cons d ds =>
    cases ds with
    | nil => simp [octets, h]
    | cons e es => rw [octets, if_neg h]

theorem octets_percent (high low : Char) (rest : List Char) :
    octets ('%' :: high :: low :: rest) =
      (hexValue? high).bind fun h => (hexValue? low).bind fun l =>
        (octets rest).map (UInt8.ofNat (16 * h + l) :: ·) := by
  rw [octets, if_pos rfl]

theorem fromUTF8?_eq_some_iff {bytes : List UInt8} {s : String} :
    String.fromUTF8? bytes.toByteArray = some s ↔
      bytes = s.toList.flatMap String.utf8EncodeChar := by
  have hbytes : s.toByteArray = (s.toList.flatMap String.utf8EncodeChar).toByteArray := by
    rw [← List.utf8Encode, ← String.toByteArray_ofList, String.ofList_toList]
  rw [← List.toByteArray_inj, ← hbytes]
  unfold String.fromUTF8?
  split_ifs with hvalid
  · rw [Option.some.injEq, ← String.toByteArray_inj]
    rfl
  · refine ⟨nofun, fun heq => absurd ?_ hvalid⟩
    rw [heq]
    exact s.isValidUTF8

/-- **A fragment spells the text whose octets it spells.** -/
theorem decode_eq_some_iff {s t : String} :
    decode s = some t ↔ octets s.toList = some (t.toList.flatMap String.utf8EncodeChar) := by
  simp only [decode, Option.bind_eq_some_iff, fromUTF8?_eq_some_iff, exists_eq_right]

theorem octets_of_not_mem {cs : List Char} (h : '%' ∉ cs) :
    octets cs = some (cs.flatMap String.utf8EncodeChar) := by
  induction cs with
  | nil => rfl
  | cons c cs ih =>
    rw [List.mem_cons, not_or] at h
    obtain ⟨hc, hcs⟩ := h
    rw [octets_cons_of_ne (Ne.symm hc), ih hcs]
    rfl

/-- Without a percent sign there is nothing to decode. -/
theorem decode_of_not_mem {s : String} (h : '%' ∉ s.toList) : decode s = some s :=
  decode_eq_some_iff.mpr (octets_of_not_mem h)

/-! ## Encoding and decoding -/

theorem hexValue?_hexDigit : ∀ n < 16, hexValue? (hexDigit n) = some n := by
  decide

theorem octets_encodeOctet_append (byte : UInt8) (cs : List Char) :
    octets (encodeOctet byte ++ cs) = (octets cs).map (byte :: ·) := by
  have hbyte : byte.toNat < 256 := byte.toNat_lt
  have hsum : 16 * (byte.toNat / 16) + byte.toNat % 16 = byte.toNat := by omega
  show octets ('%' :: hexDigit (byte.toNat / 16) :: hexDigit (byte.toNat % 16) :: cs) = _
  rw [octets_percent, hexValue?_hexDigit _ (by omega), hexValue?_hexDigit _ (by omega)]
  simp only [Option.bind_some, hsum, UInt8.ofNat_toNat]

theorem octets_encodeChar_append (c : Char) (cs : List Char) :
    octets (encodeChar c ++ cs) = (octets cs).map (String.utf8EncodeChar c ++ ·) := by
  rw [encodeChar]
  split_ifs with hplain
  · have hc : c ≠ '%' := by
      rintro rfl
      exact absurd hplain (by decide)
    exact octets_cons_of_ne hc cs
  · induction String.utf8EncodeChar c with
    | nil => simp
    | cons byte bytes ih =>
      rw [List.flatMap_cons, List.append_assoc, octets_encodeOctet_append, ih, Option.map_map]
      rfl

/-- **Decoding undoes encoding.** -/
theorem decode_encode (s : String) : decode (encode s) = some s := by
  rw [decode_eq_some_iff, encode, String.toList_ofList]
  induction s.toList with
  | nil => rfl
  | cons c cs ih =>
    rw [List.flatMap_cons, octets_encodeChar_append, ih]
    rfl

/-! ## Decoding shortens

A character has one octet that begins it, so the text that is spelled
has as many characters as there are such octets. -/

/-- The octets that begin a character. -/
def firstBytes (bytes : List UInt8) : ℕ := bytes.countP fun byte => byte.IsUTF8FirstByte

theorem firstBytes_append (xs ys : List UInt8) :
    firstBytes (xs ++ ys) = firstBytes xs + firstBytes ys := List.countP_append

theorem firstBytes_cons_le (byte : UInt8) (bytes : List UInt8) :
    firstBytes (byte :: bytes) ≤ firstBytes bytes + 1 := by
  rw [firstBytes, List.countP_cons]
  split_ifs
  · exact le_rfl
  · exact Nat.le_succ _

theorem firstBytes_utf8EncodeChar (c : Char) : firstBytes (String.utf8EncodeChar c) = 1 := by
  have hfirst : ∀ (i : ℕ) (hi : i < (String.utf8EncodeChar c).length),
      (String.utf8EncodeChar c)[i].IsUTF8FirstByte ↔ i = 0 :=
    fun i hi => UInt8.isUTF8FirstByte_getElem_utf8EncodeChar
  rcases hbytes : String.utf8EncodeChar c with _ | ⟨byte, bytes⟩
  · exact absurd hbytes String.utf8EncodeChar_ne_nil
  · simp only [hbytes] at hfirst
    have hhead : byte.IsUTF8FirstByte := (hfirst 0 (by simp)).mpr rfl
    have htail : bytes.countP (fun byte => byte.IsUTF8FirstByte) = 0 := by
      refine List.countP_eq_zero.mpr fun other hmem => ?_
      obtain ⟨i, hi, rfl⟩ := List.getElem_of_mem hmem
      have hlater := hfirst (i + 1) (by simpa using hi)
      simpa using hlater
    rw [firstBytes, List.countP_cons, htail]
    simp [hhead]

theorem firstBytes_flatMap_utf8EncodeChar (cs : List Char) :
    firstBytes (cs.flatMap String.utf8EncodeChar) = cs.length := by
  induction cs with
  | nil => rfl
  | cons c cs ih =>
    rw [List.flatMap_cons, firstBytes_append, firstBytes_utf8EncodeChar, ih, List.length_cons]
    omega

/-- Three characters spell an octet, and one the octets of itself. -/
theorem firstBytes_le_of_octets {cs : List Char} {bytes : List UInt8}
    (h : octets cs = some bytes) :
    firstBytes bytes ≤ cs.length ∧ ('%' ∈ cs → firstBytes bytes + 2 ≤ cs.length) := by
  induction cs using octets.induct generalizing bytes with
  | case1 =>
    obtain rfl := Option.some.inj h
    exact ⟨le_rfl, fun hmem => absurd hmem List.not_mem_nil⟩
  | case2 high low rest ih =>
    simp only [octets_percent, Option.bind_eq_some_iff, Option.map_eq_some_iff] at h
    obtain ⟨x, -, y, -, tail, htail, rfl⟩ := h
    have hrest := (ih htail).1
    have hle := firstBytes_cons_le (UInt8.ofNat (16 * x + y)) tail
    simp only [List.length_cons]
    exact ⟨by omega, fun _ => by omega⟩
  | case3 cs hshort =>
    cases cs with
    | nil => cases h
    | cons high cs =>
      cases cs with
      | nil => cases h
      | cons low rest => exact (hshort high low rest rfl).elim
  | case4 c cs hc ih =>
    rw [octets_cons_of_ne hc, Option.map_eq_some_iff] at h
    obtain ⟨tail, htail, rfl⟩ := h
    obtain ⟨hle, hlt⟩ := ih htail
    rw [firstBytes_append, firstBytes_utf8EncodeChar, List.length_cons]
    refine ⟨by omega, fun hmem => ?_⟩
    have := hlt ((List.mem_cons.mp hmem).resolve_left (Ne.symm hc))
    omega

/-- **A text is shorter than a fragment that spells it** with a percent
sign. -/
theorem length_lt_of_decode {s t : String} (h : decode s = some t) (hmem : '%' ∈ s.toList) :
    t.toList.length < s.toList.length := by
  have hlt := (firstBytes_le_of_octets (decode_eq_some_iff.mp h)).2 hmem
  rw [firstBytes_flatMap_utf8EncodeChar] at hlt
  omega

end Percent

end Congine
