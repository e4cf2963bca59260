import Mathlib.Data.List.Basic

/-!
# Percent encoding

A string is encoded by writing the UTF-8 bytes of every character that is
not allowed as a percent sign and two hexadecimal digits, and decoded by
reading them back. As long as the percent sign itself is not allowed,
decoding undoes encoding (`decode_encode`), and what is written consists of
allowed characters, percent signs and digits (`mem_encode`), so that the
other characters can be used to separate encoded strings.
-/

namespace VkClient

namespace PercentCoding

def hexDigit (n : Nat) : Char := Char.ofNat (if n < 10 then 0x30 + n else 0x37 + n)

def hexValue (c : Char) : Option Nat :=
  if '0' ≤ c ∧ c ≤ '9' then some (c.toNat - 0x30)
  else if 'A' ≤ c ∧ c ≤ 'F' then some (c.toNat - 0x37)
  else if 'a' ≤ c ∧ c ≤ 'f' then some (c.toNat - 0x57)
  else none

def encodeByte (b : UInt8) : List Char :=
  ['%', hexDigit (b.toNat / 16), hexDigit (b.toNat % 16)]

def encodeChar (allowed : Char → Bool) (c : Char) : List Char :=
  if allowed c then [c] else (String.utf8EncodeChar c).flatMap encodeByte

def encode (allowed : Char → Bool) (s : String) : String :=
  String.ofList (s.toList.flatMap (encodeChar allowed))

/-- The bytes of an encoded string; a percent sign without two digits is an
error. -/
def decodeBytes : List Char → Option (List UInt8)
  | [] => some []
  | '%' :: high :: low :: cs => do
      let high ← hexValue high
      let low ← hexValue low
      let bytes ← decodeBytes cs
      return UInt8.ofNat (16 * high + low) :: bytes
  | c :: cs => do
      if c = '%' then none
      let bytes ← decodeBytes cs
      return String.utf8EncodeChar c ++ bytes

def decode (s : String) : Option String :=
  (decodeBytes s.toList).bind fun bytes => String.fromUTF8? bytes.toByteArray

/-! ## Reading back -/

theorem hexValue_hexDigit {n : Nat} (h : n < 16) : hexValue (hexDigit n) = some n := by
  have hall : ∀ n : Fin 16, hexValue (hexDigit n) = some n.val := by decide
  exact hall ⟨n, h⟩

theorem decodeBytes_encodeByte (b : UInt8) (cs : List Char) :
    decodeBytes (encodeByte b ++ cs) = (decodeBytes cs).map (b :: ·) := by
  have hb : b.toNat < 256 := b.toNat_lt
  have hhigh := hexValue_hexDigit (show b.toNat / 16 < 16 by omega)
  have hlow := hexValue_hexDigit (show b.toNat % 16 < 16 by omega)
  have hbyte : UInt8.ofNat (16 * (b.toNat / 16) + b.toNat % 16) = b := by
    rw [Nat.div_add_mod, UInt8.ofNat_toNat]
  simp only [encodeByte, List.cons_append, List.nil_append, decodeBytes, hhigh, hlow]
  cases decodeBytes cs with
  | none => rfl
  | some bytes => exact congrArg (fun b => some (b :: bytes)) hbyte

theorem decodeBytes_flatMap_encodeByte (bytes : List UInt8) (cs : List Char) :
    decodeBytes (bytes.flatMap encodeByte ++ cs) = (decodeBytes cs).map (bytes ++ ·) := by
  induction bytes with
  | nil => cases h : decodeBytes cs <;> simp [h]
  | cons b bytes ih =>
      rw [List.flatMap_cons, List.append_assoc, decodeBytes_encodeByte, ih, Option.map_map]
      rfl

theorem decodeBytes_cons {c : Char} (h : c ≠ '%') (cs : List Char) :
    decodeBytes (c :: cs) = (decodeBytes cs).map (String.utf8EncodeChar c ++ ·) := by
  rw [decodeBytes]
  · simp only [h, if_false]
    cases decodeBytes cs <;> rfl
  · exact fun _ _ _ heq _ => h heq

variable {allowed : Char → Bool}

theorem decodeBytes_encodeChar (hpercent : allowed '%' = false) (c : Char) (cs : List Char) :
    decodeBytes (encodeChar allowed c ++ cs) =
      (decodeBytes cs).map (String.utf8EncodeChar c ++ ·) := by
  rw [encodeChar]
  by_cases hc : allowed c = true
  · have hne : c ≠ '%' := by
      rintro rfl
      rw [hpercent] at hc
      cases hc
    rw [if_pos hc]
    exact decodeBytes_cons hne cs
  · rw [if_neg hc]
    exact decodeBytes_flatMap_encodeByte _ cs

theorem decodeBytes_flatMap_encodeChar (hpercent : allowed '%' = false) (cs : List Char) :
    decodeBytes (cs.flatMap (encodeChar allowed)) = some (cs.flatMap String.utf8EncodeChar) := by
  induction cs with
  | nil => rfl
  | cons c cs ih =>
      rw [List.flatMap_cons, decodeBytes_encodeChar hpercent, ih]
      rfl

/-- The round trip. -/
theorem decode_encode (hpercent : allowed '%' = false) (s : String) :
    decode (encode allowed s) = some s := by
  have hbytes : (s.toList.flatMap String.utf8EncodeChar).toByteArray = s.toByteArray :=
    String.utf8Encode_toList
  rw [decode, encode, String.toList_ofList, decodeBytes_flatMap_encodeChar hpercent,
    Option.bind_some, hbytes, String.fromUTF8?, dif_pos s.isValidUTF8]
  rfl

/-! ## What is written -/

theorem mem_encodeByte {b : UInt8} {c : Char} (h : c ∈ encodeByte b) :
    c = '%' ∨ (hexValue c).isSome = true := by
  have hb : b.toNat < 256 := b.toNat_lt
  have hhigh := hexValue_hexDigit (show b.toNat / 16 < 16 by omega)
  have hlow := hexValue_hexDigit (show b.toNat % 16 < 16 by omega)
  simp only [encodeByte, List.mem_cons, List.not_mem_nil, or_false] at h
  rcases h with rfl | rfl | rfl
  · exact .inl rfl
  · exact .inr (by rw [hhigh]; rfl)
  · exact .inr (by rw [hlow]; rfl)

theorem mem_encode {s : String} {c : Char} (h : c ∈ (encode allowed s).toList) :
    allowed c = true ∨ c = '%' ∨ (hexValue c).isSome = true := by
  rw [encode, String.toList_ofList] at h
  obtain ⟨c', -, hc'⟩ := List.mem_flatMap.mp h
  rw [encodeChar] at hc'
  split_ifs at hc' with hallowed
  · obtain rfl := List.mem_singleton.mp hc'
    exact .inl hallowed
  · obtain ⟨b, -, hb⟩ := List.mem_flatMap.mp hc'
    exact .inr (mem_encodeByte hb)

end PercentCoding

end VkClient
