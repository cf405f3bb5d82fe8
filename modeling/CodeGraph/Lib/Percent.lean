import Mathlib.Data.List.Basic
import Mathlib.Tactic.Common

/-!
# Percent-encoding of UTF-8 text

Text as a list of characters, its UTF-8 bytes, and the percent escape of the
bytes a caller's `safe` predicate does not let through.

The escape is parametric in `safe` and the reader in `hex`, the function that
turns the two bytes after a `%` back into one: what the round trip
`decode_encode` needs of them is that `safe` bytes are ASCII and never `%`,
and that `hex` inverts the two uppercase digits the encoder writes.
-/

namespace Percent

open List

/-! ## UTF-8 -/

/-- The UTF-8 bytes of a text. -/
def utf8 (text : List Char) : List UInt8 := text.flatMap String.utf8EncodeChar

/-- The text some bytes encode, `none` when they are not valid UTF-8. -/
def fromUtf8 (bytes : List UInt8) : Option (List Char) :=
  (String.fromUTF8? bytes.toByteArray).map String.toList

@[simp] theorem utf8_nil : utf8 [] = [] := rfl

@[simp] theorem utf8_append (s t : List Char) : utf8 (s ++ t) = utf8 s ++ utf8 t := by
  simp [utf8]

theorem utf8_cons (c : Char) (t : List Char) : utf8 (c :: t) = String.utf8EncodeChar c ++ utf8 t :=
  rfl

theorem fromUtf8_utf8 (text : List Char) : fromUtf8 (utf8 text) = some text := by
  have hbytes : (utf8 text).toByteArray = (String.ofList text).toByteArray :=
    String.toByteArray_ofList.symm
  have hvalid : (utf8 text).toByteArray.IsValidUTF8 :=
    hbytes ▸ (String.ofList text).isValidUTF8
  have hstring : String.fromUTF8 _ hvalid = String.ofList text := by
    simp only [String.fromUTF8, hbytes]
  simp only [fromUtf8, String.fromUTF8?, dif_pos hvalid, hstring, Option.map_some,
    String.toList_ofList]

theorem utf8_injective : Function.Injective utf8 := fun s t h => by
  have hs := fromUtf8_utf8 s
  rw [h, fromUtf8_utf8] at hs
  exact (Option.some.inj hs).symm

/-- A byte below 128 is the encoding of the one character it numbers. -/
theorem utf8EncodeChar_ofNat : ∀ {n : Nat}, n < 128 →
    String.utf8EncodeChar (Char.ofNat n) = [UInt8.ofNat n] := by
  decide

/-! ## The escape -/

/-- The byte of `%`. -/
def percent : UInt8 := 37

/-- The uppercase hexadecimal digit of `n < 16`. -/
def hexDigit (n : Nat) : Char := if n < 10 then Char.ofNat (48 + n) else Char.ofNat (55 + n)

/-- `hexDigit` as a byte. -/
def hexByte (n : Nat) : UInt8 := UInt8.ofNat (if n < 10 then 48 + n else 55 + n)

def encodeByte (safe : UInt8 → Bool) (byte : UInt8) : List Char :=
  if safe byte then [Char.ofNat byte.toNat]
  else ['%', hexDigit (byte.toNat / 16), hexDigit (byte.toNat % 16)]

def encode (safe : UInt8 → Bool) (text : List Char) : List Char :=
  (utf8 text).flatMap (encodeByte safe)

/-- Reads escaped bytes back; `hex` reads the two bytes after a `%`. -/
def decodeBytes (hex : UInt8 → UInt8 → Option UInt8) : List UInt8 → Option (List UInt8)
  | [] => some []
  | b :: rest =>
      if b = percent then
        match rest with
        | c :: d :: rest => (hex c d).bind fun byte => (decodeBytes hex rest).map (byte :: ·)
        | _ => none
      else (decodeBytes hex rest).map (b :: ·)

def decode (hex : UInt8 → UInt8 → Option UInt8) (bytes : List UInt8) : Option (List Char) :=
  decodeBytes hex bytes >>= fromUtf8

theorem decodeBytes_cons_ne {hex : UInt8 → UInt8 → Option UInt8} {b : UInt8}
    (h : b ≠ percent) (rest : List UInt8) :
    decodeBytes hex (b :: rest) = (decodeBytes hex rest).map (b :: ·) := by
  match rest with
  | [] => simp [decodeBytes, h]
  | [c] => rw [decodeBytes, if_neg h]; simp
  | c :: d :: rest => rw [decodeBytes, if_neg h]

theorem decodeBytes_percent {hex : UInt8 → UInt8 → Option UInt8} {c d byte : UInt8}
    (h : hex c d = some byte) (rest : List UInt8) :
    decodeBytes hex (percent :: c :: d :: rest) = (decodeBytes hex rest).map (byte :: ·) := by
  rw [decodeBytes, if_pos rfl, h, Option.bind_some]

theorem utf8EncodeChar_hexDigit : ∀ {n : Nat}, n < 16 →
    String.utf8EncodeChar (hexDigit n) = [hexByte n] := by
  decide

/-- What the round trip asks of the `safe` bytes and of the `%XX` reader. -/
structure Escaping (safe : UInt8 → Bool) (hex : UInt8 → UInt8 → Option UInt8) : Prop where
  ascii : ∀ b, safe b = true → b.toNat < 128
  percent : safe percent = false
  hex : ∀ b : UInt8, hex (hexByte (b.toNat / 16)) (hexByte (b.toNat % 16)) = some b

section RoundTrip

variable {safe : UInt8 → Bool} {hex : UInt8 → UInt8 → Option UInt8}

theorem utf8_encodeByte (hascii : ∀ b, safe b = true → b.toNat < 128) (b : UInt8) :
    utf8 (encodeByte safe b) =
      if safe b then [b] else [percent, hexByte (b.toNat / 16), hexByte (b.toNat % 16)] := by
  unfold encodeByte
  split
  · next hb => simp [utf8, utf8EncodeChar_ofNat (hascii b hb)]
  · have hhi : b.toNat / 16 < 16 := by have := b.toNat_lt; omega
    have hlo : b.toNat % 16 < 16 := by omega
    simp only [utf8, flatMap_cons, utf8EncodeChar_hexDigit hhi,
      utf8EncodeChar_hexDigit hlo, flatMap_nil]
    rfl

/-- One escaped byte is read back, whatever follows it. -/
theorem decodeBytes_encodeByte (h : Escaping safe hex) (b : UInt8) (rest : List UInt8) :
    decodeBytes hex (utf8 (encodeByte safe b) ++ rest) =
      (decodeBytes hex rest).map (b :: ·) := by
  rw [utf8_encodeByte h.ascii]
  split
  · next hb =>
    have hne : b ≠ percent := fun he => by simp [he, h.percent] at hb
    exact decodeBytes_cons_ne hne rest
  · exact decodeBytes_percent (h.hex b) rest

theorem decodeBytes_encodeBytes (h : Escaping safe hex) :
    ∀ bytes : List UInt8, decodeBytes hex (utf8 (bytes.flatMap (encodeByte safe))) = some bytes
  | [] => rfl
  | b :: bytes => by
      rw [flatMap_cons, utf8_append, decodeBytes_encodeByte h,
        decodeBytes_encodeBytes h bytes, Option.map_some]

/-- Escaping loses nothing. -/
theorem decode_encode (h : Escaping safe hex) (text : List Char) :
    decode hex (utf8 (encode safe text)) = some text := by
  rw [decode, encode, decodeBytes_encodeBytes h]
  exact fromUtf8_utf8 text

theorem encode_injective (h : Escaping safe hex) : Function.Injective (encode safe) :=
  fun s t hst => by
    have hs := decode_encode h s
    rw [hst, decode_encode h] at hs
    exact (Option.some.inj hs).symm

/-- Every byte of an escaped text is a `safe` byte, a `%` or an uppercase
hexadecimal digit. -/
theorem mem_utf8_encode (hascii : ∀ b, safe b = true → b.toNat < 128)
    {text : List Char} {b : UInt8} (hb : b ∈ utf8 (encode safe text)) :
    safe b = true ∨ b = percent ∨ ∃ n < 16, b = hexByte n := by
  have hbytes : ∀ bytes : List UInt8, b ∈ utf8 (bytes.flatMap (encodeByte safe)) →
      ∃ a ∈ bytes, b ∈ utf8 (encodeByte safe a) := by
    intro bytes
    induction bytes with
    | nil => simp
    | cons a bytes ih =>
        rw [flatMap_cons, utf8_append, mem_append]
        rintro (ha | hrest)
        · exact ⟨a, by simp, ha⟩
        · obtain ⟨c, hc, hbc⟩ := ih hrest
          exact ⟨c, mem_cons_of_mem _ hc, hbc⟩
  obtain ⟨a, -, ha⟩ := hbytes _ hb
  rw [utf8_encodeByte hascii] at ha
  split at ha
  · next hsafe =>
    rw [mem_singleton] at ha
    exact Or.inl (ha ▸ hsafe)
  · simp only [mem_cons, not_mem_nil, or_false] at ha
    have hlt := a.toNat_lt
    rcases ha with rfl | rfl | rfl
    · exact Or.inr (Or.inl rfl)
    · exact Or.inr (Or.inr ⟨_, by omega, rfl⟩)
    · exact Or.inr (Or.inr ⟨_, by omega, rfl⟩)

/-- The same for the characters of an escaped text. -/
theorem mem_encode {text : List Char} {c : Char} (hc : c ∈ encode safe text) :
    (∃ b, safe b = true ∧ c = Char.ofNat b.toNat) ∨ c = '%' ∨ ∃ n < 16, c = hexDigit n := by
  obtain ⟨b, -, hb⟩ := mem_flatMap.mp hc
  unfold encodeByte at hb
  split at hb
  · next hsafe =>
    rw [mem_singleton] at hb
    exact Or.inl ⟨b, hsafe, hb⟩
  · simp only [mem_cons, not_mem_nil, or_false] at hb
    have hlt := b.toNat_lt
    rcases hb with rfl | rfl | rfl
    · exact Or.inr (Or.inl rfl)
    · exact Or.inr (Or.inr ⟨_, by omega, rfl⟩)
    · exact Or.inr (Or.inr ⟨_, by omega, rfl⟩)

theorem encode_eq_nil {text : List Char} : encode safe text = [] ↔ text = [] := by
  constructor
  · intro h
    cases text with
    | nil => rfl
    | cons c rest =>
        exfalso
        have hlen : utf8 (c :: rest) ≠ [] := by
          rw [utf8_cons]
          intro hnil
          have := (append_eq_nil_iff.mp hnil).1
          exact String.utf8EncodeChar_ne_nil this
        obtain ⟨b, bs, hbs⟩ := exists_cons_of_ne_nil hlen
        rw [encode, hbs, flatMap_cons] at h
        have hb := (append_eq_nil_iff.mp h).1
        unfold encodeByte at hb
        split at hb <;> simp at hb
  · rintro rfl
    rfl

end RoundTrip

end Percent
