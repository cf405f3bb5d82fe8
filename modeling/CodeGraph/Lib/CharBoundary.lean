import CodeGraph.Lib.Utf8Lossy

/-!
# Character boundaries

Byte offsets into UTF-8 text: where a string may be cut (`IsBoundary`), the slices that
panic elsewhere, and ranges of bytes that are overwritten in place. A boundary of encoded
text is a cut of the text (`exists_split`), so an ASCII byte lies between two boundaries,
and overwriting a range between boundaries with ASCII bytes leaves UTF-8 behind.
-/

namespace CharBoundary

open List Percent

/-- `is_char_boundary`: the end of the string, or the first byte of a character. -/
def IsBoundary (b : List UInt8) (i : ℕ) : Prop :=
  match b[i]? with
  | some c => c.IsUTF8FirstByte
  | none => i = b.length

instance (b : List UInt8) (i : ℕ) : Decidable (IsBoundary b i) := by
  unfold IsBoundary
  split <;> infer_instance

/-- `&source[start..stop]`, `none` where it panics. -/
def slice (b : List UInt8) (start stop : ℕ) : Option (List UInt8) :=
  if start ≤ stop ∧ IsBoundary b start ∧ IsBoundary b stop then some ((b.take stop).drop start)
  else none

/-- The bytes of `bytes[start..stop]` changed in place, `none` where the range panics. -/
def overwrite (f : UInt8 → UInt8) (b : List UInt8) (start stop : ℕ) : Option (List UInt8) :=
  if start ≤ stop ∧ stop ≤ b.length then
    some (b.take start ++ ((b.take stop).drop start).map f ++ b.drop stop)
  else none

/-! ## Cuts of encoded text -/

variable {b : List UInt8} {i : ℕ}

theorem IsBoundary.le (h : IsBoundary b i) : i ≤ b.length := by
  rw [IsBoundary] at h
  split at h
  next hc => exact Nat.le_of_lt (List.getElem?_eq_some_iff.mp hc).1
  next => exact Nat.le_of_eq h

theorem isBoundary_length (b : List UInt8) : IsBoundary b b.length := by
  rw [IsBoundary, getElem?_eq_none le_rfl]

variable {c : UInt8}

theorem isBoundary_of_getElem? (hc : b[i]? = some c) (h : c.IsUTF8FirstByte) : IsBoundary b i := by
  rw [IsBoundary, hc]
  exact h

theorem isUTF8FirstByte_iff {ch : Char}
    (h : (String.utf8EncodeChar ch)[i]? = some c) : c.IsUTF8FirstByte ↔ i = 0 := by
  obtain ⟨hi, rfl⟩ := List.getElem?_eq_some_iff.mp h
  exact UInt8.isUTF8FirstByte_getElem_utf8EncodeChar

theorem isBoundary_split (s t : List Char) : IsBoundary (utf8 (s ++ t)) (utf8 s).length := by
  cases t with
  | nil =>
      rw [append_nil]
      exact isBoundary_length _
  | cons ch t =>
      obtain ⟨first, ranges, follow, henc, -⟩ := utf8EncodeChar_cases ch
      have hfirst : (String.utf8EncodeChar ch)[0]? = some first := by
        rw [henc]
        rfl
      refine isBoundary_of_getElem? ?_ ((isUTF8FirstByte_iff hfirst).mpr rfl)
      rw [utf8_append, utf8_cons, henc, getElem?_append_right le_rfl]
      simp

variable {text : List Char}

theorem exists_split (h : IsBoundary (utf8 text) i) :
    ∃ s t, text = s ++ t ∧ (utf8 s).length = i := by
  induction text generalizing i with
  | nil =>
      have hi : i ≤ 0 := h.le
      exact ⟨[], [], rfl, (Nat.le_zero.mp hi).symm⟩
  | cons ch text ih =>
      by_cases hzero : i = 0
      · exact ⟨[], ch :: text, rfl, hzero.symm⟩
      rcases Nat.lt_or_ge i (String.utf8EncodeChar ch).length with hlt | hge
      · have hget : (utf8 (ch :: text))[i]? = (String.utf8EncodeChar ch)[i]? := by
          rw [utf8_cons, getElem?_append_left hlt]
        rw [IsBoundary, hget, getElem?_eq_getElem hlt] at h
        exact absurd (UInt8.isUTF8FirstByte_getElem_utf8EncodeChar.mp h) hzero
      · have hrest : IsBoundary (utf8 text) (i - (String.utf8EncodeChar ch).length) := by
          rw [IsBoundary, utf8_cons, getElem?_append_right hge] at h
          rw [IsBoundary]
          split at h
          next => exact h
          next =>
            rw [length_append] at h
            omega
        obtain ⟨s, t, rfl, hs⟩ := ih hrest
        refine ⟨ch :: s, t, rfl, ?_⟩
        rw [utf8_cons, length_append, hs]
        omega

theorem isUTF8FirstByte_of_ascii (h : c < 0x80) : c.IsUTF8FirstByte := by
  refine Or.inl ?_
  have hc : c.toNat < 128 := UInt8.lt_iff_toNat_lt.mp h
  have hall : ∀ n < 128, UInt8.ofNat n &&& 0x80 = 0 := by decide
  rw [← UInt8.ofNat_toNat (x := c)]
  exact hall _ hc

theorem isBoundary_ascii (hc : (utf8 text)[i]? = some c)
    (h : c < 0x80) : IsBoundary (utf8 text) i ∧ IsBoundary (utf8 text) (i + 1) := by
  have hstart := isBoundary_of_getElem? hc (isUTF8FirstByte_of_ascii h)
  refine ⟨hstart, ?_⟩
  obtain ⟨s, t, rfl, rfl⟩ := exists_split hstart
  rw [utf8_append, getElem?_append_right le_rfl, Nat.sub_self] at hc
  cases t with
  | nil => cases hc
  | cons ch t =>
      obtain ⟨first, ranges, follow, henc, hfirst, -, hlength, -⟩ := utf8EncodeChar_cases ch
      rw [utf8_cons, henc] at hc
      obtain rfl : first = c := Option.some.inj hc
      rw [followers_ascii h] at hfirst
      obtain rfl := Option.some.inj hfirst
      have hone : (utf8 (s ++ [ch])).length = (utf8 s).length + 1 := by
        rw [utf8_append, length_append, utf8_cons, henc, length_eq_zero_iff.mp hlength]
        rfl
      rw [← hone, ← singleton_append, ← append_assoc]
      exact isBoundary_split _ _

/-! ## Slices and overwritten ranges -/

variable {start stop : ℕ}

theorem slice_eq_some (hle : start ≤ stop)
    (hstart : IsBoundary b start) (hstop : IsBoundary b stop) :
    slice b start stop = some ((b.take stop).drop start) :=
  if_pos ⟨hle, hstart, hstop⟩

theorem overwrite_eq_some (f : UInt8 → UInt8) (hle : start ≤ stop) (hstop : stop ≤ b.length) :
    overwrite f b start stop =
      some (b.take start ++ ((b.take stop).drop start).map f ++ b.drop stop) :=
  if_pos ⟨hle, hstop⟩

theorem exists_text_of_ascii (h : ∀ c ∈ b, c < 0x80) : ∃ text, utf8 text = b := by
  induction b with
  | nil => exact ⟨[], rfl⟩
  | cons c b ih =>
      obtain ⟨text, rfl⟩ := ih fun d hd => h d (mem_cons_of_mem c hd)
      have hc : c.toNat < 128 := UInt8.lt_iff_toNat_lt.mp (h c mem_cons_self)
      refine ⟨Char.ofNat c.toNat :: text, ?_⟩
      rw [utf8_cons, utf8EncodeChar_ofNat hc, UInt8.ofNat_toNat]
      rfl

/-- A range between boundaries holds whole characters: ASCII bytes in its place leave UTF-8. -/
theorem overwrite_utf8 {f : UInt8 → UInt8} (hf : ∀ c, f c < 0x80) (hstart : IsBoundary (utf8 text) start) (hstop : IsBoundary (utf8 text) stop)
    (h : overwrite f (utf8 text) start stop = some b) : ∃ text', utf8 text' = b := by
  rw [overwrite] at h
  split at h
  swap
  · cases h
  obtain rfl := Option.some.inj h
  obtain ⟨s, s', hs, rfl⟩ := exists_split hstart
  obtain ⟨t, t', ht, rfl⟩ := exists_split hstop
  obtain ⟨middle, hmiddle⟩ := exists_text_of_ascii
    (b := (((utf8 text).take (utf8 t).length).drop (utf8 s).length).map f) fun c hc => by
      obtain ⟨d, -, rfl⟩ := mem_map.mp hc
      exact hf d
  refine ⟨s ++ middle ++ t', ?_⟩
  have htake : (utf8 text).take (utf8 s).length = utf8 s := by
    rw [hs, utf8_append, take_left]
  have hdrop : (utf8 text).drop (utf8 t).length = utf8 t' := by
    rw [ht, utf8_append, drop_left]
  rw [utf8_append, utf8_append, hmiddle, htake, hdrop]

end CharBoundary
