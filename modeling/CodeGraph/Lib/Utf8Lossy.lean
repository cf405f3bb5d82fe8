import CodeGraph.Lib.Percent
import Mathlib.Data.Char

/-!
# Reading UTF-8 with losses

`from_utf8_lossy`: bytes that are UTF-8 are read as the text they encode, and each longest
start of a character that does not go on as one is read as `U+FFFD`. The first byte of a
character settles how many bytes follow it and the range of each.

The two rules the reader is used by: it reads encoded text back (`lossy_utf8_append`), and no
sequence runs across a byte below 128 (`lossy_append_ascii`).
-/

namespace Percent

open List

/-- The range of every byte but the first. -/
def continuation : UInt8 × UInt8 := (0x80, 0xBF)

/-- The ranges of the bytes that follow a first byte, `none` for a byte no character starts
with. The narrower ranges leave out what a shorter sequence encodes, the surrogates and what
is past `U+10FFFF`. -/
def followers (b : UInt8) : Option (List (UInt8 × UInt8)) :=
  if b < 0x80 then some []
  else if b < 0xC2 then none
  else if b < 0xE0 then some [continuation]
  else if b = 0xE0 then some [(0xA0, 0xBF), continuation]
  else if b = 0xED then some [(0x80, 0x9F), continuation]
  else if b < 0xF0 then some [continuation, continuation]
  else if b = 0xF0 then some [(0x90, 0xBF), continuation, continuation]
  else if b < 0xF4 then some [continuation, continuation, continuation]
  else if b = 0xF4 then some [(0x80, 0x8F), continuation, continuation]
  else none

/-- How many of the bytes are in their ranges before the first that is not. -/
def runLength : List (UInt8 × UInt8) → List UInt8 → ℕ
  | r :: ranges, c :: bytes => if r.1 ≤ c ∧ c ≤ r.2 then runLength ranges bytes + 1 else 0
  | _, _ => 0

/-- The character of a whole sequence. -/
def charOf (b : UInt8) (follow : List UInt8) : Char :=
  let lead := match follow.length with
    | 0 => b.toNat
    | 1 => b.toNat % 0x20
    | 2 => b.toNat % 0x10
    | _ => b.toNat % 8
  Char.ofNat (follow.foldl (fun n c => n * 64 + c.toNat % 64) lead)

def replacement : Char := Char.ofNat 0xFFFD

/-- `String::from_utf8_lossy`. -/
def lossy : List UInt8 → List Char
  | [] => []
  | b :: bytes =>
      match followers b with
      | none => replacement :: lossy bytes
      | some ranges =>
          let n := runLength ranges bytes
          (if n = ranges.length then charOf b (bytes.take n) else replacement) ::
            lossy (bytes.drop n)
termination_by bytes => bytes.length
decreasing_by all_goals simp; try omega

/-! ## Text is read back -/

theorem followers_ascii {c : UInt8} (h : c < 0x80) : followers c = some [] := if_pos h

theorem followers_two : ∀ n < 0xE0, 0xC2 ≤ n →
    followers (UInt8.ofNat n) = some [continuation] := by
  decide +kernel

theorem followers_three : ∀ n < 0xF0, 0xE1 ≤ n ∧ n ≠ 0xED →
    followers (UInt8.ofNat n) = some [continuation, continuation] := by
  decide +kernel

theorem followers_four : ∀ n < 0xF4, 0xF1 ≤ n →
    followers (UInt8.ofNat n) = some [continuation, continuation, continuation] := by
  decide +kernel

theorem runLength_cons {lo hi : UInt8} {n : ℕ} (hlo : lo.toNat ≤ n) (hhi : n ≤ hi.toNat)
    (ranges : List (UInt8 × UInt8)) (bytes : List UInt8) :
    runLength ((lo, hi) :: ranges) (UInt8.ofNat n :: bytes) = runLength ranges bytes + 1 := by
  have hn : (UInt8.ofNat n).toNat = n := by
    have := hi.toNat_lt
    rw [UInt8.toNat_ofNat']
    omega
  rw [runLength, if_pos]
  rw [UInt8.le_iff_toNat_le, UInt8.le_iff_toNat_le, hn]
  exact ⟨hlo, hhi⟩

theorem runLength_continuation (n : ℕ) (ranges : List (UInt8 × UInt8)) (bytes : List UInt8) :
    runLength (continuation :: ranges) (UInt8.ofNat (n % 0x40 + 0x80) :: bytes) =
      runLength ranges bytes + 1 :=
  runLength_cons (by simp) (by simp; omega) ranges bytes

/-- The bytes of a character: a first byte, and after it as many bytes as it asks for, each in
its range, that together number the character. -/
theorem utf8EncodeChar_cases (c : Char) :
    ∃ b ranges follow, String.utf8EncodeChar c = b :: follow ∧ followers b = some ranges ∧
      (∀ rest, runLength ranges (follow ++ rest) = ranges.length) ∧
      follow.length = ranges.length ∧ charOf b follow = c := by
  have hof : ∀ n, n = c.val.toNat → Char.ofNat n = c := by
    rintro n rfl
    exact Char.ofNat_toNat c
  have hvalid : c.val.toNat < 0xD800 ∨ 0xDFFF < c.val.toNat ∧ c.val.toNat < 0x110000 := c.valid
  unfold String.utf8EncodeChar
  generalize c.val.toNat = v at hof hvalid
  dsimp only
  split_ifs with h1 h2 h3
  · refine ⟨_, _, _, rfl, followers_ascii ?_, fun rest => rfl, rfl, hof _ ?_⟩
    · rw [UInt8.lt_iff_toNat_lt, UInt8.toNat_ofNat']
      simp
      omega
    · simp
      omega
  · refine ⟨_, _, _, rfl, followers_two _ (by omega) (by omega), fun rest => ?_, rfl, hof _ ?_⟩
    · exact runLength_continuation _ _ _
    · simp
      omega
  · by_cases he0 : v / 4096 = 0
    · refine ⟨_, _, _, rfl, by rw [he0]; rfl, fun rest => ?_, rfl, hof _ ?_⟩
      · rw [cons_append, runLength_cons (by simp; omega) (by simp; omega)]
        exact congrArg (· + 1) (runLength_continuation _ _ _)
      · simp
        omega
    by_cases hed : v / 4096 = 13
    · refine ⟨_, _, _, rfl, by rw [hed]; rfl, fun rest => ?_, rfl, hof _ ?_⟩
      · rw [cons_append, runLength_cons (by simp) (by simp; omega)]
        exact congrArg (· + 1) (runLength_continuation _ _ _)
      · simp
        omega
    refine ⟨_, _, _, rfl, followers_three _ (by omega) (by omega), fun rest => ?_,
      rfl, hof _ ?_⟩
    · rw [cons_append, runLength_continuation]
      exact congrArg (· + 1) (runLength_continuation _ _ _)
    · simp
      omega
  · by_cases hf0 : v / 262144 = 0
    · refine ⟨_, _, _, rfl, by rw [hf0]; rfl, fun rest => ?_, rfl, hof _ ?_⟩
      · rw [cons_append, runLength_cons (by simp; omega) (by simp; omega), cons_append,
          runLength_continuation]
        exact congrArg (· + 1 + 1) (runLength_continuation _ _ _)
      · simp
        omega
    by_cases hf4 : v / 262144 = 4
    · refine ⟨_, _, _, rfl, by rw [hf4]; rfl, fun rest => ?_, rfl, hof _ ?_⟩
      · rw [cons_append, runLength_cons (by simp) (by simp; omega), cons_append,
          runLength_continuation]
        exact congrArg (· + 1 + 1) (runLength_continuation _ _ _)
      · simp
        omega
    refine ⟨_, _, _, rfl, followers_four _ (by omega) (by omega), fun rest => ?_, rfl, hof _ ?_⟩
    · rw [cons_append, runLength_continuation, cons_append, runLength_continuation]
      exact congrArg (· + 1 + 1) (runLength_continuation _ _ _)
    · simp
      omega

theorem lossy_utf8_append (text : List Char) (rest : List UInt8) :
    lossy (utf8 text ++ rest) = text ++ lossy rest := by
  induction text with
  | nil => rfl
  | cons c text ih =>
      obtain ⟨b, ranges, follow, hc, hb, hrun, hlength, hchar⟩ := utf8EncodeChar_cases c
      rw [utf8_cons, hc, append_assoc, cons_append, lossy, hb]
      dsimp only
      rw [hrun, if_pos rfl, ← hlength, take_left, drop_left, hchar, ih,
        cons_append]

theorem lossy_utf8 (text : List Char) : lossy (utf8 text) = text := by
  have h := lossy_utf8_append text []
  rwa [append_nil, lossy, append_nil] at h

/-! ## No sequence runs across an ASCII byte -/

/-- Every byte after the first is 128 or more. -/
theorem le_of_mem_followers {b : UInt8} {ranges : List (UInt8 × UInt8)}
    (h : followers b = some ranges) : ∀ r ∈ ranges, 128 ≤ r.1.toNat := by
  unfold followers at h
  split_ifs at h <;> cases h <;> simp [continuation]

theorem runLength_append_ascii {c : UInt8} (hc : c < 0x80) (after : List UInt8) :
    ∀ {ranges : List (UInt8 × UInt8)} (before : List UInt8), (∀ r ∈ ranges, 128 ≤ r.1.toNat) →
      runLength ranges (before ++ c :: after) = runLength ranges before
  | [], before, _ => by simp [runLength]
  | r :: ranges, [], h => by
      have hout : ¬ (r.1 ≤ c ∧ c ≤ r.2) := by
        intro hin
        have hlow := h r mem_cons_self
        have hle := UInt8.le_iff_toNat_le.mp hin.1
        have hlt : c.toNat < 128 := UInt8.lt_iff_toNat_lt.mp hc
        omega
      rw [nil_append, runLength, if_neg hout]
      rfl
  | r :: ranges, x :: before, h => by
      have htail := runLength_append_ascii hc after before
        fun s hs => h s (mem_cons_of_mem _ hs)
      rw [cons_append, runLength, runLength, htail]

theorem runLength_le : ∀ (ranges : List (UInt8 × UInt8)) (bytes : List UInt8),
    runLength ranges bytes ≤ bytes.length
  | [], _ => by simp [runLength]
  | _ :: _, [] => by simp [runLength]
  | r :: ranges, c :: bytes => by
      rw [runLength]
      split
      · exact Nat.succ_le_succ (runLength_le ranges bytes)
      · exact Nat.zero_le _

theorem lossy_cons_ascii {c : UInt8} (hc : c < 0x80) (after : List UInt8) :
    lossy (c :: after) = Char.ofNat c.toNat :: lossy after := by
  rw [lossy, followers_ascii hc]
  rfl

/-- Bytes are read the same with or without an ASCII byte after them, and the ASCII byte is
read as its character. -/
theorem lossy_append_ascii {c : UInt8} (hc : c < 0x80) (before after : List UInt8) :
    lossy (before ++ c :: after) = lossy before ++ Char.ofNat c.toNat :: lossy after := by
  induction hn : before.length using Nat.strong_induction_on generalizing before with
  | _ n ih =>
      subst hn
      cases before with
      | nil =>
          rw [nil_append, lossy_cons_ascii hc, lossy]
          rfl
      | cons b before =>
          rw [cons_append, lossy, lossy]
          cases hb : followers b with
          | none =>
              dsimp only
              rw [ih before.length (by simp) before rfl, cons_append]
          | some ranges =>
              have hrun := runLength_append_ascii hc after before (le_of_mem_followers hb)
              have hle := runLength_le ranges before
              have hdrop := ih (before.drop (runLength ranges before)).length
                (by rw [length_drop, length_cons]; omega) _ rfl
              dsimp only
              rw [hrun, take_append_of_le_length hle, drop_append_of_le_length hle,
                hdrop, cons_append]

end Percent
