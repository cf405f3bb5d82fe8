import Mathlib.Data.List.Basic
import Mathlib.Tactic.Common
import Mathlib.Tactic.Ring

/-!
# Wire formats

Values written as bytes one after the other. A writer is `SelfDelimiting` when
two of its outputs can begin the same stream only if they are outputs of one
value: then no two values, and no two sequences of them, share their bytes. A
reader `Reads` a value off its bytes when it takes the value off every stream
that begins with them and fails on every stream that ends before they do. Both
notions go through records (`SelfDelimiting.fields`, `Reads.bind`) and counted
lists (`SelfDelimiting.counted`, `Reads.readTimes`), so that a format is dealt
with field by field.
-/

namespace Wire

open List

abbrev Bytes := List UInt8

/-! ## Numbers -/

/-- The `width` little-endian bytes of a number; what is above them is cut off. -/
def leBytes : ℕ → ℕ → Bytes
  | 0, _ => []
  | width + 1, n => UInt8.ofNat n :: leBytes width (n / 256)

def ofLeBytes : Bytes → ℕ
  | [] => 0
  | b :: bytes => b.toNat + 256 * ofLeBytes bytes

@[simp] theorem length_leBytes (width n : ℕ) : (leBytes width n).length = width := by
  induction width generalizing n with
  | zero => rfl
  | succ width ih => rw [leBytes, length_cons, ih]

theorem ofLeBytes_leBytes : ∀ {width n : ℕ}, n < 256 ^ width → ofLeBytes (leBytes width n) = n
  | 0, n, h => by
      rw [pow_zero, Nat.lt_one_iff] at h
      rw [h]
      rfl
  | width + 1, n, h => by
      have hrest : n / 256 < 256 ^ width := by
        rw [pow_succ] at h
        exact Nat.div_lt_of_lt_mul (by rwa [Nat.mul_comm])
      rw [leBytes, ofLeBytes, ofLeBytes_leBytes hrest, UInt8.toNat_ofNat']
      exact Nat.mod_add_div n 256

theorem leBytes_injective {width m n : ℕ} (hm : m < 256 ^ width) (hn : n < 256 ^ width)
    (h : leBytes width m = leBytes width n) : m = n := by
  rw [← ofLeBytes_leBytes hm, h, ofLeBytes_leBytes hn]

/-! ## Writers -/

section Writers

variable {α β γ : Type*}

/-- Two streams that begin with values written one way begin with the same value. -/
def SelfDelimiting (write : α → Bytes) (fits : α → Prop) : Prop :=
  ∀ ⦃a b : α⦄, fits a → fits b → ∀ ⦃r s : Bytes⦄, write a ++ r = write b ++ s → a = b ∧ r = s

variable {write : α → Bytes} {fits : α → Prop}

theorem SelfDelimiting.injective
    (h : SelfDelimiting write fits) {a b : α} (ha : fits a) (hb : fits b)
    (heq : write a = write b) : a = b :=
  (h ha hb (congrArg (· ++ []) heq)).1

theorem selfDelimiting_leBytes (width : ℕ) :
    SelfDelimiting (leBytes width) (· < 256 ^ width) := by
  intro m n hm hn r s h
  obtain ⟨hbytes, hrest⟩ := append_inj h (by rw [length_leBytes, length_leBytes])
  exact ⟨leBytes_injective hm hn hbytes, hrest⟩

/-- A part of a record that fixes the record. -/
theorem SelfDelimiting.comap
    (h : SelfDelimiting write fits) {f : β → α} (hf : Function.Injective f) :
    SelfDelimiting (fun b => write (f b)) fun b => fits (f b) := by
  intro a b ha hb r s heq
  obtain ⟨hab, hrest⟩ := h ha hb heq
  exact ⟨hf hab, hrest⟩

/-- A record written as one part and then another. -/
theorem SelfDelimiting.fields {write₁ : α → Bytes} {fits₁ : α → Prop} {write₂ : β → Bytes}
    {fits₂ : β → Prop} (h₁ : SelfDelimiting write₁ fits₁) (h₂ : SelfDelimiting write₂ fits₂)
    {f : γ → α} {g : γ → β} (hfg : ∀ c d, f c = f d → g c = g d → c = d) :
    SelfDelimiting (fun c => write₁ (f c) ++ write₂ (g c)) fun c => fits₁ (f c) ∧ fits₂ (g c) := by
  rintro c d ⟨hc₁, hc₂⟩ ⟨hd₁, hd₂⟩ r s heq
  rw [append_assoc, append_assoc] at heq
  obtain ⟨hf, heq⟩ := h₁ hc₁ hd₁ heq
  obtain ⟨hg, hrest⟩ := h₂ hc₂ hd₂ heq
  exact ⟨hfg c d hf hg, hrest⟩

/-- Lists of one length, written without a separator. -/
theorem SelfDelimiting.flatMap_inj
    (h : SelfDelimiting write fits) : ∀ {l m : List α}, l.length = m.length →
    (∀ a ∈ l, fits a) → (∀ a ∈ m, fits a) → ∀ {r s : Bytes},
    l.flatMap write ++ r = m.flatMap write ++ s → l = m ∧ r = s
  | [], [], _, _, _, _, _, heq => ⟨rfl, heq⟩
  | a :: l, b :: m, hlen, hl, hm, r, s, heq => by
      rw [flatMap_cons, flatMap_cons, append_assoc, append_assoc] at heq
      obtain ⟨hab, htail⟩ := h (hl a mem_cons_self) (hm b mem_cons_self) heq
      obtain ⟨hlm, hrest⟩ := h.flatMap_inj (Nat.succ.inj hlen)
        (fun c hc => hl c (mem_cons_of_mem _ hc))
        (fun c hc => hm c (mem_cons_of_mem _ hc)) htail
      exact ⟨by rw [hab, hlm], hrest⟩

/-- A list behind the number of its members. -/
theorem SelfDelimiting.counted (h : SelfDelimiting write fits) (width : ℕ) :
    SelfDelimiting (fun l : List α => leBytes width l.length ++ l.flatMap write)
      fun l => l.length < 256 ^ width ∧ ∀ a ∈ l, fits a := by
  rintro l m ⟨hl, hlfits⟩ ⟨hm, hmfits⟩ r s heq
  rw [append_assoc, append_assoc] at heq
  obtain ⟨hlen, heq⟩ := selfDelimiting_leBytes width hl hm heq
  exact h.flatMap_inj hlen hlfits hmfits heq

/-- Bytes behind their number. -/
theorem selfDelimiting_prefixed (width : ℕ) :
    SelfDelimiting (fun bytes : Bytes => leBytes width bytes.length ++ bytes)
      fun bytes => bytes.length < 256 ^ width := by
  intro a b ha hb r s heq
  rw [append_assoc, append_assoc] at heq
  obtain ⟨hlen, heq⟩ := selfDelimiting_leBytes width ha hb heq
  exact append_inj heq hlen

end Writers

/-! ## Readers -/

section Readers

variable {ε α β : Type}

/-- A reader takes a value off the bytes that are left, or fails. -/
abbrev Reader (ε : Type) := StateT Bytes (Except ε)

/-- The reader takes `a` off streams that begin with `bytes` and fails on streams
that end inside them. -/
structure Reads (read : Reader ε α) (bytes : Bytes) (a : α) : Prop where
  whole : ∀ rest, read.run (bytes ++ rest) = .ok (a, rest)
  cut : ∀ stream, stream <+: bytes → stream.length < bytes.length →
    ∃ e, read.run stream = .error e

theorem Reads.pure (a : α) : Reads (Pure.pure a : Reader ε α) [] a where
  whole _ := rfl
  cut _ _ h := absurd h (Nat.not_lt_zero _)

variable {read : Reader ε α} {bytes : Bytes}

theorem Reads.bind {next : α → Reader ε β} {bytes' : Bytes} {a : α}
    {b : β} (h : Reads read bytes a) (h' : Reads (next a) bytes' b) :
    Reads (read >>= next) (bytes ++ bytes') b where
  whole rest := by
    rw [append_assoc, StateT.run_bind, h.whole]
    exact h'.whole rest
  cut stream hpre hlen := by
    rw [StateT.run_bind]
    -- the stream ends inside the first part or inside the second
    by_cases hshort : stream.length < bytes.length
    · have hfirst : stream <+: bytes :=
        prefix_of_prefix_length_le hpre (prefix_append _ _) hshort.le
      obtain ⟨e, he⟩ := h.cut stream hfirst hshort
      rw [he]
      exact ⟨e, rfl⟩
    · obtain ⟨tail, rfl⟩ : bytes <+: stream :=
        prefix_of_prefix_length_le (prefix_append _ _) hpre (Nat.not_lt.mp hshort)
      rw [h.whole]
      refine h'.cut tail ((prefix_append_right_inj _).mp hpre) ?_
      rw [length_append, length_append] at hlen
      omega

/-- A last step that reads nothing. -/
theorem Reads.bind_pure {next : α → Reader ε β} {a : α} {b : β}
    (h : Reads read bytes a) (hnext : next a = Pure.pure b) : Reads (read >>= next) bytes b := by
  rw [← append_nil bytes]
  refine h.bind ?_
  rw [hnext]
  exact Reads.pure b

theorem Reads.map {a : α} (h : Reads read bytes a)
    (f : α → β) : Reads (f <$> read) bytes (f a) := by
  have hbind : f <$> read = read >>= fun a => Pure.pure (f a) := (bind_pure_comp f read).symm
  rw [hbind]
  exact h.bind_pure rfl

/-- The next `n` bytes, or `e` when fewer are left. -/
def readExact (e : ε) (n : ℕ) : Reader ε Bytes := fun bytes =>
  if bytes.length < n then .error e else .ok (bytes.take n, bytes.drop n)

theorem reads_readExact (e : ε) (bytes : Bytes) :
    Reads (readExact e bytes.length) bytes bytes where
  whole rest := by
    have hlong : ¬ (bytes ++ rest).length < bytes.length := by
      rw [length_append]
      omega
    show (if _ then _ else _) = _
    rw [if_neg hlong, take_left, drop_left]
  cut stream _ hlen := ⟨e, if_pos hlen⟩

/-- A little-endian number of `width` bytes. -/
def readLe (e : ε) (width : ℕ) : Reader ε ℕ := ofLeBytes <$> readExact e width

theorem reads_readLe (e : ε) (width : ℕ) {n : ℕ} (h : n < 256 ^ width) :
    Reads (readLe e width) (leBytes width n) n := by
  have hread := (reads_readExact e (leBytes width n)).map ofLeBytes
  rwa [length_leBytes, ofLeBytes_leBytes h] at hread

/-- `n` values one after the other. -/
def readTimes (read : Reader ε α) : ℕ → Reader ε (List α)
  | 0 => Pure.pure []
  | n + 1 => do
      let a ← read
      let rest ← readTimes read n
      return a :: rest

theorem Reads.readTimes {write : α → Bytes} : ∀ {l : List α},
    (∀ a ∈ l, Reads read (write a) a) → Reads (readTimes read l.length) (l.flatMap write) l
  | [], _ => Reads.pure []
  | a :: l, h => by
      have hrest := Reads.readTimes fun b hb => h b (mem_cons_of_mem _ hb)
      rw [flatMap_cons]
      exact (h a mem_cons_self).bind (hrest.bind_pure rfl)

end Readers

end Wire
