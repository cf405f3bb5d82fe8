import CodeGraph.Text
import CodeGraph.Lib.Percent
import CodeGraph.Lib.Wire

/-!
# The file of the vector index

`saveIndex` writes counts, lengths and term ids as `u32`, `loadIndex` reads them
back in the same order. Every read of the file goes through `readExact`, so a file
that ends early is an error wherever it ends.
-/

namespace CodeGraph

/-- A float as it is stored: its bits. -/
structure F32 where
  bits : UInt32
  deriving DecidableEq

structure VectorDoc where
  qualifiedName : Text
  name : Text
  label : Text
  filePath : Text
  terms : List (UInt32 × F32)
  deriving DecidableEq

structure VectorIndex where
  docs : List VectorDoc
  vocabulary : List Text
  deriving DecidableEq

namespace VectorIndex

open Percent (utf8 fromUtf8)
open Wire

def vectorMagic : UInt32 := 0x56454354

def vectorVersion : UInt32 := 1

inductive LoadError where
  | readU32
  | readF32
  | readString
  | utf8String (bytes : Bytes)
  | badMagic (magic : UInt32)
  | unsupportedVersion (version : UInt32)
  deriving DecidableEq

/-- The text of an error; `utf8Error` is the one the standard library has for bytes
that are no UTF-8. -/
def LoadError.message (utf8Error : Bytes → Text) : LoadError → Text
  | readU32 => "read u32: failed to fill whole buffer".toList
  | readF32 => "read f32: failed to fill whole buffer".toList
  | readString => "read string: failed to fill whole buffer".toList
  | utf8String bytes => "utf8 string: ".toList ++ utf8Error bytes
  | badMagic magic =>
      let digits := Nat.toDigits 16 magic.toNat
      "bad vector index magic: 0x".toList ++ List.replicate (8 - digits.length) '0' ++ digits
  | unsupportedVersion version =>
      "unsupported vector index version: ".toList ++ Nat.toDigits 10 version.toNat

/-! ## Writing -/

def writeU32 (v : UInt32) : Bytes := leBytes 4 v.toNat

def writeF32 (v : F32) : Bytes := writeU32 v.bits

/-- A length or a count, `as u32`. -/
def writeLen (n : ℕ) : Bytes := writeU32 (UInt32.ofNat n)

def writeString (s : Text) : Bytes := writeLen (utf8 s).length ++ utf8 s

def writeTerm (term : UInt32 × F32) : Bytes := writeU32 term.1 ++ writeF32 term.2

def writeDoc (doc : VectorDoc) : Bytes :=
  writeString doc.qualifiedName ++ (writeString doc.name ++ (writeString doc.label ++
    (writeString doc.filePath ++ (writeLen doc.terms.length ++ doc.terms.flatMap writeTerm))))

def saveIndex (index : VectorIndex) : Bytes :=
  writeU32 vectorMagic ++ (writeU32 vectorVersion ++ (writeLen index.vocabulary.length ++
    (writeLen index.docs.length ++
      (index.vocabulary.flatMap writeString ++ index.docs.flatMap writeDoc))))

/-! ## Reading -/

def readU32 : Reader LoadError UInt32 := UInt32.ofNat <$> readLe .readU32 4

def readF32 : Reader LoadError F32 := (fun n => ⟨UInt32.ofNat n⟩) <$> readLe .readF32 4

def readString : Reader LoadError Text := do
  let len ← readU32
  let buf ← readExact .readString len.toNat
  match fromUtf8 buf with
  | some s => return s
  | none => throw (.utf8String buf)

def readTerm : Reader LoadError (UInt32 × F32) := do
  let id ← readU32
  let w ← readF32
  return (id, w)

def readDoc : Reader LoadError VectorDoc := do
  let qualifiedName ← readString
  let name ← readString
  let label ← readString
  let filePath ← readString
  let nnz ← readU32
  let terms ← readTimes readTerm nnz.toNat
  return { qualifiedName, name, label, filePath, terms }

def readIndex : Reader LoadError VectorIndex := do
  let magic ← readU32
  if magic ≠ vectorMagic then throw (.badMagic magic)
  let version ← readU32
  if version ≠ vectorVersion then throw (.unsupportedVersion version)
  let vocabSize ← readU32
  let docCount ← readU32
  let vocabulary ← readTimes readString vocabSize.toNat
  let docs ← readTimes readDoc docCount.toNat
  return { docs, vocabulary }

/-- What is behind the last document is not looked at. -/
def loadIndex (file : Bytes) : Except LoadError VectorIndex := (readIndex.run file).map Prod.fst

/-! ## The round trip -/

/-- The bytes of a text can be counted in a `u32`. -/
def TextFits (s : Text) : Prop := (utf8 s).length < 2 ^ 32

instance (s : Text) : Decidable (TextFits s) := inferInstanceAs (Decidable (_ < _))

structure DocFits (doc : VectorDoc) : Prop where
  qualifiedName : TextFits doc.qualifiedName
  name : TextFits doc.name
  label : TextFits doc.label
  filePath : TextFits doc.filePath
  terms : doc.terms.length < 2 ^ 32

/-- Every size of the index fits in 32 bits. -/
structure Fits (index : VectorIndex) : Prop where
  vocabulary : index.vocabulary.length < 2 ^ 32
  docs : index.docs.length < 2 ^ 32
  term : ∀ term ∈ index.vocabulary, TextFits term
  doc : ∀ doc ∈ index.docs, DocFits doc

theorem reads_u32 (v : UInt32) : Reads readU32 (writeU32 v) v := by
  have h := (reads_readLe LoadError.readU32 4 v.toNat_lt).map UInt32.ofNat
  rwa [UInt32.ofNat_toNat] at h

theorem reads_f32 (v : F32) : Reads readF32 (writeF32 v) v := by
  have h := (reads_readLe LoadError.readF32 4 v.bits.toNat_lt).map
    fun n => F32.mk (UInt32.ofNat n)
  rwa [UInt32.ofNat_toNat] at h

theorem toNat_ofNat {n : ℕ} (h : n < 2 ^ 32) : (UInt32.ofNat n).toNat = n :=
  UInt32.toNat_ofNat_of_lt' h

theorem reads_string {s : Text} (h : TextFits s) : Reads readString (writeString s) s := by
  refine (reads_u32 _).bind ?_
  rw [toNat_ofNat h]
  refine (reads_readExact _ (utf8 s)).bind_pure ?_
  rw [Percent.fromUtf8_utf8]

theorem reads_term (term : UInt32 × F32) : Reads readTerm (writeTerm term) term :=
  (reads_u32 term.1).bind ((reads_f32 term.2).bind_pure rfl)

theorem reads_counted {α : Type} {read : Reader LoadError α} {write : α → Bytes} {l : List α}
    (h : ∀ a ∈ l, Reads read (write a) a) (hlen : l.length < 2 ^ 32) :
    Reads (readTimes read (UInt32.ofNat l.length).toNat) (l.flatMap write) l := by
  rw [toNat_ofNat hlen]
  exact Reads.readTimes h

theorem reads_doc {doc : VectorDoc} (h : DocFits doc) : Reads readDoc (writeDoc doc) doc := by
  refine (reads_string h.qualifiedName).bind ((reads_string h.name).bind
    ((reads_string h.label).bind ((reads_string h.filePath).bind ((reads_u32 _).bind ?_))))
  exact (reads_counted (fun term _ => reads_term term) h.terms).bind_pure rfl

theorem reads_index {index : VectorIndex} (h : index.Fits) :
    Reads readIndex (saveIndex index) index := by
  refine (reads_u32 vectorMagic).bind ((reads_u32 vectorVersion).bind
    ((reads_u32 _).bind ((reads_u32 _).bind ?_)))
  refine (reads_counted (fun s hs => reads_string (h.term s hs)) h.vocabulary).bind ?_
  exact (reads_counted (fun doc hd => reads_doc (h.doc doc hd)) h.docs).bind_pure rfl

/-- What was saved loads, and nothing that ends earlier does. -/
theorem load_save {index : VectorIndex} (h : index.Fits) :
    loadIndex (saveIndex index) = .ok index
      ∧ ∀ file, file <+: saveIndex index → file ≠ saveIndex index →
        ∃ e, loadIndex file = .error e := by
  have hreads := reads_index h
  constructor
  · have hwhole := hreads.whole []
    rw [List.append_nil] at hwhole
    rw [loadIndex, hwhole]
    rfl
  · intro file hpre hne
    have hlt : file.length < (saveIndex index).length :=
      lt_of_le_of_ne hpre.length_le fun hlen => hne (hpre.eq_of_length hlen)
    obtain ⟨e, he⟩ := hreads.cut file hpre hlt
    refine ⟨e, ?_⟩
    rw [loadIndex, he]
    rfl

def sampleIndex : VectorIndex where
  vocabulary := ["alpha".toList, "beta".toList, "gamma".toList]
  docs :=
    [{ qualifiedName := "a::b".toList
       name := "b".toList
       label := "Function".toList
       filePath := "a".toList
       terms := [(0, ⟨0x3f000000⟩), (2, ⟨0x3fa00000⟩)] }]

theorem sampleIndex_fits : sampleIndex.Fits where
  vocabulary := by decide
  docs := by decide
  term := by decide
  doc := by
    intro doc hdoc
    obtain rfl := List.mem_singleton.mp hdoc
    exact ⟨by decide, by decide, by decide, by decide, by decide⟩

theorem load_save_sampleIndex :
    loadIndex (saveIndex sampleIndex) = .ok sampleIndex
      ∧ ∀ file, file <+: saveIndex sampleIndex → file ≠ saveIndex sampleIndex →
        ∃ e, loadIndex file = .error e :=
  load_save sampleIndex_fits

end VectorIndex

end CodeGraph
