import CodeGraph.Lib.Rounding
import CodeGraph.Lib.SortDedup
import CodeGraph.Lib.SortedJoin
import CodeGraph.Lib.Tally
import CodeGraph.VectorFormat
import Mathlib.Data.FinEnum
import Mathlib.Data.List.Lex
import Mathlib.Data.List.ReduceOption
import Mathlib.Order.Defs.LinearOrder

/-!
# The weights of the vector index

`buildIndex` weighs the terms of every document by how rare they are, and stores
only the weights. A query has to be weighed the same way, so `reconstructIdf` counts
the documents of a term again, from the stored postings. What makes the two counts
agree is that no posting is missing: a weight is at least 1/2, hence never the zero
that is left out.

The arithmetic is that of `Rounding`. A computation is `none` where the code would
divide by zero, take a logarithm of what is not positive, or index out of bounds.
-/

namespace CodeGraph

open List

/-- The rounding of `f32` and its bits. -/
structure FloatFormat extends Rounding where
  bits : ℚ → F32
  value : F32 → ℚ

/-- What is known of a symbol before its terms are weighed. -/
structure RawDoc where
  qualifiedName : Text
  name : Text
  label : Text
  filePath : Text
  tokens : List Text
  deriving DecidableEq

structure VectorResult where
  qualifiedName : Text
  name : Text
  label : Text
  filePath : Text
  score : ℚ
  deriving DecidableEq

namespace VectorIndex

open Wire (Bytes)

variable (fp : FloatFormat)

/-! ## Building -/

/-- In how many documents each term is. -/
def documentFrequency (raw : List RawDoc) : List (Text × ℕ) :=
  Tally.counts (raw.flatMap fun doc => doc.tokens.dedup)

/-- The order of the bytes of UTF-8 is that of the characters. -/
def vocabularyOf (raw : List RawDoc) : List Text :=
  SortDedup.sortByKey id ((documentFrequency raw).map Prod.fst)

def idfWeight (n d : ℕ) : Option ℚ := do
  let quotient ← fp.div (fp.ofNat n) (fp.ofNat d)
  let l ← fp.log quotient
  return fp.add l 1

/-- Of equal terms the last one counts. -/
def vocabToMap (vocabulary : List Text) : List (Text × UInt32) :=
  (vocabulary.zipIdx.map fun (t, i) => (t, UInt32.ofNat i)).reverse

def buildVocabularyIdf (raw : List RawDoc) :
    Option (List Text × List ℚ × List (Text × UInt32)) := do
  let df := documentFrequency raw
  let vocabulary := vocabularyOf raw
  let idf ← vocabulary.mapM fun term => idfWeight fp raw.length ((df.lookup term).getD 1)
  return (vocabulary, idf, vocabToMap vocabulary)

def termFrequency (tokens : List Text) : List (Text × ℕ) := Tally.counts tokens

def maxFrequency (tf : List (Text × ℕ)) : ℚ :=
  max ((tf.map fun e => fp.count e.2).foldl max 0) 1

/-- The weight of one term, when it is in the vocabulary and its weight is not zero. -/
def termWeight (termIdOf : List (Text × UInt32)) (idf : List ℚ) (maxTf : ℚ)
    (entry : Text × ℕ) : Option (Option (UInt32 × ℚ)) :=
  match termIdOf.lookup entry.1 with
  | none => some none
  | some id => do
      let share ← fp.div (fp.count entry.2) maxTf
      let normTf := fp.add (1 / 2) (fp.mul (1 / 2) share)
      let idfOf ← idf[id.toNat]?
      let w := fp.mul normTf idfOf
      return if w ≠ 0 then some (id, w) else none

def computeSparseTfIdf (tokens : List Text) (termIdOf : List (Text × UInt32)) (idf : List ℚ) :
    Option (List (UInt32 × ℚ)) := do
  let tf := termFrequency tokens
  let weights ← tf.mapM (termWeight fp termIdOf idf (maxFrequency fp tf))
  return SortDedup.sortByKey (fun e => e.1.toNat) weights.reduceOption

def buildDoc (termIdOf : List (Text × UInt32)) (idf : List ℚ) (doc : RawDoc) :
    Option VectorDoc := do
  let terms ← computeSparseTfIdf fp doc.tokens termIdOf idf
  return { qualifiedName := doc.qualifiedName, name := doc.name, label := doc.label
           filePath := doc.filePath, terms := terms.map fun (id, w) => (id, fp.bits w) }

def indexOf (raw : List RawDoc) : Option (VectorIndex × List ℚ) := do
  let (vocabulary, idf, termIdOf) ← buildVocabularyIdf fp raw
  let docs ← raw.mapM (buildDoc fp termIdOf idf)
  return ({ docs, vocabulary }, idf)

/-- The file that is written; without documents there is none. -/
def buildIndex (raw : List RawDoc) : Option (Option Bytes) :=
  if raw.isEmpty then some none
  else do
    let (index, _) ← indexOf fp raw
    return some (saveIndex index)

/-! ## Querying -/

def bump (df : List ℕ) (id : UInt32) : Option (List ℕ) :=
  if id.toNat < df.length then some (df.modify id.toNat (· + 1)) else none

def reconstructIdf (index : VectorIndex) : Option (List ℚ) := do
  let df ← (index.docs.flatMap fun doc => doc.terms.map Prod.fst).foldlM bump
    (List.replicate index.vocabulary.length 0)
  df.mapM fun d => idfWeight fp index.docs.length (max d 1)

def sparseNorm (v : List (UInt32 × ℚ)) : ℚ := fp.root (fp.sum (v.map fun e => fp.mul e.2 e.2))

/-- One pass over two vectors that are sorted by id. -/
def dotProduct (query doc : List (UInt32 × ℚ)) (dot : ℚ) : ℚ :=
  match query, doc with
  | [], _ => dot
  | _, [] => dot
  | (qi, qw) :: query, (dj, dw) :: doc =>
      if qi = dj then dotProduct query doc (fp.add dot (fp.mul qw dw))
      else if qi < dj then dotProduct query ((dj, dw) :: doc) dot
      else dotProduct ((qi, qw) :: query) doc dot
  termination_by query.length + doc.length

def tinyNorm : ℚ := fp.round (1 / 10 ^ 10)

def sparseCosine (query : List (UInt32 × ℚ)) (queryNorm : ℚ) (doc : List (UInt32 × ℚ)) :
    Option ℚ :=
  if query.isEmpty || doc.isEmpty then some 0
  else
    let dot := dotProduct fp query doc 0
    let docNorm := sparseNorm fp doc
    if queryNorm < tinyNorm fp ∨ docNorm < tinyNorm fp then some 0
    else fp.div dot (fp.mul queryNorm docNorm)

def queryTerms (index : VectorIndex) (queryTokens : List Text) : Option (List (UInt32 × ℚ)) := do
  let idf ← reconstructIdf fp index
  computeSparseTfIdf fp queryTokens (vocabToMap index.vocabulary) idf

def docValues (doc : VectorDoc) : List (UInt32 × ℚ) :=
  doc.terms.map fun (id, w) => (id, fp.value w)

/-- The documents that share a term with the query, the most similar first. -/
def queryDocs (index : VectorIndex) (queryTokens : List Text) (limit : ℕ) :
    Option (List VectorResult) :=
  if index.docs.isEmpty then some []
  else do
    let terms ← queryTerms fp index queryTokens
    let queryNorm := sparseNorm fp terms
    if queryNorm < tinyNorm fp then return []
    let scored ← index.docs.mapM fun doc => do
      let score ← sparseCosine fp terms queryNorm (docValues fp doc)
      return (doc, score)
    let sorted := (scored.filter fun e => 0 < e.2).insertionSort fun a b => b.2 ≤ a.2
    return (sorted.take limit).map fun (doc, score) =>
      { qualifiedName := doc.qualifiedName, name := doc.name, label := doc.label
        filePath := doc.filePath, score }

def queryIndex (file : Option Bytes) (queryTokens : List Text) (limit : ℕ) :
    Option (Except LoadError (List VectorResult)) :=
  match file with
  | none => some (.ok [])
  | some file =>
      match loadIndex file with
      | .error e => some (.error e)
      | .ok index => Except.ok <$> queryDocs fp index queryTokens limit

/-! ## Counting -/

/-- The documents a term is in. -/
def docCount (raw : List RawDoc) (t : Text) : ℕ := raw.countP fun doc => t ∈ doc.tokens

variable {t : Text}

theorem mem_keys_documentFrequency {raw : List RawDoc} :
    t ∈ (documentFrequency raw).map Prod.fst ↔ ∃ doc ∈ raw, t ∈ doc.tokens := by
  rw [documentFrequency, Tally.mem_keys_counts]
  simp

theorem count_flatMap_dedup (raw : List RawDoc) (t : Text) :
    (raw.flatMap fun doc => doc.tokens.dedup).count t = docCount raw t := by
  induction raw with
  | nil => rfl
  | cons doc raw ih =>
      rw [flatMap_cons, count_append, ih, (nodup_dedup _).count, add_comm, docCount,
        docCount, countP_cons]
      simp only [mem_dedup, decide_eq_true_eq]

theorem mem_vocabularyOf {raw : List RawDoc} :
    t ∈ vocabularyOf raw ↔ ∃ doc ∈ raw, t ∈ doc.tokens := by
  rw [vocabularyOf, SortDedup.sortByKey, mem_insertionSort, mem_keys_documentFrequency]

theorem nodup_vocabularyOf (raw : List RawDoc) : (vocabularyOf raw).Nodup := by
  have hkeys : ((documentFrequency raw).map Prod.fst).Nodup :=
    (Tally.sorted_counts _).imp fun h => ne_of_lt h
  exact (perm_insertionSort _ _).nodup_iff.mpr hkeys

theorem docCount_pos {raw : List RawDoc} (h : t ∈ vocabularyOf raw) : 0 < docCount raw t := by
  obtain ⟨doc, hdoc, ht⟩ := mem_vocabularyOf.mp h
  exact countP_pos_iff.mpr ⟨doc, hdoc, decide_eq_true ht⟩

theorem docCount_le (raw : List RawDoc) (t : Text) : docCount raw t ≤ raw.length :=
  countP_le_length

theorem lookup_documentFrequency {raw : List RawDoc} (h : t ∈ vocabularyOf raw) :
    (documentFrequency raw).lookup t = some (docCount raw t) := by
  rw [documentFrequency, Tally.lookup_counts, count_flatMap_dedup]
  simpa using mem_vocabularyOf.mp h

/-! ## The weights are positive -/

/-- The value of `idfWeight` on positive counts. -/
def idfValue (n d : ℕ) : ℚ := fp.add (fp.ln (fp.round (fp.ofNat n / fp.ofNat d))) 1

variable {fp}

variable {d : ℕ}

theorem idfWeight_eq {n : ℕ} (hd : 0 < d) (hn : d ≤ n) :
    idfWeight fp n d = some (idfValue fp n d) := by
  have hdpos : 0 < fp.ofNat d := lt_of_lt_of_le one_pos (Rounding.one_le_ofNat hd)
  have hquot : 1 ≤ fp.round (fp.ofNat n / fp.ofNat d) :=
    Rounding.one_le_round ((one_le_div₀ hdpos).mpr (Rounding.ofNat_mono hn))
  rw [idfWeight, Rounding.div_of_pos hdpos, Option.bind_eq_bind, Option.bind_some,
    Rounding.log_of_pos (lt_of_lt_of_le one_pos hquot)]
  rfl

theorem one_le_idfValue {n : ℕ} (hd : 0 < d) (hn : d ≤ n) : 1 ≤ idfValue fp n d := by
  have hdpos : 0 < fp.ofNat d := lt_of_lt_of_le one_pos (Rounding.one_le_ofNat hd)
  have hquot : 1 ≤ fp.round (fp.ofNat n / fp.ofNat d) :=
    Rounding.one_le_round ((one_le_div₀ hdpos).mpr (Rounding.ofNat_mono hn))
  have hln := fp.ln_nonneg _ hquot
  exact Rounding.one_le_round (by linarith)

theorem one_le_maxFrequency (tf : List (Text × ℕ)) : 1 ≤ maxFrequency fp tf := le_max_right _ _

def weightValue (fp : FloatFormat) (maxTf idf : ℚ) (k : ℕ) : ℚ :=
  fp.mul (fp.add (1 / 2) (fp.mul (1 / 2) (fp.round (fp.count k / maxTf)))) idf

theorem half_le_weightValue (fp : FloatFormat) {maxTf idf : ℚ} (hmax : 1 ≤ maxTf) (hidf : 1 ≤ idf) (k : ℕ) :
    1 / 2 ≤ weightValue fp maxTf idf k := by
  have hshare : 0 ≤ fp.round (fp.count k / maxTf) :=
    Rounding.round_nonneg (Rat.div_nonneg (Rounding.count_nonneg k) (by linarith))
  have hmul : 0 ≤ fp.mul (1 / 2) (fp.round (fp.count k / maxTf)) :=
    Rounding.round_nonneg (by linarith)
  have hnorm : 1 / 2 ≤ fp.add (1 / 2) (fp.mul (1 / 2) (fp.round (fp.count k / maxTf))) :=
    Rounding.half_le_round (by linarith)
  exact Rounding.half_le_round (by nlinarith)

variable {idf : List ℚ} {id : UInt32}

theorem termWeight_of_lookup {termIdOf : List (Text × UInt32)} {maxTf : ℚ}
    {entry : Text × ℕ} (hlookup : termIdOf.lookup entry.1 = some id) (hmax : 1 ≤ maxTf)
    (hlt : id.toNat < idf.length) (hidf : 1 ≤ idf[id.toNat]) :
    termWeight fp termIdOf idf maxTf entry =
      some (some (id, weightValue fp maxTf idf[id.toNat] entry.2)) := by
  have hne : weightValue fp maxTf idf[id.toNat] entry.2 ≠ 0 := by
    have := half_le_weightValue fp hmax hidf entry.2
    intro h
    norm_num [h] at this
  simp only [termWeight, hlookup]
  rw [Rounding.div_of_pos (lt_of_lt_of_le one_pos hmax), getElem?_eq_getElem hlt]
  simp only [Option.bind_eq_bind, Option.bind_some]
  exact congrArg some (if_pos hne)

/-! ## The postings of a document -/

/-- The ids of the vocabulary lie within it, and no weight of it is below 1. -/
structure Weighs (termIdOf : List (Text × UInt32)) (idf : List ℚ) : Prop where
  inBounds : ∀ t id, termIdOf.lookup t = some id → id.toNat < idf.length
  one_le : ∀ w ∈ idf, 1 ≤ w

/-- Every term of the vocabulary leaves one posting. -/
theorem computeSparseTfIdf_ids (fp : FloatFormat) {termIdOf : List (Text × UInt32)}
    (h : Weighs termIdOf idf) (tokens : List Text) :
    ∃ terms, computeSparseTfIdf fp tokens termIdOf idf = some terms ∧
      (terms.map Prod.fst).Perm
        (((termFrequency tokens).map Prod.fst).filterMap (List.lookup · termIdOf)) := by
  set maxTf := maxFrequency fp (termFrequency tokens)
  have hone : 1 ≤ maxTf := one_le_maxFrequency _
  let weight (entry : Text × ℕ) : Option (UInt32 × ℚ) :=
    (termIdOf.lookup entry.1).map fun id => (id, weightValue fp maxTf (idf.getD id.toNat 0) entry.2)
  have hweight : ∀ entry ∈ termFrequency tokens,
      termWeight fp termIdOf idf maxTf entry = some (weight entry) := by
    intro entry _
    cases hlookup : termIdOf.lookup entry.1 with
    | none => simp only [termWeight, weight, hlookup, Option.map_none]
    | some id =>
        have hlt := h.inBounds entry.1 id hlookup
        rw [termWeight_of_lookup hlookup hone hlt (h.one_le _ (getElem_mem hlt))]
        simp only [weight, hlookup, Option.map_some, getD_eq_getElem?_getD,
          getElem?_eq_getElem hlt, Option.getD_some]
  refine ⟨_, by rw [computeSparseTfIdf, mapM_eq_pure hweight]; rfl, ?_⟩
  have hsort := ((perm_insertionSort (fun a b : UInt32 × ℚ => a.1.toNat ≤ b.1.toNat)
    ((termFrequency tokens).map weight).reduceOption).map Prod.fst)
  refine hsort.trans (List.Perm.of_eq ?_)
  rw [List.reduceOption, filterMap_map, map_filterMap, filterMap_map]
  refine filterMap_congr ?_
  intro entry _
  cases hlookup : termIdOf.lookup entry.1 <;> simp [weight, hlookup]

theorem mem_vocabToMap {vocabulary : List Text} :
    (t, id) ∈ vocabToMap vocabulary ↔ ∃ i, vocabulary[i]? = some t ∧ UInt32.ofNat i = id := by
  simp only [vocabToMap, mem_reverse, mem_map, Prod.exists, Prod.mk.injEq,
    mk_mem_zipIdx_iff_getElem?]
  constructor
  · rintro ⟨t', i, hi, rfl, rfl⟩
    exact ⟨i, hi, rfl⟩
  · rintro ⟨i, hi, rfl⟩
    exact ⟨t, i, hi, rfl, rfl⟩

theorem lookup_vocabToMap {vocabulary : List Text} (hnodup : vocabulary.Nodup) : (vocabToMap vocabulary).lookup t = some id ↔
      ∃ i, vocabulary[i]? = some t ∧ UInt32.ofNat i = id := by
  have hkeys : (vocabToMap vocabulary).map Prod.fst = vocabulary.reverse := by
    rw [vocabToMap, map_reverse, map_map]
    exact congrArg List.reverse (zipIdx_map_fst 0 vocabulary)
  rw [Tally.lookup_eq_some_iff_mem (by rw [hkeys]; exact nodup_reverse.mpr hnodup),
    mem_vocabToMap]

/-! ## The index that is built -/

/-- The idf of a corpus, term by term. -/
def idfOf (fp : FloatFormat) (raw : List RawDoc) : List ℚ :=
  (vocabularyOf raw).map fun t => idfValue fp raw.length (docCount raw t)

theorem buildVocabularyIdf_eq (raw : List RawDoc) :
    buildVocabularyIdf fp raw =
      some (vocabularyOf raw, idfOf fp raw, vocabToMap (vocabularyOf raw)) := by
  have hmap : (vocabularyOf raw).mapM (fun term => idfWeight fp raw.length
      (((documentFrequency raw).lookup term).getD 1)) = some (idfOf fp raw) := by
    refine mapM_eq_pure fun t ht => ?_
    rw [lookup_documentFrequency ht, Option.getD_some, idfWeight_eq (docCount_pos ht)
      (docCount_le raw t)]
    rfl
  rw [buildVocabularyIdf]
  simp only [hmap]
  rfl

theorem weighs_idfOf (raw : List RawDoc) :
    Weighs (vocabToMap (vocabularyOf raw)) (idfOf fp raw) where
  inBounds := by
    intro t id hid
    obtain ⟨i, hi, rfl⟩ := (lookup_vocabToMap (nodup_vocabularyOf raw)).mp hid
    obtain ⟨hlt, -⟩ := List.getElem?_eq_some_iff.mp hi
    rw [idfOf, List.length_map, UInt32.toNat_ofNat']
    exact (Nat.mod_le _ _).trans_lt hlt
  one_le := by
    intro w hw
    obtain ⟨t, ht, rfl⟩ := mem_map.mp hw
    exact one_le_idfValue (docCount_pos ht) (docCount_le raw t)

/-- The ids of the terms of a document, in the vocabulary of a corpus. -/
def idsOf (raw : List RawDoc) (tokens : List Text) : List UInt32 :=
  ((termFrequency tokens).map Prod.fst).filterMap (List.lookup · (vocabToMap (vocabularyOf raw)))

/-- A stored document has one posting for every term of its source. -/
def HasPostings (raw : List RawDoc) (doc : RawDoc) (d : VectorDoc) : Prop :=
  (d.terms.map Prod.fst).Perm (idsOf raw doc.tokens)

structure Built (raw : List RawDoc) (index : VectorIndex) : Prop where
  vocabulary : index.vocabulary = vocabularyOf raw
  docs : List.Forall₂ (HasPostings raw) raw index.docs

theorem indexOf_built (fp : FloatFormat) (raw : List RawDoc) :
    ∃ index, indexOf fp raw = some (index, idfOf fp raw) ∧ Built raw index := by
  choose terms hterms hids using fun doc : RawDoc =>
    computeSparseTfIdf_ids fp (weighs_idfOf raw) doc.tokens
  let built (doc : RawDoc) : VectorDoc :=
    { qualifiedName := doc.qualifiedName, name := doc.name, label := doc.label
      filePath := doc.filePath, terms := (terms doc).map fun (id, w) => (id, fp.bits w) }
  have hdocs : raw.mapM (buildDoc fp (vocabToMap (vocabularyOf raw)) (idfOf fp raw)) =
      some (raw.map built) := by
    refine mapM_eq_pure fun doc _ => ?_
    rw [buildDoc, hterms doc]
    rfl
  refine ⟨⟨raw.map built, vocabularyOf raw⟩, ?_, rfl, ?_⟩
  · rw [indexOf, buildVocabularyIdf_eq]
    simp only [Option.bind_eq_bind, Option.bind_some, hdocs]
    rfl
  · refine List.forall₂_map_right_iff.mpr (List.forall₂_same.mpr fun doc _ => ?_)
    rw [HasPostings, map_map]
    exact hids doc

/-! ## Counting the postings again -/

theorem foldlM_bump {ids : List UInt32} {df : List ℕ} (h : ∀ id ∈ ids, id.toNat < df.length) :
    ids.foldlM bump df = some (df.mapIdx fun i d => d + (ids.map UInt32.toNat).count i) := by
  induction ids generalizing df with
  | nil => exact congrArg some (ext_getElem (by simp) (by simp))
  | cons id ids ih =>
      have hid := h id mem_cons_self
      rw [foldlM_cons, bump, if_pos hid, Option.bind_eq_bind, Option.bind_some, ih]
      · refine congrArg some (ext_getElem (by simp) ?_)
        intro i hi hi'
        simp only [getElem_mapIdx, getElem_modify, map_cons, count_cons,
          beq_iff_eq]
        split <;> omega
      · intro id' hid'
        rw [length_modify]
        exact h id' (mem_cons_of_mem _ hid')

section

variable {raw : List RawDoc}

theorem nodup_idsOf (h : (vocabularyOf raw).length ≤ 2 ^ 32) (tokens : List Text) :
    (idsOf raw tokens).Nodup := by
  have hkeys : ((termFrequency tokens).map Prod.fst).Nodup :=
    (Tally.sorted_counts tokens).imp ne_of_lt
  refine hkeys.filterMap ?_
  intro t t' id ht ht'
  obtain ⟨i, hi, rfl⟩ := (lookup_vocabToMap (nodup_vocabularyOf raw)).mp ht
  obtain ⟨j, hj, hij⟩ := (lookup_vocabToMap (nodup_vocabularyOf raw)).mp ht'
  have hilt := (List.getElem?_eq_some_iff.mp hi).1
  have hjlt := (List.getElem?_eq_some_iff.mp hj).1
  have heq := congrArg UInt32.toNat hij
  rw [toNat_ofNat (by omega), toNat_ofNat (by omega)] at heq
  rw [heq, hi] at hj
  exact Option.some.inj hj

variable {i : ℕ}

theorem count_idsOf (h : (vocabularyOf raw).length ≤ 2 ^ 32) (tokens : List Text) (ht : (vocabularyOf raw)[i]? = some t) :
    ((idsOf raw tokens).map UInt32.toNat).count i = if t ∈ tokens then 1 else 0 := by
  rw [((nodup_idsOf h tokens).map fun _ _ => UInt32.toNat.inj).count]
  refine if_congr ?_ rfl rfl
  rw [mem_map]
  constructor
  · rintro ⟨id, hid, rfl⟩
    obtain ⟨t', ht', hlookup⟩ := mem_filterMap.mp hid
    obtain ⟨j, hj, rfl⟩ := (lookup_vocabToMap (nodup_vocabularyOf raw)).mp hlookup
    have hjlt := (List.getElem?_eq_some_iff.mp hj).1
    rw [toNat_ofNat (by omega), hj] at ht
    rw [← Option.some.inj ht]
    exact Tally.mem_keys_counts.mp ht'
  · intro hmem
    have hlt := (List.getElem?_eq_some_iff.mp ht).1
    refine ⟨UInt32.ofNat i, List.mem_filterMap.mpr ⟨t, Tally.mem_keys_counts.mpr hmem, ?_⟩, ?_⟩
    · exact (lookup_vocabToMap (nodup_vocabularyOf raw)).mpr ⟨i, ht, rfl⟩
    · exact toNat_ofNat (by omega)

/-- The ids of the postings of an index, document by document. -/
def postingIds (index : VectorIndex) : List UInt32 :=
  index.docs.flatMap fun doc => doc.terms.map Prod.fst

variable {index : VectorIndex}

theorem postingIds_inBounds (hbuilt : Built raw index) :
    ∀ id ∈ postingIds index, id.toNat < index.vocabulary.length := by
  intro id hid
  obtain ⟨d, hd, hid⟩ := mem_flatMap.mp hid
  obtain ⟨i, hi, rfl⟩ := mem_iff_getElem.mp hd
  have hraw : i < raw.length := by rw [hbuilt.docs.length_eq]; exact hi
  have hperm := List.Forall₂.get hbuilt.docs hraw hi
  obtain ⟨t, -, hlookup⟩ := mem_filterMap.mp (hperm.mem_iff.mp hid)
  obtain ⟨j, hj, rfl⟩ := (lookup_vocabToMap (nodup_vocabularyOf raw)).mp hlookup
  rw [UInt32.toNat_ofNat', hbuilt.vocabulary]
  exact (Nat.mod_le _ _).trans_lt (List.getElem?_eq_some_iff.mp hj).1

theorem foldlM_postingIds (hbuilt : Built raw index) :
    (postingIds index).foldlM bump (List.replicate index.vocabulary.length 0) =
      some ((List.range index.vocabulary.length).map
        ((postingIds index).map UInt32.toNat).count) := by
  rw [foldlM_bump fun id hid => by
    rw [length_replicate]
    exact postingIds_inBounds hbuilt id hid]
  refine congrArg some (ext_getElem (by simp) ?_)
  intro i hi hi'
  rw [getElem_mapIdx, getElem_replicate, zero_add, getElem_map, getElem_range]

theorem count_flatMap_postings (h : (vocabularyOf raw).length ≤ 2 ^ 32)
    (ht : (vocabularyOf raw)[i]? = some t) {sources : List RawDoc} {docs : List VectorDoc}
    (hdocs : List.Forall₂ (HasPostings raw) sources docs) :
    ((docs.flatMap fun doc => doc.terms.map Prod.fst).map UInt32.toNat).count i =
      docCount sources t := by
  induction hdocs with
  | nil => rfl
  | cons hdoc _ ih =>
      rw [flatMap_cons, map_append, count_append, ih,
        (hdoc.map UInt32.toNat).count_eq, count_idsOf h _ ht, docCount, docCount, countP_cons,
        add_comm]
      simp only [decide_eq_true_eq]

theorem count_postingIds (h : (vocabularyOf raw).length ≤ 2 ^ 32)
    (hbuilt : Built raw index) (ht : (vocabularyOf raw)[i]? = some t) :
    ((postingIds index).map UInt32.toNat).count i = docCount raw t :=
  count_flatMap_postings h ht hbuilt.docs

theorem reconstructIdf_built (h : (vocabularyOf raw).length ≤ 2 ^ 32)
    (hbuilt : Built raw index) : reconstructIdf fp index = some (idfOf fp raw) := by
  have hdf : (postingIds index).foldlM bump (List.replicate index.vocabulary.length 0) =
      some ((vocabularyOf raw).map (docCount raw)) := by
    rw [foldlM_postingIds hbuilt]
    refine congrArg some (ext_getElem (by simp [hbuilt.vocabulary]) ?_)
    intro i hi hi'
    rw [length_map] at hi'
    rw [getElem_map, getElem_range, getElem_map]
    exact count_postingIds h hbuilt (getElem?_eq_getElem hi')
  have hlen : index.docs.length = raw.length := hbuilt.docs.length_eq.symm
  rw [reconstructIdf, ← postingIds, hdf, Option.bind_eq_bind, Option.bind_some,
    mapM_eq_pure (g := idfValue fp raw.length), map_map]
  · rfl
  · intro d hd
    obtain ⟨t, ht, rfl⟩ := mem_map.mp hd
    rw [hlen, max_eq_left (docCount_pos ht), idfWeight_eq (docCount_pos ht) (docCount_le raw t)]
    rfl

end

/-! ## The query -/

theorem pow_le_tinyNorm (fp : FloatFormat) : (1 / 2) ^ 34 ≤ tinyNorm fp :=
  Rounding.pow_le_round (by omega) (by norm_num)

theorem sparseCosine_defined (fp : FloatFormat) (query : List (UInt32 × ℚ)) (queryNorm : ℚ)
    (doc : List (UInt32 × ℚ)) : ∃ score, sparseCosine fp query queryNorm doc = some score := by
  unfold sparseCosine
  split
  · exact ⟨0, rfl⟩
  · dsimp only
    split
    · exact ⟨0, rfl⟩
    · next hnorms =>
      obtain ⟨hquery, hdoc⟩ := not_or.mp hnorms
      have htiny := pow_le_tinyNorm fp
      have hquery : (1 / 2) ^ 34 ≤ queryNorm := htiny.trans (not_lt.mp hquery)
      have hdoc : (1 / 2) ^ 34 ≤ sparseNorm fp doc := htiny.trans (not_lt.mp hdoc)
      have hmul : (1 / 2) ^ 68 ≤ fp.mul queryNorm (sparseNorm fp doc) := by
        refine Rounding.pow_le_round (by omega) ?_
        calc (1 / 2 : ℚ) ^ 68 = (1 / 2) ^ 34 * (1 / 2) ^ 34 := by norm_num
          _ ≤ queryNorm * sparseNorm fp doc :=
            mul_le_mul hquery hdoc (by norm_num) (le_trans (by norm_num) hquery)
      exact ⟨_, Rounding.div_of_pos (lt_of_lt_of_le (by norm_num) hmul)⟩

theorem queryDocs_defined {index : VectorIndex} (hidf : reconstructIdf fp index = some idf)
    (hweighs : Weighs (vocabToMap index.vocabulary) idf) (queryTokens : List Text) (limit : ℕ) :
    ∃ results, queryDocs fp index queryTokens limit = some results := by
  obtain ⟨terms, hterms, -⟩ := computeSparseTfIdf_ids fp hweighs queryTokens
  have hquery : queryTerms fp index queryTokens = some terms := by
    rw [queryTerms, hidf]
    exact hterms
  choose score hscore using fun doc : VectorDoc =>
    sparseCosine_defined fp terms (sparseNorm fp terms) (docValues fp doc)
  rw [queryDocs, hquery]
  split
  · exact ⟨[], rfl⟩
  · simp only [Option.bind_eq_bind, Option.bind_some]
    split
    · exact ⟨[], rfl⟩
    · rw [mapM_eq_pure fun doc _ => by rw [hscore, Option.bind_some]]
      exact ⟨_, rfl⟩

/-- A query is weighed by the idf the documents were weighed by, before and after the
index was saved, and nothing it computes is undefined. -/
theorem reconstructIdf_agrees (fp : FloatFormat) (raw : List RawDoc)
    (h : (vocabularyOf raw).length ≤ 2 ^ 32) :
    ∃ index idf, indexOf fp raw = some (index, idf)
      ∧ reconstructIdf fp index = some idf
      ∧ (∀ queryTokens, ∃ terms,
          computeSparseTfIdf fp queryTokens (vocabToMap index.vocabulary) idf = some terms
          ∧ queryTerms fp index queryTokens = some terms)
      ∧ (∀ queryTokens limit, ∃ results, queryDocs fp index queryTokens limit = some results)
      ∧ (index.Fits → ∃ loaded, loadIndex (saveIndex index) = .ok loaded
          ∧ reconstructIdf fp loaded = some idf
          ∧ ∀ queryTokens, queryTerms fp loaded queryTokens = queryTerms fp index queryTokens) := by
  obtain ⟨index, hindex, hbuilt⟩ := indexOf_built fp raw
  have hidf : reconstructIdf fp index = some (idfOf fp raw) := reconstructIdf_built h hbuilt
  have hweighs : Weighs (vocabToMap index.vocabulary) (idfOf fp raw) := by
    rw [hbuilt.vocabulary]
    exact weighs_idfOf raw
  refine ⟨index, idfOf fp raw, hindex, hidf, ?_, queryDocs_defined hidf hweighs, ?_⟩
  · intro queryTokens
    obtain ⟨terms, hterms, -⟩ := computeSparseTfIdf_ids fp hweighs queryTokens
    refine ⟨terms, hterms, ?_⟩
    rw [queryTerms, hidf]
    exact hterms
  · intro hfits
    have hload := (reads_index hfits).whole []
    rw [append_nil] at hload
    refine ⟨index, ?_, hidf, fun _ => rfl⟩
    rw [loadIndex, hload]
    rfl

def exactFormat : FloatFormat where
  toRounding := Rounding.exact
  bits q := if q = 1 then ⟨0x3f800000⟩ else ⟨0⟩
  value w := if w = ⟨0x3f800000⟩ then 1 else 0

def corpusOf (tokens : List Text) : List RawDoc :=
  [{ qualifiedName := "a::b".toList, name := "b".toList, label := "Function".toList
     filePath := "a".toList, tokens }]

theorem perm_vocabularyOf_corpusOf {tokens : List Text} (hnodup : tokens.Nodup) :
    (vocabularyOf (corpusOf tokens)).Perm tokens := by
  refine (perm_ext_iff_of_nodup (nodup_vocabularyOf _) hnodup).mpr fun t => ?_
  rw [mem_vocabularyOf, corpusOf]
  simp

theorem postingIds_corpusOf {tokens : List Text} {index : VectorIndex}
    (hbuilt : Built (corpusOf tokens) index) :
    (postingIds index).Perm (idsOf (corpusOf tokens) tokens) := by
  obtain ⟨d, rest, hdoc, hrest, hdocs⟩ := List.forall₂_cons_left_iff.mp hbuilt.docs
  rw [postingIds, hdocs, List.forall₂_nil_left_iff.mp hrest, flatMap_singleton]
  exact hdoc

theorem reconstructIdf_agrees_small :
    ∃ index idf, indexOf exactFormat (corpusOf ["b".toList]) = some (index, idf)
      ∧ reconstructIdf exactFormat index = some idf
      ∧ (∀ queryTokens, ∃ terms, computeSparseTfIdf exactFormat queryTokens
          (vocabToMap index.vocabulary) idf = some terms
          ∧ queryTerms exactFormat index queryTokens = some terms)
      ∧ (∀ queryTokens limit, ∃ results,
          queryDocs exactFormat index queryTokens limit = some results)
      ∧ (index.Fits → ∃ loaded, loadIndex (saveIndex index) = .ok loaded
          ∧ reconstructIdf exactFormat loaded = some idf
          ∧ ∀ queryTokens, queryTerms exactFormat loaded queryTokens =
              queryTerms exactFormat index queryTokens) := by
  refine reconstructIdf_agrees exactFormat (corpusOf ["b".toList]) ?_
  rw [(perm_vocabularyOf_corpusOf (by simp)).length_eq]
  norm_num

/-- A document with one term more than there are ids. -/
def wideTokens : List Text := (List.range (2 ^ 32 + 1)).map (Nat.toDigits 10)

theorem nodup_wideTokens : wideTokens.Nodup := by
  refine nodup_range.map fun m n h => ?_
  rw [← @Nat.ofDigitChars_ten_toDigits m, h, Nat.ofDigitChars_ten_toDigits]

theorem length_vocabularyOf_wideTokens :
    (vocabularyOf (corpusOf wideTokens)).length = 2 ^ 32 + 1 := by
  rw [(perm_vocabularyOf_corpusOf nodup_wideTokens).length_eq, wideTokens, length_map,
    length_range]

theorem two_le_count_idsOf_wideTokens :
    2 ≤ ((idsOf (corpusOf wideTokens) wideTokens).map UInt32.toNat).count 0 := by
  have hnodup := nodup_vocabularyOf (corpusOf wideTokens)
  have hlen := length_vocabularyOf_wideTokens
  set v := vocabularyOf (corpusOf wideTokens) with hv
  have hmem : ∀ t ∈ v, t ∈ (termFrequency wideTokens).map Prod.fst := fun t ht =>
    Tally.mem_keys_counts.mpr ((perm_vocabularyOf_corpusOf nodup_wideTokens).mem_iff.mp ht)
  have hget : ∀ i < v.length, ∃ t, v[i]? = some t := fun i hi =>
    ⟨v[i], getElem?_eq_getElem hi⟩
  obtain ⟨first, hfirst⟩ := hget 0 (by omega)
  obtain ⟨last, hlast⟩ := hget (2 ^ 32) (by omega)
  have hne : last ≠ first := by
    rintro rfl
    have := (getElem?_inj (by omega) hnodup).mp (hfirst.trans hlast.symm)
    omega
  let idOf (t : Text) : Option UInt32 := (vocabToMap v).lookup t
  have hfirstId : idOf first = some 0 :=
    (lookup_vocabToMap hnodup).mpr ⟨0, hfirst, rfl⟩
  have hlastId : idOf last = some 0 :=
    (lookup_vocabToMap hnodup).mpr ⟨2 ^ 32, hlast, UInt32.toNat.inj (by
      rw [UInt32.toNat_ofNat', UInt32.toNat_zero, Nat.mod_self])⟩
  have hkeys := perm_cons_erase (hmem first (mem_of_getElem? hfirst))
  have hrest := perm_cons_erase
    ((mem_erase_of_ne hne).mpr (hmem last (mem_of_getElem? hlast)))
  have hids := (hkeys.trans (hrest.cons first)).filterMap idOf
  rw [idsOf, ← hv, (hids.map UInt32.toNat).count_eq,
    filterMap_cons_some (f := idOf) hfirstId, filterMap_cons_some (f := idOf) hlastId,
    map_cons, map_cons, UInt32.toNat_zero, count_cons_self, count_cons_self]
  omega

theorem idfValue_exactFormat (d : ℕ) :
    idfValue exactFormat 1 d = exactFormat.ln (1 / d) + 1 := by
  simp [idfValue, exactFormat, Rounding.exact, Rounding.add, Rounding.ofNat]

theorem idfWeight_exactFormat (hd : 0 < d) :
    idfWeight exactFormat 1 d = some (idfValue exactFormat 1 d) := by
  have hpos : 0 < exactFormat.ofNat d := lt_of_lt_of_le one_pos (Rounding.one_le_ofNat hd)
  have hquot : 0 < exactFormat.round (exactFormat.ofNat 1 / exactFormat.ofNat d) :=
    div_pos (lt_of_lt_of_le one_pos (Rounding.one_le_ofNat one_pos)) hpos
  rw [idfWeight, Rounding.div_of_pos hpos, Option.bind_eq_bind, Option.bind_some,
    Rounding.log_of_pos hquot]
  rfl

theorem idfValue_exactFormat_ne (hd : 2 ≤ d) :
    idfValue exactFormat 1 d ≠ idfValue exactFormat 1 1 := by
  have hpos : (0 : ℚ) < d := by exact_mod_cast (by omega : 0 < d)
  have hone : (1 : ℚ) / d ≠ 1 := by
    rw [Ne, div_eq_one_iff_eq hpos.ne']
    exact_mod_cast (by omega : 1 ≠ d)
  rw [idfValue_exactFormat, idfValue_exactFormat]
  simp only [exactFormat, Rounding.exact]
  split
  · norm_num
  · norm_num
    intro h
    exact hone (by rw [one_div]; linarith)

/-- The first term is counted twice. -/
theorem wideTokens_idf_differs :
    ∃ index idf, indexOf exactFormat (corpusOf wideTokens) = some (index, idf)
      ∧ reconstructIdf exactFormat index ≠ some idf := by
  obtain ⟨index, hindex, hbuilt⟩ := indexOf_built exactFormat (corpusOf wideTokens)
  refine ⟨index, _, hindex, ?_⟩
  intro hrec
  have hlen : 0 < (vocabularyOf (corpusOf wideTokens)).length := by
    rw [length_vocabularyOf_wideTokens]
    omega
  have hcount : 2 ≤ ((postingIds index).map UInt32.toNat).count 0 := by
    rw [((postingIds_corpusOf hbuilt).map UInt32.toNat).count_eq]
    exact two_le_count_idsOf_wideTokens
  have hdocs : index.docs.length = 1 := hbuilt.docs.length_eq.symm
  have hweights : ∀ df : List ℕ, (df.mapM fun d => idfWeight exactFormat index.docs.length
      (max d 1)) = some (df.map fun d => idfValue exactFormat 1 (max d 1)) := by
    intro df
    refine mapM_eq_pure fun d _ => ?_
    rw [hdocs, idfWeight_exactFormat (by omega)]
    rfl
  rw [reconstructIdf, ← postingIds, foldlM_postingIds hbuilt, Option.bind_eq_bind,
    Option.bind_some, hweights, map_map, hbuilt.vocabulary] at hrec
  have hhead := congrArg (fun l => l[0]?) (Option.some.inj hrec)
  have hone : docCount (corpusOf wideTokens) (vocabularyOf (corpusOf wideTokens))[0] = 1 :=
    le_antisymm (docCount_le _ _) (docCount_pos (getElem_mem hlen))
  rw [getElem?_map, getElem?_range hlen, idfOf, getElem?_map,
    getElem?_eq_getElem hlen, Option.map_some, Option.map_some, hone] at hhead
  exact idfValue_exactFormat_ne (le_max_of_le_left hcount) (Option.some.inj hhead)

end VectorIndex

end CodeGraph

/-!
## The cosine of two sparse vectors

The merge loop of `sparse_cosine` takes the terms that both vectors hold, each once and in
ascending order, whatever the rounding; in exact arithmetic what it adds up is the dot product
over all terms.
-/

namespace CodeGraph

instance instLinearOrderUInt32 : LinearOrder UInt32 where
  le_refl := UInt32.le_refl
  le_trans _ _ _ := UInt32.le_trans
  le_antisymm _ _ := UInt32.le_antisymm
  le_total := UInt32.le_total
  lt_iff_le_not_ge _ _ := by
    rw [UInt32.lt_iff_toNat_lt, UInt32.le_iff_toNat_le, UInt32.le_iff_toNat_le]
    omega
  toDecidableLE := inferInstance

namespace VectorIndex

open SortedJoin

structure SparseTerms where
  terms : List (UInt32 × ℚ)
  ascending : Ascending terms

/-- The weight of a term, zero for one that the vector does not hold. -/
def SparseTerms.weight (v : SparseTerms) (term : UInt32) : ℚ := valueAt v.terms term

/-- The loop goes over the shared terms. -/
theorem dotProduct_eq_foldl (fp : FloatFormat) (query doc : List (UInt32 × ℚ)) (dot : ℚ) :
    dotProduct fp query doc dot =
      (join query doc).foldl (fun dot e => fp.add dot (fp.mul e.2.1 e.2.2)) dot := by
  fun_induction dotProduct fp query doc dot with
  | case1 doc => rw [join, List.foldl_nil]
  | case2 query => cases query <;> simp only [join, List.foldl_nil]
  | case3 dot qi qw query dw doc ih => rw [ih, join, if_pos rfl, List.foldl_cons]
  | case4 dot qi qw query dj dw doc hne hlt ih => rw [ih, join, if_neg hne, if_pos hlt]
  | case5 dot qi qw query dj dw doc hne hlt ih => rw [ih, join, if_neg hne, if_neg hlt]

theorem foldl_exact (l : List (UInt32 × ℚ × ℚ)) (dot : ℚ) :
    l.foldl (fun dot e => exactFormat.add dot (exactFormat.mul e.2.1 e.2.2)) dot =
      dot + (l.map fun e => e.2.1 * e.2.2).sum := by
  induction l generalizing dot with
  | nil => simp
  | cons e l ih =>
      rw [List.foldl_cons, ih, List.map_cons, List.sum_cons, ← add_assoc]
      rfl

/-- In exact arithmetic the loop computes the dot product over all terms; in any arithmetic
it takes each term that both vectors hold, once and in ascending order, and no other. -/
theorem dotProduct_dense (query doc : SparseTerms) :
    dotProduct exactFormat query.terms doc.terms 0 = ∑ term, query.weight term * doc.weight term ∧
      (∀ (fp : FloatFormat) (dot : ℚ), dotProduct fp query.terms doc.terms dot =
        (join query.terms doc.terms).foldl (fun dot e => fp.add dot (fp.mul e.2.1 e.2.2)) dot) ∧
      Ascending (join query.terms doc.terms) ∧
      ∀ term qw dw, (term, qw, dw) ∈ join query.terms doc.terms ↔
        (term, qw) ∈ query.terms ∧ (term, dw) ∈ doc.terms := by
  refine ⟨?_, fun fp dot => dotProduct_eq_foldl fp _ _ dot,
    ascending_join query.ascending doc.ascending,
    fun term qw dw => mem_join query.ascending doc.ascending⟩
  rw [dotProduct_eq_foldl, foldl_exact, zero_add, sum_join query.ascending doc.ascending]
  rfl

end VectorIndex

end CodeGraph
