import CodeGraph.Text

/-!
# Node ids

The originating file, and the caller of a call site, read off an id.
-/

namespace CodeGraph

/-- All recognised source-file extensions, in the order they are tried. -/
def allExtensions : List Text :=
  ["rs", "py", "ts", "tsx", "java", "kt", "kts", "swift", "m", "mm", "c", "h", "cc", "cpp", "cxx",
    "c++", "hh", "hpp", "hxx", "ipp", "go", "js", "jsx", "mjs", "cjs", "rb"].map String.toList

/-- The file path at the front of an id `<file_path>.<ext>::<rest>`. -/
def extractFilePrefix (id : Text) : Option Text :=
  allExtensions.findSome? fun ext =>
    (breakOn ('.' :: ext ++ "::".toList) id).map fun (before, _) => before ++ '.' :: ext

/-- The caller in the id of a call site, `caller_qn::call@line:col`. -/
def extractCallerFromCallsiteId (id : Text) : Text :=
  (beforeLast "::call@".toList id).getD id

/-- The file an id is of, the whole id when no known extension marks it. -/
def extractFilePrefixOrSelf (id : Text) : Text := (extractFilePrefix id).getD id

/-! ## Searching from the right -/

theorem beforeLast_append_isPrefix {pat : Text} : ∀ {text before : Text},
    beforeLast pat text = some before → before ++ pat <+: text
  | [], before, h => by
      obtain ⟨rest, hrest, rfl⟩ := Option.map_eq_some_iff.mp h
      exact ⟨rest, (stripPrefix_eq hrest).symm⟩
  | c :: text, before, h => by
      rw [beforeLast] at h
      split at h
      next before' hrest =>
        cases h
        exact List.cons_prefix_cons.mpr ⟨rfl, beforeLast_append_isPrefix hrest⟩
      next =>
        obtain ⟨rest, hrest, rfl⟩ := Option.map_eq_some_iff.mp h
        exact ⟨rest, (stripPrefix_eq hrest).symm⟩

theorem beforeLast_isPrefix {pat text before : Text} (h : beforeLast pat text = some before) :
    before <+: text := (List.prefix_append before pat).trans (beforeLast_append_isPrefix h)

theorem lastPiece_isSuffix (pat text : Text) :
    lastPiece pat text = text ∨ pat ++ lastPiece pat text <:+ text := by
  rw [lastPiece]
  cases h : beforeLast pat text with
  | none => exact .inl rfl
  | some before =>
      right
      obtain ⟨rest, rfl⟩ := beforeLast_append_isPrefix h
      dsimp only
      rw [← List.length_append, List.drop_left, List.append_assoc]
      exact List.suffix_append _ _

theorem beforeLast_eq_none {pat text : Text} (h : ¬ pat <:+: text) :
    beforeLast pat text = none := by
  induction text with
  | nil =>
      rw [beforeLast, Option.map_eq_none_iff, Option.eq_none_iff_forall_ne_some]
      exact fun rest hrest => h ⟨[], rest, (stripPrefix_eq hrest).symm⟩
  | cons c text ih =>
      rw [beforeLast, ih fun hin => h (hin.trans (List.suffix_cons c text).isInfix)]
      dsimp only
      rw [Option.map_eq_none_iff, Option.eq_none_iff_forall_ne_some]
      exact fun rest hrest => h ⟨[], rest, (stripPrefix_eq hrest).symm⟩

theorem beforeLast_last {p : Char} {pat rest : Text} (h : ¬ p :: pat <:+: pat ++ rest)
    (before : Text) : beforeLast (p :: pat) (before ++ (p :: pat ++ rest)) = some before := by
  induction before with
  | nil =>
      rw [List.nil_append, List.cons_append, beforeLast, beforeLast_eq_none h]
      dsimp only
      rw [← List.cons_append, stripPrefix_append, Option.map_some]
  | cons c before ih =>
      rw [List.cons_append, beforeLast, ih]

/-! ## Callers -/

theorem extractCallerFromCallsiteId_isPrefix (id : Text) : extractCallerFromCallsiteId id <+: id := by
  rw [extractCallerFromCallsiteId]
  cases h : beforeLast "::call@".toList id with
  | none => exact List.prefix_refl id
  | some before => exact beforeLast_isPrefix h

end CodeGraph
