import CodeGraph.Text

/-!
# Segments

A path written with slashes and its segments: splitting and joining are inverse
to each other, and a trailing part of a path is a trailing part of its segments.
-/

namespace CodeGraph

open List

/-- The last segment of an id. -/
def basename (id : Text) : Text := (splitOnChar '/' id).getLast?.getD id

/-- A segment of a folded path. -/
def IsSegment (segment : Text) : Prop :=
  '/' ∉ segment ∧ segment ≠ [] ∧ segment ≠ ['.'] ∧ segment ≠ ['.', '.']

instance (segment : Text) : Decidable (IsSegment segment) :=
  inferInstanceAs (Decidable (_ ∧ _))

variable {sep : Char}

theorem splitOnChar_ne_nil (sep : Char) : ∀ text : Text, splitOnChar sep text ≠ []
  | [] => cons_ne_nil _ _
  | c :: text => by
      rw [splitOnChar]
      split
      · exact cons_ne_nil _ _
      · split <;> exact cons_ne_nil _ _

theorem splitOnChar_sep (text : Text) :
    splitOnChar sep (sep :: text) = [] :: splitOnChar sep text := if_pos rfl

theorem splitOnChar_cons {c : Char} (hc : c ≠ sep) {text piece : Text} {pieces : List Text}
    (h : splitOnChar sep text = piece :: pieces) :
    splitOnChar sep (c :: text) = (c :: piece) :: pieces := by
  rw [splitOnChar, if_neg hc, h]

theorem splitOnChar_append (a b : Text) :
    splitOnChar sep (a ++ sep :: b) = splitOnChar sep a ++ splitOnChar sep b := by
  induction a with
  | nil => exact splitOnChar_sep b
  | cons c a ih =>
      by_cases hc : c = sep
      · subst hc
        rw [cons_append, splitOnChar_sep, splitOnChar_sep, ih, cons_append]
      · obtain ⟨piece, pieces, ha⟩ := exists_cons_of_ne_nil (splitOnChar_ne_nil sep a)
        rw [ha, cons_append] at ih
        rw [cons_append, splitOnChar_cons hc ih, splitOnChar_cons hc ha, cons_append]

theorem splitOnChar_of_notMem {text : Text} (h : sep ∉ text) : splitOnChar sep text = [text] := by
  induction text with
  | nil => rfl
  | cons c text ih =>
      rw [mem_cons, not_or] at h
      exact splitOnChar_cons (Ne.symm h.1) (ih h.2)

theorem joinWith_cons {glue piece : Text} {pieces : List Text} (h : pieces ≠ []) :
    joinWith glue (piece :: pieces) = piece ++ glue ++ joinWith glue pieces := by
  cases pieces with
  | nil => exact absurd rfl h
  | cons q qs => rfl

theorem joinWith_append {glue : Text} : ∀ {a b : List Text}, a ≠ [] → b ≠ [] →
    joinWith glue (a ++ b) = joinWith glue a ++ glue ++ joinWith glue b
  | [], _, h, _ => absurd rfl h
  | [piece], b, _, hb => joinWith_cons hb
  | piece :: q :: qs, b, _, hb => by
      have hne : (q :: qs) ++ b ≠ [] := cons_ne_nil _ _
      rw [cons_append, joinWith_cons hne, joinWith_append (cons_ne_nil q qs) hb,
        joinWith_cons (cons_ne_nil q qs)]
      simp only [append_assoc]

theorem joinWith_splitOnChar (text : Text) : joinWith [sep] (splitOnChar sep text) = text := by
  induction text with
  | nil => rfl
  | cons c text ih =>
      by_cases hc : c = sep
      · subst hc
        rw [splitOnChar_sep, joinWith_cons (splitOnChar_ne_nil _ _), ih]
        rfl
      · obtain ⟨piece, pieces, htext⟩ := exists_cons_of_ne_nil (splitOnChar_ne_nil sep text)
        rw [htext] at ih
        rw [splitOnChar_cons hc htext, ← ih]
        cases pieces with
        | nil => rfl
        | cons q qs => rfl

theorem splitOnChar_joinWith : ∀ {pieces : List Text}, pieces ≠ [] →
    (∀ piece ∈ pieces, sep ∉ piece) → splitOnChar sep (joinWith [sep] pieces) = pieces
  | [], h, _ => absurd rfl h
  | [piece], _, h => splitOnChar_of_notMem (h piece (mem_singleton_self _))
  | piece :: q :: qs, _, h => by
      have hrest : splitOnChar sep (joinWith [sep] (q :: qs)) = q :: qs :=
        splitOnChar_joinWith (cons_ne_nil q qs) fun p hp => h p (mem_cons_of_mem _ hp)
      rw [joinWith_cons (cons_ne_nil q qs), append_assoc, singleton_append,
        splitOnChar_append, splitOnChar_of_notMem (h piece mem_cons_self), hrest,
        singleton_append]

theorem splitOnChar_injective (sep : Char) : Function.Injective (splitOnChar sep) := fun a b h => by
  rw [← @joinWith_splitOnChar sep a, h, joinWith_splitOnChar]

/-- A text is another one, or ends in it after a separator, exactly when its
pieces end in the pieces of the other. -/
theorem suffix_splitOnChar {text tail : Text} :
    text = tail ∨ sep :: tail <:+ text ↔ splitOnChar sep tail <:+ splitOnChar sep text := by
  constructor
  · rintro (rfl | ⟨pre, rfl⟩)
    · exact suffix_rfl
    · exact ⟨_, (splitOnChar_append pre tail).symm⟩
  · rintro ⟨pieces, h⟩
    rcases eq_or_ne pieces [] with rfl | hne
    · exact Or.inl (splitOnChar_injective sep h).symm
    · refine Or.inr ⟨joinWith [sep] pieces, ?_⟩
      have hjoin := congrArg (joinWith [sep]) h
      rw [joinWith_append hne (splitOnChar_ne_nil _ _), joinWith_splitOnChar,
        joinWith_splitOnChar] at hjoin
      simpa using hjoin

theorem basename_isSuffix (path : Text) : basename path <:+ path := by
  obtain ⟨pieces, name, hpieces⟩ : ∃ pieces name, splitOnChar '/' path = pieces ++ [name] :=
    ⟨_, _, (dropLast_append_getLast (splitOnChar_ne_nil '/' path)).symm⟩
  have hname : basename path = name := by
    rw [basename, hpieces, getLast?_concat, Option.getD_some]
  rw [hname, ← @joinWith_splitOnChar '/' path, hpieces]
  cases pieces with
  | nil => exact suffix_rfl
  | cons piece pieces =>
      rw [joinWith_append (cons_ne_nil piece pieces) (cons_ne_nil name [])]
      exact suffix_append _ _

theorem beforeLast_singleton (text : Text) : beforeLast [sep] text =
    if (splitOnChar sep text).dropLast = [] then none
    else some (joinWith [sep] (splitOnChar sep text).dropLast) := by
  induction text with
  | nil => rfl
  | cons c text ih =>
      obtain ⟨piece, pieces, htext⟩ := exists_cons_of_ne_nil (splitOnChar_ne_nil sep text)
      rw [beforeLast, ih]
      by_cases hc : c = sep
      · subst hc
        rw [splitOnChar_sep, htext]
        cases pieces with
        | nil => simp [stripPrefix, joinWith]
        | cons q qs => simp [List.dropLast, joinWith_cons]
      · rw [splitOnChar_cons hc htext, htext]
        cases pieces with
        | nil => simp [stripPrefix, Ne.symm hc]
        | cons q qs =>
            cases qs with
            | nil => simp [List.dropLast, joinWith]
            | cons r rs => simp [List.dropLast, joinWith]

end CodeGraph
