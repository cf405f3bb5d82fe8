import CodeGraph.CallReasons
import Mathlib.Data.List.TakeWhile

/-!
# Callees that are paths

A written callee is split at every `::` before generic arguments are cut off, and refused where
a dot, a parenthesis or a bracket is anywhere in it. So a path is read as its segments exactly
when nothing in its generic arguments looks like a separator (`reads_iff_readable`).
-/

namespace CodeGraph

open List

namespace Resolver

/-! ## Splitting at `::` -/

theorem colons_ne_nil : colons ≠ [] := by decide

variable {text : Text}

theorem splitOn_of_breakOn {before after : Text} (h : breakOn colons text = some (before, after)) :
    splitOn colons text = before :: splitOn colons after := by
  have hlen : after.length < text.length := by
    have := congrArg List.length (breakOn_eq h)
    simp only [length_append, colons] at this
    have hcolons : ("::".toList).length = 2 := rfl
    omega
  rw [splitOn, h]
  exact if_pos hlen

theorem splitOn_of_absent (h : ¬ colons <:+: text) : splitOn colons text = [text] := by
  rw [splitOn, breakOn_eq_none h]

theorem not_infix_append_colon (h : ¬ colons <:+: text)
    (hlast : text.getLast? ≠ some ':') : ¬ colons <:+: text ++ colons.dropLast := by
  have hdrop : colons.dropLast = [':'] := rfl
  rw [hdrop, infix_concat_iff]
  rintro (⟨pre, hpre⟩ | hin)
  · have hpre : pre ++ [':'] ++ [':'] = text ++ [':'] := by
      rw [← hpre, append_assoc]
      rfl
    rw [← append_cancel_right hpre, getLast?_concat] at hlast
    exact hlast rfl
  · exact h hin

theorem splitOn_append (hlast : text.getLast? ≠ some ':') (rest : Text) :
    splitOn colons (text ++ (colons ++ rest)) = splitOn colons text ++ splitOn colons rest := by
  induction h : text.length using Nat.strong_induction_on generalizing text with
  | _ n ih =>
    cases hbreak : breakOn colons text with
    | none =>
        have hno := breakOn_eq_none_iff.mp hbreak
        rw [splitOn_of_absent hno, splitOn_of_breakOn
          (breakOn_append colons_ne_nil (not_infix_append_colon hno hlast) rest)]
        rfl
    | some found =>
        obtain ⟨before, after⟩ := found
        have heq := breakOn_eq hbreak
        have hlen := congrArg List.length heq
        have hcolons : colons.length = 2 := rfl
        rw [length_append, length_append, hcolons] at hlen
        have hafter : after.getLast? ≠ some ':' := by
          intro hcolon
          rw [heq, getLast?_append, hcolon] at hlast
          exact hlast rfl
        have hfound : breakOn colons (text ++ (colons ++ rest)) =
            some (before, after ++ (colons ++ rest)) := by
          rw [heq, append_assoc, append_assoc]
          exact breakOn_append colons_ne_nil (breakOn_first colons_ne_nil hbreak) _
        rw [splitOn_of_breakOn hbreak, splitOn_of_breakOn hfound,
          ih after.length (by omega) hafter rfl]
        rfl

theorem splitOn_cons {c : Char} (hc : c ≠ ':') (text : Text) :
    ∃ piece pieces, splitOn colons text = piece :: pieces ∧
      splitOn colons (c :: text) = (c :: piece) :: pieces := by
  have hno : stripPrefix colons (c :: text) = none := if_neg (Ne.symm hc)
  cases hbreak : breakOn colons text with
  | none =>
      have hbreak' : breakOn colons (c :: text) = none := by
        rw [breakOn, hno, hbreak]
        rfl
      refine ⟨text, [], splitOn_of_absent (breakOn_eq_none_iff.mp hbreak), ?_⟩
      exact splitOn_of_absent (breakOn_eq_none_iff.mp hbreak')
  | some found =>
      obtain ⟨before, after⟩ := found
      have hbreak' : breakOn colons (c :: text) = some (c :: before, after) := by
        rw [breakOn, hno, hbreak]
        rfl
      exact ⟨before, splitOn colons after, splitOn_of_breakOn hbreak, splitOn_of_breakOn hbreak'⟩

/-- The pieces of a text without their generic arguments. -/
def pathPieces (text : Text) : List Text :=
  ((splitOn colons text).map stripGenerics).filter (· ≠ [])

theorem pathPieces_append (hlast : text.getLast? ≠ some ':') (rest : Text) :
    pathPieces (text ++ (colons ++ rest)) = pathPieces text ++ pathPieces rest := by
  rw [pathPieces, splitOn_append hlast, map_append, filter_append]
  rfl

/-! ## Callees -/

/-- A character that refuses a callee as a path. -/
def refusing : List Char := ['.', '(', '[']

/-- A segment of a path: its name, and the arguments of its turbofish, which are any text. -/
structure PathSegment where
  name : Text
  arguments : Option Text
  name_ne : name ≠ []
  plain : ∀ c ∈ name, c ≠ ':' ∧ c ≠ '<' ∧ c ∉ refusing

namespace PathSegment

def turbofish (args : Text) : Text := '<' :: (args ++ ['>'])

def written (s : PathSegment) : Text :=
  match s.arguments with
  | some args => s.name ++ (colons ++ turbofish args)
  | none => s.name

end PathSegment

/-- The callees of calls. -/
inductive Callee where
  | path (first second : PathSegment) (rest : List PathSegment)
  | bare (segment : PathSegment)
  | method (receiver : Text) (segment : PathSegment)
  | parenthesised (inner after : Text)
  | indexed (base index after : Text)

def writtenPath : List PathSegment → Text
  | [] => []
  | [segment] => segment.written
  | segment :: segments => segment.written ++ (colons ++ writtenPath segments)

namespace Callee

def written : Callee → Text
  | path first second rest => writtenPath (first :: second :: rest)
  | bare segment => segment.written
  | method receiver segment => receiver ++ '.' :: segment.written
  | parenthesised inner after => '(' :: (inner ++ ')' :: after)
  | indexed base index after => base ++ '[' :: (index ++ ']' :: after)

def names : Callee → Option (List Text)
  | path first second rest => some ((first :: second :: rest).map PathSegment.name)
  | _ => none

end Callee

/-- The callee is read as it is: its names, and the one before the last. -/
def Reads (callee : Callee) : Prop :=
  calleePathSegments callee.written = callee.names ∧
    calleeNamesType callee.written = callee.names.bind fun names => names.dropLast.getLast?

/-! ## When they are read -/

/-- A dot, a parenthesis or a bracket is in the text. -/
def Refused (text : Text) : Prop := ∃ c ∈ text, c ∈ refusing

/-- Nothing is left of the pieces behind the separators in the arguments: a generic list
follows each of them. -/
def CutOff (args : Text) : Prop :=
  ∀ piece ∈ (splitOn colons (args ++ ['>'])).tail, stripGenerics piece = []

def Readable : Callee → Prop
  | .path first second rest => ∀ segment ∈ first :: second :: rest, ∀ args ∈ segment.arguments,
      ¬ Refused args ∧ CutOff args
  | .bare segment => ∀ args ∈ segment.arguments, Refused args ∨ CutOff args
  | _ => True

variable {s : PathSegment} {args : Text}

theorem splitOn_of_notMem_colon (h : ':' ∉ text) : splitOn colons text = [text] :=
  splitOn_of_absent fun hin => h (hin.subset mem_cons_self)

theorem PathSegment.colon_notMem (s : PathSegment) : ':' ∉ s.name :=
  fun hmem => (s.plain ':' hmem).1 rfl

theorem PathSegment.last_ne (s : PathSegment) : s.written.getLast? ≠ some ':' := by
  rw [PathSegment.written]
  cases s.arguments with
  | none => exact fun hlast => s.colon_notMem (mem_of_getLast? hlast)
  | some args =>
      have hlast : (s.name ++ (colons ++ PathSegment.turbofish args)).getLast? = some '>' := by
        rw [PathSegment.turbofish, ← cons_append, ← append_assoc, ← append_assoc]
        exact getLast?_concat
      rw [hlast]
      decide

theorem pathPieces_name (s : PathSegment) : pathPieces s.name = [s.name] := by
  have hstrip : stripGenerics s.name = s.name :=
    takeWhile_eq_self_iff.mpr fun c hc => decide_eq_true (s.plain c hc).2.1
  rw [pathPieces, splitOn_of_notMem_colon s.colon_notMem, map_singleton, hstrip]
  exact filter_eq_self.mpr fun t ht => by
    rw [mem_singleton.mp ht]
    exact decide_eq_true s.name_ne

/-- What is left of the arguments of a turbofish. -/
def leftovers (args : Text) : List Text :=
  ((splitOn colons (args ++ ['>'])).tail.map stripGenerics).filter (· ≠ [])

theorem leftovers_eq_nil : leftovers args = [] ↔ CutOff args := by
  rw [leftovers, filter_eq_nil_iff, CutOff, forall_mem_map]
  simp only [decide_eq_true_eq, not_not]

theorem pathPieces_turbofish (args : Text) :
    pathPieces (PathSegment.turbofish args) = leftovers args := by
  obtain ⟨piece, pieces, hsplit, hcons⟩ := splitOn_cons (c := '<') (by decide) (args ++ ['>'])
  rw [pathPieces, PathSegment.turbofish, hcons, leftovers, hsplit]
  rfl

/-- The pieces of a written segment: its name, and what is left of its arguments. -/
def PathSegment.pieces (s : PathSegment) : List Text := s.name :: (s.arguments.map leftovers).getD []

theorem pathPieces_written (s : PathSegment) : pathPieces s.written = s.pieces := by
  rw [PathSegment.written, PathSegment.pieces]
  cases s.arguments with
  | none => exact pathPieces_name s
  | some args =>
      have hlast : s.name.getLast? ≠ some ':' :=
        fun hlast => s.colon_notMem (mem_of_getLast? hlast)
      simp only [Option.map_some, Option.getD_some]
      rw [pathPieces_append hlast, pathPieces_name, pathPieces_turbofish]
      rfl

theorem pathPieces_writtenPath : ∀ segments : List PathSegment, segments ≠ [] →
    pathPieces (writtenPath segments) = segments.flatMap PathSegment.pieces
  | [], h => absurd rfl h
  | [segment], _ => by
      rw [writtenPath, pathPieces_written, flatMap_cons, flatMap_nil, append_nil]
  | segment :: second :: rest, _ => by
      rw [writtenPath, pathPieces_append segment.last_ne, pathPieces_written,
        pathPieces_writtenPath (second :: rest) (cons_ne_nil _ _)]
      · exact flatMap_cons.symm
      · exact cons_ne_nil _ _

/-! ## Refusals -/

theorem refused_append {a b : Text} : Refused (a ++ b) ↔ Refused a ∨ Refused b := by
  simp only [Refused, mem_append, or_and_right, exists_or]

theorem not_refused_of_all (h : text.all (fun c => decide (c ∉ refusing)) = true) :
    ¬ Refused text :=
  fun ⟨c, hc, hrefusing⟩ => of_decide_eq_true (all_eq_true.mp h c hc) hrefusing

theorem not_refused_name (s : PathSegment) : ¬ Refused s.name :=
  fun ⟨c, hc, hrefusing⟩ => (s.plain c hc).2.2 hrefusing

theorem refused_written (s : PathSegment) :
    Refused s.written ↔ ∃ args ∈ s.arguments, Refused args := by
  rw [PathSegment.written]
  cases s.arguments with
  | none => simpa using not_refused_name s
  | some args =>
      have hopen : ¬ Refused (colons ++ ['<']) := not_refused_of_all rfl
      have hclose : ¬ Refused ['>'] := not_refused_of_all rfl
      have hsplit : s.name ++ (colons ++ PathSegment.turbofish args) =
          s.name ++ ((colons ++ ['<']) ++ (args ++ ['>'])) := by
        rw [PathSegment.turbofish, append_assoc]
        rfl
      change Refused (s.name ++ (colons ++ PathSegment.turbofish args)) ↔ _
      rw [hsplit, refused_append, or_iff_right (not_refused_name s), refused_append,
        or_iff_right hopen, refused_append, or_iff_left hclose]
      simp

theorem refused_writtenPath : ∀ segments : List PathSegment, Refused (writtenPath segments) ↔
    ∃ segment ∈ segments, ∃ args ∈ segment.arguments, Refused args
  | [] => by simp [writtenPath, Refused]
  | [segment] => by
      rw [writtenPath, refused_written]
      simp
  | segment :: second :: rest => by
      have hcolons : ¬ Refused colons := not_refused_of_all rfl
      rw [writtenPath, refused_append, refused_append, refused_written,
        refused_writtenPath (second :: rest), or_iff_right hcolons]
      · exact (exists_mem_cons_iff
          (fun segment : PathSegment => ∃ args ∈ segment.arguments, Refused args) _ _).symm
      · exact cons_ne_nil _ _

theorem calleePathSegments_of_refused (h : Refused text) : calleePathSegments text = none := by
  refine if_pos (.inr ?_)
  obtain ⟨c, hc, hrefusing⟩ := h
  exact any_eq_true.mpr ⟨c, hc, decide_eq_true hrefusing⟩

theorem calleePathSegments_of_not_infix (h : ¬ colons <:+: text) : calleePathSegments text = none :=
  if_pos (.inl (by rw [breakOn_eq_none h]; rfl))

theorem calleePathSegments_eq (hin : colons <:+: text) (h : ¬ Refused text) :
    calleePathSegments text =
      if 2 ≤ (pathPieces text).length then some (pathPieces text) else none := by
  refine if_neg ?_
  rintro (hnone | hany)
  · exact breakOn_ne_none hin (Option.isNone_iff_eq_none.mp hnone)
  · obtain ⟨c, hc, hrefusing⟩ := any_eq_true.mp hany
    exact h ⟨c, hc, of_decide_eq_true hrefusing⟩

/-! ## Reading -/

theorem infix_writtenPath (first second : PathSegment) (rest : List PathSegment) :
    colons <:+: writtenPath (first :: second :: rest) := by
  rw [writtenPath]
  · exact ⟨first.written, writtenPath (second :: rest), append_assoc _ _ _⟩
  · exact cons_ne_nil _ _

theorem length_names_le : ∀ segments : List PathSegment,
    (segments.map PathSegment.name).length ≤ (segments.flatMap PathSegment.pieces).length
  | [] => le_rfl
  | segment :: rest => by
      have ih := length_names_le rest
      rw [flatMap_cons, map_cons, length_cons, length_append,
        PathSegment.pieces, length_cons]
      omega

theorem leftovers_arguments (s : PathSegment) :
    (s.arguments.map leftovers).getD [] = [] ↔ ∀ args ∈ s.arguments, CutOff args := by
  cases s.arguments with
  | none => simp
  | some args => simp [leftovers_eq_nil]

theorem flatMap_pieces_eq_names : ∀ segments : List PathSegment,
    segments.flatMap PathSegment.pieces = segments.map PathSegment.name ↔
      ∀ segment ∈ segments, ∀ args ∈ segment.arguments, CutOff args
  | [] => by simp
  | segment :: rest => by
      rw [flatMap_cons, map_cons, PathSegment.pieces, forall_mem_cons,
        ← flatMap_pieces_eq_names rest, ← leftovers_arguments, cons_append,
        cons_inj_right]
      constructor
      · intro h
        have hlen := congrArg List.length h
        have hle := length_names_le rest
        rw [length_append] at hlen
        have hnil := length_eq_zero_iff.mp (show ((segment.arguments.map leftovers).getD
          []).length = 0 by omega)
        rw [hnil, nil_append] at h
        exact ⟨hnil, h⟩
      · rintro ⟨hnil, h⟩
        rw [hnil, h, nil_append]

variable {callee : Callee}

theorem reads_of_segments (h : calleePathSegments callee.written = callee.names) : Reads callee :=
  ⟨h, by rw [calleeNamesType, h]⟩

theorem reads_iff : Reads callee ↔ calleePathSegments callee.written = callee.names :=
  ⟨And.left, reads_of_segments⟩

theorem reads_path (first second : PathSegment) (rest : List PathSegment) :
    Reads (.path first second rest) ↔ Readable (.path first second rest) := by
  have hpieces := pathPieces_writtenPath (first :: second :: rest) (cons_ne_nil _ _)
  rw [reads_iff, Callee.written, Callee.names, Readable]
  by_cases hrefused : Refused (writtenPath (first :: second :: rest))
  · rw [calleePathSegments_of_refused hrefused]
    obtain ⟨segment, hsegment, args, hargs, hbad⟩ := (refused_writtenPath _).mp hrefused
    exact iff_of_false (fun h => nomatch h) fun h => (h segment hsegment args hargs).1 hbad
  · have hfree : ∀ segment ∈ first :: second :: rest, ∀ args ∈ segment.arguments,
        ¬ Refused args := fun segment hsegment args hargs hbad =>
      hrefused ((refused_writtenPath _).mpr ⟨segment, hsegment, args, hargs, hbad⟩)
    have hlen := length_names_le (first :: second :: rest)
    rw [← hpieces, length_map, length_cons, length_cons] at hlen
    rw [calleePathSegments_eq (infix_writtenPath first second rest) hrefused,
      if_pos (by omega), Option.some_inj, hpieces, flatMap_pieces_eq_names]
    exact ⟨fun h segment hs args ha => ⟨hfree segment hs args ha, h segment hs args ha⟩,
      fun h segment hs args ha => (h segment hs args ha).2⟩

theorem reads_bare (segment : PathSegment) : Reads (.bare segment) ↔ Readable (.bare segment) := by
  have hnames : (Callee.bare segment).names = none := rfl
  rw [reads_iff, Callee.written, hnames, Readable]
  cases hargs : segment.arguments with
  | none =>
      have hwritten : segment.written = segment.name := by rw [PathSegment.written, hargs]
      rw [hwritten, calleePathSegments_of_not_infix fun hin =>
        segment.colon_notMem (hin.subset mem_cons_self)]
      exact iff_of_true rfl fun args h => nomatch h
  | some args =>
      simp only [Option.mem_some_iff, forall_eq']
      by_cases hrefused : Refused segment.written
      · rw [calleePathSegments_of_refused hrefused]
        obtain ⟨args', hargs', hbad⟩ := (refused_written segment).mp hrefused
        rw [hargs] at hargs'
        cases hargs'
        exact iff_of_true rfl (.inl hbad)
      · have hfree : ¬ Refused args := fun hbad =>
          hrefused ((refused_written segment).mpr ⟨args, hargs, hbad⟩)
        have hin : colons <:+: segment.written := by
          rw [PathSegment.written, hargs]
          exact ⟨segment.name, PathSegment.turbofish args, append_assoc _ _ _⟩
        rw [calleePathSegments_eq hin hrefused, pathPieces_written, PathSegment.pieces, hargs,
          or_iff_right hfree, ← leftovers_eq_nil]
        simp only [Option.map_some, Option.getD_some, length_cons]
        cases hleft : leftovers args with
        | nil => exact iff_of_true rfl rfl
        | cons piece pieces => exact iff_of_false (fun h => nomatch h) (cons_ne_nil _ _)

theorem reads_of_refused (hnames : callee.names = none)
    (h : Refused callee.written) : Reads callee :=
  reads_iff.mpr ((calleePathSegments_of_refused h).trans hnames.symm)

/-- A callee is read as its segments, or as no path, just where nothing in its generic arguments
is taken for a separator. -/
theorem reads_iff_readable (callee : Callee) : Reads callee ↔ Readable callee := by
  cases callee with
  | path first second rest => exact reads_path first second rest
  | bare segment => exact reads_bare segment
  | method receiver segment =>
      refine iff_of_true (reads_of_refused rfl ⟨'.', ?_, by decide⟩) trivial
      exact mem_append_right _ mem_cons_self
  | parenthesised inner after =>
      exact iff_of_true (reads_of_refused rfl ⟨'(', mem_cons_self, by decide⟩) trivial
  | indexed base index after =>
      refine iff_of_true (reads_of_refused rfl ⟨'[', ?_, by decide⟩) trivial
      exact mem_append_right _ mem_cons_self

namespace Sample

def segment (name : Text) (arguments : Option Text) (hne : name ≠ [])
    (hplain : name.all (fun c => decide (c ≠ ':' ∧ c ≠ '<' ∧ c ∉ refusing)) = true) : PathSegment :=
  ⟨name, arguments, hne, fun c hc => of_decide_eq_true (all_eq_true.mp hplain c hc)⟩

theorem new_ne_nil : "new".toList ≠ [] := by decide

theorem new_plain :
    "new".toList.all (fun c => decide (c ≠ ':' ∧ c ≠ '<' ∧ c ∉ refusing)) = true := by decide

/-- The path `Vec::<a::B>::new`. -/
def vecNew : Callee :=
  .path (segment "Vec".toList (some "a::B".toList) (by decide) (by decide))
    (segment "new".toList none new_ne_nil new_plain) []

end Sample

/-- The path in the generic arguments is read as a segment. -/
theorem path_argument_is_read : ¬ Reads Sample.vecNew := by
  intro h
  have hsegments : calleePathSegments Sample.vecNew.written =
      some ["Vec".toList, "B>".toList, "new".toList] := by decide +kernel
  exact absurd (hsegments.symm.trans h.1) (by decide)

end Resolver

end CodeGraph
