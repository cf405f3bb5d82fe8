import CodeGraph.NodeIds
import CodeGraph.Segments

/-!
# Functions in function bodies

A Rust function declared in a body is named from that body only, and hides what is
outside of it. The candidates of a call are cut down from the qualified names: the
scopes of the caller are climbed as long as they are functions or methods, up to one
that declares a candidate. So the innermost declaring callable is missed behind a
type or a module, and what is dropped as nested need not be a function
(`visibleCandidates_exact`).
-/

namespace CodeGraph

open List

namespace NestedScope

/-- An entry of the symbol index. -/
structure Candidate where
  id : Text
  label : Text
  qualifiedName : Text
  deriving DecidableEq

/-- The label under which the symbol index holds a qualified name. -/
abbrev LabelIndex := Text → Option Text

def function : Text := "Function".toList

/-- Labels whose body can declare a nested function. -/
def callableLabels : List Text := [function, "Method".toList]

section

variable (idx : LabelIndex)

def isCallable (qn : Text) : Bool := (idx qn).any fun label => label ∈ callableLabels

def parentQn (qn : Text) : Option Text := beforeLast "::".toList qn

def isNested (c : Candidate) : Bool := (parentQn c.qualifiedName).any (isCallable idx)

variable (candidates : List Candidate)

def declared (owner : Text) : List Candidate :=
  candidates.filter fun c => c.label = function ∧ parentQn c.qualifiedName = some owner

theorem parentQn_append_isPrefix {qn parent : Text} (h : parentQn qn = some parent) :
    parent ++ "::".toList <+: qn := beforeLast_append_isPrefix h

theorem parentQn_length {qn parent : Text} (h : parentQn qn = some parent) :
    parent.length < qn.length := by
  have hlen := (parentQn_append_isPrefix h).length_le
  rw [length_append] at hlen
  exact Nat.lt_of_lt_of_le (Nat.lt_add_of_pos_right (by decide)) hlen

/-- The functions that the scopes of a caller declare, from the inside out; a scope
that is no callable ends the search. -/
def climb (owner : Text) : List Candidate :=
  if isCallable idx owner then
    match declared candidates owner with
    | [] =>
        match _h : parentQn owner with
        | some parent => climb parent
        | none => []
    | found => found
  else []
termination_by owner.length
decreasing_by exact parentQn_length _h

/-- The candidates a call site can name. -/
def visibleCandidates (callerQn : Text) (calleeIsPath : Bool) : List Candidate :=
  match if calleeIsPath then [] else climb idx candidates callerQn with
  | [] => candidates.filter fun c => !isNested idx c
  | found => found

end

/-! ## The rule -/

/-- The caller is the callable, or its name goes on behind the callable's. -/
def Encloses (owner caller : Text) : Prop := owner = caller ∨ owner ++ "::".toList <+: caller

section

variable (idx : LabelIndex) (candidates : List Candidate)

/-- A callable with one of the candidates in its body. -/
def Declares (owner : Text) : Prop := isCallable idx owner ∧ declared candidates owner ≠ []

/-- A function in a callable's body. -/
def IsNestedFn (c : Candidate) : Prop := c.label = function ∧ isNested idx c

instance (c : Candidate) : Decidable (IsNestedFn idx c) := inferInstanceAs (Decidable (_ ∧ _))

structure Innermost (caller owner : Text) : Prop where
  encloses : Encloses owner caller
  declares : Declares idx candidates owner
  longest : ∀ other, Encloses other caller → Declares idx candidates other →
    other.length ≤ owner.length

/-- No declaring callable is in reach, or the callee is spelled with a path. -/
def Unshadowed (caller : Text) (calleeIsPath : Bool) : Prop :=
  calleeIsPath = true ∨ ∀ owner, Encloses owner caller → ¬Declares idx candidates owner

/-- What a call may name: the functions of the innermost declaring callable, or else
all but the functions in bodies. -/
structure Scoped (caller : Text) (calleeIsPath : Bool) (found : List Candidate) : Prop where
  shadowing : calleeIsPath = false → ∀ owner, Innermost idx candidates caller owner →
    found = declared candidates owner
  otherwise : Unshadowed idx candidates caller calleeIsPath →
    found = candidates.filter fun c => ¬IsNestedFn idx c

/-- From a scope up to an enclosing one over callables only. -/
inductive Reaches : Text → Text → Prop
  | here (qn : Text) : Reaches qn qn
  | up {qn parent owner : Text} : isCallable idx qn → parentQn qn = some parent →
      Reaches parent owner → Reaches qn owner

end

section

variable {idx : LabelIndex} {candidates : List Candidate} {owner scope caller : Text}

theorem Encloses.refl (qn : Text) : Encloses qn qn := Or.inl rfl

theorem Encloses.of_parent {parent : Text} (h : parentQn scope = some parent)
    (henc : Encloses owner parent) : Encloses owner scope := by
  have hpre := parentQn_append_isPrefix h
  rcases henc with rfl | henc
  · exact Or.inr hpre
  · exact Or.inr ((henc.trans (prefix_append parent _)).trans hpre)

theorem Reaches.encloses (h : Reaches idx scope owner) : Encloses owner scope := by
  induction h with
  | here qn => exact Encloses.refl qn
  | up _ hparent _ ih => exact ih.of_parent hparent

theorem Encloses.length_le (h : Encloses owner scope) : owner.length ≤ scope.length := by
  rcases h with rfl | h
  · exact le_rfl
  · exact ((prefix_append owner _).trans h).length_le

theorem climb_declared (hcall : isCallable idx scope) (hne : declared candidates scope ≠ []) :
    climb idx candidates scope = declared candidates scope := by
  rw [climb, if_pos hcall]
  split
  · contradiction
  · rfl

theorem climb_parent (hcall : isCallable idx scope) (hnil : declared candidates scope = [])
    {parent : Text} (hparent : parentQn scope = some parent) :
    climb idx candidates scope = climb idx candidates parent := by
  rw [climb, if_pos hcall, hnil]
  dsimp only
  split
  case h_1 other hother => rw [Option.some.inj (hparent.symm.trans hother)]
  case h_2 hnone => rw [hparent] at hnone; cases hnone

theorem climb_top (hnil : declared candidates scope = []) (hparent : parentQn scope = none) :
    climb idx candidates scope = [] := by
  rw [climb, hnil]
  split
  · dsimp only
    split
    case h_1 other hother => rw [hparent] at hother; cases hother
    case h_2 => rfl
  · rfl

theorem climb_of_reaches (h : Reaches idx scope owner) (hdecl : Declares idx candidates owner)
    (hlongest : ∀ other, Encloses other scope → Declares idx candidates other →
      other.length ≤ owner.length) :
    climb idx candidates scope = declared candidates owner := by
  induction h with
  | here qn => exact climb_declared hdecl.1 hdecl.2
  | @up qn parent owner hcall hparent hreach ih =>
      have hnil : declared candidates qn = [] := by
        by_contra hne
        have hlen := hlongest qn (Encloses.refl qn) ⟨hcall, hne⟩
        have hshort := hreach.encloses.length_le
        have hlt := parentQn_length hparent
        omega
      rw [climb_parent hcall hnil hparent]
      exact ih hdecl fun other henc => hlongest other (henc.of_parent hparent)

theorem reaches_of_climb (h : climb idx candidates scope ≠ []) :
    ∃ owner, Reaches idx scope owner ∧ Declares idx candidates owner ∧
      climb idx candidates scope = declared candidates owner := by
  induction scope using climb.induct idx candidates with
  | case1 qn hcall hnil parent hparent ih =>
      rw [climb_parent hcall hnil hparent] at h ⊢
      obtain ⟨owner, hreach, hdecl, heq⟩ := ih h
      exact ⟨owner, .up hcall hparent hreach, hdecl, heq⟩
  | case2 qn hcall hnil hparent => exact absurd (climb_top hnil hparent) h
  | case3 qn hcall hne =>
      exact ⟨qn, .here qn, ⟨hcall, hne⟩, climb_declared hcall hne⟩
  | case4 qn hcall => exact absurd (by rw [climb, if_neg hcall]) h

/-- A candidate has one parent. -/
theorem eq_of_declared_eq {other : Text} (hne : declared candidates owner ≠ [])
    (heq : declared candidates owner = declared candidates other) : owner = other := by
  obtain ⟨c, hc⟩ := exists_mem_of_ne_nil _ hne
  have hown := (of_decide_eq_true (mem_filter.mp hc).2).2
  rw [heq] at hc
  have hother := (of_decide_eq_true (mem_filter.mp hc).2).2
  exact Option.some.inj (hown.symm.trans hother)

theorem isNested_of_declared {c : Candidate} (hdecl : Declares idx candidates owner)
    (hc : c ∈ declared candidates owner) : isNested idx c = true := by
  have hparent := (of_decide_eq_true (mem_filter.mp hc).2).2
  rw [isNested, hparent, Option.any_some]
  exact hdecl.1

theorem visibleCandidates_of_climb {calleeIsPath : Bool}
    (h : (if calleeIsPath then [] else climb idx candidates caller) = []) :
    visibleCandidates idx candidates caller calleeIsPath =
      candidates.filter fun c => !isNested idx c := by
  rw [visibleCandidates, h]

/-- Nothing is found in a body where no declaring callable encloses the caller. -/
theorem climb_of_unshadowed {calleeIsPath : Bool}
    (h : Unshadowed idx candidates caller calleeIsPath) :
    (if calleeIsPath then [] else climb idx candidates caller) = [] := by
  rcases h with rfl | h
  · exact if_pos rfl
  · by_contra hne
    split at hne
    · exact hne rfl
    · obtain ⟨owner, hreach, hdecl, -⟩ := reaches_of_climb hne
      exact h owner hreach.encloses hdecl

/-- The candidates are those a call may name just when the caller reaches its innermost
declaring callable over callables only and, where there is none or the callee is a
path, what is declared in bodies is functions. -/
theorem visibleCandidates_exact (idx : LabelIndex) (candidates : List Candidate) (caller : Text)
    (calleeIsPath : Bool) :
    Scoped idx candidates caller calleeIsPath (visibleCandidates idx candidates caller calleeIsPath) ↔
      (calleeIsPath = false → ∀ owner, Innermost idx candidates caller owner →
        Reaches idx caller owner) ∧
      (Unshadowed idx candidates caller calleeIsPath →
        ∀ c ∈ candidates, isNested idx c → c.label = function) := by
  constructor
  · rintro ⟨hshadow, hother⟩
    refine ⟨fun hpath owner hinner => ?_, fun hun c hc hnested => ?_⟩
    · have hfound := hshadow hpath owner hinner
      have hne := hinner.declares.2
      by_cases hclimb : climb idx candidates caller = []
      · rw [visibleCandidates_of_climb (by rw [hpath, hclimb]; rfl)] at hfound
        obtain ⟨c, hc⟩ := exists_mem_of_ne_nil _ hne
        have hnested := isNested_of_declared hinner.declares hc
        rw [← hfound, mem_filter, hnested] at hc
        exact absurd hc.2 (by decide)
      · obtain ⟨other, hreach, hdecl, heq⟩ := reaches_of_climb hclimb
        have hvisible : visibleCandidates idx candidates caller calleeIsPath =
            climb idx candidates caller := by
          rw [visibleCandidates, hpath]
          simp only [Bool.false_eq_true, if_false]
        rw [hvisible, heq] at hfound
        rw [← eq_of_declared_eq hdecl.2 hfound]
        exact hreach
    · have hfound := hother hun
      rw [visibleCandidates_of_climb (climb_of_unshadowed hun)] at hfound
      by_contra hlabel
      have hin : c ∈ candidates.filter fun c => ¬IsNestedFn idx c :=
        mem_filter.mpr ⟨hc, decide_eq_true fun hfn => hlabel hfn.1⟩
      rw [← hfound, mem_filter, hnested] at hin
      exact absurd hin.2 (by decide)
  · rintro ⟨hreach, hlabels⟩
    refine ⟨fun hpath owner hinner => ?_, fun hun => ?_⟩
    · have hclimb := climb_of_reaches (hreach hpath owner hinner) hinner.declares hinner.longest
      rw [visibleCandidates, hpath]
      simp only [Bool.false_eq_true, if_false, hclimb]
      split
      · exact absurd ‹_› hinner.declares.2
      · rfl
    · rw [visibleCandidates_of_climb (climb_of_unshadowed hun)]
      refine filter_congr fun c hc => ?_
      have hiff : IsNestedFn idx c ↔ isNested idx c = true :=
        ⟨fun h => h.2, fun h => ⟨hlabels hun c hc h, h⟩⟩
      by_cases h : isNested idx c = true
      · rw [h, decide_eq_false (not_not.mpr (hiff.mpr h))]
        rfl
      · rw [decide_eq_true (hiff.not.mpr h), Bool.eq_false_iff.mpr h]
        rfl

end

/-! ## A method in a body -/

def bodyWithType : LabelIndex := fun qn =>
  if qn ∈ ["a.rs::f".toList, "a.rs::f::g".toList] then some function
  else if qn = "a.rs::f::S".toList then some "Struct".toList
  else if qn = "a.rs::f::S::m".toList then some "Method".toList
  else none

/-- The method does not find the function that is declared beside its type. -/
theorem type_ends_climb : ¬∀ (idx : LabelIndex) (candidates : List Candidate) (caller : Text)
    (calleeIsPath : Bool), Scoped idx candidates caller calleeIsPath
      (visibleCandidates idx candidates caller calleeIsPath) := by
  intro h
  let g : Candidate := ⟨"a.rs::f::g".toList, function, "a.rs::f::g".toList⟩
  have hparent : parentQn g.qualifiedName = some "a.rs::f".toList := by decide
  have hinner : Innermost bodyWithType [g] "a.rs::f::S::m".toList "a.rs::f".toList := by
    refine ⟨Or.inr (by decide), ⟨by decide, by decide⟩, ?_⟩
    rintro other - ⟨-, hne⟩
    obtain ⟨c, hc⟩ := exists_mem_of_ne_nil _ hne
    obtain ⟨hmem, hown⟩ := mem_filter.mp hc
    obtain rfl : c = g := mem_singleton.mp hmem
    have heq := Option.some.inj ((of_decide_eq_true hown).2.symm.trans hparent)
    rw [heq]
  have hclimb : climb bodyWithType [g] "a.rs::f::S::m".toList = [] := by
    rw [climb_parent (by decide) (by decide) (show parentQn _ = some "a.rs::f::S".toList by decide),
      climb, if_neg (by decide)]
  have hfound := (h bodyWithType [g] "a.rs::f::S::m".toList false).shadowing rfl _ hinner
  rw [visibleCandidates_of_climb (by rw [hclimb]; rfl)] at hfound
  exact absurd hfound (by decide)

end NestedScope

end CodeGraph
