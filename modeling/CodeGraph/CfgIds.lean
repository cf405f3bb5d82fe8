import CodeGraph.CfgCanonical
import CodeGraph.CfgTwins

/-!
# Gates in ids

An id is segments joined by `::`, and a twin has its gate behind its segment. The gates
are found again and taken out again, whatever they say: their brackets match, and nothing
in them looks like the end of a segment.
-/

namespace CodeGraph

open List CfgPredicate

/-! ## The text of a gate -/

/-- Brackets match. -/
inductive Balanced : Text → Prop
  | nil : Balanced []
  | char {c : Char} {text : Text} (hopen : c ≠ '(') (hclose : c ≠ ')') (h : Balanced text) :
      Balanced (c :: text)
  | group {inside text : Text} (hinside : Balanced inside) (h : Balanced text) :
      Balanced ('(' :: (inside ++ ')' :: text))

theorem Balanced.append {first second : Text} (h : Balanced first) (h' : Balanced second) :
    Balanced (first ++ second) := by
  induction h with
  | nil => exact h'
  | char hopen hclose _ ih => exact .char hopen hclose ih
  | group hinside _ _ ih =>
      rw [cons_append, append_assoc, cons_append]
      exact .group hinside ih

theorem balanced_of_forall {text : Text} (h : ∀ c ∈ text, c ≠ '(' ∧ c ≠ ')') : Balanced text := by
  induction text with
  | nil => exact .nil
  | cons c text ih =>
      obtain ⟨hhead, htail⟩ := forall_mem_cons.mp h
      exact .char hhead.1 hhead.2 (ih htail)

def IsGateChar (c : Char) : Prop := IsWordChar c ∨ c ∈ "=(),".toList

theorem isGateChar_ne {c : Char} (h : IsGateChar c) : c ≠ '.' ∧ c ≠ ':' ∧ c ≠ '#' := by
  refine ⟨?_, ?_, ?_⟩ <;> rintro rfl <;> rcases h with h | h <;> revert h <;> decide

/-- What is well spelled in the text of a predicate. -/
structure GateText (text : Text) : Prop where
  balanced : Balanced text
  chars : ∀ c ∈ text, IsGateChar c

theorem GateText.append {first second : Text} (h : GateText first) (h' : GateText second) :
    GateText (first ++ second) :=
  ⟨h.balanced.append h'.balanced, fun c hc => (mem_append.mp hc).elim (h.chars c) (h'.chars c)⟩

theorem gateText_encode (text : Text) : GateText (encode text) := by
  refine ⟨balanced_of_forall fun c hc => ?_, fun c hc => Or.inl (isWordChar_of_mem_encode hc)⟩
  have hword := isWordChar_of_mem_encode hc
  constructor <;> rintro rfl <;> revert hword <;> decide

theorem gateText_mark {c : Char} (h : c = '=' ∨ c = ',') : GateText [c] := by
  have hc : IsGateChar c := by rcases h with rfl | rfl <;> exact Or.inr (by decide)
  refine ⟨balanced_of_forall fun d hd => ?_, fun d hd => mem_singleton.mp hd ▸ hc⟩
  obtain rfl := mem_singleton.mp hd
  rcases h with rfl | rfl <;> decide

theorem GateText.group {text : Text} (h : GateText text) : GateText ('(' :: (text ++ [')'])) := by
  refine ⟨.group h.balanced .nil, fun c hc => ?_⟩
  rcases mem_cons.mp hc with rfl | hc
  · exact Or.inr (by decide)
  · rcases mem_append.mp hc with hc | hc
    · exact h.chars c hc
    · obtain rfl := mem_singleton.mp hc
      exact Or.inr (by decide)

theorem gateText_compactList : ∀ {items : List CfgPredicate}, (∀ p ∈ items, GateText p.compact) →
    GateText (compactList items)
  | [], _ => ⟨.nil, fun _ hc => absurd hc not_mem_nil⟩
  | p :: items, h => by
      obtain ⟨hhead, htail⟩ := forall_mem_cons.mp h
      rw [compactList_cons]
      refine hhead.append ?_
      split
      · exact ⟨.nil, fun _ hc => absurd hc not_mem_nil⟩
      · exact (gateText_mark (Or.inr rfl)).append (gateText_compactList htail)

theorem gateText_compact (p : CfgPredicate) : GateText p.compact := by
  induction p using groupInduction with
  | feature name =>
      rw [compact_eq]
      exact (gateText_encode _).append ((gateText_mark (Or.inl rfl)).append (gateText_encode _))
  | option key value =>
      rw [compact_eq]
      refine (gateText_encode _).append ?_
      cases value with
      | none => exact ⟨.nil, fun _ hc => absurd hc not_mem_nil⟩
      | some value => exact (gateText_mark (Or.inl rfl)).append (gateText_encode _)
  | group isAll items ih =>
      rw [compact_eq]
      refine (gateText_encode _).append ?_
      cases isAll <;> exact (gateText_compactList ih).group
  | not inner ih =>
      rw [compact_eq]
      exact (gateText_encode _).append
        (gateText_compactList fun p hp => mem_singleton.mp hp ▸ ih).group

/-! ## Twin ids -/

/-- The suffix of a twin whose gate is `gate`. -/
def twinSuffix (gate : Text) : Text := twinMark ++ gate ++ [')']

/-- The canonical gate of an item under some predicates, nothing when there is none. -/
def effectiveGate (predicates : List CfgPredicate) : Text :=
  if predicates = [] then [] else (CfgPredicate.all predicates).canonical.compact

theorem gateText_effectiveGate (predicates : List CfgPredicate) :
    GateText (effectiveGate predicates) := by
  rw [effectiveGate]
  split
  · exact ⟨.nil, fun _ hc => absurd hc not_mem_nil⟩
  · exact gateText_compact _

/-- A segment of a qualified name with the gates behind it, as the predicates they are of. -/
structure Segment where
  name : Text
  gates : List (List CfgPredicate)

namespace Segment

def suffixes (s : Segment) : Text := s.gates.flatMap fun gate => twinSuffix (effectiveGate gate)

/-- The name that the segments make up without their gates, and with them. -/
def plain (segments : List Segment) : Text := joinWith "::".toList (segments.map name)

def qualified (segments : List Segment) : Text :=
  joinWith "::".toList (segments.map fun s => s.name ++ s.suffixes)

end Segment

theorem closingParen_balanced {text : Text} (h : Balanced text) : ∀ (depth : Nat) (rest : Text),
    closingParen (depth + 1) (text ++ rest) =
      (closingParen (depth + 1) rest).map fun (inside, rest) => (text ++ inside, rest) := by
  induction h with
  | nil =>
      intro depth rest
      exact Option.map_id'.symm
  | char hopen hclose _ ih =>
      intro depth rest
      rw [cons_append, closingParen, if_neg hopen, if_neg hclose, ih, Option.map_map]
      rfl
  | @group inside text _ _ ihinside ih =>
      intro depth rest
      rw [cons_append, closingParen, if_pos rfl, append_assoc, ihinside, cons_append,
        closingParen, if_neg (by decide), if_pos rfl, if_neg (by omega), Nat.add_sub_cancel,
        ih, Option.map_map, Option.map_map, Option.map_map]
      congr 1
      funext found
      simp

/-! ## Looking for the mark -/

/-- A text without a mark in it. -/
def Unmarked (text : Text) : Prop := ¬twinMark <:+: text

instance (text : Text) : Decidable (Unmarked text) := inferInstanceAs (Decidable ¬_)

/-- An occurrence does not go over a character that is not in it. -/
theorem isInfix_split {pat before after : Text} {c : Char} (hc : c ∉ pat)
    (h : pat <:+: before ++ c :: after) : pat <:+: before ∨ pat <:+: after := by
  have hpre : ∀ {pre : Text}, pre <+: c :: after → c ∉ pre → pre = [] := by
    intro pre hpre hc
    cases pre with
    | nil => rfl
    | cons d pre => exact absurd (mem_cons.mpr (Or.inl (cons_prefix_cons.mp hpre).1.symm)) hc
  rcases infix_append_iff.mp h with h | h | ⟨left, right, rfl, hleft, hright⟩
  · exact Or.inl h
  · rcases infix_cons_iff.mp h with h | h
    · rw [hpre h hc]
      exact Or.inl nil_infix
    · exact Or.inr h
  · rw [hpre hright fun hmem => hc (mem_append.mpr (Or.inr hmem)), append_nil]
    exact Or.inl hleft.isInfix

theorem Unmarked.join {before after : Text} (h : Unmarked before) (h' : Unmarked after) :
    Unmarked (before ++ "::".toList ++ after) := by
  intro hin
  rw [append_assoc] at hin
  rcases isInfix_split (by decide) hin with hin | hin
  · exact h hin
  · have hin : twinMark <:+: [] ++ ':' :: after := hin
    rcases isInfix_split (by decide) hin with hin | hin
    · exact absurd (infix_nil.mp hin) (by decide)
    · exact h' hin

theorem breakOn_twinMark : ∀ {before : Text}, Unmarked before → ∀ after : Text,
    breakOn twinMark (before ++ (twinMark ++ after)) = some (before, after)
  | [], _, after => by
      rw [nil_append, show twinMark ++ after = '#' :: ("cfg(".toList ++ after) from rfl, breakOn]
      rfl
  | c :: before, h, after => by
      have hrest : Unmarked before := fun hin => h (hin.trans (suffix_cons c _).isInfix)
      have hnone : stripPrefix twinMark (c :: (before ++ (twinMark ++ after))) = none := by
        cases hs : stripPrefix twinMark (c :: (before ++ (twinMark ++ after))) with
        | none => rfl
        | some rest =>
            exfalso
            have heq : (c :: before) ++ (twinMark ++ after) = twinMark ++ rest := stripPrefix_eq hs
            rcases append_eq_append_iff.mp heq with ⟨mid, hmid, htail⟩ | ⟨mid, hmid, -⟩
            · -- a mark that goes past `before` would have a `#` in its middle
              cases mid with
              | nil => exact h ⟨[], [], by rw [append_nil, hmid, append_nil]; rfl⟩
              | cons d mid =>
                  obtain rfl : '#' = d := (List.cons.inj htail).1
                  have hin : '#' ∈ "cfg(".toList := by
                    rw [show "cfg(".toList = before ++ '#' :: mid from (List.cons.inj hmid).2]
                    exact mem_append.mpr (Or.inr mem_cons_self)
                  exact absurd hin (by decide)
            · exact h ⟨[], mid, hmid.symm⟩
      rw [cons_append, breakOn, hnone, breakOn_twinMark hrest]
      rfl

theorem firstGate_suffix {before : Text} (h : Unmarked before) {gate : Text} (hgate : Balanced gate)
    (rest : Text) : firstGate (before ++ (twinSuffix gate ++ rest)) = some (before, gate, rest) := by
  rw [twinSuffix, append_assoc, append_assoc, firstGate, breakOn_twinMark h]
  show (closingParen (0 + 1) (gate ++ ([')'] ++ rest))).bind _ = _
  rw [closingParen_balanced hgate]
  show some (before, gate ++ [], rest) = _
  rw [append_nil]

theorem firstGate_unmarked {text : Text} (h : Unmarked text) : firstGate text = none := by
  rw [firstGate, breakOn_eq_none h]
  rfl

/-! ## The gates of an id -/

/-- Behind whatever has no mark, the text has these gates and stands for this name. -/
def ReadsId (text : Text) (gates : List Text) (plain : Text) : Prop :=
  ∀ before, Unmarked before →
    cfgGatesIn (before ++ text) = gates ∧ stripCfgGates (before ++ text) = before ++ plain

theorem reads_nil : ReadsId [] [] [] := by
  intro before h
  rw [append_nil, cfgGatesIn, stripCfgGates, firstGate_unmarked h]
  exact ⟨rfl, rfl⟩

theorem ReadsId.suffix {text plain : Text} {gates : List Text} (h : ReadsId text gates plain)
    {gate : Text} (hgate : Balanced gate) :
    ReadsId (twinSuffix gate ++ text) (gate :: gates) plain := by
  intro before hbefore
  obtain ⟨hgates, hplain⟩ := h [] (by decide)
  rw [cfgGatesIn, stripCfgGates, firstGate_suffix hbefore hgate]
  exact ⟨congrArg _ hgates, congrArg _ hplain⟩

theorem ReadsId.suffixes {text plain : Text} {gates : List Text} (h : ReadsId text gates plain) :
    ∀ own : List (List CfgPredicate),
      ReadsId ((own.flatMap fun gate => twinSuffix (effectiveGate gate)) ++ text)
        (own.map effectiveGate ++ gates) plain
  | [] => h
  | gate :: own => by
      rw [flatMap_cons, append_assoc]
      exact (ReadsId.suffixes h own).suffix (gateText_effectiveGate gate).balanced

theorem ReadsId.segment {text plain name : Text} {gates : List Text} (h : ReadsId text gates plain)
    (hname : Unmarked name) :
    ReadsId ("::".toList ++ name ++ text) gates ("::".toList ++ name ++ plain) := by
  intro before hbefore
  obtain ⟨hgates, hplain⟩ := h _ (hbefore.join hname)
  simp only [append_assoc] at hgates hplain ⊢
  exact ⟨hgates, hplain⟩

theorem joinWith_flatMap (sep piece : Text) : ∀ pieces : List Text,
    joinWith sep (piece :: pieces) = piece ++ pieces.flatMap fun next => sep ++ next
  | [] => (append_nil piece).symm
  | next :: pieces => by
      rw [joinWith, joinWith_flatMap sep next pieces, flatMap_cons]
      · simp
      · exact cons_ne_nil _ _

namespace Segment

theorem reads_tail : ∀ {segments : List Segment}, (∀ s ∈ segments, Unmarked s.name) →
    ReadsId ((segments.map fun s => s.name ++ s.suffixes).flatMap fun next => "::".toList ++ next)
      (segments.flatMap fun s => s.gates.map effectiveGate)
      ((segments.map name).flatMap fun next => "::".toList ++ next)
  | [], _ => reads_nil
  | s :: segments, h => by
      obtain ⟨hhead, htail⟩ := forall_mem_cons.mp h
      have hrest := ((reads_tail htail).suffixes s.gates).segment hhead
      simp only [map_cons, flatMap_cons, suffixes, append_assoc] at hrest ⊢
      exact hrest

/-- The gates of a qualified name are found in order, and taken out they leave the plain
name; no gate has a character that would end its segment. -/
theorem gates_of_qualified (segments : List Segment) (h : ∀ s ∈ segments, Unmarked s.name) :
    cfgGatesIn (qualified segments) = segments.flatMap (fun s => s.gates.map effectiveGate) ∧
      stripCfgGates (qualified segments) = plain segments ∧
      ∀ p : CfgPredicate, Balanced p.compact ∧ ¬"::".toList <:+: p.compact ∧
        ∀ c ∈ p.compact, c ≠ '.' ∧ c ≠ ':' ∧ c ≠ '#' := by
  have hcompact : ∀ p : CfgPredicate, Balanced p.compact ∧ ¬"::".toList <:+: p.compact ∧
      ∀ c ∈ p.compact, c ≠ '.' ∧ c ≠ ':' ∧ c ≠ '#' := by
    intro p
    have hchars : ∀ c ∈ p.compact, c ≠ '.' ∧ c ≠ ':' ∧ c ≠ '#' := fun c hc =>
      isGateChar_ne ((gateText_compact p).chars c hc)
    refine ⟨(gateText_compact p).balanced, fun hin => ?_, hchars⟩
    exact (hchars ':' (hin.subset (by decide))).2.1 rfl
  cases segments with
  | nil => exact ⟨(reads_nil [] (by decide)).1, (reads_nil [] (by decide)).2, hcompact⟩
  | cons s segments =>
      obtain ⟨hhead, htail⟩ := forall_mem_cons.mp h
      obtain ⟨hgates, hplain⟩ := (reads_tail htail).suffixes s.gates s.name hhead
      have hqualified : qualified (s :: segments) = s.name ++ (s.suffixes ++
          (segments.map fun s => s.name ++ s.suffixes).flatMap fun next => "::".toList ++ next) := by
        rw [qualified, map_cons, joinWith_flatMap, append_assoc]
      rw [hqualified, plain, map_cons, joinWith_flatMap]
      exact ⟨hgates, hplain, hcompact⟩

/-- `lib.rs::m#cfg(unix)::f#cfg(not(kani))`. -/
theorem gates_of_qualified_nested :
    cfgGatesIn "lib.rs::m#cfg(unix)::f#cfg(not(kani))".toList =
      ["unix".toList, "not(kani)".toList] := by
  have hsegments := gates_of_qualified
    [⟨"lib.rs".toList, []⟩, ⟨"m".toList, [[.option "unix".toList none]]⟩,
      ⟨"f".toList, [[.not (.option "kani".toList none)]]⟩] (by decide)
  have htext : qualified [⟨"lib.rs".toList, []⟩, ⟨"m".toList, [[.option "unix".toList none]]⟩,
      ⟨"f".toList, [[.not (.option "kani".toList none)]]⟩] =
        "lib.rs::m#cfg(unix)::f#cfg(not(kani))".toList := by decide
  rw [← htext, hsegments.1]
  decide

end Segment

end CodeGraph
