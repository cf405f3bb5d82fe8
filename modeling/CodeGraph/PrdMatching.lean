import CodeGraph.MemberCalls
import CodeGraph.Lib.Upsert

/-!
# Grounding a finding in symbols

`prd_input::matching`: the tokens of a finding, the hits of each, and the
symbols sorted by the best evidence a token gave for them.
-/

namespace CodeGraph

open List

namespace PrdMatching

open Resolver (splitWhitespace)

inductive MatchMode
  | verbatim
  | exactName
  | lexical
deriving DecidableEq

def MatchMode.rank : MatchMode → Nat
  | .lexical => 0
  | .exactName => 1
  | .verbatim => 2

structure SearchResult where
  qualifiedName : Text
  name : Text
  label : Text
deriving DecidableEq

structure MatchOutcome where
  matched : List (SearchResult × MatchMode)
  candidates : List (SearchResult × MatchMode)

def minTokenLen : Nat := 3

def maxTokens : Nat := 32

/-! ## Tokens -/

def toAsciiLowercase (text : Text) : Text := text.map Char.toLower

def isTokenChar (c : Char) : Bool := c.isAlphanum || c == '_' || c == ':'

def cleanToken (raw : Text) : Text := toAsciiLowercase (raw.filter isTokenChar)

def backtick : Text := "\x60".toList

/-- The text of the first pair of backticks, and the text behind the pair. -/
def nextCitation (text : Text) : Option (Text × Text) := do
  let (_, afterOpen) ← breakOn backtick text
  breakOn backtick afterOpen

theorem nextCitation_eq {text raw afterClose : Text}
    (h : nextCitation text = some (raw, afterClose)) :
    ∃ before, text = before ++ (backtick ++ raw ++ backtick) ++ afterClose := by
  obtain ⟨⟨before, afterOpen⟩, hopen, hclose⟩ := Option.bind_eq_some_iff.mp h
  refine ⟨before, ?_⟩
  rw [breakOn_eq hopen, breakOn_eq hclose]
  simp only [append_assoc]

theorem length_nextCitation_lt {text raw afterClose : Text}
    (h : nextCitation text = some (raw, afterClose)) : afterClose.length < text.length := by
  obtain ⟨before, rfl⟩ := nextCitation_eq h
  have hpos : 0 < backtick.length := by decide
  simp only [length_append]
  omega

/-- A token that is new is added. -/
def pushToken (out : List Text) (cleaned : Text) : List Text :=
  if cleaned ∉ out then out ++ [cleaned] else out

/-- The loop over the pairs of backticks of the text that is left. -/
def citationsFrom (out : List Text) (rest : Text) : List Text :=
  match _h : nextCitation rest with
  | none => out
  | some (raw, afterClose) =>
      let cleaned := cleanToken raw
      let found := if cleaned ≠ [] then pushToken out cleaned else out
      if maxTokens ≤ found.length then found else citationsFrom found afterClose
termination_by rest.length
decreasing_by exact length_nextCitation_lt _h

def extractVerbatimIdentifiers (text : Text) : List Text := citationsFrom [] text

def naturalFrom : List Text → List Text → List Text
  | seen, [] => seen
  | seen, raw :: words =>
      if maxTokens ≤ seen.length then seen
      else
        let cleaned := cleanToken raw
        if cleaned.length < minTokenLen then naturalFrom seen words
        else naturalFrom (pushToken seen cleaned) words

def combinedText (title description : Text) : Text := title ++ [' '] ++ description

def tokenizeNatural (cc : CharClass) (title description : Text) : List Text :=
  naturalFrom [] (splitWhitespace cc (combinedText title description))

/-! ## Hits -/

/-- A file that the search surfaced by its prose is none. -/
def isCodeSymbol (hit : SearchResult) : Bool :=
  toAsciiLowercase hit.label != toAsciiLowercase "File".toList

/-- The token is the name or the last segment of the qualified name. -/
def isExactHit (token : Text) (hit : SearchResult) : Bool :=
  toAsciiLowercase hit.name == token ||
    toAsciiLowercase (lastPiece "::".toList hit.qualifiedName) == token

def upsertBest (best : List (SearchResult × MatchMode)) (hit : SearchResult) (mode : MatchMode) :
    List (SearchResult × MatchMode) :=
  BestOf.upsert SearchResult.qualifiedName MatchMode.rank best (hit, mode)

section Search

-- What `search_graph` returns for a token.
variable (searchGraph : Text → List SearchResult)

def searchHits (token : Text) : List SearchResult := (searchGraph token).filter isCodeSymbol

def addVerbatim (best : List (SearchResult × MatchMode)) (token : Text) :
    List (SearchResult × MatchMode) :=
  (searchHits searchGraph token).foldl
    (fun best hit => if !isExactHit token hit then best else upsertBest best hit .verbatim) best

def addNatural (best : List (SearchResult × MatchMode)) (token : Text) :
    List (SearchResult × MatchMode) :=
  (searchHits searchGraph token).foldl
    (fun best hit =>
      upsertBest best hit (if isExactHit token hit then .exactName else .lexical)) best

/-- Backtick citations first, then the words of the text. -/
def bestHits (verbatimTokens naturalTokens : List Text) : List (SearchResult × MatchMode) :=
  naturalTokens.foldl (addNatural searchGraph)
    (verbatimTokens.foldl (addVerbatim searchGraph) [])

def searchAndClassify (verbatimTokens naturalTokens : List Text) : MatchOutcome :=
  let best := bestHits searchGraph verbatimTokens naturalTokens
  { matched := best.filter (·.2 ≠ .lexical)
    candidates := best.filter (·.2 = .lexical) }

end Search

/-! ## What the tokens of a text are -/

/-! ## The pieces of evidence -/

section Search

variable (searchGraph : Text → List SearchResult)

def verbatimEvents (token : Text) : List (SearchResult × MatchMode) :=
  ((searchHits searchGraph token).filter (isExactHit token)).map (·, .verbatim)

def naturalEvents (token : Text) : List (SearchResult × MatchMode) :=
  (searchHits searchGraph token).map fun hit =>
    (hit, if isExactHit token hit then .exactName else .lexical)

def events (verbatim natural : List Text) : List (SearchResult × MatchMode) :=
  verbatim.flatMap (verbatimEvents searchGraph) ++ natural.flatMap (naturalEvents searchGraph)

theorem addVerbatim_eq (best : List (SearchResult × MatchMode)) (token : Text) :
    addVerbatim searchGraph best token =
      (verbatimEvents searchGraph token).foldl
        (BestOf.upsert SearchResult.qualifiedName MatchMode.rank) best := by
  rw [addVerbatim, verbatimEvents, foldl_map, foldl_filter]
  congr 1
  funext best hit
  cases isExactHit token hit <;> rfl

theorem addNatural_eq (best : List (SearchResult × MatchMode)) (token : Text) :
    addNatural searchGraph best token =
      (naturalEvents searchGraph token).foldl
        (BestOf.upsert SearchResult.qualifiedName MatchMode.rank) best := by
  rw [addNatural, naturalEvents, foldl_map]
  rfl

theorem bestHits_best (verbatim natural : List Text) :
    BestOf.Best SearchResult.qualifiedName MatchMode.rank (events searchGraph verbatim natural)
      (bestHits searchGraph verbatim natural) := by
  have hrows : bestHits searchGraph verbatim natural =
      (events searchGraph verbatim natural).foldl
        (BestOf.upsert SearchResult.qualifiedName MatchMode.rank) [] := by
    rw [bestHits, events, foldl_append, foldl_flatMap, foldl_flatMap,
      funext₂ (addVerbatim_eq searchGraph), funext₂ (addNatural_eq searchGraph)]
  rw [hrows]
  exact BestOf.Best.foldl _

/-- A token that has a hit of the qualified name, related to it by `R`. -/
def HitBy (R : Text → SearchResult → Prop) (tokens : List Text) (qn : Text) : Prop :=
  ∃ token ∈ tokens, ∃ hit ∈ searchHits searchGraph token, hit.qualifiedName = qn ∧ R token hit

variable {searchGraph}

theorem hitBy_append {R : Text → SearchResult → Prop} {verbatim natural : List Text} {qn : Text} :
    HitBy searchGraph R (verbatim ++ natural) qn ↔
      HitBy searchGraph R verbatim qn ∨ HitBy searchGraph R natural qn := by
  simp only [HitBy, mem_append, or_and_right, exists_or]

theorem hitBy_perm {R : Text → SearchResult → Prop} {tokens tokens' : List Text} {qn : Text}
    (h : tokens.Perm tokens') :
    HitBy searchGraph R tokens qn ↔ HitBy searchGraph R tokens' qn := by
  simp only [HitBy, h.mem_iff]

variable (searchGraph)

/-- The token is the name or the last segment of a hit. -/
def ExactlyHit : List Text → Text → Prop :=
  HitBy searchGraph fun token hit => isExactHit token hit = true

def AnyHit : List Text → Text → Prop := HitBy searchGraph fun _ _ => True

variable {searchGraph} {verbatim natural : List Text} {qn : Text}

theorem exactlyHit_append : ExactlyHit searchGraph (verbatim ++ natural) qn ↔
    ExactlyHit searchGraph verbatim qn ∨ ExactlyHit searchGraph natural qn := hitBy_append

theorem mem_events {e : SearchResult × MatchMode} :
    e ∈ events searchGraph verbatim natural ↔
      (∃ token ∈ verbatim, e.1 ∈ searchHits searchGraph token ∧ isExactHit token e.1 = true ∧
        e.2 = .verbatim) ∨
      ∃ token ∈ natural, e.1 ∈ searchHits searchGraph token ∧
        e.2 = if isExactHit token e.1 then .exactName else .lexical := by
  obtain ⟨hit, mode⟩ := e
  rw [events, mem_append, mem_flatMap, mem_flatMap]
  refine or_congr (exists_congr fun token => and_congr_right fun _ => ?_)
    (exists_congr fun token => and_congr_right fun _ => ?_)
  · rw [verbatimEvents, mem_map]
    constructor
    · rintro ⟨h, hmem, heq⟩
      cases heq
      exact ⟨(mem_filter.mp hmem).1, (mem_filter.mp hmem).2, rfl⟩
    · rintro ⟨hmem, hexact, rfl⟩
      exact ⟨hit, mem_filter.mpr ⟨hmem, hexact⟩, rfl⟩
  · rw [naturalEvents, mem_map]
    constructor
    · rintro ⟨h, hmem, heq⟩
      cases heq
      exact ⟨hmem, rfl⟩
    · rintro ⟨hmem, hmode⟩
      exact ⟨hit, hmem, Prod.ext rfl hmode.symm⟩

def Evidence (searchGraph : Text → List SearchResult) (verbatim natural : List Text) (qn : Text)
    (mode : MatchMode) : Prop :=
  ∃ e ∈ events searchGraph verbatim natural, e.1.qualifiedName = qn ∧ e.2 = mode

theorem evidence_verbatim :
    Evidence searchGraph verbatim natural qn .verbatim ↔ ExactlyHit searchGraph verbatim qn := by
  constructor
  · rintro ⟨e, he, hqn, hmode⟩
    obtain ⟨token, htoken, hhit, hexact, -⟩ | ⟨token, htoken, hhit, hnatural⟩ := mem_events.mp he
    · exact ⟨token, htoken, e.1, hhit, hqn, hexact⟩
    · rw [hmode] at hnatural
      split at hnatural <;> cases hnatural
  · rintro ⟨token, htoken, hit, hhit, hqn, hexact⟩
    exact ⟨(hit, .verbatim), mem_events.mpr (.inl ⟨token, htoken, hhit, hexact, rfl⟩), hqn, rfl⟩

theorem evidence_exactName :
    Evidence searchGraph verbatim natural qn .exactName ↔ ExactlyHit searchGraph natural qn := by
  constructor
  · rintro ⟨e, he, hqn, hmode⟩
    obtain ⟨token, htoken, hhit, -, hverbatim⟩ | ⟨token, htoken, hhit, hnatural⟩ :=
      mem_events.mp he
    · cases hmode.symm.trans hverbatim
    · rw [hmode] at hnatural
      split at hnatural
      next hexact => exact ⟨token, htoken, e.1, hhit, hqn, hexact⟩
      next => cases hnatural
  · rintro ⟨token, htoken, hit, hhit, hqn, hexact⟩
    exact ⟨(hit, .exactName), mem_events.mpr (.inr ⟨token, htoken, hhit, by rw [if_pos hexact]⟩),
      hqn, rfl⟩

theorem evidence_any :
    (∃ mode, Evidence searchGraph verbatim natural qn mode) ↔
      ExactlyHit searchGraph verbatim qn ∨ AnyHit searchGraph natural qn := by
  constructor
  · rintro ⟨mode, e, he, hqn, -⟩
    obtain ⟨token, htoken, hhit, hexact, -⟩ | ⟨token, htoken, hhit, -⟩ := mem_events.mp he
    · exact .inl ⟨token, htoken, e.1, hhit, hqn, hexact⟩
    · exact .inr ⟨token, htoken, e.1, hhit, hqn, trivial⟩
  · rintro (⟨token, htoken, hit, hhit, hqn, hexact⟩ | ⟨token, htoken, hit, hhit, hqn, -⟩)
    · exact ⟨_, (hit, .verbatim), mem_events.mpr (.inl ⟨token, htoken, hhit, hexact, rfl⟩), hqn,
        rfl⟩
    · exact ⟨_, (hit, if isExactHit token hit then .exactName else .lexical),
        mem_events.mpr (.inr ⟨token, htoken, hhit, rfl⟩), hqn, rfl⟩

/-! ## The rows -/

theorem MatchMode.rank_injective : Function.Injective MatchMode.rank := by
  intro a b h
  cases a <;> cases b <;> first | rfl | cases h

def Row (searchGraph : Text → List SearchResult) (verbatim natural : List Text) (qn : Text)
    (mode : MatchMode) : Prop :=
  ∃ row ∈ bestHits searchGraph verbatim natural, row.1.qualifiedName = qn ∧ row.2 = mode

theorem row_iff {mode : MatchMode} : Row searchGraph verbatim natural qn mode ↔
    Evidence searchGraph verbatim natural qn mode ∧
      ∀ better, Evidence searchGraph verbatim natural qn better → better.rank ≤ mode.rank := by
  rw [Row, (bestHits_best searchGraph verbatim natural).mode_iff MatchMode.rank_injective]
  refine and_congr_right fun _ => ⟨?_, ?_⟩
  · rintro h better ⟨e, he, hqn, rfl⟩
    exact h e he hqn
  · intro h e he hqn
    exact h e.2 ⟨e, he, hqn, rfl⟩

theorem row_verbatim :
    Row searchGraph verbatim natural qn .verbatim ↔ ExactlyHit searchGraph verbatim qn := by
  rw [row_iff, evidence_verbatim]
  refine and_iff_left_of_imp fun _ better _ => ?_
  cases better <;> decide

theorem row_exactName : Row searchGraph verbatim natural qn .exactName ↔
    ExactlyHit searchGraph natural qn ∧ ¬ExactlyHit searchGraph verbatim qn := by
  rw [row_iff, evidence_exactName]
  refine and_congr_right fun _ => ⟨fun h hverbatim => ?_, fun h better hbetter => ?_⟩
  · exact absurd (h .verbatim (evidence_verbatim.mpr hverbatim)) (by decide)
  · cases better with
    | verbatim => exact absurd (evidence_verbatim.mp hbetter) h
    | exactName => exact le_rfl
    | lexical => exact Nat.zero_le _

theorem row_lexical : Row searchGraph verbatim natural qn .lexical ↔
    AnyHit searchGraph natural qn ∧ ¬ExactlyHit searchGraph (verbatim ++ natural) qn := by
  rw [row_iff, exactlyHit_append]
  constructor
  · rintro ⟨hlexical, h⟩
    have hnone : ¬(ExactlyHit searchGraph verbatim qn ∨ ExactlyHit searchGraph natural qn) := by
      rintro (hverbatim | hnatural)
      · exact absurd (h .verbatim (evidence_verbatim.mpr hverbatim)) (by decide)
      · exact absurd (h .exactName (evidence_exactName.mpr hnatural)) (by decide)
    exact ⟨(evidence_any.mp ⟨_, hlexical⟩).resolve_left fun hv => hnone (.inl hv), hnone⟩
  · rintro ⟨hany, hnone⟩
    have hmode : ∀ mode, Evidence searchGraph verbatim natural qn mode → mode = .lexical := by
      intro mode hmode
      cases mode with
      | verbatim => exact absurd (.inl (evidence_verbatim.mp hmode)) hnone
      | exactName => exact absurd (.inr (evidence_exactName.mp hmode)) hnone
      | lexical => rfl
    obtain ⟨mode, hevidence⟩ := evidence_any.mpr (.inr hany)
    refine ⟨hmode mode hevidence ▸ hevidence, fun better hbetter => ?_⟩
    rw [hmode better hbetter]

/-! ## The outcome -/

theorem mem_matched {row : SearchResult × MatchMode} :
    row ∈ (searchAndClassify searchGraph verbatim natural).matched ↔
      row ∈ bestHits searchGraph verbatim natural ∧ row.2 ≠ .lexical := by
  rw [searchAndClassify, mem_filter, decide_eq_true_eq]

theorem mem_candidates {row : SearchResult × MatchMode} :
    row ∈ (searchAndClassify searchGraph verbatim natural).candidates ↔
      row ∈ bestHits searchGraph verbatim natural ∧ row.2 = .lexical := by
  rw [searchAndClassify, mem_filter, decide_eq_true_eq]

theorem matched_iff :
    (∃ row ∈ (searchAndClassify searchGraph verbatim natural).matched,
        row.1.qualifiedName = qn) ↔
      ExactlyHit searchGraph (verbatim ++ natural) qn := by
  rw [exactlyHit_append]
  constructor
  · rintro ⟨row, hrow, hqn⟩
    obtain ⟨hbest, hmode⟩ := mem_matched.mp hrow
    cases hrowMode : row.2 with
    | verbatim => exact .inl (row_verbatim.mp ⟨row, hbest, hqn, hrowMode⟩)
    | exactName => exact .inr (row_exactName.mp ⟨row, hbest, hqn, hrowMode⟩).1
    | lexical => exact absurd hrowMode hmode
  · intro h
    by_cases hverbatim : ExactlyHit searchGraph verbatim qn
    · obtain ⟨row, hbest, hqn, hmode⟩ := row_verbatim.mpr hverbatim
      exact ⟨row, mem_matched.mpr ⟨hbest, by rw [hmode]; decide⟩, hqn⟩
    · obtain ⟨row, hbest, hqn, hmode⟩ :=
        row_exactName.mpr ⟨h.resolve_left hverbatim, hverbatim⟩
      exact ⟨row, mem_matched.mpr ⟨hbest, by rw [hmode]; decide⟩, hqn⟩

theorem verbatim_iff :
    (∃ row ∈ (searchAndClassify searchGraph verbatim natural).matched,
        row.1.qualifiedName = qn ∧ row.2 = .verbatim) ↔ ExactlyHit searchGraph verbatim qn := by
  have hrow : Row searchGraph verbatim natural qn .verbatim ↔ ExactlyHit searchGraph verbatim qn :=
    row_verbatim
  rw [← hrow]
  refine exists_congr fun row => ?_
  rw [mem_matched, and_assoc]
  refine and_congr_right fun _ => and_iff_right_of_imp fun h => ?_
  rw [h.2]
  decide

theorem candidates_iff :
    (∃ row ∈ (searchAndClassify searchGraph verbatim natural).candidates,
        row.1.qualifiedName = qn) ↔
      AnyHit searchGraph natural qn ∧ ¬ExactlyHit searchGraph (verbatim ++ natural) qn := by
  rw [← row_lexical]
  refine exists_congr fun row => ?_
  rw [mem_candidates, and_assoc]
  exact and_congr_right fun _ => and_comm

/-! ## Grounding by identity -/

/-- `tail` is the qualified name, or what stands behind one of its `::`. -/
def AlignedTail (tail qualifiedName : Text) : Prop :=
  tail = qualifiedName ∨ "::".toList ++ tail <:+ qualifiedName

/-- Up to case, the token is the name or a tail of the qualified name. -/
def Spells (token : Text) (hit : SearchResult) : Prop :=
  toAsciiLowercase hit.name = token ∨
    ∃ tail, AlignedTail tail hit.qualifiedName ∧ toAsciiLowercase tail = token

/-- The token is a tail other than the last segment, such as `type::method`. -/
def SpellsPath (token : Text) (hit : SearchResult) : Prop :=
  ∃ tail, AlignedTail tail hit.qualifiedName ∧ tail ≠ lastPiece "::".toList hit.qualifiedName ∧
    toAsciiLowercase tail = token

theorem spells_iff {token : Text} {hit : SearchResult} :
    Spells token hit ↔ isExactHit token hit = true ∨ SpellsPath token hit := by
  rw [isExactHit, Bool.or_eq_true, beq_iff_eq, beq_iff_eq, or_assoc]
  refine or_congr_right ⟨?_, ?_⟩
  · rintro ⟨tail, haligned, htoken⟩
    by_cases hlast : tail = lastPiece "::".toList hit.qualifiedName
    · exact .inl (hlast ▸ htoken)
    · exact .inr ⟨tail, haligned, hlast, htoken⟩
  · rintro (htoken | ⟨tail, haligned, -, htoken⟩)
    · exact ⟨_, lastPiece_isSuffix "::".toList hit.qualifiedName, htoken⟩
    · exact ⟨tail, haligned, htoken⟩

variable (searchGraph) (verbatim natural)

/-- The hits are sorted by what the tokens spell, whatever their order. A hit
is a code symbol, known by its qualified name. -/
structure GroundedByIdentity : Prop where
  matched : ∀ qn, (∃ row ∈ (searchAndClassify searchGraph verbatim natural).matched,
    row.1.qualifiedName = qn) ↔ HitBy searchGraph Spells (verbatim ++ natural) qn
  asVerbatim : ∀ qn, (∃ row ∈ (searchAndClassify searchGraph verbatim natural).matched,
    row.1.qualifiedName = qn ∧ row.2 = .verbatim) ↔ HitBy searchGraph Spells verbatim qn
  candidates : ∀ qn, (∃ row ∈ (searchAndClassify searchGraph verbatim natural).candidates,
    row.1.qualifiedName = qn) ↔
      AnyHit searchGraph natural qn ∧ ¬HitBy searchGraph Spells (verbatim ++ natural) qn
  hits : ∀ row ∈ (searchAndClassify searchGraph verbatim natural).matched ++
    (searchAndClassify searchGraph verbatim natural).candidates,
      ∃ token ∈ verbatim ++ natural, row.1 ∈ searchHits searchGraph token
  once : (((searchAndClassify searchGraph verbatim natural).matched ++
    (searchAndClassify searchGraph verbatim natural).candidates).map (·.1.qualifiedName)).Nodup
  anyOrder : ∀ verbatim' natural' : List Text, verbatim.Perm verbatim' → natural.Perm natural' →
    ∀ qn mode,
      (∃ row ∈ (searchAndClassify searchGraph verbatim natural).matched ++
          (searchAndClassify searchGraph verbatim natural).candidates,
        row.1.qualifiedName = qn ∧ row.2 = mode) ↔
      ∃ row ∈ (searchAndClassify searchGraph verbatim' natural').matched ++
          (searchAndClassify searchGraph verbatim' natural').candidates,
        row.1.qualifiedName = qn ∧ row.2 = mode

/-- A symbol that a token spells by a path is also hit under its name or last
segment: by a citation where a citation spells it, else by any token. -/
def PathsBacked : Prop :=
  (∀ qn, HitBy searchGraph SpellsPath verbatim qn → ExactlyHit searchGraph verbatim qn) ∧
    ∀ qn, HitBy searchGraph SpellsPath natural qn →
      ExactlyHit searchGraph (verbatim ++ natural) qn

variable {searchGraph verbatim natural}

theorem hitBy_spells {tokens : List Text} : HitBy searchGraph Spells tokens qn ↔
    ExactlyHit searchGraph tokens qn ∨ HitBy searchGraph SpellsPath tokens qn := by
  simp only [HitBy, ExactlyHit, spells_iff, and_or_left, exists_or]

theorem mem_outcome {row : SearchResult × MatchMode} :
    row ∈ (searchAndClassify searchGraph verbatim natural).matched ++
        (searchAndClassify searchGraph verbatim natural).candidates ↔
      row ∈ bestHits searchGraph verbatim natural := by
  rw [mem_append, mem_matched, mem_candidates, ← and_or_left]
  exact and_iff_left (ne_or_eq _ _)

theorem row_isHit {row : SearchResult × MatchMode}
    (h : row ∈ bestHits searchGraph verbatim natural) :
    ∃ token ∈ verbatim ++ natural, row.1 ∈ searchHits searchGraph token := by
  obtain ⟨e, he, hitem⟩ :=
    mem_map.mp ((bestHits_best searchGraph verbatim natural).item row h)
  rw [← hitem]
  obtain ⟨token, htoken, hhit, -⟩ | ⟨token, htoken, hhit, -⟩ := mem_events.mp he
  · exact ⟨token, mem_append_left _ htoken, hhit⟩
  · exact ⟨token, mem_append_right _ htoken, hhit⟩

theorem once : (((searchAndClassify searchGraph verbatim natural).matched ++
    (searchAndClassify searchGraph verbatim natural).candidates).map
      (·.1.qualifiedName)).Nodup := by
  have hperm : ((searchAndClassify searchGraph verbatim natural).matched ++
      (searchAndClassify searchGraph verbatim natural).candidates).Perm
        (bestHits searchGraph verbatim natural) := by
    have hcandidates : (searchAndClassify searchGraph verbatim natural).candidates =
        (bestHits searchGraph verbatim natural).filter fun row => !decide (row.2 ≠ .lexical) := by
      refine filter_congr fun row _ => ?_
      simp
    rw [hcandidates]
    exact filter_append_perm _ _
  exact (hperm.map _).nodup_iff.mpr (bestHits_best searchGraph verbatim natural).nodup

theorem outcome_iff {mode : MatchMode} :
    (∃ row ∈ (searchAndClassify searchGraph verbatim natural).matched ++
        (searchAndClassify searchGraph verbatim natural).candidates,
      row.1.qualifiedName = qn ∧ row.2 = mode) ↔ Row searchGraph verbatim natural qn mode := by
  simp only [mem_outcome, Row]

theorem row_perm {verbatim' natural' : List Text} (hv : verbatim.Perm verbatim')
    (hn : natural.Perm natural') {mode : MatchMode} :
    Row searchGraph verbatim natural qn mode ↔ Row searchGraph verbatim' natural' qn mode := by
  have hverbatim : ExactlyHit searchGraph verbatim qn ↔ ExactlyHit searchGraph verbatim' qn :=
    hitBy_perm hv
  have hnatural : ExactlyHit searchGraph natural qn ↔ ExactlyHit searchGraph natural' qn :=
    hitBy_perm hn
  have hany : AnyHit searchGraph natural qn ↔ AnyHit searchGraph natural' qn := hitBy_perm hn
  cases mode with
  | verbatim => rw [row_verbatim, row_verbatim, hverbatim]
  | exactName => rw [row_exactName, row_exactName, hverbatim, hnatural]
  | lexical =>
      rw [row_lexical, row_lexical, exactlyHit_append, exactlyHit_append, hverbatim, hnatural, hany]

theorem grounded_of_pathsBacked (h : PathsBacked searchGraph verbatim natural) :
    GroundedByIdentity searchGraph verbatim natural := by
  have hverbatim : ∀ qn, HitBy searchGraph Spells verbatim qn ↔
      ExactlyHit searchGraph verbatim qn := by
    intro qn
    rw [hitBy_spells]
    exact or_iff_left_of_imp (h.1 qn)
  have hall : ∀ qn, HitBy searchGraph Spells (verbatim ++ natural) qn ↔
      ExactlyHit searchGraph (verbatim ++ natural) qn := by
    intro qn
    rw [hitBy_spells, hitBy_append]
    refine or_iff_left_of_imp (Or.rec (fun hpath => ?_) (h.2 qn))
    exact exactlyHit_append.mpr (.inl (h.1 qn hpath))
  refine ⟨fun qn => ?_, fun qn => ?_, fun qn => ?_, fun row hrow => ?_, once, ?_⟩
  · rw [matched_iff, hall]
  · rw [verbatim_iff, hverbatim]
  · rw [candidates_iff, hall]
  · exact row_isHit (mem_outcome.mp hrow)
  · intro verbatim' natural' hv hn qn mode
    rw [outcome_iff, outcome_iff, row_perm hv hn]

theorem pathsBacked_of_grounded (h : GroundedByIdentity searchGraph verbatim natural) :
    PathsBacked searchGraph verbatim natural := by
  refine ⟨fun qn hpath => ?_, fun qn hpath => ?_⟩
  · exact verbatim_iff.mp ((h.asVerbatim qn).mpr (hitBy_spells.mpr (.inr hpath)))
  · refine matched_iff.mp ((h.matched qn).mpr (hitBy_spells.mpr (.inr ?_)))
    exact hitBy_append.mpr (.inr hpath)

end Search

structure FindingTokens (cc : CharClass) (title description : Text) where
  verbatim : List Text
  natural : List Text
  cited : verbatim.Perm (extractVerbatimIdentifiers (combinedText title description))
  worded : natural.Perm (tokenizeNatural cc title description)

/-- The hits of a finding are grounded by identity exactly when each symbol
that one of its tokens spells by a path is also spelled by its last segment. -/
theorem grounded_iff_pathsBacked (cc : CharClass) (title description : Text)
    (tokens : FindingTokens cc title description) (searchGraph : Text → List SearchResult) :
    GroundedByIdentity searchGraph tokens.verbatim tokens.natural ↔
      PathsBacked searchGraph tokens.verbatim tokens.natural :=
  ⟨pathsBacked_of_grounded, grounded_of_pathsBacked⟩

namespace Sample

def method : SearchResult where
  qualifiedName := "src/a.rs::Type::method".toList
  name := "method".toList
  label := "Method".toList

def title : Text := "Crash".toList

def description : Text := "see \x60Type::method()\x60".toList

def tokens : FindingTokens .ascii title description where
  verbatim := _
  natural := _
  cited := List.Perm.refl _
  worded := List.Perm.refl _

end Sample

theorem cited_path_is_not_matched :
    ¬∀ (cc : CharClass) (title description : Text) (tokens : FindingTokens cc title description)
      (searchGraph : Text → List SearchResult),
        GroundedByIdentity searchGraph tokens.verbatim tokens.natural := by
  intro h
  have hcited : Sample.tokens.verbatim = ["type::method".toList] := by decide +kernel
  have hspelled : Spells "type::method".toList Sample.method :=
    .inr ⟨"Type::method".toList, .inr (by decide), by decide⟩
  have hsearch : searchHits (fun _ => [Sample.method]) "type::method".toList = [Sample.method] := by
    decide
  have hverbatim := (h .ascii Sample.title Sample.description Sample.tokens
    fun _ => [Sample.method]).asVerbatim Sample.method.qualifiedName
  have hmatched := verbatim_iff.mp (hverbatim.mpr ⟨"type::method".toList,
    hcited ▸ mem_cons_self, Sample.method, hsearch ▸ mem_cons_self, rfl, hspelled⟩)
  obtain ⟨token, htoken, hit, hhit, -, hexact⟩ := hmatched
  have htoken' : token = "type::method".toList := mem_singleton.mp (hcited ▸ htoken)
  rw [htoken', hsearch] at hhit
  rw [htoken', mem_singleton.mp hhit] at hexact
  exact absurd hexact (by decide)

end PrdMatching

end CodeGraph
