import CodeGraph.PathGate

/-!
# What a path call binds to

The candidates a written path names: those it leads to once `use` declarations are followed,
and where there is none, the items of the `impl` blocks of a type it names. The gate
resolves a call to the one such candidate that a target reaches, is ambiguous between
several, and asks for no order of the candidates.
-/

namespace CodeGraph

open List

namespace Resolver

open AmbiguityPolicy (Evidence Resolution)
open Relation (ReflTransGen)
open Reexport (Leads anchorIn)

namespace ResolveContext

variable (ctx : ResolveContext)

/-- An owner of the path, `use` declarations followed, has an item of that name that is, `use`
declarations followed, at `qn`. -/
def LeadsTo (owners : WrittenPath) (name qn : Text) : Prop :=
  ∃ owner ∈ owners.anchors, ∃ place, ReflTransGen (Leads ctx.facts owners.callerFile)
      (owner.child name) place ∧ Reexport.Stays ctx.facts owners.callerFile place ∧
    owners.isAt ctx.facts qn place

/-- The owner of the candidate, as its file writes it, is a type that the path names. -/
def ImplItem (owners : WrittenPath) (owner : Text) (c : SymbolEntry) : Prop :=
  (ctx.namedTypes owners owner).types ≠ [] ∧
    ctx.implOwnerIsNamed c (ctx.namedTypes owners owner) = some true

/-- The path decides among the `impl` blocks: it leads to no candidate, and the owner of each can
be read. -/
def ByImpls (owners : WrittenPath) (owner name : Text) (candidates : List SymbolEntry) : Prop :=
  ∀ c ∈ candidates, ¬ctx.LeadsTo owners name c.qualifiedName ∧
    ctx.implOwnerIsNamed c (ctx.namedTypes owners owner) ≠ none

def Named (owners : WrittenPath) (owner name : Text) (candidates : List SymbolEntry)
    (c : SymbolEntry) : Prop :=
  ctx.LeadsTo owners name c.qualifiedName ∨
    ctx.ByImpls owners owner name candidates ∧ ctx.ImplItem owners owner c

variable {ctx} {callerQn callee qualifier name owner : Text} {candidates : List SymbolEntry}
  {owners : WrittenPath} {fallback : Bool}

theorem itemNamed_admits_iff {c : SymbolEntry} :
    (owners.itemNamed ctx.facts name).admits ctx.facts c = true ↔
      ctx.LeadsTo owners name c.qualifiedName := by
  rw [WrittenPath.admits]
  simp only [WrittenPath.itemNamed, if_true, any_eq_true, mem_flatMap]
  constructor
  · rintro ⟨place, ⟨owner, howner, hplace⟩, hat⟩
    obtain ⟨hleads, hstays⟩ := mem_followed.mp hplace
    exact ⟨owner, howner, place, hleads, hstays, hat⟩
  · rintro ⟨owner, howner, place, hleads, hstays, hat⟩
    exact ⟨place, ⟨owner, howner, mem_followed.mpr ⟨hleads, hstays⟩⟩, hat⟩

theorem eq_singleton_of_named {kept : List SymbolEntry} {t : SymbolEntry} {e : Evidence}
    {confidence : ℚ} {d : Option Decline} (h : named kept = (.resolved t e confidence, d)) :
    kept = [t] := by
  match kept, h with
  | [target], h => cases h; rfl
  | [], h => cases h
  | _ :: _ :: _, h => cases h

theorem named_ambiguous {kept : List SymbolEntry} (h : 2 ≤ kept.length) :
    named kept = (.ambiguous kept, none) := by
  match kept, h with
  | _ :: _ :: _, _ => rfl

/-! ## The branches of the gate -/

/-- The call is one that the gate reads, and `owners` is what its qualifier names. -/
structure Reads (ctx : ResolveContext) (callerQn callee : Text) (candidates : List SymbolEntry)
    (qualifier name : Text) (owners : WrittenPath) (fallback : Bool) : Prop where
  rust : ctx.language = "rust".toList
  plain : plainPath callee = some (qualifier, name)
  rule : ctx.ruleOf callerQn qualifier name candidates = .path owners fallback

theorem gate_eq (h : Reads ctx callerQn callee candidates qualifier name owners fallback)
    (hsome : candidates ≠ []) :
    ctx.qualifiedPathGate callerQn callee candidates =
      let admitted := candidates.filter ((owners.itemNamed ctx.facts name).admits ctx.facts)
      let kept := admitted.filter ctx.reached
      if kept ≠ [] then some (named kept)
      else if admitted ≠ [] then none
      else ctx.unadmitted candidates owners (ownerName qualifier) fallback := by
  rw [qualifiedPathGate, if_neg (by simp [h.rust, hsome]), h.plain]
  simp only [Option.bind_eq_bind, Option.bind_some, h.rule]

/-- The candidates that the gate is left with, and its answer: nothing or a decline where none is
left. -/
structure Left (ctx : ResolveContext) (callerQn callee : Text) (candidates : List SymbolEntry)
    (owners : WrittenPath) (owner name : Text) (kept : List SymbolEntry) : Prop where
  mem : ∀ c, c ∈ kept ↔ c ∈ candidates ∧ ctx.reached c ∧ ctx.Named owners owner name candidates c
  answer : kept ≠ [] → ctx.qualifiedPathGate callerQn callee candidates = some (named kept)
  none : kept = [] → ctx.qualifiedPathGate callerQn callee candidates = none ∨
    ctx.qualifiedPathGate callerQn callee candidates = some declined

theorem left_of_leadsTo (h : Reads ctx callerQn callee candidates qualifier name owners fallback)
    {c : SymbolEntry} (hc : c ∈ candidates) (hleads : ctx.LeadsTo owners name c.qualifiedName) :
    Left ctx callerQn callee candidates owners (ownerName qualifier) name
      ((candidates.filter ((owners.itemNamed ctx.facts name).admits ctx.facts)).filter
        ctx.reached) := by
  have hadmitted : candidates.filter ((owners.itemNamed ctx.facts name).admits ctx.facts) ≠ [] :=
    ne_nil_of_mem (mem_filter.mpr ⟨hc, itemNamed_admits_iff.mpr hleads⟩)
  have heq := gate_eq h (ne_nil_of_mem hc)
  refine ⟨fun d => ?_, fun hkept => ?_, fun hkept => ?_⟩
  · rw [mem_filter, mem_filter, itemNamed_admits_iff, and_assoc]
    refine and_congr_right fun _ => ⟨fun hd => ⟨hd.2, .inl hd.1⟩, fun hd => ⟨?_, hd.1⟩⟩
    exact hd.2.resolve_right fun himpl => (himpl.1 c hc).1 hleads
  · rw [heq]
    exact if_pos hkept
  · left
    rw [heq]
    dsimp only
    rw [if_neg (not_not.mpr hkept), if_pos hadmitted]

theorem left_of_byImpls (h : Reads ctx callerQn callee candidates qualifier name owners fallback)
    (hnone : ∀ c ∈ candidates, ¬ctx.LeadsTo owners name c.qualifiedName) (hsome : candidates ≠ []) :
    ∃ kept, Left ctx callerQn callee candidates owners (ownerName qualifier) name kept := by
  have hadmitted : candidates.filter ((owners.itemNamed ctx.facts name).admits ctx.facts) = [] :=
    filter_eq_nil_iff.mpr fun c hc hadmits => hnone c hc (itemNamed_admits_iff.mp hadmits)
  have heq := gate_eq h hsome
  dsimp only at heq
  rw [hadmitted, filter_nil, if_neg (not_not.mpr rfl), if_neg (not_not.mpr rfl), unadmitted,
    throughImpls] at heq
  dsimp only at heq
  have hnamed : ∀ {c}, c ∈ candidates → (ctx.Named owners (ownerName qualifier) name candidates c ↔
      ctx.ByImpls owners (ownerName qualifier) name candidates ∧
        ctx.ImplItem owners (ownerName qualifier) c) :=
    fun hc => or_iff_right (hnone _ hc)
  by_cases htypes : (ctx.namedTypes owners (ownerName qualifier)).types = []
  · rw [if_pos htypes] at heq
    dsimp only at heq
    refine ⟨[], ⟨fun c => ?_, fun hne => absurd rfl hne, fun _ => ?_⟩⟩
    · refine iff_of_false not_mem_nil fun hc => ?_
      exact ((hnamed hc.1).mp hc.2.2).2.1 htypes
    · rw [heq]
      split
      · exact .inr rfl
      · exact .inl rfl
  · rw [if_neg htypes] at heq
    by_cases hread : (candidates.any fun c =>
        (ctx.implOwnerIsNamed c (ctx.namedTypes owners (ownerName qualifier))).isNone) = true
    · rw [if_pos hread] at heq
      refine ⟨[], ⟨fun c => ?_, fun hne => absurd rfl hne, fun _ => .inl heq⟩⟩
      refine iff_of_false not_mem_nil fun hc => ?_
      obtain ⟨d, hd, hisNone⟩ := any_eq_true.mp hread
      exact (((hnamed hc.1).mp hc.2.2).1 d hd).2 (Option.isNone_iff_eq_none.mp hisNone)
    · rw [if_neg hread] at heq
      have hby : ctx.ByImpls owners (ownerName qualifier) name candidates := by
        refine fun d hd => ⟨hnone d hd, fun hisNone => hread (any_eq_true.mpr ⟨d, hd, ?_⟩)⟩
        rw [hisNone]
        rfl
      refine ⟨_, ⟨fun c => ?_, fun hne => heq.trans (congrArg some (if_neg hne)),
        fun hnil => .inr (heq.trans (congrArg some (if_pos hnil)))⟩⟩
      rw [mem_filter, Bool.and_eq_true, decide_eq_true_eq]
      refine and_congr_right fun hc => ?_
      rw [hnamed hc, ImplItem]
      exact ⟨fun ⟨himpl, hreached⟩ => ⟨hreached, hby, htypes, himpl⟩,
        fun ⟨hreached, _, _, himpl⟩ => ⟨himpl, hreached⟩⟩

theorem exists_left (h : Reads ctx callerQn callee candidates qualifier name owners fallback) :
    ∃ kept, Left ctx callerQn callee candidates owners (ownerName qualifier) name kept := by
  by_cases hsome : candidates = []
  · refine ⟨[], ⟨fun c => ?_, fun hne => absurd rfl hne, fun _ => .inl ?_⟩⟩
    · rw [hsome]
      exact iff_of_false not_mem_nil fun hc => not_mem_nil hc.1
    · rw [qualifiedPathGate, if_pos (.inr hsome)]
  · by_cases hleads : ∃ c ∈ candidates, ctx.LeadsTo owners name c.qualifiedName
    · obtain ⟨c, hc, hleads⟩ := hleads
      exact ⟨_, left_of_leadsTo h hc hleads⟩
    · exact left_of_byImpls h (fun c hc hled => hleads ⟨c, hc, hled⟩) hsome

/-! ## The order of the candidates -/

/-- One answer, up to the order in which ambiguous candidates are listed. -/
inductive SameAnswer : Option Gated → Option Gated → Prop
  | refl (o : Option Gated) : SameAnswer o o
  | ambiguous {cs cs' : List SymbolEntry} (h : cs.Perm cs') :
      SameAnswer (some (.ambiguous cs, none)) (some (.ambiguous cs', none))

theorem named_perm {kept kept' : List SymbolEntry} (h : kept.Perm kept') :
    SameAnswer (some (named kept)) (some (named kept')) := by
  match kept, h with
  | [], h => rw [h.nil_eq]; exact .refl _
  | [t], h => rw [singleton_perm.mp h]; exact .refl _
  | c :: d :: rest, h =>
      have hlen : 2 ≤ kept'.length := by
        rw [← h.length_eq]
        exact Nat.le_add_left _ _
      rw [named_ambiguous hlen]
      exact .ambiguous h

theorem perm_eq_nil_iff {α : Type*} {l l' : List α} (h : l.Perm l') : l = [] ↔ l' = [] :=
  ⟨fun hnil => perm_nil.mp (hnil ▸ h.symm), fun hnil => perm_nil.mp (hnil ▸ h)⟩

variable {candidates' : List SymbolEntry}

theorem throughImpls_perm (h : candidates.Perm candidates') (owners : WrittenPath)
    (owner : Text) : (ctx.throughImpls owners candidates owner = none ∧
        ctx.throughImpls owners candidates' owner = none) ∨
      ∃ o o', ctx.throughImpls owners candidates owner = some o ∧
        ctx.throughImpls owners candidates' owner = some o' ∧ SameAnswer o o' := by
  rw [throughImpls, throughImpls]
  dsimp only
  by_cases htypes : (ctx.namedTypes owners owner).types = []
  · rw [if_pos htypes, if_pos htypes]
    exact .inl ⟨rfl, rfl⟩
  · rw [if_neg htypes, if_neg htypes, h.any_eq]
    refine .inr ?_
    split
    · exact ⟨_, _, rfl, rfl, .refl _⟩
    · refine ⟨_, _, rfl, rfl, ?_⟩
      have hfilter := h.filter fun c =>
        ctx.implOwnerIsNamed c (ctx.namedTypes owners owner) = some true && ctx.reached c
      by_cases hnil : candidates.filter (fun c =>
          ctx.implOwnerIsNamed c (ctx.namedTypes owners owner) = some true && ctx.reached c) = []
      · rw [if_pos hnil, if_pos ((perm_eq_nil_iff hfilter).mp hnil)]
        exact .refl _
      · rw [if_neg hnil, if_neg (mt (perm_eq_nil_iff hfilter).mpr hnil)]
        exact named_perm hfilter

theorem unadmitted_perm (h : candidates.Perm candidates') (owner : Text) :
    SameAnswer (ctx.unadmitted candidates owners owner fallback)
      (ctx.unadmitted candidates' owners owner fallback) := by
  have hlacks : ctx.lacksTheItem candidates owner = ctx.lacksTheItem candidates' owner := by
    rw [lacksTheItem, lacksTheItem, h.any_eq]
  rw [unadmitted, unadmitted, hlacks]
  have himpls : (ctx.throughImpls owners candidates owner = none ∧
      ctx.throughImpls owners candidates' owner = none) ∨
    ∃ o o', ctx.throughImpls owners candidates owner = some o ∧
      ctx.throughImpls owners candidates' owner = some o' ∧ SameAnswer o o' :=
    throughImpls_perm h owners owner
  rcases himpls with ⟨hnone, hnone'⟩ | ⟨o, o', ho, ho', hsame⟩
  · rw [hnone, hnone']
    exact .refl _
  · rw [ho, ho']
    exact hsame

theorem ruleOf_perm (h : candidates.Perm candidates') (callerQn qualifier name : Text) :
    ctx.ruleOf callerQn qualifier name candidates = ctx.ruleOf callerQn qualifier name candidates' := by
  rw [ruleOf, ruleOf]
  refine congrArg _ (funext fun owners => ?_)
  rw [h.any_eq]

theorem Reads.perm (h : Reads ctx callerQn callee candidates qualifier name owners fallback)
    (hperm : candidates.Perm candidates') :
    Reads ctx callerQn callee candidates' qualifier name owners fallback :=
  ⟨h.rust, h.plain, ruleOf_perm hperm callerQn qualifier name ▸ h.rule⟩

/-- Where the gate does not read the call, or the path names nothing, it says so whatever the
candidates. -/
theorem reads_or (ctx : ResolveContext) (callerQn callee : Text) (candidates : List SymbolEntry) :
    (candidates ≠ [] ∧ ∃ qualifier name owners fallback,
      Reads ctx callerQn callee candidates qualifier name owners fallback) ∨
    (∃ o, (o = none ∨ o = some declined) ∧ ∀ candidates', candidates.Perm candidates' →
      ctx.qualifiedPathGate callerQn callee candidates' = o) := by
  by_cases hout : ctx.language ≠ "rust".toList ∨ candidates = []
  · refine .inr ⟨none, .inl rfl, fun candidates' hperm => ?_⟩
    rw [qualifiedPathGate, if_pos (hout.imp id (perm_eq_nil_iff hperm).mp)]
  · obtain ⟨hrust, hsome⟩ := not_or.mp hout
    cases hplain : plainPath callee with
    | none =>
        refine .inr ⟨none, .inl rfl, fun candidates' hperm => ?_⟩
        rw [qualifiedPathGate, hplain]
        split <;> rfl
    | some path =>
        obtain ⟨qualifier, name⟩ := path
        have hgate : ∀ candidates', candidates.Perm candidates' →
            ¬(ctx.language ≠ "rust".toList ∨ candidates' = []) := fun candidates' hperm hout' =>
          hout (hout'.imp id (perm_eq_nil_iff hperm).mpr)
        cases hrule : ctx.ruleOf callerQn qualifier name candidates with
        | byName =>
            refine .inr ⟨none, .inl rfl, fun candidates' hperm => ?_⟩
            rw [qualifiedPathGate, if_neg (hgate _ hperm), hplain]
            simp only [Option.bind_eq_bind, Option.bind_some, ← ruleOf_perm hperm, hrule]
        | decline =>
            refine .inr ⟨some declined, .inr rfl, fun candidates' hperm => ?_⟩
            rw [qualifiedPathGate, if_neg (hgate _ hperm), hplain]
            simp only [Option.bind_eq_bind, Option.bind_some, ← ruleOf_perm hperm, hrule]
        | path owners fallback =>
            exact .inl ⟨hsome, qualifier, name, owners, fallback, not_not.mp hrust, hplain, hrule⟩

theorem gate_perm (h : candidates.Perm candidates') :
    SameAnswer (ctx.qualifiedPathGate callerQn callee candidates)
      (ctx.qualifiedPathGate callerQn callee candidates') := by
  rcases reads_or ctx callerQn callee candidates with
    ⟨hsome, qualifier, name, owners, fallback, hreads⟩ | ⟨o, -, ho⟩
  · have hadmitted := h.filter ((owners.itemNamed ctx.facts name).admits ctx.facts)
    have hkept := hadmitted.filter ctx.reached
    rw [gate_eq hreads hsome, gate_eq (hreads.perm h) (mt (perm_eq_nil_iff h).mpr hsome)]
    dsimp only
    split
    · next hne =>
      rw [if_pos (mt (perm_eq_nil_iff hkept).mpr hne)]
      exact named_perm hkept
    · next hnil =>
      rw [if_neg (not_not.mpr ((perm_eq_nil_iff hkept).mp (not_not.mp hnil)))]
      split
      · next hne =>
        rw [if_pos (mt (perm_eq_nil_iff hadmitted).mpr hne)]
        exact .refl _
      · next hnil' =>
        rw [if_neg (not_not.mpr ((perm_eq_nil_iff hadmitted).mp (not_not.mp hnil')))]
        exact unadmitted_perm h _
  · rw [ho _ (List.Perm.refl _), ho _ h]
    exact .refl _

/-! ## What the gate binds to -/

theorem Reads.anchored (h : Reads ctx callerQn callee candidates qualifier name owners fallback)
    {first : Text} {rest : List Text} (hsegments : pathSegments ctx.facts.cc qualifier = first :: rest)
    (hanchored : WrittenPath.isAnchored ctx.facts.evidence first) :
    ∃ start, anchorIn ctx.facts.evidence none
        (ctx.facts.evidence.scopeModulePath (callerScope ctx.idx callerQn)) (first :: rest) =
          some start ∧
      ∀ owner ∈ owners.anchors,
        ReflTransGen (Leads ctx.facts (extractFilePrefixOrSelf callerQn)) start owner := by
  have hrule := h.rule
  rw [ruleOf, qualifierRule, hsegments] at hrule
  dsimp only at hrule
  rw [if_pos hanchored] at hrule
  split at hrule
  · next start hstart =>
    cases hrule
    refine ⟨start, hstart, fun owner howner => ?_⟩
    rw [ownerPath, WrittenPath.following] at howner
    split at howner
    · rw [Option.getD_none, WrittenPath.exact, mem_singleton] at howner
      rw [howner]
    · rw [Option.getD_some] at howner
      exact (mem_followed.mp howner).1
  · cases hrule

structure BindsToNamed (ctx : ResolveContext) (callerQn callee : Text)
    (candidates : List SymbolEntry) : Prop where
  only : ∀ t e confidence d,
    ctx.qualifiedPathGate callerQn callee candidates = some (.resolved t e confidence, d) →
      t ∈ candidates ∧ ∃ qualifier name owners fallback,
        Reads ctx callerQn callee candidates qualifier name owners fallback ∧
          ∀ c ∈ candidates, ctx.reached c ∧
            ctx.Named owners (ownerName qualifier) name candidates c ↔ c = t
  several : ∀ qualifier name owners fallback,
    Reads ctx callerQn callee candidates qualifier name owners fallback →
      ∀ c ∈ candidates, ∀ c' ∈ candidates, c ≠ c' →
        ctx.reached c → ctx.Named owners (ownerName qualifier) name candidates c →
        ctx.reached c' → ctx.Named owners (ownerName qualifier) name candidates c' →
          ∃ cs, ctx.qualifiedPathGate callerQn callee candidates = some (.ambiguous cs, none) ∧
            ∀ x, x ∈ cs ↔ x ∈ candidates ∧ ctx.reached x ∧
              ctx.Named owners (ownerName qualifier) name candidates x
  order : ∀ candidates', candidates.Perm candidates' →
    SameAnswer (ctx.qualifiedPathGate callerQn callee candidates)
      (ctx.qualifiedPathGate callerQn callee candidates')
  anchored : ∀ qualifier name owners fallback,
    Reads ctx callerQn callee candidates qualifier name owners fallback →
      ∀ first rest, pathSegments ctx.facts.cc qualifier = first :: rest →
        WrittenPath.isAnchored ctx.facts.evidence first →
          ∃ start, anchorIn ctx.facts.evidence none
              (ctx.facts.evidence.scopeModulePath (callerScope ctx.idx callerQn)) (first :: rest) =
                some start ∧
            ∀ owner ∈ owners.anchors,
              ReflTransGen (Leads ctx.facts (extractFilePrefixOrSelf callerQn)) start owner

theorem pathCalls_bindToNamed (ctx : ResolveContext) (callerQn callee : Text)
    (candidates : List SymbolEntry) : BindsToNamed ctx callerQn callee candidates where
  only t e confidence d hgate := by
    rcases reads_or ctx callerQn callee candidates with
      ⟨-, qualifier, name, owners, fallback, hreads⟩ | ⟨o, ho, hsame⟩
    · obtain ⟨kept, hkept⟩ := exists_left hreads
      by_cases hnil : kept = []
      · rcases hkept.none hnil with h | h
        · rw [h] at hgate
          cases hgate
        · rw [h] at hgate
          cases hgate
      · rw [hkept.answer hnil] at hgate
        have hsingle := eq_singleton_of_named (Option.some.inj hgate)
        have hmem : ∀ c, c = t ↔ c ∈ candidates ∧ ctx.reached c ∧
            ctx.Named owners (ownerName qualifier) name candidates c := fun c => by
          rw [← hkept.mem c, hsingle, mem_singleton]
        exact ⟨((hmem t).mp rfl).1, qualifier, name, owners, fallback, hreads,
          fun c hc => ⟨fun h => (hmem c).mpr ⟨hc, h⟩, fun h => ((hmem c).mp h).2⟩⟩
    · rw [hsame _ (List.Perm.refl _)] at hgate
      rcases ho with rfl | rfl <;> cases hgate
  several qualifier name owners fallback hreads c hc c' hc' hne hr hn hr' hn' := by
    obtain ⟨kept, hkept⟩ := exists_left hreads
    have hmem := (hkept.mem c).mpr ⟨hc, hr, hn⟩
    have hmem' := (hkept.mem c').mpr ⟨hc', hr', hn'⟩
    have hlen : 2 ≤ kept.length := by
      match kept, hmem, hmem' with
      | [only], hmem, hmem' =>
          exact absurd ((mem_singleton.mp hmem).trans (mem_singleton.mp hmem').symm) hne
      | _ :: _ :: _, _, _ => exact Nat.le_add_left _ _
    refine ⟨kept, ?_, hkept.mem⟩
    rw [hkept.answer (ne_nil_of_mem hmem), named_ambiguous hlen]
  order candidates' h := gate_perm h
  anchored qualifier name owners fallback hreads first rest := hreads.anchored

/-! ## Where more is named -/

/-- A call that resolves does so to all that the path leads to and all items of `impl` blocks of
a type it names. -/
def ResolvesAlone (ctx : ResolveContext) (callerQn callee : Text) (candidates : List SymbolEntry) :
    Prop :=
  ∀ t e confidence d,
    ctx.qualifiedPathGate callerQn callee candidates = some (.resolved t e confidence, d) →
      ∃ qualifier name owners fallback,
        Reads ctx callerQn callee candidates qualifier name owners fallback ∧
          ∀ c ∈ candidates, ctx.reached c ∧ (ctx.LeadsTo owners name c.qualifiedName ∨
            ctx.ImplItem owners (ownerName qualifier) c) ↔ c = t

/-- A path that leads to no candidate but would to a twin without its suffixes is not declined. -/
def KeepsTwins (ctx : ResolveContext) (callerQn callee : Text) (candidates : List SymbolEntry) :
    Prop :=
  ∀ qualifier name owners fallback,
    Reads ctx callerQn callee candidates qualifier name owners fallback →
      (∀ c ∈ candidates, ¬ctx.LeadsTo owners name c.qualifiedName) →
      (∃ c ∈ candidates, ctx.reached c ∧ hasCfgGate c.qualifiedName ∧
        ctx.LeadsTo owners name (stripCfgGates c.qualifiedName)) →
      ctx.qualifiedPathGate callerQn callee candidates ≠ some declined

def noFacts : PathFacts where
  cc := .ascii
  evidence :=
    { known := false, crateNames := ∅, targets := fun _ => none, owners := fun _ => none,
      logicalModules := fun _ => none }
  imports := []

theorem turn_noFacts (callerFile : Text) (anchor : Anchor) :
    Reexport.turn noFacts callerFile anchor = ([], true) := by
  rw [Reexport.turn]
  split
  · rfl
  · rfl

/-- Without imports a path leads to itself. -/
theorem followed_noFacts (callerFile : Text) (start : Anchor) :
    followed noFacts callerFile start = [start] := by
  have hrun : Reexport.follow noFacts callerFile 1 start = some [start] := by
    rw [Reexport.follow, Reexport.followFrom, if_neg not_mem_nil, turn_noFacts]
    rfl
  exact followed_eq hrun

theorem leadsTo_noFacts {ctx : ResolveContext} (hfacts : ctx.facts = noFacts) {owners : WrittenPath}
    {name qn : Text} : ctx.LeadsTo owners name qn ↔
      ∃ owner ∈ owners.anchors, owners.isAt noFacts qn (owner.child name) := by
  rw [LeadsTo, hfacts]
  refine exists_congr fun owner => and_congr_right fun _ => ?_
  constructor
  · rintro ⟨place, hleads, hstays, hat⟩
    have hplace := mem_followed.mpr ⟨hleads, hstays⟩
    rw [followed_noFacts, mem_singleton] at hplace
    exact hplace ▸ hat
  · intro hat
    have hself : owner.child name ∈ followed noFacts owners.callerFile (owner.child name) := by
      rw [followed_noFacts]
      exact mem_singleton_self _
    obtain ⟨hleads, hstays⟩ := mem_followed.mp hself
    exact ⟨_, hleads, hstays, hat⟩

def entry (label id : Text) : SymbolEntry := ⟨id, label, id, rfl⟩

/-- `src/a.rs` has `S` with a method `new`; `src/b.rs` has another, in an `impl` of a trait. -/
def implContext : ResolveContext where
  facts := noFacts
  idx := ⟨[("S".toList, entry "Struct".toList "src/a.rs::S".toList),
    ("new".toList, entry "Method".toList "src/a.rs::S::new".toList),
    ("new".toList, entry "Method".toList "src/b.rs::crate::a::S::new".toList)]⟩
  modules := ["src/a.rs".toList, "src/b.rs".toList]
  outsideTargets _ := false
  language := "rust".toList

/-- `src/a.rs` has two twins `S`, each with a method `new`. -/
def twinContext : ResolveContext where
  facts := noFacts
  idx := ⟨[("S".toList, entry "Struct".toList "src/a.rs::S#cfg(unix)".toList),
    ("S".toList, entry "Struct".toList "src/a.rs::S#cfg(not(unix))".toList),
    ("new".toList, entry "Method".toList "src/a.rs::S#cfg(unix)::new".toList),
    ("new".toList, entry "Method".toList "src/a.rs::S#cfg(not(unix))::new".toList)]⟩
  modules := ["src/a.rs".toList]
  outsideTargets _ := false
  language := "rust".toList

/-- `crate::a::S` as a path of `src/lib.rs`. -/
def pathOfS : WrittenPath := ⟨"src/lib.rs".toList, [.crateRoot ["a".toList, "S".toList]], false⟩

theorem reads_pathOfS {ctx : ResolveContext} (hfacts : ctx.facts = noFacts)
    (hidx : callerScope ctx.idx "src/lib.rs::run".toList = "src/lib.rs".toList)
    (hrust : ctx.language = "rust".toList) (candidates : List SymbolEntry) :
    Reads ctx "src/lib.rs::run".toList "crate::a::S::new".toList candidates
      "crate::a::S".toList "new".toList pathOfS false where
  rust := hrust
  plain := by decide
  rule := by
    have hsegments : pathSegments noFacts.cc "crate::a::S".toList =
        ["crate".toList, "a".toList, "S".toList] := by decide +kernel
    have hfile : extractFilePrefixOrSelf "src/lib.rs::run".toList = "src/lib.rs".toList := by
      decide
    have hanchor : anchorIn noFacts.evidence none (noFacts.evidence.scopeModulePath "src/lib.rs".toList)
        ["crate".toList, "a".toList, "S".toList] = some (.crateRoot ["a".toList, "S".toList]) := by
      decide
    rw [ruleOf, qualifierRule, hfacts, hidx, hsegments, hfile]
    dsimp only
    rw [if_pos (by decide), hanchor]
    dsimp only
    rw [ownerPath, WrittenPath.following, if_neg nofun, hfacts, followed_noFacts]
    rfl

theorem Reads.unique {qualifier' name' : Text} {owners' : WrittenPath} {fallback' : Bool}
    (h : Reads ctx callerQn callee candidates qualifier name owners fallback)
    (h' : Reads ctx callerQn callee candidates qualifier' name' owners' fallback') :
    qualifier = qualifier' ∧ name = name' ∧ owners = owners' := by
  obtain ⟨rfl, rfl⟩ := Prod.mk.inj (Option.some.inj (h.plain.symm.trans h'.plain))
  exact ⟨rfl, rfl, (QualifierRule.path.inj (h.rule.symm.trans h'.rule)).1⟩

theorem itemNamed_pathOfS : pathOfS.itemNamed noFacts "new".toList =
    ⟨"src/lib.rs".toList, [.crateRoot ["a".toList, "S".toList, "new".toList]], true⟩ := by
  rw [WrittenPath.itemNamed]
  simp only [followed_noFacts]
  rfl

theorem implItem_other : implContext.ImplItem pathOfS "S".toList
    (entry "Method".toList "src/b.rs::crate::a::S::new".toList) := by
  have hparent : beforeLast colons "src/b.rs::crate::a::S::new".toList =
      some "src/b.rs::crate::a::S".toList := by decide
  have hscope : callerScope implContext.idx "src/b.rs::crate::a::S::new".toList =
      "src/b.rs".toList := by decide +kernel
  have hpath : WrittenPath.ofHint noFacts implContext.idx "src/b.rs::crate::a::S::new".toList
      "crate::a::S".toList = some ⟨"src/b.rs".toList, [.crateRoot ["a".toList, "S".toList]], false⟩ := by
    have hsegments : pathSegments noFacts.cc "crate::a::S".toList =
        ["crate".toList, "a".toList, "S".toList] := by decide +kernel
    have hanchor : anchorIn noFacts.evidence none (noFacts.evidence.scopeModulePath "src/b.rs".toList)
        ["crate".toList, "a".toList, "S".toList] = some (.crateRoot ["a".toList, "S".toList]) := by
      decide
    have hfile : extractFilePrefixOrSelf "src/b.rs::crate::a::S::new".toList = "src/b.rs".toList := by
      decide
    rw [WrittenPath.ofHint, hsegments, hscope, hfile]
    simp only [head?_cons, Option.bind_eq_bind, Option.bind_some]
    rw [if_pos (by decide), hanchor, Option.bind_some, WrittenPath.following, if_neg nofun,
      followed_noFacts]
  have hrest : stripPrefix "src/b.rs".toList "src/b.rs::crate::a::S".toList =
      some "::crate::a::S".toList := by decide
  have hcolons : stripPrefix colons "::crate::a::S".toList = some "crate::a::S".toList := by
    decide
  refine ⟨by decide +kernel, ?_⟩
  rw [implOwnerIsNamed]
  dsimp only [entry]
  rw [hparent]
  dsimp only
  rw [if_neg (by decide), hscope, hrest]
  simp only [Option.bind_eq_bind, Option.bind_some]
  rw [hcolons]
  simp only [Option.bind_some]
  rw [if_pos (by decide)]
  refine congrArg some ?_
  show Option.any _ (WrittenPath.ofHint noFacts implContext.idx _ _) = true
  rw [hpath]
  decide +kernel

/-- A path that leads to a candidate leaves the `impl` blocks of its type aside, and one that
names a twin type is declined. -/
theorem named_more :
    ¬ResolvesAlone implContext "src/lib.rs::run".toList "crate::a::S::new".toList
        (implContext.idx.byName "new".toList) ∧
      ¬KeepsTwins twinContext "src/lib.rs::run".toList "crate::a::S::new".toList
        (twinContext.idx.byName "new".toList) := by
  refine ⟨fun h => ?_, fun h => ?_⟩
  · have hreads : Reads implContext "src/lib.rs::run".toList "crate::a::S::new".toList
        (implContext.idx.byName "new".toList) "crate::a::S".toList "new".toList pathOfS false :=
      reads_pathOfS rfl (by decide +kernel) rfl _
    have hkept : ((implContext.idx.byName "new".toList).filter
        ((pathOfS.itemNamed noFacts "new".toList).admits noFacts)).filter implContext.reached =
          [entry "Method".toList "src/a.rs::S::new".toList] := by
      rw [itemNamed_pathOfS]
      decide +kernel
    have hgate := gate_eq hreads (by decide +kernel)
    dsimp only at hgate
    rw [show implContext.facts = noFacts from rfl, hkept, if_pos (cons_ne_nil _ _)] at hgate
    obtain ⟨qualifier, name, owners, fallback, hreads', hall⟩ := h _ _ _ _ hgate
    obtain ⟨rfl, rfl, rfl⟩ := hreads.unique hreads'
    have hother := (hall (entry "Method".toList "src/b.rs::crate::a::S::new".toList)
      (by decide +kernel)).mp ⟨by decide +kernel, .inr implItem_other⟩
    exact absurd hother (by decide +kernel)
  · have hreads : Reads twinContext "src/lib.rs::run".toList "crate::a::S::new".toList
        (twinContext.idx.byName "new".toList) "crate::a::S".toList "new".toList pathOfS false :=
      reads_pathOfS rfl (by decide +kernel) rfl _
    have hadmitted : (twinContext.idx.byName "new".toList).filter
        ((pathOfS.itemNamed noFacts "new".toList).admits noFacts) = [] := by
      rw [itemNamed_pathOfS]
      decide +kernel
    have hgate := gate_eq hreads (by decide +kernel)
    dsimp only at hgate
    rw [show twinContext.facts = noFacts from rfl, hadmitted, filter_nil,
      if_neg (not_not.mpr rfl), if_neg (not_not.mpr rfl), unadmitted, throughImpls,
      if_pos (by decide +kernel)] at hgate
    dsimp only at hgate
    rw [if_pos (by decide +kernel)] at hgate
    refine h _ _ _ _ hreads ?_ ?_ hgate
    · intro c hc
      rw [leadsTo_noFacts rfl]
      revert c
      decide +kernel
    · refine ⟨entry "Method".toList "src/a.rs::S#cfg(unix)::new".toList, by decide +kernel,
        by decide +kernel, by decide +kernel, ?_⟩
      rw [leadsTo_noFacts rfl]
      decide +kernel

end ResolveContext

end Resolver

end CodeGraph
