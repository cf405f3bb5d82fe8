import CodeGraph.ZeraState
import Mathlib.Data.List.Basic
import Mathlib.Data.Finset.Insert
import Mathlib.Data.List.Perm.Basic
import Mathlib.Algebra.Order.BigOperators.Group.List

/-!
# The grammar layer

`split` keeps one direction of every edge of a symmetric kind and marks, by its
index into the edges it ships, each one whose reverse it dropped; `derive` makes
the reverses again. The indices are `u32`.
-/

namespace CodeGraph.Zera

open List

inductive Rule where
  | symmetricClosure (kinds : List Str)
  deriving DecidableEq

structure Grammar where
  rules : List Rule
  deriving DecidableEq

abbrev Canon := Str × Str × Str

def EdgeRef.reverse (e : EdgeRef) : EdgeRef where
  fromId := e.toId
  toId := e.fromId
  kind := e.kind

/-- Both directions of an edge have one canonical form. -/
def EdgeRef.canon (e : EdgeRef) : Canon :=
  if e.fromId ≤ e.toId then (e.kind, e.fromId, e.toId) else (e.kind, e.toId, e.fromId)

namespace Grammar

def isSymmetric (g : Grammar) (kind : Str) : Bool :=
  g.rules.any fun | .symmetricClosure kinds => kinds.any (· == kind)

/-- An edge that `split` looks for the reverse of. -/
def eligible (g : Grammar) (e : EdgeRef) : Bool := g.isSymmetric e.kind && e.fromId != e.toId

/-- What the first pass has seen. -/
structure Seen where
  seenOnce : Finset Canon := ∅
  bidirectionalCanons : Finset Canon := ∅

def Seen.step (g : Grammar) (seen : Seen) (e : EdgeRef) : Seen :=
  if g.eligible e then
    if e.canon ∈ seen.seenOnce then
      { seen with bidirectionalCanons := insert e.canon seen.bidirectionalCanons }
    else { seen with seenOnce := insert e.canon seen.seenOnce }
  else seen

/-- What the second pass has emitted. -/
structure Emitted where
  base : List EdgeRef := []
  bidirIndices : List UInt32 := []
  emittedFirst : Finset Canon := ∅
  derivable : List EdgeRef := []

def Emitted.step (g : Grammar) (bidirectionalCanons : Finset Canon) (out : Emitted) (e : EdgeRef) :
    Emitted :=
  if g.eligible e then
    if e.canon ∈ out.emittedFirst then { out with derivable := out.derivable ++ [e] }
    else
      { out with
        emittedFirst := insert e.canon out.emittedFirst
        base := out.base ++ [e]
        bidirIndices :=
          if e.canon ∈ bidirectionalCanons then out.bidirIndices ++ [UInt32.ofNat out.base.length]
          else out.bidirIndices }
  else { out with base := out.base ++ [e] }

def bidirectionalCanons (g : Grammar) (edges : List EdgeRef) : Finset Canon :=
  (edges.foldl (Seen.step g) {}).bidirectionalCanons

/-- The edges to ship, the indices of those to reverse, and what was dropped. -/
def split (g : Grammar) (edges : List EdgeRef) : List EdgeRef × List UInt32 × List EdgeRef :=
  let out := edges.foldl (Emitted.step g (g.bidirectionalCanons edges)) {}
  (out.base, out.bidirIndices, out.derivable)

def derive (_ : Grammar) (base : List EdgeRef) (bidirectionalIndices : List UInt32) : List EdgeRef :=
  (bidirectionalIndices.filterMap fun i => base[i.toNat]?).map EdgeRef.reverse

end Grammar

/-! ## Edges and their reverses -/

namespace EdgeRef

@[simp] theorem reverse_reverse (e : EdgeRef) : e.reverse.reverse = e := rfl

theorem reverse_injective : Function.Injective reverse :=
  Function.LeftInverse.injective reverse_reverse

theorem canon_reverse (e : EdgeRef) : e.reverse.canon = e.canon := by
  unfold canon reverse
  rcases lt_trichotomy e.fromId e.toId with h | h | h
  · rw [if_neg (not_le.mpr h), if_pos h.le]
  · simp only [h, le_refl, if_true]
  · rw [if_pos h.le, if_neg (not_le.mpr h)]

/-- Edges of one canonical form are the same up to direction. -/
theorem canon_eq_iff {d e : EdgeRef} : d.canon = e.canon ↔ d = e ∨ d = e.reverse := by
  constructor
  · intro h
    obtain ⟨a, b, k⟩ := d
    obtain ⟨a', b', k'⟩ := e
    unfold canon at h
    unfold reverse
    simp only [EdgeRef.mk.injEq]
    split_ifs at h <;> simp only [Prod.mk.injEq] at h <;> tauto
  · rintro (rfl | rfl)
    · rfl
    · exact canon_reverse e

/-- Of two directions the one with the smaller end first comes first. -/
theorem reverse_key_lt {e : EdgeRef} : e.reverse.key < e.key ↔ e.toId < e.fromId := by
  unfold key reverse
  rw [Prod.Lex.toLex_lt_toLex]
  simp only [lt_irrefl, false_or, true_and, Prod.Lex.toLex_lt_toLex]
  constructor
  · rintro (h | ⟨heq, hlt⟩)
    · exact h
    · exact absurd hlt (by rw [heq]; exact lt_irrefl _)
  · exact Or.inl

end EdgeRef

namespace Grammar

variable {g : Grammar} {edges : List EdgeRef}

theorem eligible_reverse (e : EdgeRef) : g.eligible e.reverse = g.eligible e := by
  unfold eligible EdgeRef.reverse
  rw [bne_comm]

variable {e : EdgeRef}

theorem reverse_ne (h : g.eligible e = true) : e.reverse ≠ e := by
  intro heq
  have hends : e.fromId ≠ e.toId := by
    unfold eligible at h
    simpa using (Bool.and_eq_true_iff.mp h).2
  exact hends (congrArg EdgeRef.toId heq)

/-- Both directions of the edge are there. -/
def paired (g : Grammar) (edges : List EdgeRef) (e : EdgeRef) : Bool :=
  g.eligible e && decide (e.reverse ∈ edges)

/-- The edge is the later one of a pair, which is not shipped. -/
def dropped (g : Grammar) (edges : List EdgeRef) (e : EdgeRef) : Bool :=
  g.paired edges e && decide (e.toId < e.fromId)

def kept (g : Grammar) (edges : List EdgeRef) : List EdgeRef :=
  edges.filter fun e => !g.dropped edges e

/-! ## The two passes -/

theorem paired_iff : g.paired edges e = true ↔ g.eligible e = true ∧ e.reverse ∈ edges := by
  rw [paired, Bool.and_eq_true, decide_eq_true_eq]

variable {pre : List EdgeRef}

/-- A new edge has the canonical form of an earlier one only if that is its reverse. -/
theorem canon_seen_iff (he : g.eligible e = true) (hnew : e ∉ pre) :
    (∃ d ∈ pre, g.eligible d = true ∧ d.canon = e.canon) ↔ e.reverse ∈ pre := by
  constructor
  · rintro ⟨d, hd, -, hcanon⟩
    rcases EdgeRef.canon_eq_iff.mp hcanon with rfl | rfl
    · exact absurd hd hnew
    · exact hd
  · intro h
    exact ⟨e.reverse, h, by rw [eligible_reverse, he], EdgeRef.canon_reverse e⟩

/-- What the first pass knows after the edges `pre`. -/
structure SeenAfter (g : Grammar) (pre : List EdgeRef) (seen : Seen) : Prop where
  once : ∀ c, c ∈ seen.seenOnce ↔ ∃ e ∈ pre, g.eligible e = true ∧ e.canon = c
  both : ∀ c, c ∈ seen.bidirectionalCanons ↔ ∃ e ∈ pre, g.paired pre e = true ∧ e.canon = c

theorem SeenAfter.step {seen : Seen} (h : SeenAfter g pre seen)
    (hnew : e ∉ pre) : SeenAfter g (pre ++ [e]) (Seen.step g seen e) := by
  have hmem : ∀ d, d ∈ pre ++ [e] ↔ d ∈ pre ∨ d = e := by simp
  by_cases he : g.eligible e = true
  · have hseen : e.canon ∈ seen.seenOnce ↔ e.reverse ∈ pre :=
      (h.once _).trans (canon_seen_iff he hnew)
    have hpaired : ∀ d ∈ pre, g.paired (pre ++ [e]) d = true ↔
        g.paired pre d = true ∨ d = e.reverse := by
      intro d hd
      rw [paired_iff, paired_iff, hmem]
      constructor
      · rintro ⟨hd, hrev | hrev⟩
        · exact Or.inl ⟨hd, hrev⟩
        · exact Or.inr (by rw [← hrev, EdgeRef.reverse_reverse])
      · rintro (⟨hd, hrev⟩ | rfl)
        · exact ⟨hd, Or.inl hrev⟩
        · exact ⟨by rw [eligible_reverse, he], Or.inr (EdgeRef.reverse_reverse e)⟩
    rw [Seen.step, if_pos he]
    by_cases hrev : e.reverse ∈ pre
    · rw [if_pos (hseen.mpr hrev)]
      refine ⟨fun c => ?_, fun c => ?_⟩
      · rw [h.once]
        constructor
        · rintro ⟨d, hd, hrest⟩
          exact ⟨d, (hmem d).mpr (Or.inl hd), hrest⟩
        · rintro ⟨d, hd, hel, rfl⟩
          rcases (hmem d).mp hd with hd | rfl
          · exact ⟨d, hd, hel, rfl⟩
          · exact ⟨d.reverse, hrev, by rw [eligible_reverse, hel], EdgeRef.canon_reverse d⟩
      · rw [Finset.mem_insert, h.both]
        constructor
        · rintro (rfl | ⟨d, hd, hel, rfl⟩)
          · refine ⟨e, (hmem e).mpr (Or.inr rfl), ?_, rfl⟩
            exact paired_iff.mpr ⟨he, (hmem _).mpr (Or.inl hrev)⟩
          · exact ⟨d, (hmem d).mpr (Or.inl hd), (hpaired d hd).mpr (Or.inl hel), rfl⟩
        · rintro ⟨d, hd, hel, rfl⟩
          rcases (hmem d).mp hd with hd | rfl
          · rcases (hpaired d hd).mp hel with hel | rfl
            · exact Or.inr ⟨d, hd, hel, rfl⟩
            · exact Or.inl (EdgeRef.canon_reverse e)
          · exact Or.inl rfl
    · rw [if_neg (fun hc => hrev (hseen.mp hc))]
      refine ⟨fun c => ?_, fun c => ?_⟩
      · rw [Finset.mem_insert, h.once]
        constructor
        · rintro (rfl | ⟨d, hd, hrest⟩)
          · exact ⟨e, (hmem e).mpr (Or.inr rfl), he, rfl⟩
          · exact ⟨d, (hmem d).mpr (Or.inl hd), hrest⟩
        · rintro ⟨d, hd, hel, rfl⟩
          rcases (hmem d).mp hd with hd | rfl
          · exact Or.inr ⟨d, hd, hel, rfl⟩
          · exact Or.inl rfl
      · rw [h.both]
        constructor
        · rintro ⟨d, hd, hel, rfl⟩
          exact ⟨d, (hmem d).mpr (Or.inl hd), (hpaired d hd).mpr (Or.inl hel), rfl⟩
        · rintro ⟨d, hd, hel, rfl⟩
          rcases (hmem d).mp hd with hd | rfl
          · rcases (hpaired d hd).mp hel with hel | rfl
            · exact ⟨d, hd, hel, rfl⟩
            · exact absurd hd hrev
          · rcases (hmem _).mp (paired_iff.mp hel).2 with hd | hd
            · exact absurd hd hrev
            · exact absurd hd (reverse_ne he)
  · have hstep : Seen.step g seen e = seen := by rw [Seen.step, if_neg he]
    have hkeep : ∀ d ∈ pre ++ [e], g.eligible d = true → d ∈ pre := by
      intro d hd hel
      rcases (hmem d).mp hd with hd | rfl
      · exact hd
      · exact absurd hel he
    rw [hstep]
    refine ⟨fun c => ?_, fun c => ?_⟩
    · rw [h.once]
      constructor
      · rintro ⟨d, hd, hrest⟩
        exact ⟨d, (hmem d).mpr (Or.inl hd), hrest⟩
      · rintro ⟨d, hd, hel, rfl⟩
        exact ⟨d, hkeep d hd hel, hel, rfl⟩
    · rw [h.both]
      constructor
      · rintro ⟨d, hd, hel, rfl⟩
        obtain ⟨hel, hrev⟩ := paired_iff.mp hel
        exact ⟨d, (hmem d).mpr (Or.inl hd), paired_iff.mpr ⟨hel, (hmem _).mpr (Or.inl hrev)⟩, rfl⟩
      · rintro ⟨d, hd, hel, rfl⟩
        obtain ⟨hel, hrev⟩ := paired_iff.mp hel
        have hrev' := hkeep _ hrev (by rw [eligible_reverse, hel])
        exact ⟨d, hkeep d hd hel, paired_iff.mpr ⟨hel, hrev'⟩, rfl⟩

theorem seenAfter_foldl (hnodup : edges.Nodup) :
    SeenAfter g edges (edges.foldl (Seen.step g) {}) := by
  induction edges using List.reverseRecOn with
  | nil => exact ⟨by simp, by simp⟩
  | append_singleton edges e ih =>
      obtain ⟨hnodup, -, hnew⟩ := nodup_append'.mp hnodup
      rw [foldl_append]
      exact (ih hnodup).step fun he => hnew he mem_cons_self

/-- The first pass finds the edges both directions of which are there. -/
theorem canon_mem_bidirectionalCanons (hnodup : edges.Nodup) (he : e ∈ edges)
    (hel : g.eligible e = true) :
    e.canon ∈ g.bidirectionalCanons edges ↔ g.paired edges e = true := by
  rw [bidirectionalCanons, (seenAfter_foldl hnodup).both]
  constructor
  · rintro ⟨d, hd, hpaired, hcanon⟩
    rcases EdgeRef.canon_eq_iff.mp hcanon with rfl | rfl
    · exact hpaired
    · exact paired_iff.mpr ⟨hel, hd⟩
  · intro hpaired
    exact ⟨e, he, hpaired, rfl⟩

/-- The positions, among the edges shipped, of those the client reverses. -/
def positions (g : Grammar) (edges pre : List EdgeRef) : List ℕ :=
  (pre.filter fun e => !g.dropped edges e).findIdxs (g.paired edges)

/-- What the second pass has emitted after the edges `pre` of `edges`. -/
structure EmittedAfter (g : Grammar) (edges pre : List EdgeRef) (out : Emitted) : Prop where
  base : out.base = pre.filter fun e => !g.dropped edges e
  bidirIndices : out.bidirIndices = (g.positions edges pre).map UInt32.ofNat
  emittedFirst : ∀ c, c ∈ out.emittedFirst ↔ ∃ e ∈ pre, g.eligible e = true ∧ e.canon = c
  derivable : out.derivable = pre.filter (g.dropped edges)

theorem positions_append (pre : List EdgeRef) (e : EdgeRef) :
    g.positions edges (pre ++ [e]) = g.positions edges pre ++
      if g.dropped edges e = false ∧ g.paired edges e = true then
        [(pre.filter fun e => !g.dropped edges e).length] else [] := by
  unfold positions
  rw [filter_append, findIdxs_append]
  congr 1
  cases hdrop : g.dropped edges e <;> cases hpair : g.paired edges e <;> simp [hdrop, hpair]

/-- The second of two directions is the one whose reverse came before. -/
theorem dropped_iff_seen (hsorted : edges.Pairwise fun d e => d.key < e.key)
    {post : List EdgeRef} (hedges : edges = pre ++ e :: post)
    (hel : g.eligible e = true) : g.dropped edges e = true ↔ e.reverse ∈ pre := by
  have hbefore : e.reverse ∈ edges → (e.reverse.key < e.key ↔ e.reverse ∈ pre) := by
    intro hmem
    rw [hedges] at hsorted hmem
    obtain ⟨-, hpost, hcross⟩ := pairwise_append.mp hsorted
    constructor
    · intro hlt
      rcases mem_append.mp hmem with h | h
      · exact h
      · rcases mem_cons.mp h with h | h
        · exact absurd h (reverse_ne hel)
        · exact absurd ((pairwise_cons.mp hpost).1 _ h) (not_lt.mpr hlt.le)
    · intro h
      exact hcross _ h _ mem_cons_self
  rw [dropped, Bool.and_eq_true, paired_iff, decide_eq_true_eq]
  constructor
  · rintro ⟨⟨-, hmem⟩, hlt⟩
    exact (hbefore hmem).mp (EdgeRef.reverse_key_lt.mpr hlt)
  · intro h
    have hmem : e.reverse ∈ edges := by
      rw [hedges]
      exact mem_append_left _ h
    exact ⟨⟨hel, hmem⟩, EdgeRef.reverse_key_lt.mp ((hbefore hmem).mpr h)⟩

theorem EmittedAfter.step (hsorted : edges.Pairwise fun d e => d.key < e.key)
    {post : List EdgeRef} (hedges : edges = pre ++ e :: post) {out : Emitted}
    (h : EmittedAfter g edges pre out) :
    EmittedAfter g edges (pre ++ [e]) (Emitted.step g (g.bidirectionalCanons edges) out e) := by
  have hnodup : edges.Nodup := hsorted.imp fun hlt heq => absurd (heq ▸ hlt) (lt_irrefl _)
  have he : e ∈ edges := by
    rw [hedges]
    exact mem_append_right _ mem_cons_self
  have hnew : e ∉ pre := by
    rw [hedges] at hnodup
    exact fun hmem => (nodup_append'.mp hnodup).2.2 hmem mem_cons_self
  have hmem : ∀ c, (∃ d ∈ pre ++ [e], g.eligible d = true ∧ d.canon = c)
      ↔ (∃ d ∈ pre, g.eligible d = true ∧ d.canon = c) ∨ g.eligible e = true ∧ e.canon = c := by
    simp [or_and_right, exists_or]
  by_cases hel : g.eligible e = true
  · have hseen : e.canon ∈ out.emittedFirst ↔ g.dropped edges e = true := by
      rw [h.emittedFirst, canon_seen_iff hel hnew, dropped_iff_seen hsorted hedges hel]
    by_cases hdrop : g.dropped edges e = true
    · rw [Emitted.step, if_pos hel, if_pos (hseen.mpr hdrop)]
      refine ⟨?_, ?_, fun c => ?_, ?_⟩
      · simp [h.base, hdrop]
      · simp [h.bidirIndices, positions_append, hdrop]
      · rw [hmem, h.emittedFirst, iff_self_or]
        rintro ⟨-, rfl⟩
        exact (h.emittedFirst _).mp (hseen.mpr hdrop)
      · simp [h.derivable, hdrop]
    · have hpair := canon_mem_bidirectionalCanons hnodup he hel
      rw [Bool.not_eq_true] at hdrop
      rw [Emitted.step, if_pos hel, if_neg (fun hc => by simp [hseen.mp hc] at hdrop)]
      refine ⟨?_, ?_, fun c => ?_, ?_⟩
      · simp [h.base, hdrop]
      · rw [positions_append, map_append, ← h.bidirIndices, ← h.base]
        by_cases hp : g.paired edges e = true
        · rw [if_pos (hpair.mpr hp), if_pos ⟨hdrop, hp⟩, map_singleton]
        · rw [if_neg (fun hc => hp (hpair.mp hc)), if_neg (fun hc => hp hc.2), map_nil,
            append_nil]
      · rw [hmem, Finset.mem_insert, h.emittedFirst, or_comm, and_iff_right hel, @eq_comm _ c]
      · simp [h.derivable, hdrop]
  · have hdrop : g.dropped edges e = false := by
      rw [Bool.not_eq_true] at hel
      simp [dropped, paired, hel]
    have hpaired : g.paired edges e = false := by
      rw [Bool.not_eq_true] at hel
      simp [paired, hel]
    rw [Emitted.step, if_neg hel]
    refine ⟨?_, ?_, fun c => ?_, ?_⟩
    · simp [h.base, hdrop]
    · simp [h.bidirIndices, positions_append, hpaired]
    · rw [hmem, h.emittedFirst, iff_self_or]
      exact fun hc => absurd hc.1 hel
    · simp [h.derivable, hdrop]

theorem emittedAfter_foldl (hsorted : edges.Pairwise fun d e => d.key < e.key) :
    ∀ {pre post : List EdgeRef}, edges = pre ++ post →
      EmittedAfter g edges pre (pre.foldl (Emitted.step g (g.bidirectionalCanons edges)) {}) := by
  intro pre
  induction pre using List.reverseRecOn with
  | nil => exact fun _ => ⟨rfl, rfl, by simp, rfl⟩
  | append_singleton pre e ih =>
      intro post hedges
      rw [append_assoc, singleton_append] at hedges
      rw [foldl_append]
      exact (ih hedges).step hsorted hedges

theorem split_eq (hsorted : edges.Pairwise fun d e => d.key < e.key) :
    g.split edges = (g.kept edges, (g.positions edges edges).map UInt32.ofNat,
      edges.filter (g.dropped edges)) := by
  have h := emittedAfter_foldl (g := g) hsorted (append_nil edges).symm
  rw [split, kept, h.base, h.bidirIndices, h.derivable]

/-! ## The round trip -/

theorem filterMap_findIdxs {α : Type} (p : α → Bool) (l : List α) :
    (l.findIdxs p).filterMap (fun i => l[i]?) = l.filter p := by
  induction l with
  | nil => rfl
  | cons a l ih =>
      have hshift : (l.findIdxs p 1).filterMap (fun i => (a :: l)[i]?) = l.filter p := by
        rw [findIdxs_start, filterMap_map]
        exact ih
      rw [findIdxs_cons, filter_cons]
      by_cases hp : p a = true
      · rw [if_pos hp, if_pos hp, ← hshift]
        rfl
      · rw [if_neg hp, if_neg hp, hshift]

/-- In a list without repetitions a member tells its position. -/
theorem map_idxOf_filterMap {α : Type} [DecidableEq α] {l : List α} (hl : l.Nodup) :
    ∀ {js : List ℕ}, (∀ j ∈ js, j < l.length) → (js.filterMap fun j => l[j]?).map l.idxOf = js
  | [], _ => rfl
  | j :: js, h => by
      have hj := h j mem_cons_self
      have hrest := map_idxOf_filterMap hl fun i hi => h i (mem_cons_of_mem _ hi)
      have hread : ((j :: js).filterMap fun j => l[j]?) = l[j] :: js.filterMap fun j => l[j]? := by
        rw [filterMap_cons, getElem?_eq_getElem hj]
      rw [hread, map_cons, hrest, hl.idxOf_getElem]

/-- A list whose members fall below themselves modulo `m` somewhere does not have the
same members modulo `m`. -/
theorem lt_of_perm_mod {l : List ℕ} {m : ℕ} (hm : 0 < m) (h : (l.map (· % m)).Perm l) :
    ∀ i ∈ l, i < m := by
  intro i hi
  by_contra hlarge
  have hlt : (l.map (· % m)).sum < (l.map id).sum := by
    refine sum_lt_sum (· % m) id (fun j _ => Nat.mod_le j m) ⟨i, hi, ?_⟩
    exact (Nat.mod_lt i hm).trans_le (not_lt.mp hlarge)
  rw [map_id, h.sum_eq] at hlt
  exact lt_irrefl _ hlt

/-- Splitting and deriving gives every edge back and no other, by indices that are
increasing and in range. -/
structure RoundTrips (g : Grammar) (edges : List EdgeRef) : Prop where
  lossless : ((g.split edges).1 ++ g.derive (g.split edges).1 (g.split edges).2.1).Perm edges
  increasing : (g.split edges).2.1.Pairwise (· < ·)
  inRange : ∀ i ∈ (g.split edges).2.1, i.toNat < (g.split edges).1.length
  present : ∀ e ∈ g.derive (g.split edges).1 (g.split edges).2.1, e ∈ edges

/-- Ahead of the first direction of every pair fewer than 2^32 edges are shipped: those
that are not the second direction of a pair themselves. -/
def IndicesFit (g : Grammar) (edges : List EdgeRef) : Prop :=
  ∀ e ∈ edges, g.paired edges e = true → e.fromId < e.toId →
    (edges.filter fun d => decide (d.key < e.key) && !g.dropped edges d).length < 2 ^ 32

theorem nodup_of_sorted (hsorted : edges.Pairwise fun d e => d.key < e.key) : edges.Nodup :=
  hsorted.imp fun hlt heq => absurd (heq ▸ hlt) (lt_irrefl _)

theorem perm_kept_dropped : (g.kept edges ++ edges.filter (g.dropped edges)).Perm edges := by
  refine perm_append_comm.trans ?_
  exact filter_append_perm (g.dropped edges) edges

/-- Of a pair the direction that is shipped is the one from the smaller end. -/
theorem fromId_lt_of_kept (hpaired : g.paired edges e = true)
    (hkept : (!g.dropped edges e) = true) : e.fromId < e.toId := by
  have hne : e.fromId ≠ e.toId := by
    have hel := (paired_iff.mp hpaired).1
    unfold eligible at hel
    simpa using (Bool.and_eq_true_iff.mp hel).2
  refine lt_of_le_of_ne (not_lt.mp fun hlt => ?_) hne
  simp [dropped, hpaired, hlt] at hkept

theorem perm_reverses (hnodup : edges.Nodup) :
    (((g.kept edges).filter (g.paired edges)).map EdgeRef.reverse).Perm
      (edges.filter (g.dropped edges)) := by
  refine (perm_ext_iff_of_nodup ?_ (hnodup.filter _)).mpr ?_
  · exact ((hnodup.filter _).filter _).map EdgeRef.reverse_injective
  · intro e
    rw [mem_map, mem_filter]
    constructor
    · rintro ⟨d, hd, rfl⟩
      obtain ⟨hd, hpaired⟩ := mem_filter.mp hd
      obtain ⟨hd, hkept⟩ := mem_filter.mp hd
      obtain ⟨hel, hrev⟩ := paired_iff.mp hpaired
      have hlt := fromId_lt_of_kept hpaired hkept
      refine ⟨hrev, ?_⟩
      rw [dropped, Bool.and_eq_true, decide_eq_true_eq]
      exact ⟨paired_iff.mpr ⟨by rw [eligible_reverse, hel], hd⟩, hlt⟩
    · rintro ⟨he, hdrop⟩
      rw [dropped, Bool.and_eq_true, decide_eq_true_eq] at hdrop
      obtain ⟨hpaired, hlt⟩ := hdrop
      obtain ⟨hel, hrev⟩ := paired_iff.mp hpaired
      refine ⟨e.reverse, ?_, EdgeRef.reverse_reverse e⟩
      have hlater : decide (e.reverse.toId < e.reverse.fromId) = false :=
        decide_eq_false (not_lt.mpr hlt.le)
      refine mem_filter.mpr ⟨mem_filter.mpr ⟨hrev, ?_⟩, ?_⟩
      · rw [dropped, hlater, Bool.and_false]
        rfl
      · exact paired_iff.mpr ⟨by rw [eligible_reverse, hel], he⟩

theorem derive_eq_of_fits (hfit : ∀ i ∈ g.positions edges edges, i < 2 ^ 32) :
    g.derive (g.kept edges) ((g.positions edges edges).map UInt32.ofNat)
      = ((g.kept edges).filter (g.paired edges)).map EdgeRef.reverse := by
  have hread : ((g.positions edges edges).map UInt32.ofNat).filterMap
      (fun i => (g.kept edges)[i.toNat]?)
        = (g.positions edges edges).filterMap fun i => (g.kept edges)[i]? := by
    rw [filterMap_map]
    refine filterMap_congr fun i hi => ?_
    show (g.kept edges)[(UInt32.ofNat i).toNat]? = _
    rw [UInt32.toNat_ofNat_of_lt' (hfit i hi)]
  rw [derive, hread]
  exact congrArg _ (filterMap_findIdxs _ _)

variable {i : ℕ}

theorem lt_length_of_mem_positions (hi : i ∈ g.positions edges edges) :
    i < (g.kept edges).length := by
  have hlt := lt_add_of_mem_findIdxs i hi
  rwa [Nat.add_zero] at hlt

theorem positions_fit_of_perm (hnodup : edges.Nodup)
    (h : (g.derive (g.kept edges) ((g.positions edges edges).map UInt32.ofNat)).Perm
      (((g.kept edges).filter (g.paired edges)).map EdgeRef.reverse)) :
    ∀ i ∈ g.positions edges edges, i < 2 ^ 32 := by
  have hkept : (g.kept edges).Nodup := hnodup.filter _
  have hread : ((g.positions edges edges).map UInt32.ofNat).filterMap
      (fun i => (g.kept edges)[i.toNat]?)
        = ((g.positions edges edges).map (· % 2 ^ 32)).filterMap fun i => (g.kept edges)[i]? := by
    rw [filterMap_map, filterMap_map]
    refine filterMap_congr fun i _ => ?_
    show (g.kept edges)[(UInt32.ofNat i).toNat]? = _
    rw [UInt32.toNat_ofNat']
    rfl
  have hfound := (map_perm_map_iff EdgeRef.reverse_injective).mp h
  rw [hread, ← filterMap_findIdxs] at hfound
  have hidx := hfound.map (g.kept edges).idxOf
  rw [map_idxOf_filterMap hkept, map_idxOf_filterMap hkept] at hidx
  · exact lt_of_perm_mod (by decide) hidx
  · exact fun i hi => lt_length_of_mem_positions hi
  · intro j hj
    obtain ⟨i, hi, rfl⟩ := mem_map.mp hj
    exact (Nat.mod_le _ _).trans_lt (lt_length_of_mem_positions hi)

/-- The position of an edge among those shipped is the number of those ahead of it. -/
theorem length_filter_key_lt {l : List EdgeRef} (hsorted : l.Pairwise fun d e => d.key < e.key) (hi : i < l.length) : (l.filter fun d => decide (d.key < l[i].key)).length = i := by
  have hbefore : ∀ d ∈ l.take i, d.key < l[i].key := by
    intro d hd
    obtain ⟨j, hj, rfl⟩ := mem_take_iff_getElem.mp hd
    exact pairwise_iff_getElem.mp hsorted j i _ _ (by omega)
  have hafter : ∀ d ∈ l.drop i, ¬ d.key < l[i].key := by
    intro d hd
    obtain ⟨j, hj, rfl⟩ := mem_drop_iff_getElem.mp hd
    rcases Nat.eq_zero_or_pos j with rfl | hpos
    · exact lt_irrefl _
    · exact not_lt.mpr (pairwise_iff_getElem.mp hsorted i (i + j) _ _ (by omega)).le
  have hfilter : (l.filter fun d => decide (d.key < l[i].key)) = l.take i := by
    generalize l[i].key = k at hbefore hafter
    rw [← take_append_drop i l, filter_append, filter_eq_self.mpr,
      filter_eq_nil_iff.mpr, append_nil]
    · rw [take_append_drop]
    · simpa using hafter
    · simpa using hbefore
  rw [hfilter, length_take, min_eq_left hi.le]

theorem positions_fit_iff (hsorted : edges.Pairwise fun d e => d.key < e.key) :
    (∀ i ∈ g.positions edges edges, i < 2 ^ 32) ↔ g.IndicesFit edges := by
  have hkept : (g.kept edges).Pairwise fun d e => d.key < e.key := hsorted.filter _
  have hahead : ∀ {i : ℕ} (hi : i < (g.kept edges).length),
      (edges.filter fun d => decide (d.key < (g.kept edges)[i].key)
        && !g.dropped edges d).length = i := by
    intro i hi
    rw [← filter_filter]
    exact length_filter_key_lt hkept hi
  constructor
  · intro h e he hpaired hlt
    have hmem : e ∈ g.kept edges := by
      refine mem_filter.mpr ⟨he, ?_⟩
      rw [dropped, decide_eq_false (not_lt.mpr hlt.le), Bool.and_false]
      rfl
    obtain ⟨i, hi, rfl⟩ := mem_iff_getElem.mp hmem
    rw [hahead hi]
    exact h i (mem_findIdxs_iff_exists_getElem_pos.mpr ⟨hi, hpaired⟩)
  · intro h i hi
    obtain ⟨hi, hpaired⟩ := mem_findIdxs_iff_exists_getElem_pos.mp hi
    have hi : i < (g.kept edges).length := hi
    obtain ⟨he, hnot⟩ := mem_filter.mp (getElem_mem hi)
    have hfit := h _ he hpaired (fromId_lt_of_kept hpaired hnot)
    rwa [hahead hi] at hfit

theorem roundTrips_iff_fit (hsorted : edges.Pairwise fun d e => d.key < e.key) :
    g.RoundTrips edges ↔ g.IndicesFit edges := by
  have hnodup := nodup_of_sorted hsorted
  rw [← positions_fit_iff hsorted]
  constructor
  · intro h
    have hderived := h.lossless.trans (perm_kept_dropped (g := g)).symm
    rw [split_eq hsorted] at hderived
    have hreverses := (perm_append_left_iff _).mp hderived
    exact positions_fit_of_perm hnodup (hreverses.trans (perm_reverses hnodup).symm)
  · intro hfit
    have hderive : g.derive (g.split edges).1 (g.split edges).2.1
        = ((g.kept edges).filter (g.paired edges)).map EdgeRef.reverse := by
      rw [split_eq hsorted]
      exact derive_eq_of_fits hfit
    refine ⟨?_, ?_, ?_, ?_⟩
    · rw [hderive, split_eq hsorted]
      exact ((perm_reverses hnodup).append_left _).trans perm_kept_dropped
    · rw [split_eq hsorted]
      refine pairwise_map.mpr (List.Pairwise.imp_of_mem ?_ pairwise_findIdxs)
      intro i j hi hj hij
      rw [UInt32.lt_iff_toNat_lt, UInt32.toNat_ofNat_of_lt' (hfit i hi),
        UInt32.toNat_ofNat_of_lt' (hfit j hj)]
      exact hij
    · rw [split_eq hsorted]
      intro i hi
      obtain ⟨j, hj, rfl⟩ := mem_map.mp hi
      rw [UInt32.toNat_ofNat_of_lt' (hfit j hj)]
      exact lt_length_of_mem_positions hj
    · rw [hderive]
      intro e he
      exact (mem_filter.mp ((perm_reverses hnodup).mem_iff.mp he)).1

theorem mem_new_edges {nodes : Vec NodeRef} {edges : Vec EdgeRef} :
    e ∈ (GraphState.new nodes edges).edges.toList ↔ e ∈ edges.toList :=
  SortDedup.mem_sortDedup

theorem new_edges_sorted (nodes : Vec NodeRef) (edges : Vec EdgeRef) :
    (GraphState.new nodes edges).edges.toList.Pairwise fun d e => d.key < e.key :=
  SortDedup.pairwise_sortDedup fun _ _ _ _ h => EdgeRef.key_injective h

/-- A graph survives a grammar exactly when the indices of the pairs it has of the
grammar's kinds fit. -/
theorem grammar_roundTrips_iff (g : Grammar) (nodes : Vec NodeRef) (edges : Vec EdgeRef) :
    g.RoundTrips (GraphState.new nodes edges).edges.toList
      ↔ g.IndicesFit (GraphState.new nodes edges).edges.toList :=
  roundTrips_iff_fit (new_edges_sorted nodes edges)

/-! ### An index that does not fit -/

def numbered (i : ℕ) : Str where
  text := Nat.toDigits 10 (i % 2 ^ 32)
  inMemory := by
    have hlen : (Nat.toDigits 10 (i % 2 ^ 32)).length ≤ 10 := by
      rw [Nat.length_toDigits_le_iff (by decide) (by decide)]
      exact (Nat.mod_lt _ (by decide)).trans (by decide)
    exact (Str.length_utf8_le _).trans_lt (by omega)

def kindA : Str := ⟨['a'], by decide⟩

def kindB : Str := ⟨['b'], by decide⟩

def selfCall (i : ℕ) : EdgeRef where
  fromId := numbered i
  toId := numbered i
  kind := kindA

def forth : EdgeRef := ⟨⟨['x'], by decide⟩, ⟨['y'], by decide⟩, kindB⟩

/-- 2^32 edges of one kind and then both directions of an edge of another. -/
def wideEdges : Vec EdgeRef where
  toList := forth :: forth.reverse :: (List.range (2 ^ 32)).map selfCall
  inMemory := by
    rw [length_cons, length_cons, length_map, length_range]
    decide

def pairsOfB : Grammar := ⟨[.symmetricClosure [kindB]]⟩

theorem mem_wideEdges : e ∈ wideEdges.toList
    ↔ e = forth ∨ e = forth.reverse ∨ ∃ i < 2 ^ 32, selfCall i = e := by
  unfold wideEdges
  simp only [mem_cons, mem_map, mem_range]

theorem selfCall_injOn {j : ℕ} (hi : i < 2 ^ 32) (hj : j < 2 ^ 32)
    (h : selfCall i = selfCall j) : i = j := by
  have hdigits : Nat.toDigits 10 (i % 2 ^ 32) = Nat.toDigits 10 (j % 2 ^ 32) :=
    congrArg (fun e => e.fromId.text) h
  have hvalue := congrArg (Nat.ofDigitChars 10 · 0) hdigits
  simp only [Nat.ofDigitChars_ten_toDigits] at hvalue
  rwa [Nat.mod_eq_of_lt hi, Nat.mod_eq_of_lt hj] at hvalue

theorem wide_not_roundTrips :
    ¬ pairsOfB.RoundTrips (GraphState.new ⟨[], by decide⟩ wideEdges).edges.toList := by
  rw [roundTrips_iff_fit (new_edges_sorted _ _)]
  intro hfit
  have hmem : ∀ e, e ∈ (GraphState.new ⟨[], by decide⟩ wideEdges).edges.toList
      ↔ e = forth ∨ e = forth.reverse ∨ ∃ i < 2 ^ 32, selfCall i = e := fun e =>
    mem_new_edges.trans mem_wideEdges
  generalize (GraphState.new ⟨[], by decide⟩ wideEdges).edges.toList = edges at hmem hfit
  have hpaired : pairsOfB.paired edges forth = true :=
    paired_iff.mpr ⟨by decide, (hmem _).mpr (Or.inr (Or.inl rfl))⟩
  have hfew := hfit forth ((hmem _).mpr (Or.inl rfl)) hpaired (by decide)
  have hmany : ((List.range (2 ^ 32)).map selfCall).length ≤ (edges.filter fun d =>
      decide (d.key < forth.key) && !pairsOfB.dropped edges d).length := by
    refine (subperm_of_subset ?_ ?_).length_le
    · refine List.Nodup.map_on ?_ nodup_range
      intro i hi j hj
      exact selfCall_injOn (mem_range.mp hi) (mem_range.mp hj)
    · intro e he
      obtain ⟨i, hi, rfl⟩ := mem_map.mp he
      refine mem_filter.mpr ⟨(hmem _).mpr (Or.inr (Or.inr ⟨i, mem_range.mp hi, rfl⟩)), ?_⟩
      have hkind : kindA < kindB := by decide
      have hkey : (selfCall i).key < forth.key := Prod.Lex.toLex_lt_toLex.mpr (Or.inl hkind)
      have hplain : pairsOfB.eligible (selfCall i) = false := by
        simp [eligible, selfCall]
      simp [hkey, dropped, paired, hplain]
  rw [length_map, length_range] at hmany
  exact absurd hfew (not_lt.mpr hmany)

end Grammar

end CodeGraph.Zera
