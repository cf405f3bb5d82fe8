import CodeGraph.Lib.Percent
import CodeGraph.Lib.SortDedup
import CodeGraph.Lib.Tally
import CodeGraph.Lib.Wire
import CodeGraph.Text
import Mathlib.Data.Prod.Lex
import Mathlib.Order.Lattice

/-!
# The state a ZERA session starts from

A graph as the wire protocol sees it: nodes and edges in one canonical order,
and the bytes its content id is the digest of. Lengths are written in eight
bytes, which is what a length in memory takes, so the values here carry the fact
that they are in memory (`Str`, `Vec`).
-/

namespace CodeGraph.Zera

open Percent (utf8 utf8_injective)
open Wire (Bytes leBytes SelfDelimiting)

/-- A `String`. -/
structure Str where
  text : Text
  inMemory : (utf8 text).length < 256 ^ 8

/-- A `Vec`. -/
structure Vec (α : Type) where
  toList : List α
  inMemory : toList.length < 256 ^ 8

namespace Str

theorem text_injective : Function.Injective Str.text := by
  rintro ⟨s, _⟩ ⟨t, _⟩ rfl
  rfl

instance : LinearOrder Str := LinearOrder.lift' Str.text text_injective

theorem length_utf8_le (text : Text) : (utf8 text).length ≤ 4 * text.length := by
  induction text with
  | nil => rfl
  | cons c text ih =>
      rw [Percent.utf8_cons, List.length_append, String.length_utf8EncodeChar, List.length_cons]
      have hsize := c.utf8Size_le_four
      omega

def asBytes (s : Str) : Bytes := utf8 s.text

theorem asBytes_injective : Function.Injective asBytes :=
  utf8_injective.comp text_injective

/-- What `hasher.update` gets of a string: its length and its bytes. -/
def hashed (s : Str) : Bytes := leBytes 8 s.asBytes.length ++ s.asBytes

theorem selfDelimiting_hashed : SelfDelimiting hashed fun _ => True := by
  have hprefixed := (Wire.selfDelimiting_prefixed 8).comap asBytes_injective
  intro s t _ _
  exact hprefixed s.inMemory t.inMemory

end Str

structure NodeRef where
  id : Str
  label : Str
  deriving DecidableEq

structure EdgeRef where
  fromId : Str
  toId : Str
  kind : Str
  deriving DecidableEq

def NodeRef.key (n : NodeRef) : Str ×ₗ Str := toLex (n.label, n.id)

def EdgeRef.key (e : EdgeRef) : Str ×ₗ Str ×ₗ Str := toLex (e.kind, toLex (e.fromId, e.toId))

theorem NodeRef.key_injective : Function.Injective NodeRef.key := by
  rintro ⟨_, _⟩ ⟨_, _⟩ h
  obtain ⟨rfl, rfl⟩ := Prod.mk.inj (toLex.injective h)
  rfl

theorem EdgeRef.key_injective : Function.Injective EdgeRef.key := by
  rintro ⟨_, _, _⟩ ⟨_, _, _⟩ h
  obtain ⟨rfl, hends⟩ := Prod.mk.inj (toLex.injective h)
  obtain ⟨rfl, rfl⟩ := Prod.mk.inj (toLex.injective hends)
  rfl

/-- The fields are public: a state need not be canonical. -/
structure GraphState where
  nodes : Vec NodeRef
  edges : Vec EdgeRef

/-- `sort_by` the key and `dedup_by` its parts. -/
def Vec.sortDedup {α κ : Type} [DecidableEq α] [LinearOrder κ] (key : α → κ) (v : Vec α) :
    Vec α where
  toList := SortDedup.sortDedup key v.toList
  inMemory := by
    refine lt_of_le_of_lt ?_ v.inMemory
    have hsub := List.destutter_sublist (· ≠ ·) (SortDedup.sortByKey key v.toList)
    refine hsub.length_le.trans ?_
    rw [SortDedup.sortByKey, List.length_insertionSort]

namespace GraphState

def new (nodes : Vec NodeRef) (edges : Vec EdgeRef) : GraphState where
  nodes := nodes.sortDedup NodeRef.key
  edges := edges.sortDedup EdgeRef.key

def nodeSet (s : GraphState) : Set NodeRef := {n | n ∈ s.nodes.toList}

def edgeSet (s : GraphState) : Set EdgeRef := {e | e ∈ s.edges.toList}

def hashedNode (n : NodeRef) : Bytes := n.label.hashed ++ n.id.hashed

def hashedEdge (e : EdgeRef) : Bytes := e.kind.hashed ++ (e.fromId.hashed ++ e.toId.hashed)

/-- The canonical bytes, in the order `content_hash` feeds them to the hasher. -/
def contentBytes (s : GraphState) : Bytes :=
  (leBytes 8 s.nodes.toList.length ++ s.nodes.toList.flatMap hashedNode)
    ++ (leBytes 8 s.edges.toList.length ++ s.edges.toList.flatMap hashedEdge)

/-- `content_hash`, for the digest function of the hash crate. -/
def contentHash {Digest : Type} (blake3 : Bytes → Digest) (s : GraphState) : Digest :=
  blake3 s.contentBytes

/-! ## Content identity -/

theorem selfDelimiting_hashedNode : SelfDelimiting hashedNode fun _ => True := by
  have hfields : SelfDelimiting hashedNode fun _ => True ∧ True :=
    Str.selfDelimiting_hashed.fields Str.selfDelimiting_hashed
      (f := NodeRef.label) (g := NodeRef.id) (by
        rintro ⟨_, _⟩ ⟨_, _⟩ rfl rfl
        rfl)
  intro a b _ _
  exact hfields ⟨trivial, trivial⟩ ⟨trivial, trivial⟩

theorem selfDelimiting_hashedEdge : SelfDelimiting hashedEdge fun _ => True := by
  have hends := Str.selfDelimiting_hashed.fields Str.selfDelimiting_hashed
    (γ := Str × Str) (f := Prod.fst) (g := Prod.snd) fun _ _ => Prod.ext
  have hfields : SelfDelimiting hashedEdge fun _ => True ∧ True ∧ True :=
    Str.selfDelimiting_hashed.fields hends
      (f := EdgeRef.kind) (g := fun e : EdgeRef => (e.fromId, e.toId)) (by
        rintro ⟨_, _, _⟩ ⟨_, _, _⟩ rfl hends
        obtain ⟨rfl, rfl⟩ := Prod.mk.inj hends
        rfl)
  intro a b _ _
  exact hfields ⟨trivial, trivial, trivial⟩ ⟨trivial, trivial, trivial⟩

theorem contentBytes_injective : Function.Injective contentBytes := by
  have hfields := (selfDelimiting_hashedNode.counted 8).fields
    (selfDelimiting_hashedEdge.counted 8)
    (γ := GraphState) (f := fun s => s.nodes.toList) (g := fun s => s.edges.toList) (by
      rintro ⟨⟨_, _⟩, ⟨_, _⟩⟩ ⟨⟨_, _⟩, ⟨_, _⟩⟩ rfl rfl
      rfl)
  intro s t h
  refine hfields.injective ?_ ?_ h
  · exact ⟨⟨s.nodes.inMemory, fun _ _ => trivial⟩, ⟨s.edges.inMemory, fun _ _ => trivial⟩⟩
  · exact ⟨⟨t.nodes.inMemory, fun _ _ => trivial⟩, ⟨t.edges.inMemory, fun _ _ => trivial⟩⟩

theorem Vec.ext_toList {α : Type} {v w : Vec α} (h : v.toList = w.toList) : v = w := by
  obtain ⟨_, _⟩ := v
  obtain ⟨_, _⟩ := w
  cases h
  rfl

theorem sortDedup_eq {α κ : Type} [DecidableEq α] [LinearOrder κ] {key : α → κ}
    (hkey : Function.Injective key) {v w : Vec α}
    (h : ∀ a, a ∈ (v.sortDedup key).toList ↔ a ∈ (w.sortDedup key).toList) :
    v.sortDedup key = w.sortDedup key := by
  refine Vec.ext_toList (SortDedup.sortDedup_eq_of_mem_iff (fun _ _ _ _ h => hkey h) ?_)
  intro a
  exact SortDedup.mem_sortDedup.symm.trans ((h a).trans SortDedup.mem_sortDedup)

theorem new_eq_of_sets {nodes nodes' : Vec NodeRef} {edges edges' : Vec EdgeRef}
    (hnodes : (new nodes edges).nodeSet = (new nodes' edges').nodeSet)
    (hedges : (new nodes edges).edgeSet = (new nodes' edges').edgeSet) :
    new nodes edges = new nodes' edges' := by
  have hn : (new nodes edges).nodes = (new nodes' edges').nodes :=
    sortDedup_eq NodeRef.key_injective (Set.ext_iff.mp hnodes)
  have he : (new nodes edges).edges = (new nodes' edges').edges :=
    sortDedup_eq EdgeRef.key_injective (Set.ext_iff.mp hedges)
  rw [new, new]
  exact congrArg₂ GraphState.mk hn he

end GraphState

end CodeGraph.Zera

/-!
## The codebook

`from_graph` counts the id prefixes in a hash map and sorts the frequent ones by
their counts alone, so what it makes of a graph depends on the order in which the
map is read: here an argument, any rearrangement of the counts.
-/

namespace CodeGraph.Zera

open Wire (Bytes leBytes)

/-- `s[..=i]` for the first `i` with the character `c`. -/
def Str.upTo (c : Char) (s : Str) : Option Str :=
  if c ∈ s.text then
    some
      { text := s.text.take (s.text.idxOf c + 1)
        inMemory := by
          refine lt_of_le_of_lt ?_ s.inMemory
          have hsplit := List.take_append_drop (s.text.idxOf c + 1) s.text
          conv_rhs => rw [← hsplit, Percent.utf8_append, List.length_append]
          exact Nat.le_add_right _ _ }
  else none

structure Codebook where
  labels : List Str
  kinds : List Str
  idPrefixes : List Str
  deriving DecidableEq

namespace Codebook

/-- The members in the order they first appear. -/
def firstSeen (l : List Str) : List Str :=
  l.foldl (fun seen s => if s ∈ seen then seen else seen ++ [s]) []

/-- The map of the prefixes up to the first colon and how often each occurs. -/
def prefixCounts (nodes : List NodeRef) : List (Str × ℕ) :=
  Tally.collect (nodes.filterMap fun n => (n.id.upTo ':').map fun p => (p, 1))

/-- The count a prefix has to exceed. -/
def threshold (nodes : List NodeRef) : ℕ := max nodes.length 1 / 50

/-- `order` is the map as this run iterates over it. -/
def extractCommonPrefixes (nodes : List NodeRef) (order : List (Str × ℕ)) : List Str :=
  (SortDedup.sortByKey (fun e => OrderDual.toDual e.2)
    (order.filter fun e => threshold nodes < e.2)).map Prod.fst

def fromGraph (state : GraphState) (order : List (Str × ℕ)) : Codebook where
  labels := (firstSeen (state.nodes.toList.map NodeRef.label)).insertionSort (· ≤ ·)
  kinds := (firstSeen (state.edges.toList.map EdgeRef.kind)).insertionSort (· ≤ ·)
  idPrefixes := extractCommonPrefixes state.nodes.toList order

def hashedStrs (l : List Str) : Bytes := leBytes 8 l.length ++ l.flatMap Str.hashed

/-- What `content_hash` feeds to the hasher. -/
def contentBytes (book : Codebook) : Bytes :=
  hashedStrs book.labels ++ hashedStrs book.kinds ++ hashedStrs book.idPrefixes

/-- The hexadecimal digits of the digest, for the digest function of the hash crate. -/
def contentId (blake3 : Bytes → Bytes) (book : Codebook) : Text :=
  (blake3 book.contentBytes).flatMap fun b =>
    [Nat.digitChar (b.toNat / 16), Nat.digitChar (b.toNat % 16)]

/-! ## What a run may see of the map -/

/-- A hash map is read in some order. -/
def IsIteration (nodes : List NodeRef) (order : List (Str × ℕ)) : Prop :=
  order.Perm (prefixCounts nodes)

/-- Every order of iteration gives the codebook and the id every other gives. -/
def Reproducible (blake3 : Bytes → Bytes) (state : GraphState) : Prop :=
  ∀ order order', IsIteration state.nodes.toList order → IsIteration state.nodes.toList order' →
    fromGraph state order = fromGraph state order'
      ∧ (fromGraph state order).contentId blake3 = (fromGraph state order').contentId blake3

def prefixCount (nodes : List NodeRef) (p : Str) : ℕ :=
  nodes.countP fun n => decide (n.id.upTo ':' = some p)

/-- No two prefixes that are frequent enough are equally frequent. -/
def NoTies (nodes : List NodeRef) : Prop :=
  ∀ p q, threshold nodes < prefixCount nodes p → prefixCount nodes p = prefixCount nodes q → p = q

theorem sumAt_prefixes (nodes : List NodeRef) (p : Str) :
    Tally.sumAt (nodes.filterMap fun n => (n.id.upTo ':').map fun p => (p, 1)) p
      = prefixCount nodes p := by
  induction nodes with
  | nil => rfl
  | cons n nodes ih =>
      rw [prefixCount, List.countP_cons, ← prefixCount, ← ih, List.filterMap_cons]
      cases hp : n.id.upTo ':' with
      | none => simp
      | some q => simp [Nat.add_comm]

variable {nodes : List NodeRef} {p : Str} {c : ℕ}

theorem mem_prefixCounts (hc : 0 < c) : (p, c) ∈ prefixCounts nodes ↔ c = prefixCount nodes p := by
  have hsorted : Tally.Sorted (prefixCounts nodes) := Tally.sorted_collect _
  have hsum : Tally.sumAt (prefixCounts nodes) p = prefixCount nodes p := by
    rw [prefixCounts, Tally.sumAt_collect, sumAt_prefixes]
  constructor
  · intro h
    rw [← hsum, hsorted.sumAt_eq h]
  · rintro rfl
    by_contra hnot
    have hkey : p ∉ (prefixCounts nodes).map Prod.fst := by
      intro hmem
      obtain ⟨⟨q, d⟩, hd, rfl⟩ := List.mem_map.mp hmem
      rw [← hsum, hsorted.sumAt_eq hd] at hnot
      exact hnot hd
    rw [← hsum, Tally.sumAt_of_notMem hkey] at hc
    exact lt_irrefl _ hc

theorem nodup_prefixes (nodes : List NodeRef) : ((prefixCounts nodes).map Prod.fst).Nodup :=
  (Tally.sorted_collect _).imp ne_of_lt

variable {order : List (Str × ℕ)}

theorem extract_eq_of_noTies (h : NoTies nodes)
    {order' : List (Str × ℕ)} (ho : IsIteration nodes order) (ho' : IsIteration nodes order') :
    extractCommonPrefixes nodes order = extractCommonPrefixes nodes order' := by
  have hkey : SortDedup.KeyInjective (fun e : Str × ℕ => OrderDual.toDual e.2)
      (order.filter fun e => threshold nodes < e.2) := by
    rintro ⟨p, c⟩ hp ⟨q, d⟩ hq hcd
    obtain rfl : c = d := hcd
    obtain ⟨hp, hc⟩ := List.mem_filter.mp hp
    have hc := of_decide_eq_true hc
    have hpos : 0 < c := Nat.zero_lt_of_lt hc
    have hcp := (mem_prefixCounts hpos).mp (ho.mem_iff.mp hp)
    have hcq := (mem_prefixCounts hpos).mp (ho.mem_iff.mp (List.mem_filter.mp hq).1)
    rw [h p q (hcp ▸ hc) (hcp ▸ hcq)]
  rw [extractCommonPrefixes, extractCommonPrefixes,
    SortDedup.sortByKey_eq_of_perm hkey ((ho.trans ho'.symm).filter _)]

variable {q : Str}

theorem extract_tie (hc : threshold nodes < c) (h : [(p, c), (q, c)].Sublist order) :
    [p, q].Sublist (extractCommonPrefixes nodes order) := by
  have hfilter := h.filter fun e => decide (threshold nodes < e.2)
  rw [List.filter_eq_self.mpr (by simp [hc])] at hfilter
  have hle : OrderDual.toDual (p, c).2 ≤ OrderDual.toDual (q, c).2 := le_rfl
  exact (SortDedup.pair_sublist_sortByKey (fun e : Str × ℕ => OrderDual.toDual e.2)
    hle hfilter).map Prod.fst

theorem nodup_extract
    (ho : IsIteration nodes order) : (extractCommonPrefixes nodes order).Nodup := by
  have hfst := (ho.map Prod.fst).nodup_iff.mpr (nodup_prefixes nodes)
  have hsort := (List.perm_insertionSort (fun a b : Str × ℕ =>
    OrderDual.toDual a.2 ≤ OrderDual.toDual b.2)
    (order.filter fun e => threshold nodes < e.2)).map Prod.fst
  exact hsort.nodup_iff.mpr (hfst.sublist (List.filter_sublist.map Prod.fst))

/-- A map that holds two entries may give either first. -/
theorem exists_iteration (hpq : p ≠ q)
    (hp : (p, c) ∈ prefixCounts nodes) (hq : (q, c) ∈ prefixCounts nodes) :
    ∃ order, IsIteration nodes order ∧ [(p, c), (q, c)].Sublist order := by
  have hq' : (q, c) ∈ (prefixCounts nodes).erase (p, c) :=
    (List.mem_erase_of_ne fun h => hpq (congrArg Prod.fst h).symm).mpr hq
  refine ⟨(p, c) :: (q, c) :: ((prefixCounts nodes).erase (p, c)).erase (q, c), ?_, ?_⟩
  · exact ((List.perm_cons_erase hp).trans ((List.perm_cons_erase hq').cons _)).symm
  · exact ((List.nil_sublist _).cons_cons _).cons_cons _

theorem not_reproducible_of_tie {blake3 : Bytes → Bytes} {state : GraphState}
    (hpq : p ≠ q) (hc : threshold state.nodes.toList < c)
    (hp : c = prefixCount state.nodes.toList p) (hq : c = prefixCount state.nodes.toList q) :
    ¬ Reproducible blake3 state := by
  intro h
  have hpos : 0 < c := Nat.zero_lt_of_lt hc
  have hp := (mem_prefixCounts hpos).mpr hp
  have hq := (mem_prefixCounts hpos).mpr hq
  obtain ⟨order, ho, hsub⟩ := exists_iteration hpq hp hq
  obtain ⟨order', ho', hsub'⟩ := exists_iteration hpq.symm hq hp
  have heq : extractCommonPrefixes state.nodes.toList order
      = extractCommonPrefixes state.nodes.toList order' :=
    congrArg Codebook.idPrefixes (h order order' ho ho').1
  refine SortDedup.not_swap_sublist (nodup_extract ho) (extract_tie hc hsub) ?_
  rw [heq]
  exact extract_tie hc hsub'

/-- The codebook is a function of the graph exactly when no two of its prefixes tie. -/
theorem codebook_reproducible_iff (blake3 : Bytes → Bytes) (state : GraphState) :
    Reproducible blake3 state ↔ NoTies state.nodes.toList := by
  constructor
  · intro h p q hc heq
    by_contra hpq
    exact not_reproducible_of_tie hpq hc rfl heq h
  · intro h order order' ho ho'
    have hbook : fromGraph state order = fromGraph state order' := by
      rw [fromGraph, fromGraph, extract_eq_of_noTies h ho ho']
    exact ⟨hbook, congrArg _ hbook⟩

def taggedNode (c : Char) (h : (Percent.utf8 [c, ':']).length < 256 ^ 8) : NodeRef where
  id := ⟨[c, ':'], h⟩
  label := ⟨['N'], by decide⟩

def twoNodes : GraphState :=
  GraphState.new ⟨[taggedNode 'a' (by decide), taggedNode 'b' (by decide)], by decide⟩
    ⟨[], by decide⟩

/-- Two nodes whose ids have different prefixes, under whatever hash. -/
theorem twoNodes_not_reproducible : ¬ ∃ blake3, Reproducible blake3 twoNodes := by
  rintro ⟨blake3, h⟩
  revert h
  refine not_reproducible_of_tie (p := ⟨['a', ':'], by decide⟩) (q := ⟨['b', ':'], by decide⟩)
    (c := 1) ?_ ?_ ?_ ?_
  all_goals decide

end Codebook

end CodeGraph.Zera
