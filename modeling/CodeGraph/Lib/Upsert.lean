import Mathlib.Data.Finmap
import Mathlib.Data.List.Induction
import Mathlib.Data.List.Nodup
import Mathlib.Order.Nat

/-!
# Updates of a finite map

A map filled by updates, each of which reads and rewrites the value under one key.
Where the updates of a key commute, the order of all the updates plays no part
(`upserts_perm`); where each adds one to a count, the map counts them
(`countAt_upserts`).
-/

namespace Upsert

variable {κ β ι : Type*} [DecidableEq κ]

/-- Puts `g` of what the map has under `k`, nothing being there the first time. -/
def upsert (k : κ) (g : Option β → β) (m : Finmap fun _ : κ => β) : Finmap fun _ : κ => β :=
  m.insert k (g (m.lookup k))

@[simp] theorem lookup_upsert (k k' : κ) (g : Option β → β) (m : Finmap fun _ : κ => β) :
    (upsert k g m).lookup k' = if k' = k then some (g (m.lookup k)) else m.lookup k' := by
  by_cases h : k' = k
  · subst h
    rw [upsert, Finmap.lookup_insert, if_pos rfl]
  · rw [upsert, Finmap.lookup_insert_of_ne _ h, if_neg h]

/-- Updates that can be exchanged under one key can be exchanged. -/
theorem upsert_comm {g g' : Option β → β} (hcomm : ∀ x, g (some (g' x)) = g' (some (g x)))
    (k k' : κ) (m : Finmap fun _ : κ => β) :
    upsert k g (upsert k' g' m) = upsert k' g' (upsert k g m) := by
  refine Finmap.ext_lookup ?_
  intro x
  simp only [lookup_upsert]
  by_cases hk : k = k'
  · subst hk
    by_cases hx : x = k
    · rw [if_pos hx, if_pos hx, if_pos rfl, if_pos rfl, hcomm]
    · rw [if_neg hx, if_neg hx, if_neg hx, if_neg hx]
  · rw [if_neg hk, if_neg (Ne.symm hk)]
    by_cases hx : x = k
    · have hx' : x ≠ k' := fun h => hk (hx.symm.trans h)
      rw [if_pos hx, if_neg hx', if_pos hx]
    · simp only [if_neg hx]

variable (key : ι → κ) (act : ι → Option β → β)

/-- The updates of a list of entries, one after the other. -/
def upserts (entries : List ι) (m : Finmap fun _ : κ => β) : Finmap fun _ : κ => β :=
  entries.foldl (fun m e => upsert (key e) (act e) m) m

@[simp] theorem upserts_nil (m : Finmap fun _ : κ => β) : upserts key act [] m = m := rfl

@[simp] theorem upserts_cons (e : ι) (entries : List ι) (m : Finmap fun _ : κ => β) :
    upserts key act (e :: entries) m = upserts key act entries (upsert (key e) (act e) m) := rfl

theorem upserts_append (before after : List ι) (m : Finmap fun _ : κ => β) :
    upserts key act (before ++ after) m = upserts key act after (upserts key act before m) :=
  List.foldl_append

theorem upserts_perm (hcomm : ∀ e e' x, act e (some (act e' x)) = act e' (some (act e x)))
    {entries entries' : List ι} (h : entries.Perm entries') (m : Finmap fun _ : κ => β) :
    upserts key act entries m = upserts key act entries' m :=
  h.foldl_eq' (fun e _ e' _ m => upsert_comm (hcomm e' e) (key e') (key e) m) m

/-- Under a key the updates of that key are made, in their order. -/
theorem lookup_upserts (entries : List ι) (m : Finmap fun _ : κ => β) (k : κ) :
    (upserts key act entries m).lookup k =
      (entries.filter (key · = k)).foldl (fun x e => some (act e x)) (m.lookup k) := by
  induction entries generalizing m with
  | nil => rfl
  | cons e entries ih =>
      rw [upserts_cons, ih, lookup_upsert, List.filter_cons]
      by_cases h : key e = k
      · subst h
        rw [if_pos rfl, if_pos (decide_eq_true rfl), List.foldl_cons]
      · rw [if_neg (Ne.symm h), if_neg (by simpa using h)]

/-- What `count` reads under a key, zero when the map has none. -/
def countAt (count : β → ℕ) (m : Finmap fun _ : κ => β) (k : κ) : ℕ :=
  ((m.lookup k).map count).getD 0

theorem countAt_of_lookup {count : β → ℕ} {m : Finmap fun _ : κ => β} {k : κ} {b : β}
    (h : m.lookup k = some b) : countAt count m k = count b := by
  rw [countAt, h]
  rfl

theorem countAt_upserts [BEq κ] [LawfulBEq κ] {count : β → ℕ}
    (hcount : ∀ e x, count (act e x) = (x.map count).getD 0 + 1) (entries : List ι)
    (m : Finmap fun _ : κ => β) (k : κ) :
    countAt count (upserts key act entries m) k
      = countAt count m k + (entries.map key).count k := by
  induction entries generalizing m with
  | nil => simp
  | cons e entries ih =>
      have hone : countAt count (upsert (key e) (act e) m) k
          = countAt count m k + if key e = k then 1 else 0 := by
        rw [countAt, lookup_upsert]
        by_cases h : k = key e
        · subst h
          rw [if_pos rfl, if_pos rfl, Option.map_some, Option.getD_some, hcount]
          rfl
        · rw [if_neg h, if_neg (Ne.symm h)]
          rfl
      rw [upserts_cons, ih, hone, List.map_cons, List.count_cons, Nat.add_assoc,
        Nat.add_comm (List.count _ _)]
      simp only [beq_iff_eq]

/-- The keys are those there were and those of the entries. -/
theorem lookup_upserts_eq_none {entries : List ι} {m : Finmap fun _ : κ => β} {k : κ} :
    (upserts key act entries m).lookup k = none
      ↔ m.lookup k = none ∧ k ∉ entries.map key := by
  induction entries generalizing m with
  | nil => simp
  | cons e entries ih =>
      rw [upserts_cons, ih, lookup_upsert, List.map_cons, List.mem_cons, not_or]
      by_cases h : k = key e
      · simp [h]
      · simp [h]

end Upsert

/-!
## The best evidence by key

A list filled by pieces of evidence, each an item with a mode. A key has one
row, of the item that came first, and the row keeps the mode of the highest
rank (`Best.foldl`). Which mode that is does not depend on the order
(`mode_iff`).
-/

namespace BestOf

variable {α κ ν : Type*} [DecidableEq κ] (key : α → κ) (rank : ν → Nat)

/-- A further piece of evidence. -/
def upsert : List (α × ν) → α × ν → List (α × ν)
  | [], e => [e]
  | row :: rows, e =>
      if key row.1 = key e.1 then
        (if rank row.2 < rank e.2 then (row.1, e.2) else row) :: rows
      else row :: upsert rows e

/-- The rows of a list of evidence: one for each key, its item and its mode
seen, no mode of a higher rank. -/
structure Best (events rows : List (α × ν)) : Prop where
  nodup : (rows.map (key ·.1)).Nodup
  item : ∀ row ∈ rows, row.1 ∈ events.map Prod.fst
  seen : ∀ row ∈ rows, ∃ e ∈ events, key e.1 = key row.1 ∧ e.2 = row.2
  highest : ∀ row ∈ rows, ∀ e ∈ events, key e.1 = key row.1 → rank e.2 ≤ rank row.2
  covers : ∀ e ∈ events, ∃ row ∈ rows, key row.1 = key e.1

variable {key rank}

theorem keys_upsert (rows : List (α × ν)) (e : α × ν) :
    (upsert key rank rows e).map (key ·.1) =
      if key e.1 ∈ rows.map (key ·.1) then rows.map (key ·.1)
      else rows.map (key ·.1) ++ [key e.1] := by
  induction rows with
  | nil => simp [upsert]
  | cons row rows ih =>
      rw [upsert]
      by_cases h : key row.1 = key e.1
      · have hmem : key e.1 ∈ key row.1 :: rows.map (key ·.1) := h ▸ List.mem_cons_self
        rw [if_pos h, List.map_cons, List.map_cons, if_pos hmem]
        split <;> rfl
      · rw [if_neg h, List.map_cons, ih, List.map_cons]
        simp only [List.mem_cons, Ne.symm h, false_or]
        split <;> simp

/-- A row after an upsert is an old one under another key, the new one, or an
old one under the key with the better of the two modes. -/
theorem mem_upsert {rows : List (α × ν)} {e row : α × ν} (hnodup : (rows.map (key ·.1)).Nodup)
    (h : row ∈ upsert key rank rows e) :
    row ∈ rows ∧ key row.1 ≠ key e.1 ∨
      row = e ∧ key e.1 ∉ rows.map (key ·.1) ∨
      ∃ old ∈ rows, key old.1 = key e.1 ∧ row.1 = old.1 ∧
        (rank old.2 < rank e.2 ∧ row.2 = e.2 ∨ rank e.2 ≤ rank old.2 ∧ row.2 = old.2) := by
  induction rows with
  | nil => exact .inr (.inl ⟨List.mem_singleton.mp h, List.not_mem_nil⟩)
  | cons first rows ih =>
      rw [List.map_cons, List.nodup_cons] at hnodup
      rw [upsert] at h
      by_cases hkey : key first.1 = key e.1
      · rw [if_pos hkey] at h
        obtain rfl | hin := List.mem_cons.mp h
        · refine .inr (.inr ⟨first, List.mem_cons_self, hkey, ?_⟩)
          split
          next hlt => exact ⟨rfl, .inl ⟨hlt, rfl⟩⟩
          next hle => exact ⟨rfl, .inr ⟨Nat.le_of_not_lt hle, rfl⟩⟩
        · refine .inl ⟨List.mem_cons_of_mem _ hin, fun heq => hnodup.1 ?_⟩
          rw [hkey, ← heq]
          exact List.mem_map_of_mem hin
      · rw [if_neg hkey] at h
        obtain rfl | hin := List.mem_cons.mp h
        · exact .inl ⟨List.mem_cons_self, hkey⟩
        · obtain ⟨hold, hne⟩ | ⟨rfl, hnew⟩ | ⟨old, hold, hrest⟩ := ih hnodup.2 hin
          · exact .inl ⟨List.mem_cons_of_mem _ hold, hne⟩
          · refine .inr (.inl ⟨rfl, fun hkeys => ?_⟩)
            obtain heq | hkeys := List.mem_cons.mp hkeys
            · exact hkey heq.symm
            · exact hnew hkeys
          · exact .inr (.inr ⟨old, List.mem_cons_of_mem _ hold, hrest⟩)

omit [DecidableEq κ] in
theorem Best.nil : Best key rank [] ([] : List (α × ν)) :=
  ⟨List.nodup_nil, by simp, by simp, by simp, by simp⟩

theorem Best.upsert {events rows : List (α × ν)} (h : Best key rank events rows) (e : α × ν) :
    Best key rank (events ++ [e]) (BestOf.upsert key rank rows e) where
  nodup := by
    rw [keys_upsert]
    split
    next => exact h.nodup
    next hnew => exact List.nodup_append.mpr ⟨h.nodup, List.nodup_singleton _, by
      rintro a ha b hb rfl
      exact hnew (List.mem_singleton.mp hb ▸ ha)⟩
  item row hrow := by
    rw [List.map_append, List.mem_append]
    obtain ⟨hold, -⟩ | ⟨rfl, -⟩ | ⟨old, hold, -, hitem, -⟩ := mem_upsert h.nodup hrow
    · exact .inl (h.item row hold)
    · exact .inr List.mem_cons_self
    · exact .inl (hitem ▸ h.item old hold)
  seen row hrow := by
    obtain ⟨hold, -⟩ | ⟨rfl, -⟩ | ⟨old, hold, hkey, hitem, ⟨-, hmode⟩ | ⟨-, hmode⟩⟩ :=
      mem_upsert h.nodup hrow
    · obtain ⟨e', he', heq⟩ := h.seen row hold
      exact ⟨e', List.mem_append_left _ he', heq⟩
    · exact ⟨row, List.mem_append_right _ List.mem_cons_self, rfl, rfl⟩
    · exact ⟨e, List.mem_append_right _ List.mem_cons_self, by rw [hitem, hkey], hmode.symm⟩
    · obtain ⟨e', he', heq, hmode'⟩ := h.seen old hold
      exact ⟨e', List.mem_append_left _ he', by rw [hitem, heq], by rw [hmode, hmode']⟩
  highest row hrow e' he' hkey' := by
    obtain ⟨hold, hne⟩ | ⟨rfl, hnew⟩ | ⟨old, hold, hkey, hitem, hmode⟩ := mem_upsert h.nodup hrow
    · obtain he' | he' := List.mem_append.mp he'
      · exact h.highest row hold e' he' hkey'
      · exact absurd (List.mem_singleton.mp he' ▸ hkey').symm hne
    · obtain he' | he' := List.mem_append.mp he'
      · obtain ⟨first, hfirst, hfirstKey⟩ := h.covers e' he'
        refine absurd ?_ hnew
        rw [← hkey', ← hfirstKey]
        exact List.mem_map_of_mem (f := (key ·.1)) hfirst
      · exact (congrArg (fun x => rank x.2) (List.mem_singleton.mp he')).le
    · obtain he' | he' := List.mem_append.mp he'
      · have hle := h.highest old hold e' he' (by rw [hkey', hitem])
        obtain ⟨hlt, hmode⟩ | ⟨-, hmode⟩ := hmode
        · rw [hmode]
          exact le_trans hle hlt.le
        · rw [hmode]
          exact hle
      · rw [List.mem_singleton.mp he']
        obtain ⟨-, hmode⟩ | ⟨hle, hmode⟩ := hmode
        · exact (congrArg rank hmode).ge
        · rw [hmode]
          exact hle
  covers e' he' := by
    have hkeys : key e'.1 ∈ (BestOf.upsert key rank rows e).map (key ·.1) := by
      rw [keys_upsert]
      obtain he' | he' := List.mem_append.mp he'
      · obtain ⟨row, hrow, hkey⟩ := h.covers e' he'
        have hold : key e'.1 ∈ rows.map (key ·.1) :=
          hkey ▸ List.mem_map_of_mem (f := (key ·.1)) hrow
        split
        next => exact hold
        next => exact List.mem_append_left _ hold
      · rw [List.mem_singleton.mp he']
        split
        next hold => exact hold
        next => exact List.mem_append_right _ List.mem_cons_self
    obtain ⟨row, hrow, hkey⟩ := List.mem_map.mp hkeys
    exact ⟨row, hrow, hkey⟩

/-- The rows filled by evidence, one piece after the other. -/
theorem Best.foldl (events : List (α × ν)) :
    Best key rank events (events.foldl (BestOf.upsert key rank) []) := by
  induction events using List.reverseRecOn with
  | nil => exact Best.nil
  | append_singleton events e ih =>
      rw [List.foldl_append]
      exact ih.upsert e

namespace Best

variable {events rows : List (α × ν)} (h : Best key rank events rows)

include h

omit [DecidableEq κ] in
theorem mode_iff (hrank : Function.Injective rank) {k : κ} {mode : ν} :
    (∃ row ∈ rows, key row.1 = k ∧ row.2 = mode) ↔
      (∃ e ∈ events, key e.1 = k ∧ e.2 = mode) ∧
        ∀ e ∈ events, key e.1 = k → rank e.2 ≤ rank mode := by
  constructor
  · rintro ⟨row, hrow, rfl, rfl⟩
    exact ⟨h.seen row hrow, h.highest row hrow⟩
  · rintro ⟨⟨e, he, rfl, rfl⟩, hle⟩
    obtain ⟨row, hrow, hkey⟩ := h.covers e he
    obtain ⟨e', he', hkey', hmode'⟩ := h.seen row hrow
    refine ⟨row, hrow, hkey, hrank (le_antisymm ?_ (h.highest row hrow e he hkey.symm))⟩
    rw [← hmode']
    exact hle e' he' (hkey'.trans hkey)

end Best

end BestOf
