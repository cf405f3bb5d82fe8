import Mathlib.Data.List.Basic
import Mathlib.Tactic.Common

/-!
# Reading a list through an offset cursor

A server shows a list in pages. A call at an offset answers with a page, and
the page carries the offset of the next one while rows remain. `Serves` is what
one page owes the list; `follow_serves` is what a client gets that follows the
cursor from any offset: the rest of the list, once and in order.

What a page shows of its rows is a parameter, any `show'` that distributes over
concatenation, so a page may show less of a row than the list holds.
-/

namespace Cursor

variable {α β P : Type*}

/-- How a page is read: the entries it shows, the number of rows it covers, and
the offset it sends the client to. -/
structure View (P β : Type*) where
  shown : P → List β
  count : P → ℕ
  next : P → Option ℕ

namespace View

/-- The page at offset `o` covers a run of rows from `o` on, an empty run only
past the end, and sends the client to the end of that run while rows remain. -/
structure Serves (view : View P β) (rows : List α) (show' : List α → List β) (o : ℕ) (page : P) :
    Prop where
  shown_eq : view.shown page = show' ((rows.drop o).take (view.count page))
  within : o + view.count page ≤ rows.length
  moves : o < rows.length → 0 < view.count page
  next_eq : view.next page =
    if o + view.count page < rows.length then some (o + view.count page) else none

/-- The pages a client reads that calls at `o` and follows the cursor until a
page has none: `none` when a call fails or `calls` calls are not enough. -/
def follow (view : View P β) (call : ℕ → Option P) : ℕ → ℕ → Option (List P)
  | 0, _ => none
  | calls + 1, o => do
      let page ← call o
      match view.next page with
      | none => some [page]
      | some next => (view.follow call calls next).map (page :: ·)

variable {view : View P β} {call : ℕ → Option P} {rows : List α} {show' : List α → List β}

theorem follow_last {calls o : ℕ} {page : P} (hcall : call o = some page)
    (hnext : view.next page = none) : view.follow call (calls + 1) o = some [page] := by
  simp only [follow, hcall, Option.bind_eq_bind, Option.bind_some, hnext]

theorem follow_more {calls o next : ℕ} {page : P} {pages : List P} (hcall : call o = some page)
    (hnext : view.next page = some next) (hrest : view.follow call calls next = some pages) :
    view.follow call (calls + 1) o = some (page :: pages) := by
  simp only [follow, hcall, Option.bind_eq_bind, Option.bind_some, hnext, hrest, Option.map_some]

/-- A page without a next offset shows everything from `o` on. -/
theorem Serves.shown_of_last {o : ℕ} {page : P} (h : view.Serves rows show' o page)
    (hnext : view.next page = none) : view.shown page = show' (rows.drop o) := by
  have hend : ¬ o + view.count page < rows.length := by
    intro hlt
    rw [h.next_eq, if_pos hlt] at hnext
    cases hnext
  rw [h.shown_eq, List.take_of_length_le]
  rw [List.length_drop]
  omega

/-- A page with a next offset stands where its run ends, strictly further on. -/
theorem Serves.next_of_more {o next : ℕ} {page : P} (h : view.Serves rows show' o page)
    (hnext : view.next page = some next) :
    next = o + view.count page ∧ o < next ∧ next ≤ rows.length := by
  rw [h.next_eq] at hnext
  split at hnext
  · next hlt =>
    obtain rfl := Option.some.inj hnext
    have := h.moves (by omega)
    exact ⟨rfl, by omega, h.within⟩
  · cases hnext

/-- Following the cursor from `o` ends, after at most one call for each row
left and one more, and shows the rows from `o` on, once and in order. The
induction is on the calls left: each page moves the cursor, so fewer rows are
left for the next call. -/
theorem follow_serves (hshow : ∀ xs ys, show' (xs ++ ys) = show' xs ++ show' ys)
    (hcall : ∀ o ≤ rows.length, ∃ page, call o = some page ∧ view.Serves rows show' o page) :
    ∀ calls o, o ≤ rows.length → rows.length - o < calls →
      ∃ pages, view.follow call calls o = some pages ∧
        pages.flatMap view.shown = show' (rows.drop o) ∧
        ∀ page ∈ pages, ∃ at' ≤ rows.length, call at' = some page := by
  intro calls
  induction calls with
  | zero => intro o _ h; exact absurd h (Nat.not_lt_zero _)
  | succ calls ih =>
      intro o ho hcalls
      obtain ⟨page, hpage, hserves⟩ := hcall o ho
      cases hnext : view.next page with
      | none =>
          refine ⟨[page], follow_last hpage hnext, ?_, ?_⟩
          · rw [List.flatMap_cons, List.flatMap_nil, List.append_nil]
            exact hserves.shown_of_last hnext
          · intro p hp
            obtain rfl := List.mem_singleton.mp hp
            exact ⟨o, ho, hpage⟩
      | some next =>
          obtain ⟨hend, hlt, hle⟩ := hserves.next_of_more hnext
          obtain ⟨pages, hpages, hshown, hmem⟩ := ih next hle (by omega)
          refine ⟨page :: pages, follow_more hpage hnext hpages, ?_, ?_⟩
          · calc (page :: pages).flatMap view.shown
                = view.shown page ++ pages.flatMap view.shown := List.flatMap_cons
              _ = show' ((rows.drop o).take (view.count page)) ++
                    show' ((rows.drop o).drop (view.count page)) := by
                  rw [hserves.shown_eq, hshown, List.drop_drop, hend]
              _ = show' (rows.drop o) := by rw [← hshow, List.take_append_drop]
          · intro p hp
            rcases List.mem_cons.mp hp with rfl | hp
            · exact ⟨o, ho, hpage⟩
            · exact hmem p hp

end View

end Cursor
