import Mathlib.Data.List.Nodup

/-!
# Block trees

Nested mappings and sequences, and the rows they are written in: one for each key and one for
each scalar of a sequence, deeper rows indented further. A row knows the path it stands at, and
no two rows of a tree whose mappings repeat no key stand at the same one (`Entries.nodup_paths`).
-/

namespace BlockTree

open List

variable {κ α β : Type}

/-- One step down a tree: to the value of a key, or to an item of a sequence. -/
inductive Step (κ : Type)
  | key (k : κ)
  | item (n : ℕ)
  deriving DecidableEq

mutual

inductive Block (κ α : Type)
  | scalar (a : α)
  | mapping (entries : Entries κ α)
  | sequence (items : Items κ α)

/-- The keys of a mapping with their values, in the order they are written. -/
inductive Entries (κ α : Type)
  | nil
  | cons (key : κ) (value : Block κ α) (rest : Entries κ α)

inductive Items (κ α : Type)
  | nil
  | cons (item : Block κ α) (rest : Items κ α)

end

def Block.scalar? : Block κ α → Option α
  | .scalar a => some a
  | _ => none

def Entries.keys : Entries κ α → List κ
  | .nil => []
  | .cons key _ rest => key :: rest.keys

def Entries.lookup [DecidableEq κ] (k : κ) : Entries κ α → Option (Block κ α)
  | .nil => none
  | .cons key value rest => if key = k then some value else rest.lookup k

def Items.get? : Items κ α → ℕ → Option (Block κ α)
  | .nil, _ => none
  | .cons item _, 0 => some item
  | .cons _ rest, n + 1 => rest.get? n

/-- The value a path leads to. -/
def Block.at? [DecidableEq κ] : Block κ α → List (Step κ) → Option (Block κ α)
  | block, [] => some block
  | .mapping entries, .key k :: path => (entries.lookup k).bind fun value => value.at? path
  | .sequence items, .item n :: path => (items.get? n).bind fun item => item.at? path
  | _, _ => none

/-! ## Distinct keys -/

mutual

/-- No mapping repeats a key. -/
def Block.Distinct : Block κ α → Prop
  | .scalar _ => True
  | .mapping entries => entries.Distinct
  | .sequence items => items.Distinct

def Entries.Distinct : Entries κ α → Prop
  | .nil => True
  | .cons key value rest => key ∉ rest.keys ∧ value.Distinct ∧ rest.Distinct

def Items.Distinct : Items κ α → Prop
  | .nil => True
  | .cons item rest => item.Distinct ∧ rest.Distinct

end

/-! ## Rows -/

/-- How far the values of a key are indented: a mapping by `step`, a sequence by
`sequenceStep`. -/
structure Layout where
  step : ℕ
  sequenceStep : ℕ
  pos : 0 < step

/-- One line: its indent, the dashes of the sequences it opens an item of, the path it stands
at, its key unless it is a scalar item, and its scalar if it has one. -/
structure Row (κ α : Type) where
  indent : ℕ
  dashes : ℕ
  path : List (Step κ)
  key : Option κ
  scalar : Option α

/-- The row in the tree that `step` leads into. -/
def Row.under (step : Step κ) (row : Row κ α) : Row κ α := { row with path := step :: row.path }

section Rows

variable (lay : Layout)

mutual

/-- The rows below a key that stands at `column`. -/
def Block.rowsBelow (column : ℕ) : Block κ α → List (Row κ α)
  | .scalar _ => []
  | .mapping entries => entries.rows (column + lay.step) 0
  | .sequence items => items.rows (column + lay.sequenceStep) 0 0

/-- The rows of an item whose first line has `dashes` dashes. -/
def Block.rows (indent dashes : ℕ) : Block κ α → List (Row κ α)
  | .scalar a => [⟨indent, dashes, [], none, some a⟩]
  | .mapping entries => entries.rows indent dashes
  | .sequence items => items.rows indent dashes 0

/-- A dash and the space behind it take two columns. -/
def Entries.rows (indent dashes : ℕ) : Entries κ α → List (Row κ α)
  | .nil => []
  | .cons key value rest =>
      ⟨indent, dashes, [.key key], some key, value.scalar?⟩ ::
        ((value.rowsBelow (indent + 2 * dashes)).map (Row.under (.key key)) ++
          rest.rows (indent + 2 * dashes) 0)

/-- The rows of the items from the `n`-th on. -/
def Items.rows (indent dashes n : ℕ) : Items κ α → List (Row κ α)
  | .nil => []
  | .cons item rest =>
      (item.rows indent (dashes + 1)).map (Row.under (.item n)) ++
        rest.rows (indent + 2 * dashes) 0 (n + 1)

end

variable {lay}

/-! ## Where a row stands -/

theorem Entries.path_of_mem : ∀ {entries : Entries κ α} {indent dashes : ℕ} {row : Row κ α},
    row ∈ entries.rows lay indent dashes → ∃ k ∈ entries.keys, ∃ path, row.path = .key k :: path
  | .nil, _, _, _, h => by
      rw [Entries.rows] at h
      cases h
  | .cons key value rest, indent, dashes, row, h => by
      rw [Entries.rows, mem_cons, mem_append] at h
      rcases h with rfl | hbelow | hrest
      · exact ⟨key, mem_cons_self, [], rfl⟩
      · obtain ⟨below, -, rfl⟩ := mem_map.mp hbelow
        exact ⟨key, mem_cons_self, below.path, rfl⟩
      · obtain ⟨k, hk, path, hpath⟩ := Entries.path_of_mem hrest
        exact ⟨k, mem_cons_of_mem key hk, path, hpath⟩

theorem Items.path_of_mem : ∀ {items : Items κ α} {indent dashes n : ℕ} {row : Row κ α},
    row ∈ items.rows lay indent dashes n → ∃ m ≥ n, ∃ path, row.path = .item m :: path
  | .nil, _, _, _, _, h => by
      rw [Items.rows] at h
      cases h
  | .cons item rest, indent, dashes, n, row, h => by
      rw [Items.rows, mem_append] at h
      rcases h with hitem | hrest
      · obtain ⟨below, -, rfl⟩ := mem_map.mp hitem
        exact ⟨n, Nat.le_refl n, below.path, rfl⟩
      · obtain ⟨m, hm, path, hpath⟩ := Items.path_of_mem hrest
        exact ⟨m, Nat.le_of_succ_le hm, path, hpath⟩

variable {row : Row κ α}

theorem path_ne_nil_of_mem_rowsBelow {value : Block κ α} {column : ℕ}
    (h : row ∈ value.rowsBelow lay column) : row.path ≠ [] := by
  cases value with
  | scalar a => rw [Block.rowsBelow] at h; cases h
  | mapping entries =>
      rw [Block.rowsBelow] at h
      obtain ⟨k, -, path, hpath⟩ := Entries.path_of_mem h
      exact hpath ▸ cons_ne_nil _ path
  | sequence items =>
      rw [Block.rowsBelow] at h
      obtain ⟨m, -, path, hpath⟩ := Items.path_of_mem h
      exact hpath ▸ cons_ne_nil _ path

theorem map_path_under (step : Step κ) (rows : List (Row κ α)) :
    (rows.map (Row.under step)).map Row.path = (rows.map Row.path).map (step :: ·) := by
  rw [map_map, map_map]
  rfl

variable {rows : List (Row κ α)}

theorem nodup_under {step : Step κ} (h : (rows.map Row.path).Nodup) :
    ((rows.map (Row.under step)).map Row.path).Nodup := by
  rw [map_path_under]
  exact h.map fun _ _ heq => (List.cons.inj heq).2

mutual

theorem Block.nodup_paths_below : ∀ {value : Block κ α} {column : ℕ}, value.Distinct →
    ((value.rowsBelow lay column).map Row.path).Nodup
  | .scalar _, _, _ => by rw [Block.rowsBelow]; exact nodup_nil
  | .mapping entries, _, h => by
      rw [Block.rowsBelow]
      exact Entries.nodup_paths h
  | .sequence items, _, h => by
      rw [Block.rowsBelow]
      exact Items.nodup_paths h

theorem Block.nodup_paths : ∀ {block : Block κ α} {indent dashes : ℕ}, block.Distinct →
    ((block.rows lay indent dashes).map Row.path).Nodup
  | .scalar _, _, _, _ => by rw [Block.rows]; exact nodup_singleton _
  | .mapping entries, _, _, h => by
      rw [Block.rows]
      exact Entries.nodup_paths h
  | .sequence items, _, _, h => by
      rw [Block.rows]
      exact Items.nodup_paths h

/-- Where no mapping repeats a key, no two rows stand at one path. -/
theorem Entries.nodup_paths : ∀ {entries : Entries κ α} {indent dashes : ℕ}, entries.Distinct →
    ((entries.rows lay indent dashes).map Row.path).Nodup
  | .nil, _, _, _ => by rw [Entries.rows]; exact nodup_nil
  | .cons key value rest, indent, dashes, ⟨hkey, hvalue, hrest⟩ => by
      rw [Entries.rows, map_cons, map_append, nodup_cons, nodup_append]
      have hapart : ∀ row ∈ rest.rows lay (indent + 2 * dashes) 0, ∀ path,
          row.path ≠ .key key :: path := by
        intro row hrow path heq
        obtain ⟨k, hk, path', hpath⟩ := Entries.path_of_mem hrow
        cases hpath.symm.trans heq
        exact hkey hk
      refine ⟨?_, nodup_under (Block.nodup_paths_below hvalue), Entries.nodup_paths hrest, ?_⟩
      · intro h
        rcases mem_append.mp h with hbelow | hin
        · rw [map_path_under] at hbelow
          obtain ⟨path, hpath, heq⟩ := mem_map.mp hbelow
          obtain ⟨row, hrow, rfl⟩ := mem_map.mp hpath
          exact path_ne_nil_of_mem_rowsBelow hrow (List.cons.inj heq).2
        · obtain ⟨row, hrow, heq⟩ := mem_map.mp hin
          exact hapart row hrow [] heq
      · intro path hbelow path' hin heq
        rw [map_path_under] at hbelow
        obtain ⟨path, -, rfl⟩ := mem_map.mp hbelow
        obtain ⟨row, hrow, rfl⟩ := mem_map.mp hin
        exact hapart row hrow path heq.symm

theorem Items.nodup_paths : ∀ {items : Items κ α} {indent dashes n : ℕ}, items.Distinct →
    ((items.rows lay indent dashes n).map Row.path).Nodup
  | .nil, _, _, _, _ => by rw [Items.rows]; exact nodup_nil
  | .cons item rest, indent, dashes, n, ⟨hitem, hrest⟩ => by
      rw [Items.rows, map_append, nodup_append]
      refine ⟨nodup_under (Block.nodup_paths hitem), Items.nodup_paths hrest, ?_⟩
      intro path hin path' hrow heq
      rw [map_path_under] at hin
      obtain ⟨path, -, rfl⟩ := mem_map.mp hin
      obtain ⟨row, hmem, rfl⟩ := mem_map.mp hrow
      obtain ⟨m, hm, path'', hpath⟩ := Items.path_of_mem hmem
      cases heq.trans hpath
      exact absurd hm (Nat.not_succ_le_self n)

end

/-- The row of a key stands at a path that ends in it, that of an item at none that ends in a
key. -/
def Row.Ends (row : Row κ α) : Prop :=
  match row.key with
  | some k => row.path.getLast? = some (.key k)
  | none => ∀ k, row.path.getLast? ≠ some (.key k)

theorem Row.Ends.under (h : row.Ends) (hne : row.path ≠ []) (step : Step κ) :
    (row.under step).Ends := by
  obtain ⟨head, path, hpath⟩ := exists_cons_of_ne_nil hne
  unfold Row.Ends at *
  simpa only [Row.under, hpath, getLast?_cons_cons] using h

theorem Row.Ends.under_item (h : row.Ends) (n : ℕ) : (row.under (.item n)).Ends := by
  by_cases hne : row.path = []
  · unfold Row.Ends at *
    rw [hne] at h
    cases hkey : row.key with
    | some k => simp [hkey] at h
    | none => simp [Row.under, hkey, hne]
  · exact h.under hne (.item n)

mutual

theorem Block.ends_below : ∀ {value : Block κ α} {column : ℕ}, ∀ row ∈ value.rowsBelow lay column,
    row.Ends
  | .scalar _, _, row, h => by rw [Block.rowsBelow] at h; cases h
  | .mapping entries, _, row, h => by
      rw [Block.rowsBelow] at h
      exact Entries.ends row h
  | .sequence items, _, row, h => by
      rw [Block.rowsBelow] at h
      exact Items.ends row h

theorem Block.ends : ∀ {block : Block κ α} {indent dashes : ℕ},
    ∀ row ∈ block.rows lay indent dashes, row.Ends
  | .scalar _, _, _, row, h => by
      rw [Block.rows] at h
      cases mem_singleton.mp h
      exact fun k hk => by cases hk
  | .mapping entries, _, _, row, h => by
      rw [Block.rows] at h
      exact Entries.ends row h
  | .sequence items, _, _, row, h => by
      rw [Block.rows] at h
      exact Items.ends row h

theorem Entries.ends : ∀ {entries : Entries κ α} {indent dashes : ℕ},
    ∀ row ∈ entries.rows lay indent dashes, row.Ends
  | .nil, _, _, row, h => by rw [Entries.rows] at h; cases h
  | .cons key value rest, _, _, row, h => by
      rw [Entries.rows, mem_cons, mem_append] at h
      rcases h with rfl | hbelow | hrest
      · exact rfl
      · obtain ⟨below, hmem, rfl⟩ := mem_map.mp hbelow
        exact (Block.ends_below below hmem).under (path_ne_nil_of_mem_rowsBelow hmem) _
      · exact Entries.ends row hrest

theorem Items.ends : ∀ {items : Items κ α} {indent dashes n : ℕ},
    ∀ row ∈ items.rows lay indent dashes n, row.Ends
  | .nil, _, _, _, row, h => by rw [Items.rows] at h; cases h
  | .cons item rest, _, _, n, row, h => by
      rw [Items.rows, mem_append] at h
      rcases h with hitem | hrest
      · obtain ⟨below, hmem, rfl⟩ := mem_map.mp hitem
        exact (Block.ends below hmem).under_item n
      · exact Items.ends row hrest

end

mutual

theorem Block.dashed_below : ∀ {value : Block κ α} {column : ℕ},
    ∀ row ∈ value.rowsBelow lay column, row.key = none → 0 < row.dashes
  | .scalar _, _, row, h => by rw [Block.rowsBelow] at h; cases h
  | .mapping entries, _, row, h => by
      rw [Block.rowsBelow] at h
      exact Entries.dashed row h
  | .sequence items, _, row, h => by
      rw [Block.rowsBelow] at h
      exact Items.dashed row h

theorem Block.dashed : ∀ {block : Block κ α} {indent dashes : ℕ}, 0 < dashes →
    ∀ row ∈ block.rows lay indent dashes, row.key = none → 0 < row.dashes
  | .scalar _, _, _, hpos, row, h => by
      rw [Block.rows] at h
      cases mem_singleton.mp h
      exact fun _ => hpos
  | .mapping entries, _, _, _, row, h => by
      rw [Block.rows] at h
      exact Entries.dashed row h
  | .sequence items, _, _, _, row, h => by
      rw [Block.rows] at h
      exact Items.dashed row h

theorem Entries.dashed : ∀ {entries : Entries κ α} {indent dashes : ℕ},
    ∀ row ∈ entries.rows lay indent dashes, row.key = none → 0 < row.dashes
  | .nil, _, _, row, h => by rw [Entries.rows] at h; cases h
  | .cons key value rest, _, _, row, h => by
      rw [Entries.rows, mem_cons, mem_append] at h
      rcases h with rfl | hbelow | hrest
      · exact nofun
      · obtain ⟨below, hmem, rfl⟩ := mem_map.mp hbelow
        exact Block.dashed_below below hmem
      · exact Entries.dashed row hrest

theorem Items.dashed : ∀ {items : Items κ α} {indent dashes n : ℕ},
    ∀ row ∈ items.rows lay indent dashes n, row.key = none → 0 < row.dashes
  | .nil, _, _, _, row, h => by rw [Items.rows] at h; cases h
  | .cons item rest, _, dashes, n, row, h => by
      rw [Items.rows, mem_append] at h
      rcases h with hitem | hrest
      · obtain ⟨below, hmem, rfl⟩ := mem_map.mp hitem
        exact Block.dashed (Nat.succ_pos dashes) below hmem
      · exact Items.dashed row hrest

end

/-- The keys of a mapping that is no item stand in one column, without dashes. -/
theorem Entries.row_of_key : ∀ {entries : Entries κ α} {indent : ℕ} {row : Row κ α} {k : κ},
    row ∈ entries.rows lay indent 0 → row.path = [.key k] →
      row.indent = indent ∧ row.dashes = 0 ∧ row.key = some k
  | .nil, _, row, _, h, _ => by rw [Entries.rows] at h; cases h
  | .cons key value rest, indent, row, k, h, hpath => by
      rw [Entries.rows, mem_cons, mem_append] at h
      rcases h with rfl | hbelow | hrest
      · cases hpath
        exact ⟨rfl, rfl, rfl⟩
      · obtain ⟨below, hmem, rfl⟩ := mem_map.mp hbelow
        exact absurd (List.cons.inj hpath).2 (path_ne_nil_of_mem_rowsBelow hmem)
      · exact Entries.row_of_key hrest hpath

/-! ## The scalars of a tree -/

mutual

/-- Every scalar of a tree with the path to it, in the order they are written. -/
def Block.scalars : Block κ α → List (List (Step κ) × α)
  | .scalar a => [([], a)]
  | .mapping entries => entries.scalars
  | .sequence items => items.scalars 0

def Entries.scalars : Entries κ α → List (List (Step κ) × α)
  | .nil => []
  | .cons key value rest =>
      value.scalars.map (fun e => (.key key :: e.1, e.2)) ++ rest.scalars

def Items.scalars (n : ℕ) : Items κ α → List (List (Step κ) × α)
  | .nil => []
  | .cons item rest =>
      item.scalars.map (fun e => (.item n :: e.1, e.2)) ++ rest.scalars (n + 1)

end

def Row.held (row : Row κ α) : Option (List (Step κ) × α) := row.scalar.map (row.path, ·)

theorem filterMap_held_under (step : Step κ) (rows : List (Row κ α)) :
    (rows.map (Row.under step)).filterMap Row.held
      = (rows.filterMap Row.held).map fun e => (step :: e.1, e.2) := by
  rw [filterMap_map, map_filterMap]
  refine filterMap_congr fun row _ => ?_
  simp only [Function.comp_apply, Row.held, Row.under, Option.map_map]
  rfl

mutual

theorem Block.held_below : ∀ (value : Block κ α) (column : ℕ),
    value.scalar?.toList.map (([], ·)) ++ (value.rowsBelow lay column).filterMap Row.held
      = value.scalars
  | .scalar _, _ => by
      rw [Block.rowsBelow, Block.scalars]
      rfl
  | .mapping entries, _ => by
      rw [Block.rowsBelow, Block.scalars, Entries.held]
      rfl
  | .sequence items, _ => by
      rw [Block.rowsBelow, Block.scalars, Items.held]
      rfl

theorem Block.held : ∀ (block : Block κ α) (indent dashes : ℕ),
    (block.rows lay indent dashes).filterMap Row.held = block.scalars
  | .scalar _, _, _ => by
      rw [Block.rows, Block.scalars]
      rfl
  | .mapping entries, _, _ => by rw [Block.rows, Block.scalars, Entries.held]
  | .sequence items, _, _ => by rw [Block.rows, Block.scalars, Items.held]

/-- The rows hold the scalars of the tree. -/
theorem Entries.held : ∀ (entries : Entries κ α) (indent dashes : ℕ),
    (entries.rows lay indent dashes).filterMap Row.held = entries.scalars
  | .nil, _, _ => by rw [Entries.rows, Entries.scalars, filterMap_nil]
  | .cons key value rest, indent, dashes => by
      rw [Entries.rows, Entries.scalars, ← Block.held_below value (indent + 2 * dashes),
        ← Entries.held rest (indent + 2 * dashes) 0, ← singleton_append,
        filterMap_append, filterMap_append, filterMap_held_under, map_append,
        append_assoc]
      congr 1
      cases value <;> rfl

theorem Items.held : ∀ (items : Items κ α) (indent dashes n : ℕ),
    (items.rows lay indent dashes n).filterMap Row.held = items.scalars n
  | .nil, _, _, _ => by rw [Items.rows, Items.scalars, filterMap_nil]
  | .cons item rest, indent, dashes, n => by
      rw [Items.rows, Items.scalars, ← Block.held item indent (dashes + 1),
        ← Items.held rest (indent + 2 * dashes) 0 (n + 1), filterMap_append,
        filterMap_held_under]

end

/-! ## What a path leads to -/

/-- One of the rows stands at `path` and has the scalar `a`. -/
def Holds (rows : List (Row κ α)) (path : List (Step κ)) (a : α) : Prop :=
  ∃ row ∈ rows, row.path = path ∧ row.scalar = some a

variable {path : List (Step κ)} {a : α}

theorem not_holds_nil : ¬ Holds [] path a :=
  fun ⟨_, hrow, _⟩ => not_mem_nil hrow

theorem holds_singleton : Holds [row] path a ↔ row.path = path ∧ row.scalar = some a := by
  simp only [Holds, mem_singleton, exists_eq_left]

theorem holds_append {rows' : List (Row κ α)} :
    Holds (rows ++ rows') path a ↔ Holds rows path a ∨ Holds rows' path a := by
  simp only [Holds, mem_append, or_and_right, exists_or]

theorem holds_under {step : Step κ} :
    Holds (rows.map (Row.under step)) path a ↔ ∃ rest, path = step :: rest ∧ Holds rows rest a := by
  constructor
  · rintro ⟨_, hmem, rfl, ha⟩
    obtain ⟨row, hrow, rfl⟩ := mem_map.mp hmem
    exact ⟨row.path, rfl, row, hrow, rfl, ha⟩
  · rintro ⟨_, rfl, row, hrow, rfl, ha⟩
    exact ⟨_, mem_map_of_mem hrow, rfl, ha⟩

theorem scalar?_eq_some {value : Block κ α} : value.scalar? = some a ↔ value = .scalar a := by
  cases value with
  | scalar b => simp [Block.scalar?]
  | mapping entries => simp [Block.scalar?]
  | sequence items => simp [Block.scalar?]

section At

variable [DecidableEq κ]

theorem Entries.lookup_eq_none : ∀ {entries : Entries κ α} {k : κ}, k ∉ entries.keys →
    entries.lookup k = none
  | .nil, _, _ => rfl
  | .cons key value rest, k, h => by
      rw [Entries.keys, mem_cons, not_or] at h
      rw [Entries.lookup, if_neg (Ne.symm h.1), Entries.lookup_eq_none h.2]

theorem mapping_at_ne_nil {entries : Entries κ α}
    (h : (Block.mapping entries).at? path = some (.scalar a)) : path ≠ [] := by
  rintro rfl
  cases h

theorem sequence_at {items : Items κ α} :
    (Block.sequence items).at? path = some (.scalar a) ↔ ∃ m rest, path = .item (0 + m) :: rest ∧
      (items.get? m).bind (fun item => item.at? rest) = some (.scalar a) := by
  simp only [Nat.zero_add]
  constructor
  · intro h
    match path, h with
    | .item m :: rest, h => exact ⟨m, rest, rfl, h⟩
  · rintro ⟨m, rest, rfl, h⟩
    exact h

mutual

theorem Block.holds_below : ∀ {value : Block κ α} {column : ℕ} {path : List (Step κ)} {a : α},
    value.Distinct → (Holds (value.rowsBelow lay column) path a ↔
      path ≠ [] ∧ value.at? path = some (.scalar a))
  | .scalar b, column, path, a, _ => by
      rw [Block.rowsBelow]
      refine iff_of_false not_holds_nil ?_
      rintro ⟨hne, h⟩
      match path, h with
      | [], _ => exact hne rfl
  | .mapping entries, _, path, a, h => by
      rw [Block.rowsBelow, Entries.holds h]
      exact (and_iff_right_of_imp mapping_at_ne_nil).symm
  | .sequence items, _, path, a, h => by
      rw [Block.rowsBelow, Items.holds h, ← sequence_at]
      refine (and_iff_right_of_imp ?_).symm
      rintro h rfl
      cases h

theorem Block.holds : ∀ {block : Block κ α} {indent dashes : ℕ} {path : List (Step κ)} {a : α},
    block.Distinct → (Holds (block.rows lay indent dashes) path a ↔
      block.at? path = some (.scalar a))
  | .scalar b, _, _, path, a, _ => by
      rw [Block.rows]
      constructor
      · rintro ⟨row, hrow, rfl, ha⟩
        cases mem_singleton.mp hrow
        cases ha
        rfl
      · intro h
        match path, h with
        | [], h =>
            cases h
            exact ⟨_, mem_singleton_self _, rfl, rfl⟩
  | .mapping entries, _, _, _, _, h => by
      rw [Block.rows]
      exact Entries.holds h
  | .sequence items, _, _, path, a, h => by
      rw [Block.rows, Items.holds h, sequence_at]

theorem Entries.holds : ∀ {entries : Entries κ α} {indent dashes : ℕ} {path : List (Step κ)}
    {a : α}, entries.Distinct → (Holds (entries.rows lay indent dashes) path a ↔
      (Block.mapping entries).at? path = some (.scalar a))
  | .nil, _, _, path, a, _ => by
      rw [Entries.rows]
      refine iff_of_false not_holds_nil fun h => ?_
      match path, h with
      | .key k :: path, h => cases h
  | .cons key value rest, indent, dashes, path, a, ⟨hkey, hvalue, hrest⟩ => by
      rw [Entries.rows, ← singleton_append, holds_append, holds_append, holds_under,
        Entries.holds hrest, holds_singleton]
      match path with
      | [] => simp [Block.at?]
      | .item n :: path => simp [Block.at?]
      | .key k :: path =>
          rw [Block.at?, Block.at?, Entries.lookup]
          by_cases hk : key = k
          · subst hk
            rw [Entries.lookup_eq_none hkey, if_pos rfl]
            simp only [List.cons.injEq, true_and, exists_eq_left', Block.holds_below hvalue,
              Option.bind_some, Option.bind_none, reduceCtorEq, or_false, nil_eq]
            cases path with
            | nil => simp [Block.at?, scalar?_eq_some]
            | cons step path => simp
          · rw [if_neg hk]
            simp [hk, Ne.symm hk]

theorem Items.holds : ∀ {items : Items κ α} {indent dashes n : ℕ} {path : List (Step κ)} {a : α},
    items.Distinct → (Holds (items.rows lay indent dashes n) path a ↔
      ∃ m rest, path = .item (n + m) :: rest ∧
        (items.get? m).bind (fun item => item.at? rest) = some (.scalar a))
  | .nil, _, _, _, path, a, _ => by
      rw [Items.rows]
      refine iff_of_false not_holds_nil ?_
      rintro ⟨m, rest, -, h⟩
      cases h
  | .cons item rest, indent, dashes, n, path, a, ⟨hitem, hrest⟩ => by
      rw [Items.rows, holds_append, holds_under, Items.holds hrest]
      constructor
      · rintro (⟨path, rfl, h⟩ | ⟨m, path, rfl, h⟩)
        · exact ⟨0, path, rfl, (Block.holds hitem).mp h⟩
        · exact ⟨m + 1, path, by rw [Nat.add_right_comm]; rfl, h⟩
      · rintro ⟨m, path, rfl, h⟩
        cases m with
        | zero => exact .inl ⟨path, rfl, (Block.holds hitem).mpr h⟩
        | succ m => exact .inr ⟨m, path, by rw [Nat.add_right_comm]; rfl, h⟩

end

end At

/-! ## Other scalars under the same keys -/

mutual

/-- The value of a key with other scalars: `f` gives one for the path of each. -/
def Block.refillBelow (f : List (Step κ) → α) : Block κ α → Block κ α
  | .scalar _ => .scalar (f [])
  | .mapping entries => .mapping (entries.refill f)
  | .sequence items => .sequence (items.refill f 0)

/-- A scalar item stays as it is. -/
def Block.refill (f : List (Step κ) → α) : Block κ α → Block κ α
  | .scalar a => .scalar a
  | .mapping entries => .mapping (entries.refill f)
  | .sequence items => .sequence (items.refill f 0)

def Entries.refill (f : List (Step κ) → α) : Entries κ α → Entries κ α
  | .nil => .nil
  | .cons key value rest =>
      .cons key (value.refillBelow fun path => f (.key key :: path)) (rest.refill f)

def Items.refill (f : List (Step κ) → α) (n : ℕ) : Items κ α → Items κ α
  | .nil => .nil
  | .cons item rest =>
      .cons (item.refill fun path => f (.item n :: path)) (rest.refill f (n + 1))

end

/-- What refilling does to a row: the scalar of a key is that of its path. -/
def Row.refill (f : List (Step κ) → α) (row : Row κ α) : Row κ α :=
  { row with scalar := if row.key.isSome then row.scalar.map fun _ => f row.path else row.scalar }

@[simp] theorem Row.refill_path (f : List (Step κ) → α) (row : Row κ α) :
    (row.refill f).path = row.path := rfl

theorem map_refill_under (f : List (Step κ) → α) (step : Step κ) (rows : List (Row κ α)) :
    (rows.map (Row.under step)).map (Row.refill f)
      = (rows.map (Row.refill fun path => f (step :: path))).map (Row.under step) := by
  rw [map_map, map_map]
  rfl

mutual

theorem Block.rowsBelow_refill : ∀ (f : List (Step κ) → α) (value : Block κ α) (column : ℕ),
    (value.refillBelow f).rowsBelow lay column = (value.rowsBelow lay column).map (Row.refill f)
  | _, .scalar _, _ => by
      rw [Block.refillBelow, Block.rowsBelow, Block.rowsBelow, map_nil]
  | f, .mapping entries, _ => by
      rw [Block.refillBelow, Block.rowsBelow, Block.rowsBelow, Entries.rows_refill f entries]
  | f, .sequence items, _ => by
      rw [Block.refillBelow, Block.rowsBelow, Block.rowsBelow, Items.rows_refill f items]

theorem Block.rows_refill : ∀ (f : List (Step κ) → α) (block : Block κ α) (indent dashes : ℕ),
    (block.refill f).rows lay indent dashes = (block.rows lay indent dashes).map (Row.refill f)
  | _, .scalar _, _, _ => by
      rw [Block.refill, Block.rows]
      rfl
  | f, .mapping entries, _, _ => by
      rw [Block.refill, Block.rows, Block.rows, Entries.rows_refill f entries]
  | f, .sequence items, _, _ => by
      rw [Block.refill, Block.rows, Block.rows, Items.rows_refill f items]

/-- Refilling changes the scalars of the rows and nothing else. -/
theorem Entries.rows_refill : ∀ (f : List (Step κ) → α) (entries : Entries κ α)
    (indent dashes : ℕ),
    (entries.refill f).rows lay indent dashes = (entries.rows lay indent dashes).map (Row.refill f)
  | _, .nil, _, _ => by rw [Entries.refill, Entries.rows, map_nil]
  | f, .cons key value rest, indent, dashes => by
      rw [Entries.refill, Entries.rows, Entries.rows, map_cons, map_append,
        map_refill_under, Block.rowsBelow_refill _ value, Entries.rows_refill f rest]
      congr 1
      cases value <;> rfl

theorem Items.rows_refill : ∀ (f : List (Step κ) → α) (items : Items κ α)
    (indent dashes n : ℕ),
    (items.refill f n).rows lay indent dashes n
      = (items.rows lay indent dashes n).map (Row.refill f)
  | _, .nil, _, _, _ => by rw [Items.refill, Items.rows, map_nil]
  | f, .cons item rest, indent, dashes, n => by
      rw [Items.refill, Items.rows, Items.rows, map_append, map_refill_under,
        Block.rows_refill _ item, Items.rows_refill f rest]

end

theorem Entries.keys_refill : ∀ (f : List (Step κ) → α) (entries : Entries κ α),
    (entries.refill f).keys = entries.keys
  | _, .nil => rfl
  | f, .cons key value rest => by
      rw [Entries.refill, Entries.keys, Entries.keys, Entries.keys_refill f rest]

mutual

theorem Block.Distinct.refillBelow : ∀ {f : List (Step κ) → α} {value : Block κ α},
    value.Distinct → (value.refillBelow f).Distinct
  | _, .scalar _, h => h
  | _, .mapping _, h => Entries.Distinct.refill h
  | _, .sequence _, h => Items.Distinct.refill h

theorem Block.Distinct.refill : ∀ {f : List (Step κ) → α} {block : Block κ α},
    block.Distinct → (block.refill f).Distinct
  | _, .scalar _, h => h
  | _, .mapping _, h => Entries.Distinct.refill h
  | _, .sequence _, h => Items.Distinct.refill h

theorem Entries.Distinct.refill : ∀ {f : List (Step κ) → α} {entries : Entries κ α},
    entries.Distinct → (entries.refill f).Distinct
  | _, .nil, h => h
  | f, .cons _ _ rest, ⟨hkey, hvalue, hrest⟩ =>
      ⟨(Entries.keys_refill f rest).symm ▸ hkey, hvalue.refillBelow, hrest.refill⟩

theorem Items.Distinct.refill : ∀ {f : List (Step κ) → α} {n : ℕ} {items : Items κ α},
    items.Distinct → (items.refill f n).Distinct
  | _, _, .nil, h => h
  | _, _, .cons _ _, ⟨hitem, hrest⟩ => ⟨hitem.refill, hrest.refill⟩

end

end Rows

end BlockTree
