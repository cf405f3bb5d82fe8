import Mathlib.Data.Char
import Mathlib.Data.String.Basic
import Mathlib.Algebra.BigOperators.Group.List.Basic
import Mathlib.Algebra.Group.Action.Defs
import Mathlib.Tactic.Ring

/-!
# JSON values and the size of their compact text

`compact` prints a value without blanks, and `size` is the number of bytes of
that text in UTF-8. The size of a list is that of its elements, the commas and
the brackets (`size_array`); every field of an object costs its name, two quotes,
a colon and a comma (`size_object`), in whatever order the fields are printed
(`size_ordered`).
-/

inductive Json where
  | null
  | bool (b : Bool)
  | num (i : ℤ)
  | str (s : List Char)
  | array (elems : List Json)
  | object (fields : List (String × Json))

namespace Json

open List

def nat (n : ℕ) : Json := .num n

def lit (s : String) : Json := .str s.toList

/-- The value under a name. -/
def get : Json → String → Option Json
  | .object fields, key => fields.lookup key
  | _, _ => none

/-! ## Text -/

/-- A character of a string: a quote, a backslash and a control character are
escaped, every other one stands for itself. -/
def escapeChar (c : Char) : List Char :=
  if c = '"' then ['\\', '"']
  else if c = '\\' then ['\\', '\\']
  else if c.toNat = 8 then ['\\', 'b']
  else if c.toNat = 9 then ['\\', 't']
  else if c.toNat = 10 then ['\\', 'n']
  else if c.toNat = 12 then ['\\', 'f']
  else if c.toNat = 13 then ['\\', 'r']
  else if c.toNat < 32 then
    ['\\', 'u', '0', '0', Nat.digitChar (c.toNat / 16), Nat.digitChar (c.toNat % 16)]
  else [c]

def quoted (s : List Char) : List Char := '"' :: s.flatMap escapeChar ++ ['"']

def digits : ℤ → List Char
  | .ofNat n => Nat.toDigits 10 n
  | .negSucc n => '-' :: Nat.toDigits 10 (n + 1)

mutual

/-- The text of a value, without blanks. -/
def compact : Json → List Char
  | .null => "null".toList
  | .bool b => if b then "true".toList else "false".toList
  | .num i => digits i
  | .str s => quoted s
  | .array elems => '[' :: [','].intercalate (compactElems elems) ++ [']']
  | .object fields => '\x7b' :: [','].intercalate (compactFields fields) ++ ['\x7d']

def compactElems : List Json → List (List Char)
  | [] => []
  | v :: rest => compact v :: compactElems rest

def compactFields : List (String × Json) → List (List Char)
  | [] => []
  | (k, v) :: rest => (quoted k.toList ++ ':' :: compact v) :: compactFields rest

end

theorem compactElems_eq : ∀ elems : List Json, compactElems elems = elems.map compact
  | [] => rfl
  | v :: rest => by rw [compactElems, compactElems_eq rest, map_cons]

theorem compactFields_eq : ∀ fields : List (String × Json),
    compactFields fields = fields.map fun (k, v) => quoted k.toList ++ ':' :: compact v
  | [] => rfl
  | (k, v) :: rest => by rw [compactFields, compactFields_eq rest, map_cons]

/-! ## Bytes -/

/-- The bytes of a text in UTF-8. -/
def byteLen (s : List Char) : ℕ := (s.map Char.utf8Size).sum

@[simp] theorem byteLen_nil : byteLen [] = 0 := rfl

@[simp] theorem byteLen_cons (c : Char) (s : List Char) :
    byteLen (c :: s) = c.utf8Size + byteLen s := rfl

@[simp] theorem byteLen_append (s t : List Char) : byteLen (s ++ t) = byteLen s + byteLen t := by
  rw [byteLen, map_append, sum_append]
  rfl

theorem byteLen_flatMap {α : Type*} (f : α → List Char) : ∀ l : List α,
    byteLen (l.flatMap f) = (l.map fun a => byteLen (f a)).sum
  | [] => rfl
  | a :: l => by
      rw [flatMap_cons, byteLen_append, byteLen_flatMap f l, map_cons, sum_cons]

theorem byteLen_intercalate (sep : List Char) : ∀ ts : List (List Char),
    byteLen (sep.intercalate ts) = (ts.map byteLen).sum + byteLen sep * (ts.length - 1)
  | [] => rfl
  | [t] => by simp
  | t :: u :: ts => by
      have ih := byteLen_intercalate sep (u :: ts)
      have hcons : sep.intercalate (t :: u :: ts) = t ++ sep ++ sep.intercalate (u :: ts) := by
        simp
      have hsum : ((t :: u :: ts).map byteLen).sum =
          byteLen t + ((u :: ts).map byteLen).sum := rfl
      rw [hcons, byteLen_append, byteLen_append, ih, hsum]
      simp only [length_cons, Nat.add_sub_cancel]
      ring

/-- The bytes of a string between its quotes. -/
def escapedSize (s : List Char) : ℕ := (s.map fun c => byteLen (escapeChar c)).sum

@[simp] theorem escapedSize_nil : escapedSize [] = 0 := rfl

theorem escapedSize_cons (c : Char) (s : List Char) :
    escapedSize (c :: s) = byteLen (escapeChar c) + escapedSize s := rfl

@[simp] theorem escapedSize_append (s t : List Char) :
    escapedSize (s ++ t) = escapedSize s + escapedSize t := by
  rw [escapedSize, map_append, sum_append]
  rfl

theorem escapedSize_replicate (n : ℕ) (c : Char) :
    escapedSize (List.replicate n c) = n * byteLen (escapeChar c) := by
  rw [escapedSize, map_replicate, sum_replicate, smul_eq_mul]

/-- The bytes of a string with its quotes. -/
def strSize (s : List Char) : ℕ := escapedSize s + 2

theorem byteLen_quoted (s : List Char) : byteLen (quoted s) = strSize s := by
  have hquote : Char.utf8Size '"' = 1 := rfl
  rw [quoted, byteLen_append, byteLen_cons, byteLen_flatMap, byteLen_cons, byteLen_nil, hquote,
    strSize, escapedSize]
  omega

/-- The bytes of a count. -/
def numSize (n : ℕ) : ℕ := (Nat.toDigits 10 n).length

theorem byteLen_eq_length {s : List Char} (h : ∀ c ∈ s, c.utf8Size = 1) :
    byteLen s = s.length := by
  rw [byteLen, map_congr_left h, map_const', sum_replicate, smul_eq_mul, mul_one]

theorem byteLen_toDigits (n : ℕ) : byteLen (Nat.toDigits 10 n) = numSize n := by
  refine byteLen_eq_length fun c hc => ?_
  have hdigit : c.isDigit = true := Nat.isDigit_of_mem_toDigits (by decide) (by decide) hc
  simp only [Char.isDigit, Bool.and_eq_true, decide_eq_true_eq] at hdigit
  exact Char.utf8Size_eq_one_iff.mpr (UInt32.le_trans hdigit.2 (by decide))

/-! ## Sizes -/

/-- The bytes of the compact text. -/
def size (v : Json) : ℕ := byteLen (compact v)

/-- The bytes of a bracketed list whose parts have the given sizes. -/
def bracketed (sizes : List ℕ) : ℕ := sizes.sum + (sizes.length - 1) + 2

/-- The bytes of a field whose value has the given size, the comma counted. -/
def fieldSize (key : String) (valueSize : ℕ) : ℕ := strSize key.toList + 1 + valueSize + 1

theorem sum_le_bracketed (sizes : List ℕ) : sizes.sum ≤ bracketed sizes :=
  Nat.le_trans (Nat.le_add_right _ _) (Nat.le_add_right _ _)

theorem le_fieldSize (key : String) (valueSize : ℕ) : valueSize ≤ fieldSize key valueSize :=
  Nat.le_succ_of_le (Nat.le_add_left _ _)

/-- The bytes of the fields of the given names and sizes. -/
def fieldsSize (fields : List (String × ℕ)) : ℕ := (fields.map fun (k, n) => fieldSize k n).sum

@[simp] theorem fieldsSize_nil : fieldsSize [] = 0 := rfl

@[simp] theorem fieldsSize_cons (k : String) (n : ℕ) (fields : List (String × ℕ)) :
    fieldsSize ((k, n) :: fields) = fieldSize k n + fieldsSize fields := by
  rw [fieldsSize, map_cons, sum_cons, fieldsSize]

@[simp] theorem fieldsSize_append (fields fields' : List (String × ℕ)) :
    fieldsSize (fields ++ fields') = fieldsSize fields + fieldsSize fields' := by
  rw [fieldsSize, map_append, sum_append]
  rfl

def boolSize (b : Bool) : ℕ := if b then 4 else 5

@[simp] theorem size_bool (b : Bool) : size (.bool b) = boolSize b := by
  cases b <;> rfl

@[simp] theorem size_nat (n : ℕ) : size (.nat n) = numSize n := byteLen_toDigits n

@[simp] theorem size_str (s : List Char) : size (.str s) = strSize s := byteLen_quoted s

/-- The bytes of a literal text with its quotes. -/
def litSize (s : String) : ℕ := strSize s.toList

@[simp] theorem size_lit (s : String) : size (.lit s) = litSize s := byteLen_quoted s.toList

@[simp] theorem size_array (elems : List Json) :
    size (.array elems) = bracketed (elems.map size) := by
  have hopen : Char.utf8Size '[' = 1 := rfl
  have hclose : Char.utf8Size ']' = 1 := rfl
  have hcomma : Char.utf8Size ',' = 1 := rfl
  have hparts : (List.map compact elems).map byteLen = elems.map size := map_map
  rw [size, compact, byteLen_append, byteLen_cons, byteLen_intercalate, compactElems_eq, hparts,
    byteLen_cons, byteLen_cons, byteLen_nil, hopen, hclose, hcomma, length_map, bracketed,
    length_map]
  omega

/-- The names of some fields with the sizes of their values. -/
def sized (fields : List (String × Json)) : List (String × ℕ) :=
  fields.map fun (k, v) => (k, size v)

@[simp] theorem sized_nil : sized [] = [] := rfl

@[simp] theorem sized_cons (k : String) (v : Json) (fields : List (String × Json)) :
    sized ((k, v) :: fields) = (k, size v) :: sized fields := by
  rw [sized, map_cons, sized]

@[simp] theorem sized_append (fields fields' : List (String × Json)) :
    sized (fields ++ fields') = sized fields ++ sized fields' := map_append

/-- Every field of an object costs its name, its value and four bytes around them,
where the object has a field at all. -/
theorem size_object {fields : List (String × Json)} (h : fields ≠ []) :
    size (.object fields) = fieldsSize (sized fields) + 1 := by
  have hopen : Char.utf8Size '\x7b' = 1 := rfl
  have hclose : Char.utf8Size '\x7d' = 1 := rfl
  have hcomma : Char.utf8Size ',' = 1 := rfl
  have hcolon : Char.utf8Size ':' = 1 := rfl
  have hlen : 0 < fields.length := length_pos_iff.mpr h
  have hparts : (List.map (fun (k, v) => quoted k.toList ++ ':' :: compact v) fields).map byteLen =
      fields.map fun (k, v) => strSize k.toList + 1 + size v := by
    rw [map_map]
    refine map_congr_left fun (k, v) _ => ?_
    show byteLen (quoted k.toList ++ ':' :: compact v) = _
    rw [byteLen_append, byteLen_cons, byteLen_quoted, hcolon, ← Nat.add_assoc]
    rfl
  have hcommas : ∀ l : List (String × Json), fieldsSize (sized l) =
      (l.map fun (k, v) => strSize k.toList + 1 + size v).sum + l.length := by
    intro l
    induction l with
    | nil => rfl
    | cons field l ih =>
        rw [sized_cons, fieldsSize_cons, ih, map_cons, sum_cons, length_cons]
        simp only [fieldSize]
        omega
  rw [size, compact, byteLen_append, byteLen_cons, byteLen_intercalate, compactFields_eq, hparts,
    byteLen_cons, byteLen_cons, byteLen_nil, hopen, hclose, hcomma, length_map, hcommas]
  omega

/-- An object whose fields are printed in the order of their names. -/
def ordered (fields : List (String × Json)) : Json :=
  .object (fields.mergeSort fun a b => decide (a.1 ≤ b.1))

@[simp] theorem map_size_str (texts : List (List Char)) :
    (texts.map Json.str).map size = texts.map strSize := by
  rw [map_map]
  exact map_congr_left fun s _ => size_str s

theorem size_ordered {fields : List (String × Json)} (h : fields ≠ []) :
    size (ordered fields) = fieldsSize (sized fields) + 1 := by
  have hperm := mergeSort_perm fields fun a b => decide (a.1 ≤ b.1)
  rw [ordered, size_object fun hnil => h (perm_nil.mp (hnil ▸ hperm.symm))]
  congr 1
  exact ((hperm.map _).map _).sum_eq

end Json
