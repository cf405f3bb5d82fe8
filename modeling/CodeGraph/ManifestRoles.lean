import CodeGraph.ManifestDocs

/-!
# What the scan takes a line for

Which of the scan's fields a line goes to depends on the indents and the keys of the lines
before it, never on their values. `Control` is what the scan remembers of them, and `TakenAs`
says the same of the lines themselves: a `name` goes to the reference marker that is still
pending above it, and without one to the `metadata` block it stands in.
-/

namespace CodeGraph

open List

namespace ManifestScan

/-- What a value is of a manifest. -/
inductive Role
  | name
  | namespc
  | ref (kind : Text)
  deriving DecidableEq

/-- What the scan remembers of the lines so far. -/
structure Control where
  metadataIndent : Option ℕ := none
  refMarker : Option (ℕ × Text) := none

namespace Control

def close (indent : ℕ) (key : Text) (c : Control) : Control where
  refMarker := c.refMarker.filter fun marker =>
    !(indent ≤ marker.1 && key.map Char.toLower ≠ "name".toList)
  metadataIndent := c.metadataIndent.filter fun mi =>
    !(indent ≤ mi && key ≠ "metadata".toList)

/-- What a line inside the blocks still open is taken for. -/
def taken (indent : ℕ) (key : Text) (c : Control) : Option Role :=
  if key = "name".toList then
    match c.refMarker with
    | some (_, kind) => some (.ref kind)
    | none => if c.metadataIndent.any (· < indent) then some .name else none
  else if key = "namespace".toList then
    if c.metadataIndent.any (· < indent) then some .namespc else none
  else if key = "secretName".toList then some (.ref "Secret".toList)
  else if key = "serviceName".toList then some (.ref "Service".toList)
  else none

/-- What is remembered behind such a line. -/
def next (indent : ℕ) (key : Text) (c : Control) : Control :=
  if key = "metadata".toList ∧ indent = 0 then { c with metadataIndent := some indent }
  else if key = "name".toList then { c with refMarker := none }
  else
    match refKindOf key with
    | some kind => { c with refMarker := some (indent, kind) }
    | none => c

theorem taken_other {key : Text} (hname : key ≠ "name".toList) (hnamespc : key ≠ "namespace".toList)
    (hsecret : key ≠ "secretName".toList) (hservice : key ≠ "serviceName".toList) (indent : ℕ)
    (c : Control) : c.taken indent key = none := by
  rw [taken, if_neg hname, if_neg hnamespc, if_neg hsecret, if_neg hservice]

theorem next_other {key : Text} {indent : ℕ} (hmetadata : ¬ (key = "metadata".toList ∧ indent = 0))
    (hname : key ≠ "name".toList) (hmarker : refKindOf key = none) (c : Control) :
    c.next indent key = c := by
  rw [next, if_neg hmetadata, if_neg hname, hmarker]

end Control

/-- The references after a line taken for `role`. -/
def pushRole (role : Option Role) (value : Text) (refs : List ConfigRef) : List ConfigRef :=
  match role with
  | some (.ref kind) => pushRef ⟨kind, value⟩ refs
  | _ => refs

namespace DocumentState

def control (s : DocumentState) : Control := ⟨s.metadataIndent, s.refMarker⟩

/-- What one line does to the fields that identify the document. -/
structure Told (s : DocumentState) (role : Option Role) (value : Text) (s' : DocumentState) :
    Prop where
  name : s'.name = if role = some .name ∧ s.name = [] then value else s.name
  namespc : s'.namespc = if role = some .namespc ∧ s.namespc = [] then value else s.namespc
  refs : s'.configRefs = pushRole role value s.configRefs

theorem Told.none {value : Text} {s s' : DocumentState} (hname : s'.name = s.name)
    (hnamespc : s'.namespc = s.namespc) (hrefs : s'.configRefs = s.configRefs) :
    s.Told none value s' :=
  ⟨by simpa using hname, by simpa using hnamespc, hrefs⟩

theorem take_spec (s : DocumentState) (indent : ℕ) (key value : Text) :
    (s.take indent key value).control = s.control.next indent key ∧
      s.Told (s.control.taken indent key) (unquote value) (s.take indent key value) := by
  unfold take
  split_ifs with hapi hkind hmetadata hname hnamespc himage hsecret hservice
  · obtain ⟨rfl, -⟩ := hapi
    rw [Control.taken_other (by decide) (by decide) (by decide) (by decide),
      Control.next_other (fun h => absurd h.1 (by decide)) (by decide) rfl]
    exact ⟨rfl, .none rfl rfl rfl⟩
  · obtain ⟨rfl, -⟩ := hkind
    rw [Control.taken_other (by decide) (by decide) (by decide) (by decide),
      Control.next_other (fun h => absurd h.1 (by decide)) (by decide) rfl]
    exact ⟨rfl, .none rfl rfl rfl⟩
  · obtain ⟨rfl, rfl⟩ := hmetadata
    rw [Control.taken_other (by decide) (by decide) (by decide) (by decide)]
    exact ⟨rfl, .none rfl rfl rfl⟩
  · subst hname
    have hnext : s.control.next indent "name".toList = { s.control with refMarker := none } := by
      rw [Control.next, if_neg hmetadata, if_pos rfl]
    rw [Control.taken, if_pos rfl, hnext]
    obtain ⟨kind, api, name, namespc, images, refs, mi, marker⟩ := s
    rcases marker with _ | ⟨_, refKind⟩
    · rcases mi with _ | mi
      · exact ⟨rfl, .none rfl rfl rfl⟩
      · by_cases hin : mi < indent
        · by_cases hempty : name = [] <;>
            exact ⟨by simp [control, hin, hempty], by simp [control, hin, hempty],
              by simp [control, hin, hempty], by simp [control, hin, hempty, pushRole]⟩
        · exact ⟨by simp [control, hin], by simp [control, hin], by simp [control, hin],
            by simp [control, hin, pushRole]⟩
    · exact ⟨rfl, ⟨rfl, rfl, rfl⟩⟩
  · subst hnamespc
    rw [Control.taken, if_neg (by decide), if_pos rfl, Control.next_other hmetadata hname rfl]
    obtain ⟨kind, api, name, namespc, images, refs, mi, marker⟩ := s
    rcases mi with _ | mi
    · exact ⟨rfl, .none rfl rfl rfl⟩
    · by_cases hin : mi < indent
      · by_cases hempty : namespc = [] <;>
          exact ⟨by simp [control, hin, hempty], by simp [control, hin, hempty],
            by simp [control, hin, hempty], by simp [control, hin, hempty, pushRole]⟩
      · exact ⟨by simp [control, hin], by simp [control, hin], by simp [control, hin],
          by simp [control, hin, pushRole]⟩
  · subst himage
    rw [Control.taken_other (by decide) (by decide) (by decide) (by decide),
      Control.next_other (fun h => absurd h.1 (by decide)) (by decide) rfl]
    exact ⟨rfl, .none rfl rfl rfl⟩
  · subst hsecret
    rw [Control.next_other hmetadata (by decide) rfl]
    exact ⟨rfl, ⟨rfl, rfl, rfl⟩⟩
  · subst hservice
    rw [Control.next_other hmetadata (by decide) rfl]
    exact ⟨rfl, ⟨rfl, rfl, rfl⟩⟩
  · rw [Control.taken_other hname hnamespc hsecret hservice, Control.next, if_neg hmetadata,
      if_neg hname]
    cases refKindOf key with
    | none => exact ⟨rfl, .none rfl rfl rfl⟩
    | some kind => exact ⟨rfl, .none rfl rfl rfl⟩

end DocumentState

/-! ## Rows -/

/-- The indent and the key that the scan reads off the line of a row. -/
def headOf (row : Line) : Option (ℕ × Text) := (readLine (lineText row)).map fun r => (r.1, r.2.1)

def valueOf (row : Line) : Text := (row.scalar.map Scalar.value).getD []

namespace Control

def row (c : Control) (row : Line) : Control :=
  match headOf row with
  | some (indent, key) => (c.close indent key).next indent key
  | none => c

def takenRow (c : Control) (row : Line) : Option Role :=
  (headOf row).bind fun (indent, key) => (c.close indent key).taken indent key

end Control

theorem headOf_key {row : Line} {key : Key} (h : row.key = some key) :
    headOf row = some (row.indent, dashes (row.dashes - 1) ++ key.text) := by
  rw [headOf, readLine_key h, Option.map_some]

theorem Inert.ne {key : Text} (h : Inert key) {word : Text} (hword : ¬ Inert word) : key ≠ word :=
  fun heq => hword (heq ▸ h)

instance : DecidablePred Inert := fun _ => inferInstanceAs (Decidable (_ ∨ _))

theorem takenRow_item {row : Line} (h : row.key = none) (c : Control) : c.takenRow row = none := by
  rw [Control.takenRow, headOf]
  cases hread : readLine (lineText row) with
  | none => rfl
  | some r =>
      obtain ⟨indent, key, value⟩ := r
      have hinert : Inert key := inert_of_readLine_item h hread
      exact Control.taken_other (hinert.ne (by decide)) (hinert.ne (by decide))
        (hinert.ne (by decide)) (hinert.ne (by decide)) indent _

theorem line_spec (s : DocumentState) (row : Line) :
    (s.line (lineText row)).control = s.control.row row ∧
      s.Told (s.control.takenRow row) (valueOf row) (s.line (lineText row)) := by
  cases hread : readLine (lineText row) with
  | none =>
      have hhead : headOf row = none := by rw [headOf, hread, Option.map_none]
      rw [DocumentState.line, hread, Control.row, Control.takenRow, hhead]
      exact ⟨rfl, .none rfl rfl rfl⟩
  | some r =>
      obtain ⟨indent, key, value⟩ := r
      have hhead : headOf row = some (indent, key) := by rw [headOf, hread, Option.map_some]
      have hline : s.line (lineText row) = (s.close indent key).take indent key value := by
        rw [DocumentState.line, hread]
      have hcontrol : (s.close indent key).control = s.control.close indent key := rfl
      obtain ⟨hnext, htold⟩ := DocumentState.take_spec (s.close indent key) indent key value
      rw [hcontrol] at hnext htold
      have htaken : s.control.takenRow row = (s.control.close indent key).taken indent key := by
        rw [Control.takenRow, hhead, Option.bind_some]
      rw [hline, hnext, Control.row, hhead, htaken]
      refine ⟨rfl, ?_⟩
      cases hkey : row.key with
      | none =>
          rw [← htaken, takenRow_item hkey] at htold ⊢
          exact .none htold.name htold.namespc htold.refs
      | some k =>
          have hvalue : unquote value = valueOf row := by
            rw [readLine_key hkey] at hread
            cases hread
            exact unquote_scalarText row.scalar
          rw [← hvalue]
          exact ⟨htold.name, htold.namespc, htold.refs⟩

/-! ## A whole document -/

/-- What the scan is told by some rows: every value that is not empty, with what it is taken
for. -/
def toldBy : Control → List Line → List (Role × Text)
  | _, [] => []
  | c, row :: rows =>
      ((c.takenRow row).filter fun _ => valueOf row ≠ []).toList.map (·, valueOf row) ++
        toldBy (c.row row) rows

/-- The first value told of a role. -/
def fieldIn (role : Role) (told : List (Role × Text)) : Text :=
  ((told.find? (·.1 = role)).map Prod.snd).getD []

def refsIn (told : List (Role × Text)) (refs : List ConfigRef) : List ConfigRef :=
  told.foldl (fun refs e => pushRole (some e.1) e.2 refs) refs

theorem toldBy_append (c : Control) (above below : List Line) :
    toldBy c (above ++ below) = toldBy c above ++ toldBy (above.foldl Control.row c) below := by
  induction above generalizing c with
  | nil => rfl
  | cons row above ih =>
      rw [cons_append, toldBy, toldBy, ih, append_assoc, foldl_cons]

theorem fieldIn_cons (role r : Role) (value : Text) (told : List (Role × Text)) :
    fieldIn role ((r, value) :: told) = if r = role then value else fieldIn role told := by
  by_cases h : r = role <;> simp [fieldIn, h]

theorem pushRole_nil (role : Option Role) (refs : List ConfigRef) :
    pushRole role [] refs = refs := by
  unfold pushRole
  split
  · exact if_pos (.inl rfl)
  · rfl

theorem filter_of_empty {value : Text} (h : value = []) (role : Option Role) :
    role.filter (fun _ => value ≠ []) = none := by
  cases role with
  | none => rfl
  | some role => simp [h]

theorem foldl_line_spec (rows : List Line) (s : DocumentState) :
    let s' := (rows.map lineText).foldl DocumentState.line s
    let told := toldBy s.control rows
    s'.control = rows.foldl Control.row s.control ∧
      s'.name = (if s.name = [] then fieldIn .name told else s.name) ∧
      s'.namespc = (if s.namespc = [] then fieldIn .namespc told else s.namespc) ∧
      s'.configRefs = refsIn told s.configRefs := by
  induction rows generalizing s with
  | nil => simp [toldBy, fieldIn, refsIn]
  | cons row rows ih =>
      obtain ⟨hcontrol, htold⟩ := line_spec s row
      obtain ⟨ihcontrol, ihname, ihnamespc, ihrefs⟩ := ih (s.line (lineText row))
      simp only [map_cons, foldl_cons]
      rw [ihcontrol, ihname, ihnamespc, ihrefs, hcontrol, htold.name, htold.namespc, htold.refs,
        toldBy]
      refine ⟨rfl, ?_⟩
      by_cases hvalue : valueOf row = []
      · have hkept (role : Role) (text : Text) :
            (if s.control.takenRow row = some role ∧ text = [] then [] else text) = text := by
          split_ifs with h
          · exact h.2.symm
          · rfl
        rw [filter_of_empty hvalue, hvalue, pushRole_nil, hkept, hkept]
        exact ⟨rfl, rfl, rfl⟩
      · cases htaken : s.control.takenRow row with
        | none => simp [pushRole]
        | some role =>
            have hsome : (some role).filter (fun _ => valueOf row ≠ []) = some role := by
              simp [hvalue]
            rw [hsome]
            simp only [Option.toList_some, map_cons, map_nil, singleton_append,
              fieldIn_cons, refsIn, foldl_cons, Option.some.injEq]
            cases role <;> by_cases hname : s.name = [] <;> by_cases hns : s.namespc = [] <;>
              simp [hvalue, hname, hns]

/-! ## The lines above a line -/

/-- `m` occurs in the list, and all behind it meet `q`. -/
def Since {α : Type} (m : α) (q : α → Prop) (l : List α) : Prop :=
  ∃ before between, l = before ++ m :: between ∧ ∀ y ∈ between, q y

theorem not_since_nil {α : Type} {m : α} {q : α → Prop} : ¬ Since m q [] :=
  fun ⟨_, _, h, _⟩ => append_ne_nil_of_right_ne_nil _ (cons_ne_nil _ _) h.symm

theorem since_concat {α : Type} {m x : α} {q : α → Prop} {l : List α} :
    Since m q (l ++ [x]) ↔ m = x ∨ Since m q l ∧ q x := by
  constructor
  · rintro ⟨before, between, heq, hq⟩
    rcases eq_nil_or_concat' between with rfl | ⟨between, y, rfl⟩
    · exact .inl (List.cons.inj (append_inj' heq rfl).2).1.symm
    · rw [← cons_append, ← append_assoc] at heq
      obtain ⟨rfl, hx⟩ := append_inj' heq rfl
      obtain rfl := (List.cons.inj hx).1
      exact .inr ⟨⟨before, between, rfl, fun z hz => hq z (mem_append_left _ hz)⟩,
        hq x (mem_append_right _ (mem_singleton_self x))⟩
  · rintro (rfl | ⟨⟨before, between, rfl, hq⟩, hx⟩)
    · exact ⟨l, [], rfl, fun _ h => absurd h not_mem_nil⟩
    · refine ⟨before, between ++ [x], by simp, fun y hy => ?_⟩
      rcases mem_append.mp hy with hy | hy
      · exact hq y hy
      · exact mem_singleton.mp hy ▸ hx

/-- The reference marker that a `name` below these lines would go to: the lines behind it are
inside its block, and none is a marker or a `name` itself. -/
def PendingAt (above : List (ℕ × Text)) (indent : ℕ) (kind : Text) : Prop :=
  ∃ marker, refKindOf marker = some kind ∧ Since (indent, marker) (fun line =>
    line.2 ≠ "name".toList ∧ refKindOf line.2 = none ∧
      (indent < line.1 ∨ line.2.map Char.toLower = "name".toList)) above

def Pending (above : List (ℕ × Text)) (kind : Text) : Prop := ∃ indent, PendingAt above indent kind

/-- These lines end inside a `metadata:` block that starts at the left margin. -/
def InMetadata (above : List (ℕ × Text)) : Prop :=
  Since (0, "metadata".toList) (fun line => 0 < line.1 ∨ line.2 = "metadata".toList) above

/-- What a line below these lines is taken for. -/
def TakenAs (above : List (ℕ × Text)) (indent : ℕ) (key : Text) : Role → Prop
  | .ref kind =>
      key = "name".toList ∧ Pending above kind ∨
        key = "secretName".toList ∧ kind = "Secret".toList ∨
          key = "serviceName".toList ∧ kind = "Service".toList
  | .name =>
      key = "name".toList ∧ (∀ kind, ¬ Pending above kind) ∧ InMetadata above ∧ 0 < indent
  | .namespc => key = "namespace".toList ∧ InMetadata above ∧ 0 < indent

def Control.head (c : Control) (line : ℕ × Text) : Control :=
  (c.close line.1 line.2).next line.1 line.2

theorem foldl_row (rows : List Line) (c : Control) :
    rows.foldl Control.row c = (rows.filterMap headOf).foldl Control.head c := by
  rw [foldl_filterMap]
  congr
  funext c row
  rw [Control.row]
  cases headOf row <;> rfl

/-- What the scan remembers of some lines. -/
structure Remembers (above : List (ℕ × Text)) (c : Control) : Prop where
  metadata : ∀ mi, c.metadataIndent = some mi ↔ mi = 0 ∧ InMetadata above
  marker : ∀ indent kind, c.refMarker = some (indent, kind) ↔ PendingAt above indent kind

theorem inMetadata_concat {above : List (ℕ × Text)} {indent : ℕ} {key : Text} :
    InMetadata (above ++ [(indent, key)]) ↔ (key = "metadata".toList ∧ indent = 0) ∨
      InMetadata above ∧ (0 < indent ∨ key = "metadata".toList) := by
  rw [InMetadata, since_concat, Prod.mk.injEq, and_comm (a := 0 = indent), eq_comm (a := 0),
    eq_comm (b := key)]
  rfl

theorem pendingAt_concat {above : List (ℕ × Text)} {indent i : ℕ} {key kind : Text} :
    PendingAt (above ++ [(i, key)]) indent kind ↔ (indent = i ∧ refKindOf key = some kind) ∨
      PendingAt above indent kind ∧ key ≠ "name".toList ∧ refKindOf key = none ∧
        (indent < i ∨ key.map Char.toLower = "name".toList) := by
  simp only [PendingAt, since_concat, Prod.mk.injEq]
  constructor
  · rintro ⟨marker, hmarker, ⟨rfl, rfl⟩ | ⟨hsince, hline⟩⟩
    · exact .inl ⟨rfl, hmarker⟩
    · exact .inr ⟨⟨marker, hmarker, hsince⟩, hline⟩
  · rintro (⟨rfl, hkey⟩ | ⟨⟨marker, hmarker, hsince⟩, hline⟩)
    · exact ⟨key, hkey, .inl ⟨rfl, rfl⟩⟩
    · exact ⟨marker, hmarker, .inr ⟨hsince, hline⟩⟩

theorem kept_iff {indent opened : ℕ} {key word : Text} :
    (!(decide (indent ≤ opened) && decide (key ≠ word))) = true ↔ opened < indent ∨ key = word := by
  rw [Bool.not_eq_true', Bool.and_eq_false_iff, decide_eq_false_iff_not, decide_eq_false_iff_not,
    not_le, not_not]

/-- The two blocks that are still open at a line. -/
theorem Remembers.close {above : List (ℕ × Text)} {c : Control} (h : Remembers above c)
    (indent : ℕ) (key : Text) :
    (∀ mi, (c.close indent key).metadataIndent = some mi ↔
      mi = 0 ∧ InMetadata above ∧ (0 < indent ∨ key = "metadata".toList)) ∧
    ∀ i kind, (c.close indent key).refMarker = some (i, kind) ↔
      PendingAt above i kind ∧ (i < indent ∨ key.map Char.toLower = "name".toList) := by
  refine ⟨fun mi => ?_, fun i kind => ?_⟩
  · rw [Control.close, Option.filter_eq_some_iff, h.metadata, kept_iff]
    constructor
    · rintro ⟨⟨rfl, hin⟩, hopen⟩
      exact ⟨rfl, hin, hopen⟩
    · rintro ⟨rfl, hin, hopen⟩
      exact ⟨⟨rfl, hin⟩, hopen⟩
  · rw [Control.close, Option.filter_eq_some_iff, h.marker, kept_iff]

theorem refKindOf_metadata : refKindOf "metadata".toList = none := rfl

theorem refKindOf_name : refKindOf "name".toList = none := rfl

theorem Remembers.head {above : List (ℕ × Text)} {c : Control} (h : Remembers above c)
    (line : ℕ × Text) : Remembers (above ++ [line]) (c.head line) := by
  obtain ⟨i, key⟩ := line
  obtain ⟨hmeta, hmarker⟩ := h.close i key
  rw [Control.head, Control.next]
  dsimp only
  by_cases hstart : key = "metadata".toList ∧ i = 0
  · rw [if_pos hstart]
    refine ⟨fun mi => ?_, fun indent kind => ?_⟩
    · rw [inMetadata_concat, Option.some.injEq, hstart.2]
      exact ⟨fun hmi => ⟨hmi.symm, .inl ⟨hstart.1, rfl⟩⟩, fun hmi => hmi.1.symm⟩
    · rw [hmarker, pendingAt_concat, hstart.1, hstart.2, refKindOf_metadata]
      refine iff_of_false ?_ ?_
      · rintro ⟨-, hlt | hlower⟩
        · exact absurd hlt (Nat.not_lt_zero indent)
        · exact absurd hlower (by decide)
      · rintro (⟨-, hnone⟩ | ⟨-, -, -, hlt | hlower⟩)
        · cases hnone
        · exact absurd hlt (Nat.not_lt_zero indent)
        · exact absurd hlower (by decide)
  · rw [if_neg hstart]
    have hmetadata (mi : ℕ) : (c.close i key).metadataIndent = some mi ↔
        mi = 0 ∧ InMetadata (above ++ [(i, key)]) := by
      rw [hmeta, inMetadata_concat, or_iff_right hstart]
    by_cases hname : key = "name".toList
    · rw [if_pos hname]
      refine ⟨hmetadata, fun indent kind => ?_⟩
      rw [pendingAt_concat, hname, refKindOf_name]
      refine iff_of_false nofun ?_
      rintro (⟨-, hnone⟩ | ⟨-, hne, -⟩)
      · cases hnone
      · exact hne rfl
    · rw [if_neg hname]
      cases hkind : refKindOf key with
      | none =>
          refine ⟨hmetadata, fun indent kind => ?_⟩
          rw [hmarker, pendingAt_concat, hkind]
          refine ⟨fun h => .inr ⟨h.1, hname, rfl, h.2⟩, ?_⟩
          rintro (⟨-, hnone⟩ | ⟨hpending, -, -, hline⟩)
          · cases hnone
          · exact ⟨hpending, hline⟩
      | some kind' =>
          refine ⟨hmetadata, fun indent kind => ?_⟩
          rw [pendingAt_concat, hkind, Option.some.injEq, Prod.mk.injEq, Option.some.injEq]
          refine ⟨fun h => .inl ⟨h.1.symm, h.2⟩, ?_⟩
          rintro (⟨rfl, rfl⟩ | ⟨-, -, hnone, -⟩)
          · exact ⟨rfl, rfl⟩
          · cases hnone

theorem remembers (above : List (ℕ × Text)) : Remembers above (above.foldl Control.head {}) := by
  induction above using List.reverseRecOn with
  | nil =>
      refine ⟨fun mi => ?_, fun indent kind => ?_⟩
      · exact iff_of_false nofun fun h => not_since_nil h.2
      · exact iff_of_false nofun fun ⟨_, _, h⟩ => not_since_nil h
  | append_singleton above line ih =>
      rw [foldl_append]
      exact ih.head line

theorem any_metadata (above : List (ℕ × Text)) (indent : ℕ) (key : Text) :
    ((above.foldl Control.head {}).close indent key).metadataIndent.any (· < indent) = true ↔
      InMetadata above ∧ 0 < indent := by
  rw [Option.any_eq_true]
  constructor
  · rintro ⟨mi, hmi, hlt⟩
    obtain ⟨rfl, hin, -⟩ := (((remembers above).close indent key).1 mi).mp hmi
    exact ⟨hin, of_decide_eq_true hlt⟩
  · rintro ⟨hin, hlt⟩
    exact ⟨0, (((remembers above).close indent key).1 0).mpr ⟨rfl, hin, .inl hlt⟩,
      decide_eq_true hlt⟩

/-- The scan takes a line for what the lines above it make of it. -/
theorem taken_iff (above : List (ℕ × Text)) (indent : ℕ) (key : Text) (role : Role) :
    ((above.foldl Control.head {}).close indent key).taken indent key = some role ↔
      TakenAs above indent key role := by
  have hpending (i : ℕ) (kind : Text) :
      ((above.foldl Control.head {}).close indent "name".toList).refMarker = some (i, kind) ↔
        PendingAt above i kind :=
    (((remembers above).close indent _).2 i kind).trans (and_iff_left (.inr (by decide)))
  have hblock (r : Role) :
      (if ((above.foldl Control.head {}).close indent key).metadataIndent.any (· < indent) then
        some r else none) = some role ↔ r = role ∧ InMetadata above ∧ 0 < indent := by
    rw [← any_metadata above indent key]
    split_ifs with hany <;> simp [hany]
  by_cases hname : key = "name".toList
  · subst hname
    rw [Control.taken, if_pos rfl]
    cases hmarker : ((above.foldl Control.head {}).close indent "name".toList).refMarker with
    | some marker =>
        obtain ⟨i, kind⟩ := marker
        have hat : PendingAt above i kind := (hpending i kind).mp hmarker
        dsimp only
        cases role with
        | name => exact iff_of_false nofun fun h => h.2.1 kind ⟨i, hat⟩
        | namespc => exact iff_of_false nofun fun h => absurd h.1 (by decide)
        | ref kind' =>
            constructor
            · rintro ⟨⟩
              exact .inl ⟨rfl, i, hat⟩
            · rintro (⟨-, j, hat'⟩ | ⟨hkey, -⟩ | ⟨hkey, -⟩)
              · rw [(hpending j kind').mpr hat'] at hmarker
                cases hmarker
                rfl
              · exact absurd hkey (by decide)
              · exact absurd hkey (by decide)
    | none =>
        have hno (kind : Text) : ¬ Pending above kind := by
          rintro ⟨i, hat⟩
          rw [(hpending i kind).mpr hat] at hmarker
          cases hmarker
        dsimp only
        rw [hblock]
        cases role with
        | name => exact ⟨fun h => ⟨rfl, hno, h.2⟩, fun h => ⟨rfl, h.2.2⟩⟩
        | namespc => exact iff_of_false nofun fun h => absurd h.1 (by decide)
        | ref kind =>
            refine iff_of_false nofun ?_
            rintro (⟨-, hpend⟩ | ⟨hkey, -⟩ | ⟨hkey, -⟩)
            · exact hno kind hpend
            · exact absurd hkey (by decide)
            · exact absurd hkey (by decide)
  · rw [Control.taken, if_neg hname]
    by_cases hnamespc : key = "namespace".toList
    · rw [if_pos hnamespc, hblock]
      cases role with
      | name => exact iff_of_false nofun fun h => hname h.1
      | namespc => exact ⟨fun h => ⟨hnamespc, h.2⟩, fun h => ⟨rfl, h.2⟩⟩
      | ref kind =>
          refine iff_of_false nofun ?_
          rw [hnamespc]
          rintro (⟨hkey, -⟩ | ⟨hkey, -⟩ | ⟨hkey, -⟩) <;> exact absurd hkey (by decide)
    · rw [if_neg hnamespc]
      have href : TakenAs above indent key role ↔
          (key = "secretName".toList ∧ role = .ref "Secret".toList) ∨
            (key = "serviceName".toList ∧ role = .ref "Service".toList) := by
        cases role with
        | name => exact iff_of_false (fun h => hname h.1) (by simp)
        | namespc => exact iff_of_false (fun h => hnamespc h.1) (by simp)
        | ref kind =>
            rw [TakenAs, or_iff_right (fun h => hname h.1), Role.ref.injEq, Role.ref.injEq]
      rw [href]
      by_cases hsecret : key = "secretName".toList
      · have hservice : key ≠ "serviceName".toList := by rw [hsecret]; decide
        rw [if_pos hsecret, Option.some.injEq, or_iff_left fun h => hservice h.1,
          and_iff_right hsecret, eq_comm]
      · rw [if_neg hsecret, or_iff_right fun h => hsecret h.1]
        by_cases hservice : key = "serviceName".toList
        · rw [if_pos hservice, Option.some.injEq, and_iff_right hservice, eq_comm]
        · rw [if_neg hservice]
          exact iff_of_false nofun fun h => hservice h.1

end ManifestScan

end CodeGraph
