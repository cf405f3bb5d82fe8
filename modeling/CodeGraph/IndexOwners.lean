import CodeGraph.FullIndex

/-!
# Owners of ids

Which file a key belongs to, and which directories the files of a tree lie in.
The path conventions of `IsFileId` make the test the purge asks of an id (does
it start with `<rel>::`?) a test for the owner.
-/

namespace CodeGraph

open List

theorem scope_eq : "::".toList = [':', ':'] := by decide

theorem inFile_eq (rel name : Text) : inFile rel name = rel ++ [':'] ++ [':'] ++ name := by
  rw [inFile, scope_eq]
  simp

theorem inFile_nil_isPrefix (rel name : Text) : inFile rel [] <+: inFile rel name := by
  rw [inFile, append_nil]
  exact prefix_append _ _

theorem scope_infix_inFile (rel name : Text) : "::".toList <:+: inFile rel name :=
  ⟨rel, name, rfl⟩

variable {rel u : Text}

theorem IsFileId.not_inFile_isPrefix (hu : IsFileId u) : ¬inFile rel [] <+: u :=
  fun h => hu.unscoped <|
    ((scope_infix_inFile rel []).trans h.isInfix).trans (prefix_append u [':']).isInfix

variable {name : Text}

theorem IsFileId.ne_inFile (hu : IsFileId u) : u ≠ inFile rel name :=
  fun h => hu.not_inFile_isPrefix (h ▸ inFile_nil_isPrefix rel name)

theorem IsFileId.scope_prefix_scope (hu : IsFileId u)
    (h : rel ++ [':'] ++ [':'] <+: u ++ [':'] ++ [':']) : rel = u := by
  rcases prefix_concat_iff.mp h with heq | hlt
  · exact append_cancel_right (append_cancel_right heq)
  · refine absurd (List.IsInfix.trans ⟨rel, [], ?_⟩ hlt.isInfix) hu.unscoped
    simp [scope_eq]

theorem inFile_prefix_iff (hrel : IsFileId rel) (hu : IsFileId u) :
    inFile rel [] <+: inFile u name ↔ rel = u := by
  constructor
  · intro h
    rw [inFile_eq, inFile_eq, append_nil] at h
    rcases prefix_or_prefix_of_prefix h (prefix_append _ name) with h | h
    · exact hu.scope_prefix_scope h
    · exact (hrel.scope_prefix_scope h).symm
  · rintro rfl
    exact inFile_nil_isPrefix rel name

theorem breakOn_scope (h : ¬"::".toList <:+: rel ++ [':']) :
    breakOn "::".toList (inFile rel name) = some (rel, name) := by
  rw [inFile, append_assoc]
  exact breakOn_append (by decide) h name

/-! ## Owners -/

/-- The labels whose ids are names in a file. -/
def Label.isScoped : Label → Bool
  | directory | file | fileContent => false
  | astNode | iacResource | iacModule | iacImage | symbol _ => true

inductive Owned (rel : Text) : Key → Prop
  | file : Owned rel (.file, rel)
  | content : Owned rel (.fileContent, rel)
  | named {label : Label} (name : Text) (h : label.isScoped) : Owned rel (label, inFile rel name)

/-- The ids a lookup for a name of the file can ask for. -/
def Near (rel : Text) (k : Key) : Prop :=
  k.1 ≠ .directory ∧ (k.2 = rel ∨ inFile rel [] <+: k.2)

theorem Owned.near {k : Key} (h : Owned rel k) : Near rel k := by
  cases h with
  | file => exact ⟨nofun, Or.inl rfl⟩
  | content => exact ⟨nofun, Or.inl rfl⟩
  | named name h =>
      refine ⟨?_, Or.inr (inFile_nil_isPrefix rel name)⟩
      rintro rfl
      cases h

theorem Near.unique {k : Key} (hrel : IsFileId rel) (hu : IsFileId u)
    (h : Near rel k) (h' : Near u k) : rel = u := by
  rcases h.2 with rfl | h <;> rcases h'.2 with rfl | h'
  · rfl
  · exact absurd h' hrel.not_inFile_isPrefix
  · exact absurd h hu.not_inFile_isPrefix
  · rw [inFile_eq, append_nil] at h h'
    rcases prefix_or_prefix_of_prefix h h' with h | h
    · exact hu.scope_prefix_scope h
    · exact (hrel.scope_prefix_scope h).symm

/-! ## Directories -/

/-- The directories on the way down `components`, from `current` on. -/
def dirsBelow : (current components : List Text) → List (List Text)
  | _, [] => []
  | current, component :: components =>
      (current ++ [component]) :: dirsBelow (current ++ [component]) components

/-- The directories a file lies in. -/
def ancestors (rel : Text) : List (List Text) := dirsBelow [] (splitOnChar '/' rel).dropLast

variable {dir : List Text}

theorem mem_dirsBelow {current components : List Text} : dir ∈ dirsBelow current components ↔
      current <+: dir ∧ current ≠ dir ∧ dir <+: current ++ components := by
  induction components generalizing current with
  | nil =>
      rw [dirsBelow, append_nil]
      refine iff_of_false not_mem_nil fun h => h.2.1 ?_
      exact h.1.eq_of_length_le h.2.2.length_le
  | cons component components ih =>
      rw [dirsBelow, mem_cons, ih, append_assoc, singleton_append]
      constructor
      · rintro (rfl | ⟨hpre, hne, hlast⟩)
        · refine ⟨prefix_append _ _, by simp, ?_⟩
          rw [prefix_append_right_inj]
          exact prefix_append [component] components
        · refine ⟨(prefix_append _ _).trans hpre, ?_, hlast⟩
          rintro rfl
          have := hpre.length_le
          rw [length_append, length_singleton] at this
          omega
      · rintro ⟨⟨rest, rfl⟩, hne, hlast⟩
        rw [prefix_append_right_inj] at hlast
        cases rest with
        | nil => exact absurd (append_nil current).symm hne
        | cons c rest =>
            obtain ⟨rfl, hrest⟩ := cons_prefix_cons.mp hlast
            cases rest with
            | nil => exact Or.inl rfl
            | cons d rest =>
                refine Or.inr ⟨?_, by simp, ?_⟩
                · rw [prefix_append_right_inj]
                  exact prefix_append [c] (d :: rest)
                · rw [prefix_append_right_inj]
                  exact hlast

theorem nodup_dirsBelow (current components : List Text) : (dirsBelow current components).Nodup := by
  induction components generalizing current with
  | nil => exact nodup_nil
  | cons component components ih =>
      rw [dirsBelow, nodup_cons, mem_dirsBelow]
      exact ⟨fun h => h.2.1 rfl, ih _⟩

theorem mem_ancestors :
    dir ∈ ancestors rel ↔ dir ≠ [] ∧ dir <+: (splitOnChar '/' rel).dropLast := by
  rw [ancestors, mem_dirsBelow]
  simp [eq_comm]

/-- The components of a directory that files with plain paths lie in. -/
structure IsDir (dir : List Text) : Prop where
  ne_nil : dir ≠ []
  segments : ∀ segment ∈ dir, '/' ∉ segment
  unscoped : ¬"::".toList <:+: dirId dir

theorem dirId_isPrefix (hne : dir ≠ []) (h : dir <+: splitOnChar '/' rel) : dirId dir <+: rel := by
  obtain ⟨rest, hrest⟩ := h
  have hjoin : joinWith ['/'] (splitOnChar '/' rel) = rel := joinWith_splitOnChar rel
  rw [← hjoin, ← hrest]
  cases rest with
  | nil => rw [append_nil, dirId]
  | cons segment rest =>
      rw [joinWith_append hne (cons_ne_nil _ _), append_assoc]
      exact prefix_append _ _

theorem IsFileId.isDir (hrel : IsFileId rel) (h : dir ∈ ancestors rel) : IsDir dir := by
  obtain ⟨hne, hpre⟩ := mem_ancestors.mp h
  have hsegments : dir <+: splitOnChar '/' rel := hpre.trans ( dropLast_prefix _)
  refine ⟨hne, fun segment hs => (hrel.segments segment (hsegments.subset hs)).1, fun hscope => ?_⟩
  refine hrel.unscoped ((hscope.trans (dirId_isPrefix hne hsegments).isInfix).trans ?_)
  exact (prefix_append rel [':']).isInfix

theorem IsDir.split (h : IsDir dir) : splitOnChar '/' (dirId dir) = dir :=
  splitOnChar_joinWith h.ne_nil h.segments

end CodeGraph
