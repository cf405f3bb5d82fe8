import CodeGraph.ModuleImports

/-!
# The file of a module

Cargo's layout puts the module `a::b` of a package in `src/a/b.rs` or `src/a/b/mod.rs`.
`file_module_path` reads the module back off the file's path: below the last `src/` of its
text, where that text starts a directory.
-/

namespace CodeGraph

open List

namespace CargoLayout

/-! ## A file below directories -/

/-- The path of the file `name` below `dirs`. -/
def under (dirs : List Text) (name : Text) : Text := joinWith ['/'] (dirs ++ [name])

@[simp] theorem under_nil (name : Text) : under [] name = name := rfl

@[simp] theorem under_cons (d : Text) (dirs : List Text) (name : Text) :
    under (d :: dirs) name = d ++ '/' :: under dirs name := by
  rw [under, cons_append, joinWith_cons (by simp), under, append_assoc,
    singleton_append]

theorem under_append (a dirs : List Text) (name : Text) :
    under (a ++ dirs) name = a.flatMap (· ++ ['/']) ++ under dirs name := by
  induction a with
  | nil => rfl
  | cons d a ih => simp [ih]

theorem splitOnChar_under {dirs : List Text} {name : Text} (hdirs : ∀ d ∈ dirs, '/' ∉ d)
    (hname : '/' ∉ name) : splitOnChar '/' (under dirs name) = dirs ++ [name] :=
  splitOnChar_joinWith (by simp) fun piece hpiece => by
    rcases mem_append.mp hpiece with h | h
    · exact hdirs piece h
    · exact (mem_singleton.mp h) ▸ hname

theorem slash_inj {a b x y : Text} (ha : '/' ∉ a) (hb : '/' ∉ b)
    (h : a ++ '/' :: x = b ++ '/' :: y) : a = b ∧ x = y := by
  have hsplit := congrArg (splitOnChar '/') h
  rw [splitOnChar_append, splitOnChar_append, splitOnChar_of_notMem ha,
    splitOnChar_of_notMem hb] at hsplit
  obtain ⟨hab, hxy⟩ := List.cons.inj hsplit
  exact ⟨hab, splitOnChar_injective '/' hxy⟩

theorem basename_under {dirs : List Text} {name : Text} (hdirs : ∀ d ∈ dirs, '/' ∉ d)
    (hname : '/' ∉ name) : basename (under dirs name) = name := by
  rw [basename, splitOnChar_under hdirs hname, getLast?_concat, Option.getD_some]

/-- A word and a slash are found in a path where the word ends the first directory, or further
on. -/
theorem slash_isInfix {word d rest : Text} (hword : '/' ∉ word) (hd : '/' ∉ d) :
    word ++ ['/'] <:+: d ++ '/' :: rest ↔ word <:+ d ∨ word ++ ['/'] <:+: rest := by
  constructor
  · rintro ⟨s, t, h⟩
    rw [append_assoc, append_assoc, singleton_append, ← append_assoc] at h
    rcases append_eq_append_iff.mp h with ⟨c, rfl, hc⟩ | ⟨c, hc, hrest⟩
    · cases c with
      | nil => exact Or.inl ⟨s, by simp⟩
      | cons x c =>
          obtain ⟨rfl, -⟩ := List.cons.inj hc
          simp at hd
    · cases c with
      | nil => exact Or.inl ⟨s, by simpa using hc⟩
      | cons x c =>
          obtain ⟨rfl, rfl⟩ := List.cons.inj hrest
          rcases append_eq_append_iff.mp hc with ⟨e, -, he⟩ | ⟨e, -, he⟩
          · have : '/' ∈ word := by rw [he]; simp
            exact absurd this hword
          · cases e with
            | nil =>
                have : '/' ∈ word := by rw [← nil_append word, ← he]; simp
                exact absurd this hword
            | cons y e =>
                obtain ⟨rfl, rfl⟩ := List.cons.inj he
                exact Or.inr ⟨e, t, by simp⟩
  · rintro (⟨s, rfl⟩ | ⟨s, t, rfl⟩)
    · exact ⟨s, rest, by simp⟩
    · exact ⟨d ++ '/' :: s, t, by simp⟩

theorem slash_isInfix_under {word name : Text} (hword : '/' ∉ word) (hname : '/' ∉ name) :
    ∀ {dirs : List Text}, (∀ d ∈ dirs, '/' ∉ d) →
      (word ++ ['/'] <:+: under dirs name ↔ ∃ d ∈ dirs, word <:+ d)
  | [], _ => by
      simp only [under_nil, not_mem_nil, false_and, exists_false, iff_false]
      exact fun h => hname (h.subset (by simp))
  | d :: dirs, h => by
      rw [under_cons, slash_isInfix hword (h d mem_cons_self),
        slash_isInfix_under hword hname fun e he => h e (mem_cons_of_mem _ he)]
      simp

theorem exists_last {p : Text → Prop} : ∀ {dirs : List Text}, (∃ d ∈ dirs, p d) →
    ∃ a d b, dirs = a ++ d :: b ∧ p d ∧ ∀ e ∈ b, ¬ p e
  | [], h => by simp at h
  | x :: dirs, h => by
      by_cases hrest : ∃ d ∈ dirs, p d
      · obtain ⟨a, d, b, rfl, hd, hb⟩ := exists_last hrest
        exact ⟨x :: a, d, b, rfl, hd, hb⟩
      · obtain ⟨d, hd, hpd⟩ := h
        rcases mem_cons.mp hd with rfl | hd
        · exact ⟨[], d, dirs, rfl, hpd, fun e he hpe => hrest ⟨e, he, hpe⟩⟩
        · exact absurd ⟨d, hd, hpd⟩ hrest

/-! ## The source root -/

def src : Text := "src".toList

theorem beforeLast_src (before : Text) {name : Text} {dirs : List Text}
    (hdirs : ∀ e ∈ dirs, '/' ∉ e) (hname : '/' ∉ name) (hsrc : ∀ e ∈ dirs, ¬ src <:+ e) :
    beforeLast "src/".toList (before ++ (src ++ '/' :: under dirs name)) = some before := by
  have hrest : ¬ src ++ ['/'] <:+: under dirs name := by
    rw [slash_isInfix_under (by decide) hname hdirs]
    rintro ⟨e, he, h⟩
    exact hsrc e he h
  have hskip : ¬ 's' :: "rc/".toList <:+: "rc/".toList ++ under dirs name := by
    intro h
    rcases infix_cons_iff.mp h with h | h
    · exact absurd (cons_prefix_cons.mp h).1 (by decide)
    rcases infix_cons_iff.mp h with h | h
    · exact absurd (cons_prefix_cons.mp h).1 (by decide)
    rcases infix_cons_iff.mp h with h | h
    · exact absurd (cons_prefix_cons.mp h).1 (by decide)
    · exact hrest h
  exact beforeLast_last hskip before

theorem unplaced_under {package : List Text} (hpackage : ∀ d ∈ package, '/' ∉ d)
    (dirs : List Text) (name : Text) :
    ∃ above, (∀ d ∈ above, d ∈ package) ∧
      ((["tests/", "benches/", "examples/"].findSome? fun dir =>
        stripPrefix dir.toList (under (package ++ src :: dirs) name)).getD
          (under (package ++ src :: dirs) name)) = under (above ++ src :: dirs) name := by
  cases hfind : ["tests/", "benches/", "examples/"].findSome? fun dir =>
      stripPrefix dir.toList (under (package ++ src :: dirs) name) with
  | none => exact ⟨package, fun _ hd => hd, rfl⟩
  | some rest =>
      obtain ⟨dir, hdir, hstrip⟩ := exists_of_findSome?_eq_some hfind
      have hword : ∃ word, dir.toList = word ++ ['/'] ∧ '/' ∉ word ∧ word ≠ src := by
        simp only [mem_cons, not_mem_nil, or_false] at hdir
        rcases hdir with rfl | rfl | rfl
        · exact ⟨"tests".toList, by decide, by decide, by decide⟩
        · exact ⟨"benches".toList, by decide, by decide, by decide⟩
        · exact ⟨"examples".toList, by decide, by decide, by decide⟩
      obtain ⟨word, hword, hslash, hne⟩ := hword
      have hfile := stripPrefix_eq hstrip
      rw [hword, append_assoc, singleton_append] at hfile
      cases package with
      | nil =>
          rw [nil_append, under_cons] at hfile
          exact absurd (slash_inj (by decide) hslash hfile).1.symm hne
      | cons p package =>
          rw [cons_append, under_cons] at hfile
          obtain ⟨-, rfl⟩ := slash_inj (hpackage p mem_cons_self) hslash hfile
          exact ⟨package, fun _ hd => mem_cons_of_mem _ hd, rfl⟩

section Source

variable {package dirs : List Text} {name : Text}
  (hpackage : ∀ d ∈ package, '/' ∉ d) (hdirs : ∀ d ∈ dirs, '/' ∉ d) (hname : '/' ∉ name)

include hdirs hname

theorem belowSource_found (hsrc : ∀ d ∈ dirs, ¬ src <:+ d) :
    CrateEvidence.belowSource (under (package ++ src :: dirs) name) = under dirs name := by
  have hfile : under (package ++ src :: dirs) name =
      package.flatMap (· ++ ['/']) ++ (src ++ '/' :: under dirs name) := by
    rw [under_append, under_cons]
  have hbefore := beforeLast_src (package.flatMap (· ++ ['/'])) hdirs hname hsrc
  rw [← hfile] at hbefore
  have hroot : package.flatMap (· ++ ['/']) = [] ∨
      (package.flatMap (· ++ ['/'])).getLast? = some '/' := by
    rcases eq_nil_or_concat' package with rfl | ⟨init, last, rfl⟩
    · exact Or.inl rfl
    · exact Or.inr (by simp [← append_assoc])
  unfold CrateEvidence.belowSource
  rw [hbefore]
  dsimp only
  rw [if_pos hroot, lastPiece, hbefore]
  dsimp only
  rw [hfile, drop_append]
  simp [src]

include hpackage in
theorem belowSource_hidden (hsrc : ∃ d ∈ dirs, src <:+ d) (hnot : src ∉ dirs) :
    ∃ above, (∀ d ∈ above, d ∈ package) ∧
      CrateEvidence.belowSource (under (package ++ src :: dirs) name) =
        under (above ++ src :: dirs) name := by
  obtain ⟨above, habove, hunplaced⟩ := unplaced_under hpackage dirs name
  refine ⟨above, habove, ?_⟩
  rw [← hunplaced]
  obtain ⟨a, d, b, rfl, ⟨e, rfl⟩, hb⟩ := exists_last hsrc
  have he : e ≠ [] := by
    rintro rfl
    exact hnot (by simp)
  have hfile : under (package ++ src :: (a ++ (e ++ src) :: b)) name =
      ((package ++ src :: a).flatMap (· ++ ['/']) ++ e) ++ (src ++ '/' :: under b name) := by
    rw [← cons_append, ← append_assoc, under_append, under_cons, append_assoc,
      append_assoc]
  have hbefore := beforeLast_src ((package ++ src :: a).flatMap (· ++ ['/']) ++ e)
    (fun x hx => hdirs x (by simp [hx])) hname hb
  rw [← hfile] at hbefore
  have hinside : ¬ ((package ++ src :: a).flatMap (· ++ ['/']) ++ e = [] ∨
      ((package ++ src :: a).flatMap (· ++ ['/']) ++ e).getLast? = some '/') := by
    rintro (hnil | hlast)
    · exact he (append_eq_nil_iff.mp hnil).2
    · rw [getLast?_append_of_ne_nil _ he] at hlast
      exact hdirs (e ++ src) (by simp) (mem_append_left _ (mem_of_getLast? hlast))
  unfold CrateEvidence.belowSource
  rw [hbefore]
  dsimp only
  rw [if_neg hinside]

end Source

/-! ## The file's extension -/

theorem stripPrefix_slash {pat : Text} (hpat : '/' ∉ pat) (text rest : Text) :
    stripPrefix pat (text ++ '/' :: rest) = (stripPrefix pat text).map (· ++ '/' :: rest) := by
  induction pat generalizing text with
  | nil => rfl
  | cons p pat ih =>
      rw [mem_cons, not_or] at hpat
      cases text with
      | nil => simp [stripPrefix, Ne.symm hpat.1]
      | cons c text =>
          rw [cons_append, stripPrefix, stripPrefix, ih hpat.2]
          split <;> rfl

theorem trimStartMatches_slash {pat : Text} (hpat : '/' ∉ pat) (text rest : Text) :
    trimStartMatches pat (text ++ '/' :: rest) = trimStartMatches pat text ++ '/' :: rest := by
  induction hn : text.length using Nat.strong_induction_on generalizing text with
  | _ n ih =>
      subst hn
      rw [trimStartMatches, trimStartMatches, stripPrefix_slash hpat]
      cases hstrip : stripPrefix pat text with
      | none => rfl
      | some left =>
          simp only [Option.map_some, length_append, length_cons]
          by_cases hlt : left.length < text.length
          · rw [if_pos (by omega), if_pos hlt, ih left.length hlt left rfl]
          · rw [if_neg (by omega), if_neg hlt]

theorem trimEndMatches_under {pat : Text} (hpat : '/' ∉ pat) (dirs : List Text) (name : Text) :
    trimEndMatches pat (under dirs name) = under dirs (trimEndMatches pat name) := by
  rcases eq_nil_or_concat' dirs with rfl | ⟨init, last, rfl⟩
  · rfl
  · have hsplit : ∀ name, under (init ++ [last]) name =
        (init.flatMap (· ++ ['/']) ++ last) ++ '/' :: name := by
      intro name
      rw [under_append, under_cons, under_nil, append_assoc]
    rw [hsplit, hsplit, trimEndMatches, reverse_append, reverse_cons,
      append_assoc, singleton_append,
      trimStartMatches_slash (by simpa using hpat), reverse_append]
    simp [trimEndMatches]

def rs : Text := ".rs".toList

theorem trimStartMatches_of_not {pat text : Text} (h : ¬ pat <+: text) :
    trimStartMatches pat text = text := by
  rw [trimStartMatches, Option.eq_none_iff_forall_ne_some.mpr fun rest hrest =>
    h ⟨rest, (stripPrefix_eq hrest).symm⟩]

theorem trimStartMatches_append {pat : Text} (hpat : pat ≠ []) (text : Text) :
    trimStartMatches pat (pat ++ text) = trimStartMatches pat text := by
  have hlength := length_pos_iff.mpr hpat
  rw [trimStartMatches, stripPrefix_append]
  dsimp only
  rw [if_pos (by simp; omega)]

theorem trimStartMatches_isSuffix (pat text : Text) : trimStartMatches pat text <:+ text := by
  induction hn : text.length using Nat.strong_induction_on generalizing text with
  | _ n ih =>
      subst hn
      rw [trimStartMatches]
      split
      · next rest hstrip =>
        split
        · next hlt => exact (ih _ hlt rest rfl).trans ⟨pat, (stripPrefix_eq hstrip).symm⟩
        · exact suffix_rfl
      · exact suffix_rfl

theorem trimEndMatches_isPrefix (pat text : Text) : trimEndMatches pat text <+: text := by
  rw [trimEndMatches, ← reverse_suffix, reverse_reverse]
  exact trimStartMatches_isSuffix _ _

theorem trimEndMatches_rs {stem : Text} (h : ¬ rs <:+ stem) :
    trimEndMatches rs (stem ++ rs) = stem := by
  rw [trimEndMatches, reverse_append, trimStartMatches_append (by decide),
    trimStartMatches_of_not fun hprefix => h ( reverse_prefix.mp hprefix),
    reverse_reverse]

theorem trimEndMatches_rs_length {stem : Text} (h : rs <:+ stem) :
    (trimEndMatches rs (stem ++ rs)).length < stem.length := by
  obtain ⟨init, rfl⟩ := h
  have hle := (trimStartMatches_isSuffix rs.reverse init.reverse).length_le
  have hrs : rs.length = 3 := by decide
  rw [trimEndMatches, reverse_append, trimStartMatches_append (by decide),
    reverse_append, trimStartMatches_append (by decide), length_reverse,
    length_append]
  rw [length_reverse] at hle
  omega

/-! ## The module of a file -/

def modName : Text := "mod".toList

/-- The segments without a final `mod`. -/
def withoutMod (segments : List Text) : List Text :=
  if segments.getLast? = some modName then segments.dropLast else segments

/-- A name that a directory can have. -/
def IsDirName (d : Text) : Prop := d ≠ [] ∧ '/' ∉ d

theorem fileModulePath_under {evidence : CrateEvidence} {file stem : Text} {below : List Text}
    (hlogical : evidence.logicalModules file = none) (htarget : evidence.targets file = none)
    (hbase : basename file = stem ++ rs) (hlib : stem ≠ "lib".toList) (hmain : stem ≠ "main".toList)
    (hbelow : CrateEvidence.belowSource file = under below (stem ++ rs))
    (hdirs : ∀ d ∈ below, IsDirName d) (hstem : '/' ∉ stem) :
    evidence.fileModulePath file =
      withoutMod (below ++ [trimEndMatches rs (stem ++ rs)].filter (· ≠ [])) := by
  have hentry : ¬ ((evidence.targets file).isSome ∨ basename file = "lib.rs".toList ∨
      basename file = "main.rs".toList) := by
    rw [htarget, hbase]
    rintro (h | h | h)
    · cases h
    · exact hlib (append_cancel_right (show stem ++ rs = "lib".toList ++ rs from h))
    · exact hmain (append_cancel_right (show stem ++ rs = "main".toList ++ rs from h))
  have hname : '/' ∉ trimEndMatches rs (stem ++ rs) := by
    intro h
    rcases mem_append.mp ((trimEndMatches_isPrefix _ _).subset h) with h | h
    · exact hstem h
    · exact absurd h (by decide)
  have hsplit : (splitOnChar '/' (trimEndMatches rs (under below (stem ++ rs)))).filter (· ≠ []) =
      below ++ [trimEndMatches rs (stem ++ rs)].filter (· ≠ []) := by
    rw [trimEndMatches_under (by decide), splitOnChar_under (fun d hd => (hdirs d hd).2) hname,
      filter_append, filter_eq_self.mpr]
    intro d hd
    simpa using (hdirs d hd).1
  rw [CrateEvidence.fileModulePath, hlogical]
  dsimp only
  rw [if_neg hentry, hbelow]
  exact (congrArg withoutMod hsplit)

/-- A module of a package: the directory of the package, and the path of the module from the
root of its crate. -/
structure ModulePlace where
  package : List Text
  path : List Text
  package_names : ∀ d ∈ package, IsDirName d
  path_names : ∀ m ∈ path,
    IsDirName m ∧ m ≠ modName ∧ m ≠ "lib".toList ∧ m ≠ "main".toList ∧ m ≠ src
  path_ne : path ≠ []

namespace ModulePlace

variable (place : ModulePlace)

/-- The module's file `src/a/b.rs`. -/
def file : Text := joinWith ['/'] (place.package ++ src :: place.path) ++ ".rs".toList

/-- The module's file `src/a/b/mod.rs`. -/
def modFile : Text := joinWith ['/'] (place.package ++ src :: place.path ++ ["mod.rs".toList])

theorem path_eq : place.path.dropLast ++ [place.path.getLast place.path_ne] = place.path :=
  dropLast_append_getLast place.path_ne

theorem under_text (dirs : List Text) (name text : Text) :
    under dirs name ++ text = under dirs (name ++ text) := by
  induction dirs with
  | nil => rfl
  | cons d dirs ih => rw [under_cons, under_cons, append_assoc, cons_append, ih]

theorem file_eq : place.file = under (place.package ++ src :: place.path.dropLast)
    (place.path.getLast place.path_ne ++ rs) := by
  have hjoin : joinWith ['/'] (place.package ++ src :: place.path) =
      under (place.package ++ src :: place.path.dropLast) (place.path.getLast place.path_ne) := by
    rw [under, append_assoc, cons_append, place.path_eq]
  rw [file, hjoin, under_text]
  rfl

theorem modFile_eq : place.modFile = under (place.package ++ src :: place.path) (modName ++ rs) :=
  rfl

end ModulePlace

theorem fileModulePath_below {evidence : CrateEvidence} {package dirs : List Text} {stem : Text}
    (hpackage : ∀ d ∈ package, IsDirName d) (hdirs : ∀ d ∈ dirs, IsDirName d ∧ d ≠ src)
    (hstem : '/' ∉ stem) (hlib : stem ≠ "lib".toList) (hmain : stem ≠ "main".toList)
    (hlogical : evidence.logicalModules (under (package ++ src :: dirs) (stem ++ rs)) = none)
    (htarget : evidence.targets (under (package ++ src :: dirs) (stem ++ rs)) = none) :
    ∃ below, (below = dirs ∧ (∀ d ∈ dirs, ¬ src <:+ d) ∨ src ∈ below ∧ ∃ d ∈ dirs, src <:+ d) ∧
      evidence.fileModulePath (under (package ++ src :: dirs) (stem ++ rs)) =
        withoutMod (below ++ [trimEndMatches rs (stem ++ rs)].filter (· ≠ [])) := by
  have hname : '/' ∉ stem ++ rs := by
    rw [mem_append, not_or]
    exact ⟨hstem, by decide⟩
  have hall : ∀ above : List Text, (∀ d ∈ above, d ∈ package) →
      ∀ d ∈ above ++ src :: dirs, IsDirName d := by
    intro above habove d hd
    rcases mem_append.mp hd with hd | hd
    · exact hpackage d (habove d hd)
    rcases mem_cons.mp hd with rfl | hd
    · exact ⟨by decide, by decide⟩
    · exact (hdirs d hd).1
  have hslash : ∀ d ∈ package ++ src :: dirs, '/' ∉ d := fun d hd =>
    (hall package (fun _ h => h) d hd).2
  have hbase := basename_under hslash hname
  by_cases hsrc : ∃ d ∈ dirs, src <:+ d
  · obtain ⟨above, habove, hbelow⟩ := belowSource_hidden (fun d hd => (hpackage d hd).2)
      (fun d hd => (hdirs d hd).1.2) hname hsrc fun hmem => (hdirs src hmem).2 rfl
    exact ⟨above ++ src :: dirs, Or.inr ⟨by simp, hsrc⟩,
      fileModulePath_under hlogical htarget hbase hlib hmain hbelow (hall above habove) hstem⟩
  · have hnone : ∀ d ∈ dirs, ¬ src <:+ d := fun d hd h => hsrc ⟨d, hd, h⟩
    exact ⟨dirs, Or.inl ⟨rfl, hnone⟩,
      fileModulePath_under hlogical htarget hbase hlib hmain
        (belowSource_found (fun d hd => (hdirs d hd).1.2) hname hnone)
        (fun d hd => (hdirs d hd).1) hstem⟩

theorem withoutMod_of_ne {segments : List Text} (h : segments.getLast? ≠ some modName) :
    withoutMod segments = segments := if_neg h

theorem withoutMod_concat (segments : List Text) :
    withoutMod (segments ++ [modName]) = segments := by
  rw [withoutMod, if_pos (getLast?_concat ..), dropLast_concat]

theorem withoutMod_isPrefix (segments : List Text) : withoutMod segments <+: segments := by
  unfold withoutMod
  split
  · exact dropLast_prefix _
  · exact prefix_rfl

theorem mem_withoutMod {segments : List Text} {d : Text} (h : d ∈ segments) (hd : d ≠ modName) :
    d ∈ withoutMod segments := by
  unfold withoutMod
  split
  · next hlast =>
    obtain ⟨init, rfl⟩ := getLast?_eq_some_iff.mp hlast
    rw [dropLast_concat]
    rcases mem_append.mp h with h | h
    · exact h
    · exact absurd (mem_singleton.mp h) hd
  · exact h

theorem fileModulePath_target {evidence : CrateEvidence} {file : Text}
    (hlogical : evidence.logicalModules file = none) (htarget : evidence.targets file ≠ none) :
    evidence.fileModulePath file = [] := by
  rw [CrateEvidence.fileModulePath, hlogical]
  dsimp only
  rw [if_pos (Or.inl (Option.isSome_iff_ne_none.mpr htarget))]

namespace ModulePlace

variable {evidence : CrateEvidence} (place : ModulePlace)

theorem src_notMem : src ∉ place.path := fun h => (place.path_names src h).2.2.2.2 rfl

theorem names {dirs : List Text} (h : ∀ d ∈ dirs, d ∈ place.path) :
    ∀ d ∈ dirs, IsDirName d ∧ d ≠ src := fun d hd =>
  ⟨(place.path_names d (h d hd)).1, (place.path_names d (h d hd)).2.2.2.2⟩

theorem ne_of_mem_src {segments : List Text} (h : src ∈ segments) :
    withoutMod segments ≠ place.path := fun he =>
  place.src_notMem (he ▸ mem_withoutMod h (by decide))

theorem fileModulePath_file_iff (hlogical : evidence.logicalModules place.file = none) :
    evidence.fileModulePath place.file = place.path ↔
      evidence.targets place.file = none ∧ (∀ d ∈ place.path.dropLast, ¬ src <:+ d) ∧
        ¬ rs <:+ place.path.getLast place.path_ne := by
  by_cases htarget : evidence.targets place.file = none
  · obtain ⟨⟨hne, hslash⟩, hmod, hlib, hmain, -⟩ :=
      place.path_names _ (getLast_mem place.path_ne)
    have hpath := place.path_eq
    rw [file_eq] at hlogical htarget ⊢
    generalize place.path.getLast place.path_ne = stem at *
    obtain ⟨below, hbelow, heq⟩ := fileModulePath_below place.package_names
      (place.names fun d hd => mem_of_mem_dropLast hd) hslash hlib hmain hlogical htarget
    rw [heq]
    obtain ⟨rfl, hsrc⟩ | ⟨hmem, hsrc⟩ := hbelow
    · by_cases hrs : rs <:+ stem
      · refine iff_of_false (fun he => ?_) fun h => h.2.2 hrs
        -- the trimmed name is shorter than the module's, or gone
        have hshort := trimEndMatches_rs_length hrs
        have hlast : stem ∈ [trimEndMatches rs (stem ++ rs)].filter (· ≠ []) := by
          have hprefix := withoutMod_isPrefix
            (place.path.dropLast ++ [trimEndMatches rs (stem ++ rs)].filter (· ≠ []))
          rw [he, ← hpath, dropLast_concat, prefix_append_right_inj] at hprefix
          exact hprefix.subset (mem_singleton_self stem)
        have htrimmed := mem_singleton.mp (mem_filter.mp hlast).1
        rw [← htrimmed] at hshort
        exact lt_irrefl _ hshort
      · rw [trimEndMatches_rs hrs, filter_eq_self.mpr (by simpa using hne),
          withoutMod_of_ne (by rw [getLast?_concat]; simpa using hmod), hpath]
        exact iff_of_true rfl ⟨htarget, hsrc, hrs⟩
    · refine iff_of_false (place.ne_of_mem_src (mem_append_left _ hmem)) fun h => ?_
      obtain ⟨d, hd, hdsrc⟩ := hsrc
      exact h.2.1 d hd hdsrc
  · rw [fileModulePath_target hlogical htarget]
    exact iff_of_false (fun he => place.path_ne he.symm) fun h => htarget h.1

theorem fileModulePath_modFile_iff (hlogical : evidence.logicalModules place.modFile = none) :
    evidence.fileModulePath place.modFile = place.path ↔
      evidence.targets place.modFile = none ∧ ∀ d ∈ place.path, ¬ src <:+ d := by
  by_cases htarget : evidence.targets place.modFile = none
  · rw [modFile_eq] at hlogical htarget ⊢
    obtain ⟨below, hbelow, heq⟩ := fileModulePath_below place.package_names
      (place.names fun _ hd => hd) (by decide) (by decide) (by decide) hlogical htarget
    have htrim : [trimEndMatches rs (modName ++ rs)].filter (· ≠ []) = [modName] := by
      rw [trimEndMatches_rs (by decide)]
      rfl
    rw [heq, htrim]
    obtain ⟨rfl, hsrc⟩ | ⟨hmem, hsrc⟩ := hbelow
    · rw [withoutMod_concat]
      exact iff_of_true rfl ⟨htarget, hsrc⟩
    · refine iff_of_false (place.ne_of_mem_src (mem_append_left _ hmem)) fun h => ?_
      obtain ⟨d, hd, hdsrc⟩ := hsrc
      exact h.2 d hd hdsrc
  · rw [fileModulePath_target hlogical htarget]
    exact iff_of_false (fun he => place.path_ne he.symm) fun h => htarget h.1

/-- Both files of a module give its path exactly when neither is the entry of a target, no
directory of the module ends in `src`, and its last name does not end in `.rs`. -/
theorem fileModulePath_iff (hfile : evidence.logicalModules place.file = none)
    (hmod : evidence.logicalModules place.modFile = none) :
    (evidence.fileModulePath place.file = place.path ↔
      evidence.targets place.file = none ∧ (∀ d ∈ place.path.dropLast, ¬ src <:+ d) ∧
        ¬ rs <:+ place.path.getLast place.path_ne) ∧
    (evidence.fileModulePath place.modFile = place.path ↔
      evidence.targets place.modFile = none ∧ ∀ d ∈ place.path, ¬ src <:+ d) :=
  ⟨place.fileModulePath_file_iff hfile, place.fileModulePath_modFile_iff hmod⟩

/-- The module `mysrc::a` of the package at the root. -/
def hidden : ModulePlace where
  package := []
  path := ["mysrc".toList, "a".toList]
  package_names := nofun
  path_names := by
    simp only [IsDirName]
    decide
  path_ne := nofun

def noEvidence : CrateEvidence where
  known := false
  crateNames := ∅
  targets _ := none
  owners _ := none
  logicalModules _ := none

theorem fileModulePath_iff_hidden :
    (noEvidence.fileModulePath hidden.file = hidden.path ↔
      noEvidence.targets hidden.file = none ∧ (∀ d ∈ hidden.path.dropLast, ¬ src <:+ d) ∧
        ¬ rs <:+ hidden.path.getLast hidden.path_ne) ∧
    (noEvidence.fileModulePath hidden.modFile = hidden.path ↔
      noEvidence.targets hidden.modFile = none ∧ ∀ d ∈ hidden.path, ¬ src <:+ d) :=
  hidden.fileModulePath_iff rfl rfl

/-- `src/mysrc/a.rs` is no target's entry, and is read as `src::mysrc::a`. -/
theorem hidden_source_root :
    ¬ ∀ (evidence : CrateEvidence) (place : ModulePlace),
      evidence.logicalModules place.file = none → evidence.logicalModules place.modFile = none →
      evidence.targets place.file = none → evidence.targets place.modFile = none →
        evidence.fileModulePath place.file = place.path ∧
          evidence.fileModulePath place.modFile = place.path := by
  intro h
  have hpath := (h noEvidence hidden rfl rfl rfl rfl).1
  revert hpath
  decide +kernel

end ModulePlace

end CargoLayout

end CodeGraph
