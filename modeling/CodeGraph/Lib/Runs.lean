import Mathlib.Logic.Basic

/-!
# Runs

A machine taking one event after another. `Along` is a condition on every step
of a run, read in the state before it; an invariant that the steps meeting the
condition preserve holds after every run along which it is met (`run_inv`).
-/

namespace Runs

variable {σ ε : Type*} {step : σ → ε → σ}

def run (step : σ → ε → σ) : List ε → σ → σ
  | [], s => s
  | e :: events, s => run step events (step s e)

/-- Every step of the run meets `c` in the state before it. -/
def Along (step : σ → ε → σ) (c : σ → ε → Prop) : List ε → σ → Prop
  | [], _ => True
  | e :: events, s => c s e ∧ Along step c events (step s e)

@[simp] theorem run_nil (s : σ) : run step [] s = s := rfl

@[simp] theorem run_cons (e : ε) (events : List ε) (s : σ) :
    run step (e :: events) s = run step events (step s e) := rfl

theorem run_append (before after : List ε) (s : σ) :
    run step (before ++ after) s = run step after (run step before s) := by
  induction before generalizing s with
  | nil => rfl
  | cons e before ih => exact ih (step s e)

/-- A run over blocks of events takes them block by block. -/
theorem run_flatMap {α : Type*} (f : α → List ε) (as : List α) (s : σ) :
    run step (as.flatMap f) s = as.foldl (fun s a => run step (f a) s) s := by
  induction as generalizing s with
  | nil => rfl
  | cons a as ih => rw [List.flatMap_cons, run_append, ih, List.foldl_cons]

theorem run_map {α : Type*} (f : α → ε) (as : List α) (s : σ) :
    run step (as.map f) s = as.foldl (fun s a => step s (f a)) s := by
  induction as generalizing s with
  | nil => rfl
  | cons a as ih => exact ih (step s (f a))

variable {c : σ → ε → Prop} {inv : σ → Prop}

theorem run_inv
    (hstep : ∀ s e, inv s → c s e → inv (step s e)) {events : List ε} {s : σ} (hs : inv s)
    (hc : Along step c events s) : inv (run step events s) := by
  induction events generalizing s with
  | nil => exact hs
  | cons e events ih => exact ih (hstep s e hs hc.1) hc.2

/-- As `run_inv`, the condition being one on the events alone. -/
theorem run_inv_of_mem {events : List ε}
    (hstep : ∀ s, ∀ e ∈ events, inv s → inv (step s e)) {s : σ} (hs : inv s) :
    inv (run step events s) := by
  induction events generalizing s with
  | nil => exact hs
  | cons e events ih =>
      refine ih (fun s e he => hstep s e (List.mem_cons_of_mem _ he)) ?_
      exact hstep s e List.mem_cons_self hs

theorem along_append {before after : List ε} {s : σ} :
    Along step c (before ++ after) s ↔ Along step c before s ∧ Along step c after (run step before s) := by
  induction before generalizing s with
  | nil => exact (and_iff_right trivial).symm
  | cons e before ih =>
      rw [List.cons_append, Along, ih, run_cons, Along, and_assoc]

variable {c' : σ → ε → Prop}

theorem along_and {events : List ε} {s : σ} (h : Along step c events s)
    (h' : Along step c' events s) : Along step (fun s e => c s e ∧ c' s e) events s := by
  induction events generalizing s with
  | nil => trivial
  | cons e events ih => exact ⟨⟨h.1, h'.1⟩, ih h.2 h'.2⟩

/-- Two conditions that agree wherever the run can get are met along the same
runs. -/
theorem along_congr
    (hiff : ∀ s e, inv s → (c s e ↔ c' s e)) (hstep : ∀ s e, inv s → c s e → inv (step s e))
    {events : List ε} {s : σ} (hs : inv s) : Along step c events s ↔ Along step c' events s := by
  induction events generalizing s with
  | nil => exact Iff.rfl
  | cons e events ih =>
      simp only [Along]
      rw [← hiff s e hs]
      exact and_congr_right fun hc => ih (hstep s e hs hc)

/-- As `along_congr`, for runs along which a further condition is met. -/
theorem along_congr_along {v : σ → ε → Prop} (hiff : ∀ s e, inv s → v s e → (c s e ↔ c' s e))
    (hstep : ∀ s e, inv s → v s e → inv (step s e)) {events : List ε} {s : σ} (hs : inv s)
    (hv : Along step v events s) : Along step c events s ↔ Along step c' events s := by
  induction events generalizing s with
  | nil => exact Iff.rfl
  | cons e events ih => exact and_congr (hiff s e hs hv.1) (ih (hstep s e hs hv.1) hv.2)

/-- A condition is met along a run if it is at every split of it. -/
theorem along_iff {events : List ε} {s : σ} : Along step c events s ↔
    ∀ before e after, events = before ++ e :: after → c (run step before s) e := by
  induction events generalizing s with
  | nil =>
      refine iff_of_true trivial fun before e after h => ?_
      exact absurd h.symm (List.append_ne_nil_of_right_ne_nil before (List.cons_ne_nil e after))
  | cons e events ih =>
      rw [Along, ih]
      constructor
      · rintro ⟨hc, hrest⟩ before e' after h
        cases before with
        | nil =>
            cases h
            exact hc
        | cons b before =>
            cases h
            exact hrest before e' after rfl
      · intro h
        refine ⟨h [] e events rfl, fun before e' after hsplit => ?_⟩
        exact h (e :: before) e' after (congrArg (e :: ·) hsplit)

/-- Where the steps that meet `c` are those that keep `P`, a run keeps `P` throughout
if and only if its steps meet `c`. -/
theorem run_inv_iff {P : σ → Prop} {v : σ → ε → Prop}
    (hiff : ∀ s e, inv s → v s e → P s → (P (step s e) ↔ c s e))
    (hstep : ∀ s e, inv s → v s e → inv (step s e)) {events : List ε} {s : σ} (hs : inv s)
    (hP : P s) (hv : Along step v events s) :
    (∀ before after, events = before ++ after → P (run step before s)) ↔ Along step c events s := by
  induction events generalizing s with
  | nil =>
      refine iff_of_true (fun before after h => ?_) trivial
      obtain ⟨rfl, -⟩ := List.append_eq_nil_iff.mp h.symm
      exact hP
  | cons e events ih =>
      have hnext := hiff s e hs hv.1 hP
      constructor
      · intro h
        have hP' : P (step s e) := h [e] events rfl
        refine ⟨hnext.mp hP', (ih (hstep s e hs hv.1) hP' hv.2).mp fun before after hsplit => ?_⟩
        exact h (e :: before) after (congrArg (e :: ·) hsplit)
      · rintro ⟨hc, hrest⟩ before after hsplit
        have hP' := hnext.mpr hc
        cases before with
        | nil => exact hP
        | cons b before =>
            cases hsplit
            exact (ih (hstep s e hs hv.1) hP' hv.2).mpr hrest before after rfl

/-- A condition not met along a run is first broken at some step. -/
theorem exists_of_not_along {events : List ε} {s : σ} (h : ¬ Along step c events s) :
    ∃ before e after, events = before ++ e :: after
      ∧ Along step c before s ∧ ¬ c (run step before s) e := by
  induction events generalizing s with
  | nil => exact absurd trivial h
  | cons e events ih =>
      by_cases he : c s e
      · obtain ⟨before, e', after, rfl, halong, hbad⟩ := ih (fun h' => h ⟨he, h'⟩)
        exact ⟨e :: before, e', after, rfl, ⟨he, halong⟩, hbad⟩
      · exact ⟨[], e, events, rfl, trivial, he⟩

end Runs

/-!
## Runs that are cut short

A machine whose steps can fail. `torn` says what a step that does not come to its
end leaves, and a step that is `lenient` is passed over when it fails. A run
`Completes`, or it `Stops` somewhere in the middle of a step; an invariant that no
torn step breaks holds at both (`Stops.inv`, `Completes.inv`).
-/

namespace Runs

variable {σ ε : Type*}

/-- A machine with the failures of its steps. -/
structure Cuttable (σ ε : Type*) where
  exec : σ → ε → Option σ
  torn : σ → ε → σ → Prop
  lenient : ε → Prop
  /-- A step that comes to its end is the longest of its beginnings. -/
  torn_of_exec : ∀ {s e s'}, exec s e = some s' → torn s e s'

namespace Cuttable

variable (M : Cuttable σ ε)

/-- The run goes on behind the step. -/
def GoesOn (s : σ) (e : ε) (s' : σ) : Prop := M.exec s e = some s' ∨ M.lenient e ∧ M.torn s e s'

/-- What the run can leave at its end. -/
inductive Completes : List ε → σ → σ → Prop
  | nil (s : σ) : Completes [] s s
  | cons {e : ε} {events : List ε} {s s' t : σ} (h : M.GoesOn s e s') (hrest : Completes events s' t) :
      Completes (e :: events) s t

/-- What the run can leave when it stops. -/
inductive Stops : List ε → σ → σ → Prop
  | here {e : ε} {events : List ε} {s t : σ} (h : M.torn s e t) : Stops (e :: events) s t
  | later {e : ε} {events : List ε} {s s' t : σ} (h : M.GoesOn s e s') (hrest : Stops events s' t) :
      Stops (e :: events) s t

/-- What the run can leave, at its end or before. -/
def Reaches (events : List ε) (s t : σ) : Prop := M.Stops events s t ∨ M.Completes events s t

/-- The run no step of which fails. -/
def run? (events : List ε) (s : σ) : Option σ := events.foldlM M.exec s

end Cuttable

namespace Cuttable

variable {M : Cuttable σ ε} {events before after : List ε} {s s' t : σ}

variable {e : ε}

theorem GoesOn.torn (h : M.GoesOn s e s') : M.torn s e s' := h.elim M.torn_of_exec And.right

theorem completes_nil : M.Completes [] s t ↔ t = s := by
  constructor
  · rintro ⟨⟩
    rfl
  · rintro rfl
    exact .nil t

theorem completes_cons : M.Completes (e :: events) s t ↔
    ∃ s', M.GoesOn s e s' ∧ M.Completes events s' t := by
  constructor
  · rintro (_ | ⟨h, hrest⟩)
    exact ⟨_, h, hrest⟩
  · rintro ⟨s', h, hrest⟩
    exact .cons h hrest

theorem completes_append : M.Completes (before ++ after) s t ↔
    ∃ mid, M.Completes before s mid ∧ M.Completes after mid t := by
  induction before generalizing s with
  | nil =>
      constructor
      · intro h
        exact ⟨s, .nil s, h⟩
      · rintro ⟨mid, hmid, h⟩
        rwa [completes_nil.mp hmid] at h
  | cons e before ih =>
      simp only [List.cons_append, completes_cons, ih]
      constructor
      · rintro ⟨s', h, mid, hbefore, hafter⟩
        exact ⟨mid, ⟨s', h, hbefore⟩, hafter⟩
      · rintro ⟨mid, ⟨s', h, hbefore⟩, hafter⟩
        exact ⟨s', h, mid, hbefore, hafter⟩

theorem not_stops_nil : ¬M.Stops [] s t := nofun

theorem stops_cons : M.Stops (e :: events) s t ↔
    M.torn s e t ∨ ∃ s', M.GoesOn s e s' ∧ M.Stops events s' t := by
  constructor
  · rintro (h | ⟨h, hrest⟩)
    · exact Or.inl h
    · exact Or.inr ⟨_, h, hrest⟩
  · rintro (h | ⟨s', h, hrest⟩)
    · exact .here h
    · exact .later h hrest

/-- A run stops in its first part, or behind it. -/
theorem stops_append : M.Stops (before ++ after) s t ↔
    M.Stops before s t ∨ ∃ mid, M.Completes before s mid ∧ M.Stops after mid t := by
  induction before generalizing s with
  | nil =>
      constructor
      · intro h
        exact Or.inr ⟨s, .nil s, h⟩
      · rintro (h | ⟨mid, hmid, h⟩)
        · exact absurd h not_stops_nil
        · rwa [completes_nil.mp hmid] at h
  | cons e before ih =>
      simp only [List.cons_append, stops_cons, completes_cons, ih]
      constructor
      · rintro (h | ⟨s', h, hstop | ⟨mid, hbefore, hafter⟩⟩)
        · exact Or.inl (Or.inl h)
        · exact Or.inl (Or.inr ⟨s', h, hstop⟩)
        · exact Or.inr ⟨mid, ⟨s', h, hbefore⟩, hafter⟩
      · rintro ((h | ⟨s', h, hstop⟩) | ⟨mid, ⟨s', h, hbefore⟩, hafter⟩)
        · exact Or.inl h
        · exact Or.inr ⟨s', h, Or.inl hstop⟩
        · exact Or.inr ⟨s', h, Or.inr ⟨mid, hbefore, hafter⟩⟩

variable {I : σ → Prop}

/-- An invariant that no torn step breaks holds at the end of a run. -/
theorem Completes.inv (hstep : ∀ e ∈ events, ∀ s s', I s → M.torn s e s' → I s')
    (h : M.Completes events s t) (hs : I s) : I t := by
  induction h with
  | nil => exact hs
  | cons h _ ih =>
      refine ih (fun e he => hstep e (List.mem_cons_of_mem _ he)) ?_
      exact hstep _ List.mem_cons_self _ _ hs h.torn

/-- And wherever it stops. -/
theorem Stops.inv (hstep : ∀ e ∈ events, ∀ s s', I s → M.torn s e s' → I s')
    (h : M.Stops events s t) (hs : I s) : I t := by
  induction h with
  | here h => exact hstep _ List.mem_cons_self _ _ hs h
  | later h _ ih =>
      refine ih (fun e he => hstep e (List.mem_cons_of_mem _ he)) ?_
      exact hstep _ List.mem_cons_self _ _ hs h.torn

theorem Reaches.inv (hstep : ∀ e ∈ events, ∀ s s', I s → M.torn s e s' → I s')
    (h : M.Reaches events s t) (hs : I s) : I t :=
  h.elim (·.inv hstep hs) (·.inv hstep hs)

theorem reaches_append : M.Reaches (before ++ after) s t ↔
    M.Stops before s t ∨ ∃ mid, M.Completes before s mid ∧ M.Reaches after mid t := by
  simp only [Reaches, stops_append, completes_append, and_or_left, exists_or, or_assoc]

/-- Where no failure is passed over there is one end. -/
theorem Completes.eq_run (hstrict : ∀ e ∈ events, ¬M.lenient e) (h : M.Completes events s t) :
    M.run? events s = some t := by
  induction h with
  | nil => rfl
  | @cons e events s s' t h _ ih =>
      have hexec : M.exec s e = some s' :=
        h.resolve_right fun hl => hstrict _ List.mem_cons_self hl.1
      rw [run?, List.foldlM_cons, hexec]
      exact ih fun e he => hstrict e (List.mem_cons_of_mem _ he)

theorem completes_of_run (h : M.run? events s = some t) : M.Completes events s t := by
  induction events generalizing s with
  | nil =>
      obtain rfl := Option.some.inj h
      exact .nil s
  | cons e events ih =>
      rw [run?, List.foldlM_cons] at h
      obtain ⟨s', hexec, hrest⟩ := Option.bind_eq_some_iff.mp h
      exact .cons (Or.inl hexec) (ih hrest)

/-- The end of a run is where its last step can stop. -/
theorem Completes.stops (h : M.Completes events s t) (hne : events ≠ []) : M.Stops events s t := by
  induction h with
  | nil => exact absurd rfl hne
  | @cons e events s s' t h hrest ih =>
      cases events with
      | nil =>
          rw [completes_nil.mp hrest]
          exact .here h.torn
      | cons e' events => exact .later h (ih (List.cons_ne_nil e' events))

theorem run?_append : M.run? (before ++ after) s = (M.run? before s).bind (M.run? after) := by
  rw [run?, List.foldlM_append]
  rfl

/-- Each step of a run that does not fail comes to its end. -/
theorem run?_mem (h : M.run? events s = some t) (he : e ∈ events) :
    ∃ before after mid mid', events = before ++ e :: after ∧ M.run? before s = some mid ∧
      M.exec mid e = some mid' ∧ M.run? after mid' = some t := by
  obtain ⟨before, after, rfl⟩ := List.append_of_mem he
  rw [run?_append] at h
  obtain ⟨mid, hmid, h⟩ := Option.bind_eq_some_iff.mp h
  rw [run?, List.foldlM_cons] at h
  obtain ⟨mid', hexec, h⟩ := Option.bind_eq_some_iff.mp h
  exact ⟨before, after, mid, mid', rfl, hmid, hexec, h⟩

theorem run?_inv (hstep : ∀ e ∈ events, ∀ s s', I s → M.exec s e = some s' → I s')
    (h : M.run? events s = some t) (hs : I s) : I t := by
  induction events generalizing s with
  | nil =>
      obtain rfl := Option.some.inj h
      exact hs
  | cons e events ih =>
      rw [run?, List.foldlM_cons] at h
      obtain ⟨s', hexec, hrest⟩ := Option.bind_eq_some_iff.mp h
      refine ih (fun e he => hstep e (List.mem_cons_of_mem _ he)) hrest ?_
      exact hstep e List.mem_cons_self s s' hs hexec

/-- A machine no step of which fails on these events runs as one that cannot. -/
theorem run?_eq {step : σ → ε → σ} (h : ∀ s, ∀ e ∈ events, M.exec s e = some (step s e)) :
    M.run? events s = some (run step events s) := by
  induction events generalizing s with
  | nil => rfl
  | cons e events ih =>
      rw [run?, List.foldlM_cons, h s e List.mem_cons_self, run_cons]
      exact ih fun s e he => h s e (List.mem_cons_of_mem _ he)

end Cuttable

end Runs
