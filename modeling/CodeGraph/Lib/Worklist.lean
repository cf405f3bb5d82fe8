import Mathlib.Data.Finset.Card
import Mathlib.Data.Fintype.Card
import Mathlib.Data.Set.Finite.Basic
import Mathlib.Data.Set.Finite.Lattice
import Mathlib.Logic.Relation

/-!
# Worklist searches

The two shapes of a worklist loop over a graph given by successor lists, and
what each computes. `popSearch` marks a state when it takes it off the list,
under a key the state has; `pushSearch` marks it when it puts it on.

Both loops carry a fuel. A run that returns is complete (`Searched.key_mem`,
`Spread.mem`): every state reachable from the starts has been met, up to the
key. And a run returns, for some fuel, exactly when the reachable keys are
finitely many (`popSearch_terminates`, `Searched.finite`).
-/

namespace Worklist

open List Relation

variable {σ κ ε : Type*}

/-- One step along the successor lists. -/
def Step (next : σ → List σ) (a b : σ) : Prop := b ∈ next a

/-- `s` is reachable from one of the starts. -/
def Reach (next : σ → List σ) (starts : List σ) (s : σ) : Prop :=
  ∃ r ∈ starts, ReflTransGen (Step next) r s

theorem Reach.start {next : σ → List σ} {starts : List σ} {s : σ} (h : s ∈ starts) :
    Reach next starts s :=
  ⟨s, h, .refl⟩

theorem Reach.step {next : σ → List σ} {starts : List σ} {s t : σ} (h : Reach next starts s)
    (ht : t ∈ next s) : Reach next starts t := by
  obtain ⟨r, hr, hrs⟩ := h
  exact ⟨r, hr, hrs.tail ht⟩

/-- A property of the starts that every step keeps holds of everything reachable. -/
theorem Reach.induct {next : σ → List σ} {starts : List σ} {P : σ → Prop}
    (hstart : ∀ s ∈ starts, P s) (hstep : ∀ s, Reach next starts s → P s → ∀ t ∈ next s, P t)
    {s : σ} (h : Reach next starts s) : P s := by
  obtain ⟨r, hr, hrs⟩ := h
  induction hrs with
  | refl => exact hstart r hr
  | tail hab hbc ih => exact hstep _ ⟨r, hr, hab⟩ ih _ hbc

/-! ## Marking at the pop -/

section Pop

variable (key : σ → κ) (next : σ → List σ)

/-- Takes the last state pushed; skips it when its key was met before, otherwise
keeps it and pushes its successors in order. -/
def popSearch [DecidableEq κ] : Nat → (pending out : List σ) → Option (List σ)
  | _, [], out => some out
  | 0, _ :: _, _ => none
  | fuel + 1, s :: pending, out =>
      if key s ∈ out.map key then popSearch fuel pending out
      else popSearch fuel ((next s).reverse ++ pending) (s :: out)

/-- Between two turns of the loop. -/
structure PopInv (starts pending out : List σ) : Prop where
  sound : ∀ s, s ∈ pending ∨ s ∈ out → Reach next starts s
  starts : ∀ s ∈ starts, s ∈ pending ∨ key s ∈ out.map key
  closed : ∀ s ∈ out, ∀ t ∈ next s, t ∈ pending ∨ key t ∈ out.map key
  nodup : (out.map key).Nodup

/-- What a search that returned has found. -/
structure Searched (starts out : List σ) : Prop where
  sound : ∀ s ∈ out, Reach next starts s
  starts : ∀ s ∈ starts, key s ∈ out.map key
  closed : ∀ s ∈ out, ∀ t ∈ next s, key t ∈ out.map key
  nodup : (out.map key).Nodup

variable {key next} {starts pending out : List σ}

theorem PopInv.init : PopInv key next starts starts [] where
  sound := fun _ hs => Reach.start (hs.resolve_right not_mem_nil)
  starts := fun _ hs => Or.inl hs
  closed := fun _ hs => absurd hs not_mem_nil
  nodup := nodup_nil

theorem PopInv.skip {s : σ} (h : PopInv key next starts (s :: pending) out)
    (hseen : key s ∈ out.map key) : PopInv key next starts pending out where
  sound := fun t ht => h.sound t (ht.imp_left (mem_cons_of_mem _))
  starts := fun t ht => (h.starts t ht).elim
    (fun hm => (mem_cons.mp hm).elim (fun he => Or.inr (he ▸ hseen)) Or.inl) Or.inr
  closed := fun t ht u hu => (h.closed t ht u hu).elim
    (fun hm => (mem_cons.mp hm).elim (fun he => Or.inr (he ▸ hseen)) Or.inl) Or.inr
  nodup := h.nodup

theorem PopInv.visit {s : σ} (h : PopInv key next starts (s :: pending) out)
    (hnew : key s ∉ out.map key) :
    PopInv key next starts ((next s).reverse ++ pending) (s :: out) := by
  have hs : Reach next starts s := h.sound s (Or.inl mem_cons_self)
  have hkeep : ∀ t, t ∈ s :: pending ∨ key t ∈ out.map key →
      t ∈ (next s).reverse ++ pending ∨ key t ∈ (s :: out).map key := by
    rintro t (ht | ht)
    · rcases mem_cons.mp ht with rfl | ht
      · exact Or.inr mem_cons_self
      · exact Or.inl (mem_append_right _ ht)
    · exact Or.inr (mem_cons_of_mem _ ht)
  refine ⟨?_, fun t ht => hkeep t (h.starts t ht), ?_, nodup_cons.mpr ⟨hnew, h.nodup⟩⟩
  · rintro t (ht | ht)
    · rcases mem_append.mp ht with ht | ht
      · exact hs.step (mem_reverse.mp ht)
      · exact h.sound t (Or.inl (mem_cons_of_mem _ ht))
    · rcases mem_cons.mp ht with rfl | ht
      · exact hs
      · exact h.sound t (Or.inr ht)
  · intro t ht u hu
    rcases mem_cons.mp ht with rfl | ht
    · exact Or.inl (mem_append_left _ (mem_reverse.mpr hu))
    · exact hkeep u (h.closed t ht u hu)

@[simp] theorem popSearch_nil [DecidableEq κ] (fuel : Nat) (out : List σ) :
    popSearch key next fuel [] out = some out := by
  cases fuel <;> rfl

/-- The run: the invariant at the start is what the search has found at its end. -/
theorem PopInv.searched [DecidableEq κ] : ∀ {fuel : Nat} {pending out result : List σ},
    PopInv key next starts pending out → popSearch key next fuel pending out = some result →
    Searched key next starts result
  | fuel, [], out, _, h, hrun => by
      obtain rfl := Option.some.inj ((popSearch_nil fuel out).symm.trans hrun)
      refine ⟨fun s hs => h.sound s (Or.inr hs), fun s hs => ?_, fun s hs t ht => ?_, h.nodup⟩
      · exact (h.starts s hs).resolve_left not_mem_nil
      · exact (h.closed s hs t ht).resolve_left not_mem_nil
  | 0, _ :: _, _, _, _, hrun => by cases hrun
  | fuel + 1, s :: pending, out, result, h, hrun => by
      rw [popSearch] at hrun
      split at hrun
      · next hseen => exact (h.skip hseen).searched hrun
      · next hnew => exact (h.visit hnew).searched hrun

theorem popSearch_searched [DecidableEq κ] {fuel : Nat} {result : List σ}
    (h : popSearch key next fuel starts [] = some result) : Searched key next starts result :=
  PopInv.init.searched h

/-- States of one key have successors of the same keys. -/
def KeyRespects (key : σ → κ) (next : σ → List σ) : Prop :=
  ∀ a b, key a = key b → ∀ t ∈ next a, ∃ u ∈ next b, key t = key u

/-- Completeness: the key of every reachable state has been met. -/
theorem Searched.key_mem (h : Searched key next starts out) (hkey : KeyRespects key next)
    {s : σ} (hs : Reach next starts s) : key s ∈ out.map key := by
  refine Reach.induct (P := fun s => key s ∈ out.map key) h.starts (fun s _ ih t ht => ?_) hs
  obtain ⟨s', hs', hks⟩ := mem_map.mp ih
  obtain ⟨u, hu, hku⟩ := hkey s s' hks.symm t ht
  exact hku ▸ h.closed s' hs' u hu

theorem Searched.finite [DecidableEq κ] (h : Searched key next starts out) (hkey : KeyRespects key next) :
    {k | ∃ s, Reach next starts s ∧ key s = k}.Finite := by
  refine (out.map key).toFinset.finite_toSet.subset ?_
  rintro _ ⟨s, hs, rfl⟩
  simpa using h.key_mem hkey hs

/-- A search with finitely many keys to meet returns. The measure is the number
of keys not met yet, then the length of the worklist. -/
theorem PopInv.terminates [DecidableEq κ]
    (hfin : {k | ∃ s, Reach next starts s ∧ key s = k}.Finite) :
    ∀ (unmet : Nat) (pending out : List σ), PopInv key next starts pending out →
      hfin.toFinset.card - out.length ≤ unmet →
      ∃ fuel result, popSearch key next fuel pending out = some result
  | _, [], out, _, _ => ⟨0, out, rfl⟩
  | unmet, s :: pending, out, h, hcard => by
      by_cases hseen : key s ∈ out.map key
      · obtain ⟨fuel, result, hrun⟩ := PopInv.terminates hfin unmet pending out (h.skip hseen) hcard
        exact ⟨fuel + 1, result, by rw [popSearch, if_pos hseen, hrun]⟩
      · have hvisit := h.visit hseen
        -- the keys met are distinct reachable keys, so there is room for one more
        have hle : ((s :: out).map key).toFinset ⊆ hfin.toFinset := fun k hk => by
          obtain ⟨t, ht, rfl⟩ := mem_map.mp (mem_toFinset.mp hk)
          exact hfin.mem_toFinset.mpr ⟨t, hvisit.sound t (Or.inr ht), rfl⟩
        have hlt : out.length < hfin.toFinset.card := by
          have hcards := Finset.card_le_card hle
          rwa [toFinset_card_of_nodup hvisit.nodup, length_map] at hcards
        match unmet, hcard with
        | 0, hcard => omega
        | unmet + 1, hcard =>
            obtain ⟨fuel, result, hrun⟩ := PopInv.terminates hfin unmet _ _ hvisit (by
              rw [length_cons]
              omega)
            exact ⟨fuel + 1, result, by rw [popSearch, if_neg hseen, hrun]⟩
  termination_by unmet pending => (unmet, pending.length)

theorem popSearch_terminates [DecidableEq κ]
    (hfin : {k | ∃ s, Reach next starts s ∧ key s = k}.Finite) :
    ∃ fuel result, popSearch key next fuel starts [] = some result :=
  PopInv.terminates hfin _ starts [] .init le_rfl

/-- Inside a finite set closed under successors a bounded number of turns is enough:
one for each state that is pending, and those a state not met yet can still push. -/
theorem popSearch_returns [DecidableEq σ] {next : σ → List σ} {states : Finset σ} {width : Nat}
    (hclosed : ∀ s ∈ states, ∀ t ∈ next s, t ∈ states)
    (hwidth : ∀ s ∈ states, (next s).length ≤ width) :
    ∀ (fuel : Nat) (pending out : List σ), (∀ s ∈ pending, s ∈ states) → (∀ s ∈ out, s ∈ states) →
      out.Nodup → pending.length + (states.card - out.length) * width ≤ fuel →
      ∃ result, popSearch id next fuel pending out = some result
  | fuel, [], out, _, _, _, _ => ⟨out, popSearch_nil fuel out⟩
  | 0, _ :: _, _, _, _, _, hfuel => by
      rw [length_cons] at hfuel
      omega
  | fuel + 1, s :: pending, out, hpending, hout, hnodup, hfuel => by
      have hs : s ∈ states := hpending s mem_cons_self
      have hrest : ∀ t ∈ pending, t ∈ states := fun t ht => hpending t (mem_cons_of_mem _ ht)
      rw [length_cons] at hfuel
      by_cases hseen : s ∈ out
      · obtain ⟨result, hrun⟩ := popSearch_returns hclosed hwidth fuel pending out hrest hout hnodup
          (by omega)
        exact ⟨result, by rw [popSearch, map_id, id, if_pos hseen, hrun]⟩
      · have hnodup' : (s :: out).Nodup := nodup_cons.mpr ⟨hseen, hnodup⟩
        have hout' : ∀ t ∈ s :: out, t ∈ states := by
          rintro t (_ | ⟨_, ht⟩)
          · exact hs
          · exact hout t ht
        have hroom : out.length < states.card := by
          have hle : (s :: out).toFinset ⊆ states := fun t ht => hout' t (mem_toFinset.mp ht)
          have hcards := Finset.card_le_card hle
          rwa [toFinset_card_of_nodup hnodup', length_cons] at hcards
        have hturns : (states.card - (s :: out).length) * width + width =
            (states.card - out.length) * width := by
          rw [length_cons, ← Nat.succ_mul]
          congr 1
          omega
        have hnext := hwidth s hs
        obtain ⟨result, hrun⟩ := popSearch_returns hclosed hwidth fuel ((next s).reverse ++ pending)
          (s :: out) (fun t ht => (mem_append.mp ht).elim
            (fun ht => hclosed s hs t (mem_reverse.mp ht)) (hrest t)) hout' hnodup' (by
              rw [length_append, length_reverse]
              omega)
        exact ⟨result, by rw [popSearch, map_id, id, if_neg hseen, hrun]⟩

/-- More fuel changes nothing. -/
theorem popSearch_mono [DecidableEq κ] : ∀ {fuel : Nat} {pending out result : List σ} (more : Nat),
    popSearch key next fuel pending out = some result →
    popSearch key next (fuel + more) pending out = some result
  | fuel, [], out, _, more, h => by
      rwa [popSearch_nil] at h ⊢
  | 0, _ :: _, _, _, _, h => by cases h
  | fuel + 1, s :: pending, out, result, more, h => by
      rw [popSearch] at h
      rw [Nat.add_right_comm, popSearch]
      split at h
      · next hseen => rw [if_pos hseen, popSearch_mono more h]
      · next hnew => rw [if_neg hnew, popSearch_mono more h]

theorem Searched.restart (h : Searched key next starts out) (start : σ) :
    PopInv key next (start :: starts) [start] out where
  sound := by
    rintro s (hs | hs)
    · exact .start (mem_singleton.mp hs ▸ mem_cons_self)
    · obtain ⟨r, hr, hrs⟩ := h.sound s hs
      exact ⟨r, mem_cons_of_mem _ hr, hrs⟩
  starts := fun s hs => (mem_cons.mp hs).imp mem_singleton.mpr (h.starts s)
  closed := fun s hs t ht => Or.inr (h.closed s hs t ht)
  nodup := h.nodup

theorem Searched.nil : Searched key next [] [] where
  sound := nofun
  starts := nofun
  closed := nofun
  nodup := nodup_nil

/-- Where the key is the whole state, the search finds what is reachable and no more. -/
theorem Searched.mem_iff {next : σ → List σ} {starts out : List σ}
    (h : Searched id next starts out) {s : σ} : s ∈ out ↔ Reach next starts s := by
  refine ⟨h.sound s, fun hs => ?_⟩
  have hkey : KeyRespects id next := fun a b hab t ht => ⟨t, (show a = b from hab) ▸ ht, rfl⟩
  simpa using h.key_mem hkey hs

end Pop

/-! ## Marking at the push -/

section Push

/-- Puts the states that were not met yet on the worklist, in order. -/
def pushNew [DecidableEq σ] : List σ → (pending seen : List σ) → List σ × List σ
  | [], pending, seen => (pending, seen)
  | t :: ts, pending, seen =>
      if t ∈ seen then pushNew ts pending seen else pushNew ts (t :: pending) (t :: seen)

/-- Takes the last state pushed and pushes its new successors; `seen` may hold
states met before. Returns the states met and, in the order they were taken,
what `emit` says of each. -/
def pushSearch [DecidableEq σ] (next : σ → List σ) (emit : σ → List ε) :
    Nat → (pending seen : List σ) → (emitted : List ε) → Option (List σ × List ε)
  | _, [], seen, emitted => some (seen, emitted)
  | 0, _ :: _, _, _ => none
  | fuel + 1, s :: pending, seen, emitted =>
      let (pending, seen) := pushNew (next s) pending seen
      pushSearch next emit fuel pending seen (emitted ++ emit s)

variable {next : σ → List σ} {emit : σ → List ε} {starts pending seen : List σ}

theorem mem_pushNew [DecidableEq σ] {s : σ} : ∀ (ts pending seen : List σ),
    (s ∈ (pushNew ts pending seen).1 ↔ s ∈ pending ∨ (s ∈ ts ∧ s ∉ seen)) ∧
      (s ∈ (pushNew ts pending seen).2 ↔ s ∈ seen ∨ s ∈ ts)
  | [], pending, seen => by simp [pushNew]
  | t :: ts, pending, seen => by
      rw [pushNew]
      split
      · next ht =>
        obtain ⟨hp, hs⟩ := mem_pushNew ts pending seen
        have hmet : s = t → s ∈ seen := fun he => he ▸ ht
        refine ⟨hp.trans ?_, hs.trans ?_⟩
        · rw [mem_cons]
          exact or_congr_right (and_congr_left fun hns =>
            (or_iff_right fun he => hns (hmet he)).symm)
        · rw [mem_cons, ← or_assoc, or_iff_left_of_imp hmet]
      · next ht =>
        obtain ⟨hp, hs⟩ := mem_pushNew ts (t :: pending) (t :: seen)
        have hnew : s = t → s ∉ seen := fun he => he ▸ ht
        refine ⟨hp.trans ?_, hs.trans ?_⟩
        · simp only [mem_cons, not_or]
          constructor
          · rintro ((he | hm) | ⟨hm, -, hns⟩)
            · exact Or.inr ⟨Or.inl he, hnew he⟩
            · exact Or.inl hm
            · exact Or.inr ⟨Or.inr hm, hns⟩
          · rintro (hm | ⟨he | hm, hns⟩)
            · exact Or.inl (Or.inr hm)
            · exact Or.inl (Or.inl he)
            · by_cases he : s = t
              · exact Or.inl (Or.inl he)
              · exact Or.inr ⟨hm, he, hns⟩
        · simp only [mem_cons]
          rw [or_comm (a := s = t), or_assoc]

/-- Every state put on the worklist is one more state met. -/
theorem pushNew_length [DecidableEq σ] : ∀ (ts pending seen : List σ), seen.Nodup →
    (pushNew ts pending seen).2.Nodup ∧ (pushNew ts pending seen).1.length + seen.length =
      pending.length + (pushNew ts pending seen).2.length
  | [], _, _, h => ⟨h, rfl⟩
  | t :: ts, pending, seen, h => by
      rw [pushNew]
      split
      · exact pushNew_length ts pending seen h
      · next ht =>
        obtain ⟨hnodup, hlen⟩ := pushNew_length ts (t :: pending) (t :: seen)
          (nodup_cons.mpr ⟨ht, h⟩)
        refine ⟨hnodup, ?_⟩
        simp only [length_cons] at hlen
        omega

/-- Between two turns of the loop: what is on the worklist has been met, and
what has been met is on it or has its successors met. -/
structure PushInv (next : σ → List σ) (pending seen : List σ) : Prop where
  met : ∀ s ∈ pending, s ∈ seen
  closed : ∀ s ∈ seen, s ∈ pending ∨ ∀ t ∈ next s, t ∈ seen

theorem PushInv.turn [DecidableEq σ] {s : σ} (h : PushInv next (s :: pending) seen) :
    PushInv next (pushNew (next s) pending seen).1 (pushNew (next s) pending seen).2 where
  met := fun t ht => (mem_pushNew _ _ _).2.mpr <|
    ((mem_pushNew _ _ _).1.mp ht).imp (fun ht => h.met t (mem_cons_of_mem _ ht)) And.left
  closed := fun t ht => by
    by_cases hseen : t ∈ seen
    · rcases h.closed t hseen with hpending | hclosed
      · rcases mem_cons.mp hpending with rfl | hpending
        · exact Or.inr fun u hu => (mem_pushNew _ _ _).2.mpr (Or.inr hu)
        · exact Or.inl ((mem_pushNew _ _ _).1.mpr (Or.inl hpending))
      · exact Or.inr fun u hu => (mem_pushNew _ _ _).2.mpr (Or.inl (hclosed u hu))
    · have hnew := ((mem_pushNew _ _ _).2.mp ht).resolve_left hseen
      exact Or.inl ((mem_pushNew _ _ _).1.mpr (Or.inr ⟨hnew, hseen⟩))

/-- A new state is pending and everything else stays closed. -/
theorem PushInv.restart (h : PushInv next [] seen) (start : σ) :
    PushInv next [start] (start :: seen) where
  met := fun s hs => mem_singleton.mp hs ▸ mem_cons_self
  closed := fun s hs => by
    rcases mem_cons.mp hs with rfl | hs
    · exact Or.inl (mem_singleton_self _)
    · have hnext := (h.closed s hs).resolve_left not_mem_nil
      exact Or.inr fun t ht => mem_cons_of_mem _ (hnext t ht)

/-- What a search that returned has met: what it started from, closed under
successors and nothing that is not reachable. -/
structure Spread (next : σ → List σ) (pending seen out : List σ) : Prop where
  keeps : ∀ s ∈ seen, s ∈ out
  closed : ∀ s ∈ out, ∀ t ∈ next s, t ∈ out
  sound : ∀ s ∈ out, s ∈ seen ∨ Reach next pending s

theorem PushInv.spread [DecidableEq σ] : ∀ {fuel : Nat} {pending seen out : List σ}
    {emitted emitted' : List ε}, PushInv next pending seen →
    pushSearch next emit fuel pending seen emitted = some (out, emitted') →
    Spread next pending seen out
  | fuel, [], seen, out, _, _, h, hrun => by
      have hout : seen = out := by cases fuel <;> cases hrun <;> rfl
      subst hout
      refine ⟨fun _ hs => hs, fun s hs => ?_, fun s hs => Or.inl hs⟩
      exact (h.closed s hs).resolve_left not_mem_nil
  | 0, _ :: _, _, _, _, _, _, hrun => by cases hrun
  | fuel + 1, s :: pending, seen, out, _, _, h, hrun => by
      rw [pushSearch] at hrun
      have hnext := h.turn.spread hrun
      refine ⟨fun t ht => hnext.keeps t ((mem_pushNew _ _ _).2.mpr (Or.inl ht)), hnext.closed, ?_⟩
      have hs : Reach next (s :: pending) s := .start mem_cons_self
      have hpushed : ∀ t, t ∈ pending ∨ t ∈ next s → Reach next (s :: pending) t := by
        rintro t (ht | ht)
        · exact .start (mem_cons_of_mem _ ht)
        · exact hs.step ht
      intro t ht
      rcases hnext.sound t ht with hmet | hreach
      · exact ((mem_pushNew _ _ _).2.mp hmet).imp id fun ht => hpushed t (Or.inr ht)
      · refine Or.inr (hreach.induct (fun r hr => ?_) fun _ _ ih _ hu => ih.step hu)
        exact hpushed r (((mem_pushNew _ _ _).1.mp hr).imp id And.left)

/-- The states met stay distinct, and only states say what was emitted. -/
theorem pushSearch_nodup [DecidableEq σ] : ∀ {fuel : Nat} {pending seen out : List σ}
    {emitted emitted' : List ε}, seen.Nodup →
    pushSearch next emit fuel pending seen emitted = some (out, emitted') →
    out.Nodup ∧ ∀ e ∈ emitted', e ∈ emitted ∨ ∃ s, e ∈ emit s
  | fuel, [], seen, out, emitted, emitted', h, hrun => by
      have hout : (seen, emitted) = (out, emitted') := by cases fuel <;> exact Option.some.inj hrun
      cases hout
      exact ⟨h, fun _ he => Or.inl he⟩
  | 0, _ :: _, _, _, _, _, _, hrun => by cases hrun
  | fuel + 1, s :: pending, seen, out, emitted, emitted', h, hrun => by
      rw [pushSearch] at hrun
      obtain ⟨hnodup, hemit⟩ := pushSearch_nodup (pushNew_length _ _ _ h).1 hrun
      refine ⟨hnodup, fun e he => (hemit e he).elim (fun he => ?_) Or.inr⟩
      exact (mem_append.mp he).imp id fun he => ⟨s, he⟩

/-- Completeness: everything reachable from a state met is met. -/
theorem Spread.mem {out : List σ} (h : Spread next pending seen out) {s t : σ} (hs : s ∈ out)
    (hst : ReflTransGen (Step next) s t) : t ∈ out := by
  induction hst with
  | refl => exact hs
  | tail _ hbc ih => exact h.closed _ ih _ hbc

/-- What a search that returned has emitted: what it had before, and what every
state it took says. The states met before and not pending were not taken. -/
structure Emits (emit : σ → List ε) (pending seen out : List σ) (emitted emitted' : List ε) :
    Prop where
  keeps : ∀ e ∈ emitted, e ∈ emitted'
  complete : ∀ s ∈ out, (s ∈ seen ∧ s ∉ pending) ∨ ∀ e ∈ emit s, e ∈ emitted'
  sound : ∀ e ∈ emitted', e ∈ emitted ∨ ∃ s ∈ out, e ∈ emit s

theorem PushInv.emits [DecidableEq σ] : ∀ {fuel : Nat} {pending seen out : List σ}
    {emitted emitted' : List ε}, PushInv next pending seen →
    pushSearch next emit fuel pending seen emitted = some (out, emitted') →
    Emits emit pending seen out emitted emitted'
  | fuel, [], seen, out, emitted, emitted', h, hrun => by
      have hout : (seen, emitted) = (out, emitted') := by cases fuel <;> exact Option.some.inj hrun
      cases hout
      exact ⟨fun _ he => he, fun _ hs => Or.inl ⟨hs, not_mem_nil⟩, fun _ he => Or.inl he⟩
  | 0, _ :: _, _, _, _, _, _, hrun => by cases hrun
  | fuel + 1, s :: pending, seen, out, emitted, emitted', h, hrun => by
      have hspread := h.spread hrun
      rw [pushSearch] at hrun
      have hrest := h.turn.emits hrun
      refine ⟨fun e he => hrest.keeps e (mem_append_left _ he), fun t ht => ?_, fun e he => ?_⟩
      · rcases hrest.complete t ht with ⟨hmet, hpending⟩ | hemit
        · rw [(mem_pushNew _ _ _).1, not_or] at hpending
          by_cases hts : t = s
          · exact Or.inr fun e he =>
              hrest.keeps e (mem_append_right _ (hts ▸ he))
          · refine Or.inl ⟨?_, fun hm => (mem_cons.mp hm).elim hts hpending.1⟩
            by_contra hseen
            have hnext := ((mem_pushNew _ _ _).2.mp hmet).resolve_left hseen
            exact hpending.2 ⟨hnext, hseen⟩
        · exact Or.inr hemit
      · rcases hrest.sound e he with he | hfrom
        · refine (mem_append.mp he).imp id fun he => ⟨s, ?_, he⟩
          exact hspread.keeps s (h.met s mem_cons_self)
        · exact Or.inr hfrom

/-- More fuel changes nothing. -/
theorem pushSearch_mono [DecidableEq σ] : ∀ {fuel : Nat} {pending seen out : List σ}
    {emitted emitted' : List ε} (more : Nat),
    pushSearch next emit fuel pending seen emitted = some (out, emitted') →
    pushSearch next emit (fuel + more) pending seen emitted = some (out, emitted')
  | fuel, [], _, _, _, _, more, h => by
      cases fuel <;> cases more <;> exact h
  | 0, _ :: _, _, _, _, _, _, h => by cases h
  | fuel + 1, s :: pending, seen, _, _, _, more, h => by
      rw [pushSearch] at h
      rw [Nat.add_right_comm, pushSearch]
      exact pushSearch_mono more h

/-- Inside a finite set closed under successors the search returns; the fuel is
the number of states on the worklist and not met yet. -/
theorem pushSearch_terminates [DecidableEq σ] {states : Finset σ}
    (hclosed : ∀ s ∈ states, ∀ t ∈ next s, t ∈ states) :
    ∀ (fuel : Nat) {pending seen : List σ} (emitted : List ε), PushInv next pending seen →
      (∀ s ∈ seen, s ∈ states) → seen.Nodup →
      pending.length + states.card ≤ fuel + seen.length →
      ∃ out emitted', pushSearch next emit fuel pending seen emitted = some (out, emitted')
  | fuel, [], seen, emitted, _, _, _, _ => ⟨seen, emitted, by cases fuel <;> rfl⟩
  | 0, s :: pending, seen, emitted, h, hsub, hnodup, hfuel => by
      have hle : seen.length ≤ states.card := by
        rw [← toFinset_card_of_nodup hnodup]
        exact Finset.card_le_card fun t ht => hsub t (mem_toFinset.mp ht)
      simp only [length_cons] at hfuel
      omega
  | fuel + 1, s :: pending, seen, emitted, h, hsub, hnodup, hfuel => by
      have hs : s ∈ states := hsub s (h.met s mem_cons_self)
      obtain ⟨hnodup', hlen⟩ := pushNew_length (next s) pending seen hnodup
      have hsub' : ∀ t ∈ (pushNew (next s) pending seen).2, t ∈ states := fun t ht =>
        ((mem_pushNew _ _ _).2.mp ht).elim (hsub t) (hclosed s hs t)
      rw [pushSearch]
      refine pushSearch_terminates hclosed fuel _ h.turn hsub' hnodup' ?_
      simp only [length_cons] at hfuel
      omega

end Push

/-! ## Leaving a set

A path that starts inside a set and ends outside it leaves it for good along one
of its steps. -/

/-- The steps that stay outside `inside`. -/
def Outside (r : σ → σ → Prop) (inside : σ → Prop) (a b : σ) : Prop := r a b ∧ ¬ inside a

theorem exists_last_exit {r : σ → σ → Prop} (inside : σ → Prop) {a b : σ}
    (h : ReflTransGen r a b) (ha : inside a) (hb : ¬ inside b) :
    ∃ c d, ReflTransGen r a c ∧ inside c ∧ r c d ∧ ¬ inside d ∧
      ReflTransGen (Outside r inside) d b := by
  induction h with
  | refl => exact absurd ha hb
  | @tail m last ham hml ih =>
      by_cases hm : inside m
      · exact ⟨m, last, ham, hm, hml, hb, .refl⟩
      · obtain ⟨c, d, hac, hc, hcd, hd, hdm⟩ := ih hm
        exact ⟨c, d, hac, hc, hcd, hd, hdm.tail ⟨hml, hm⟩⟩

/-! ## Finitely many states

Along finitely branching successors the states reachable from one that starts
no infinite path are finitely many. -/

section Finite

variable {next : σ → List σ}

theorem finite_of_acc {s : σ} (h : Acc (fun b a => Step next a b) s) :
    {t | ReflTransGen (Step next) s t}.Finite := by
  induction h with
  | intro s _ ih =>
      have hsub : {t | ReflTransGen (Step next) s t} ⊆
          {s} ∪ ⋃ t ∈ {t | t ∈ next s}, {u | ReflTransGen (Step next) t u} := by
        intro u hu
        rcases ReflTransGen.cases_head hu with rfl | ⟨t, hst, htu⟩
        · exact Or.inl rfl
        · exact Or.inr (Set.mem_biUnion (show t ∈ {t | t ∈ next s} from hst) htu)
      refine Set.Finite.subset ((Set.finite_singleton s).union ?_) hsub
      exact (next s).finite_toSet.biUnion fun t ht => ih t ht

/-- Where no reachable state is on a cycle and the reachable states are finitely
many, no path is infinite. -/
theorem acc_of_no_cycle {r : σ → σ → Prop} {s : σ} (hfin : {t | ReflTransGen r s t}.Finite)
    (hno : ∀ t, ReflTransGen r s t → ¬ TransGen r t t) : Acc (fun b a => r a b) s := by
  have : Finite {t | ReflTransGen r s t} := hfin
  let below : {t | ReflTransGen r s t} → {t | ReflTransGen r s t} → Prop :=
    fun b a => TransGen r a b
  have : IsTrans _ below := ⟨fun _ _ _ hba hcb => TransGen.trans hcb hba⟩
  have : Std.Irrefl below := ⟨fun t => hno t t.2⟩
  have hwf : WellFounded below := Finite.wellFounded_of_trans_of_irrefl below
  suffices hacc : ∀ t : {t | ReflTransGen r s t}, Acc (fun b a => r a b) t.1 from
    hacc ⟨s, .refl⟩
  intro t
  induction t using hwf.induction with
  | h t ih => exact Acc.intro _ fun u hu => ih ⟨u, t.2.tail hu⟩ (TransGen.single hu)

end Finite

end Worklist
