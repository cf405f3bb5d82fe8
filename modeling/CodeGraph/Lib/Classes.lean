import CodeGraph.Lib.Worklist

/-!
# The classes of a symmetric relation

A worklist search that takes the oldest state first, and the classes it finds
when it is started again from every state it has not met: each state is in the
class of the states it reaches, and no two classes meet (`ClassInv.found`).
-/

namespace Worklist

open List Relation

variable {σ : Type*}

/-! ## Marking at the push, oldest first -/

section Queue

/-- As `pushSearch`, with a queue for the worklist. Returns the states met and
the states taken, in the order they were taken. -/
def queueSearch [DecidableEq σ] (next : σ → List σ) :
    Nat → (queue seen taken : List σ) → Option (List σ × List σ)
  | _, [], seen, taken => some (seen, taken)
  | 0, _ :: _, _, _ => none
  | fuel + 1, s :: queue, seen, taken =>
      let (found, seen) := pushNew (next s) [] seen
      queueSearch next fuel (queue ++ found.reverse) seen (taken ++ [s])

variable {next : σ → List σ} {queue seen : List σ}

theorem mem_found [DecidableEq σ] {s t : σ} :
    t ∈ queue ++ (pushNew (next s) [] seen).1.reverse ↔ t ∈ (pushNew (next s) queue seen).1 := by
  rw [mem_append, mem_reverse, (mem_pushNew _ _ _).1, (mem_pushNew _ _ _).1,
    or_iff_right (a := t ∈ []) not_mem_nil]

theorem pushNew_seen [DecidableEq σ] : ∀ (ts pending pending' seen : List σ),
    (pushNew ts pending seen).2 = (pushNew ts pending' seen).2
  | [], _, _, _ => rfl
  | t :: ts, pending, pending', seen => by
      rw [pushNew, pushNew]
      split
      · exact pushNew_seen ts pending pending' seen
      · exact pushNew_seen ts _ _ _

theorem PushInv.enqueue [DecidableEq σ] {s : σ} (h : PushInv next (s :: queue) seen) :
    PushInv next (queue ++ (pushNew (next s) [] seen).1.reverse) (pushNew (next s) [] seen).2 := by
  have hturn := h.turn
  rw [pushNew_seen (next s) queue []] at hturn
  exact ⟨fun t ht => hturn.met t (mem_found.mp ht),
    fun t ht => (hturn.closed t ht).imp_left mem_found.mpr⟩

/-- What a search that returned has met and taken. -/
structure Swept (next : σ → List σ) (queue seen taken out taken' : List σ) : Prop where
  spread : Spread next queue seen out
  taken : ∀ s, s ∈ taken' ↔ s ∈ taken ∨ s ∈ out ∧ (s ∈ queue ∨ s ∉ seen)
  nodup : out.Nodup

theorem PushInv.swept [DecidableEq σ] : ∀ {fuel : Nat} {queue seen taken out taken' : List σ},
    PushInv next queue seen → seen.Nodup →
    queueSearch next fuel queue seen taken = some (out, taken') →
    Swept next queue seen taken out taken'
  | fuel, [], seen, taken, out, taken', h, hnodup, hrun => by
      have hout : (seen, taken) = (out, taken') := by cases fuel <;> exact Option.some.inj hrun
      cases hout
      refine ⟨⟨fun _ hs => hs, fun s hs => ?_, fun s hs => Or.inl hs⟩, fun s => ?_, hnodup⟩
      · exact (h.closed s hs).resolve_left not_mem_nil
      · refine (or_iff_left_of_imp ?_).symm
        rintro ⟨hs, hs' | hs'⟩
        · exact absurd hs' not_mem_nil
        · exact absurd hs hs'
  | 0, _ :: _, _, _, _, _, _, _, hrun => by cases hrun
  | fuel + 1, s :: queue, seen, taken, out, taken', h, hnodup, hrun => by
      rw [queueSearch] at hrun
      have hrest := h.enqueue.swept (pushNew_length _ _ _ hnodup).1 hrun
      have hs : Reach next (s :: queue) s := .start mem_cons_self
      have hkeep : ∀ t, t ∈ seen ∨ t ∈ next s → t ∈ out := fun t ht =>
        hrest.spread.keeps t ((mem_pushNew _ _ _).2.mpr ht)
      refine ⟨⟨fun t ht => hkeep t (Or.inl ht), hrest.spread.closed, fun t ht => ?_⟩,
        fun t => ?_, hrest.nodup⟩
      · rcases hrest.spread.sound t ht with hmet | hreach
        · exact ((mem_pushNew _ _ _).2.mp hmet).imp id fun ht => hs.step ht
        · refine Or.inr (hreach.induct (fun r hr => ?_) fun _ _ ih _ hu => ih.step hu)
          rcases (mem_pushNew _ _ _).1.mp (mem_found.mp hr) with hr | ⟨hr, -⟩
          · exact .start (mem_cons_of_mem _ hr)
          · exact hs.step hr
      · have hmet : s ∈ seen := h.met s mem_cons_self
        rw [hrest.taken, mem_append, mem_singleton, mem_found, (mem_pushNew _ _ _).1,
          (mem_pushNew _ _ _).2, mem_cons]
        by_cases hts : t = s
        · subst hts
          exact iff_of_true (Or.inl (Or.inr rfl)) (Or.inr ⟨hkeep t (Or.inl hmet), Or.inl (Or.inl rfl)⟩)
        · by_cases hseen : t ∈ seen <;> by_cases hnext : t ∈ next s <;> simp [hts, hseen, hnext]

/-- Inside a finite set closed under successors the search returns. -/
theorem queueSearch_terminates [DecidableEq σ] {states : Finset σ}
    (hclosed : ∀ s ∈ states, ∀ t ∈ next s, t ∈ states) :
    ∀ (fuel : Nat) {queue seen : List σ} (taken : List σ), PushInv next queue seen →
      (∀ s ∈ seen, s ∈ states) → seen.Nodup →
      queue.length + states.card ≤ fuel + seen.length →
      ∃ out taken', queueSearch next fuel queue seen taken = some (out, taken')
  | fuel, [], seen, taken, _, _, _, _ => ⟨seen, taken, by cases fuel <;> rfl⟩
  | 0, s :: queue, seen, taken, h, hsub, hnodup, hfuel => by
      have hle : seen.length ≤ states.card := by
        rw [← toFinset_card_of_nodup hnodup]
        exact Finset.card_le_card fun t ht => hsub t (mem_toFinset.mp ht)
      simp only [length_cons] at hfuel
      omega
  | fuel + 1, s :: queue, seen, taken, h, hsub, hnodup, hfuel => by
      have hs : s ∈ states := hsub s (h.met s mem_cons_self)
      obtain ⟨hnodup', hlen⟩ := pushNew_length (next s) [] seen hnodup
      have hsub' : ∀ t ∈ (pushNew (next s) [] seen).2, t ∈ states := fun t ht =>
        ((mem_pushNew _ _ _).2.mp ht).elim (hsub t) (hclosed s hs t)
      rw [queueSearch]
      refine queueSearch_terminates hclosed fuel _ h.enqueue hsub' hnodup' ?_
      simp only [length_cons, length_append, length_reverse, length_nil] at *
      omega

end Queue

/-! ## The classes of a symmetric relation

Searching from every state that no search before has met takes each class once. -/

section Classes

/-- One search from each of the starts that was not met before. -/
def classesFrom [DecidableEq σ] (next : σ → List σ) (fuel : Nat) :
    (starts seen : List σ) → (classes : List (List σ)) → Option (List (List σ))
  | [], _, classes => some classes
  | start :: starts, seen, classes =>
      if start ∈ seen then classesFrom next fuel starts seen classes
      else do
        let (seen, taken) ← queueSearch next fuel [start] (start :: seen) []
        classesFrom next fuel starts seen (classes ++ [taken])

variable {next : σ → List σ} {seen : List σ} {classes : List (List σ)}

theorem reach_singleton {s t : σ} : Reach next [s] t ↔ ReflTransGen (Step next) s t := by
  simp [Reach]

/-- A finite set of states that the steps do not leave, and inside which they
lead back. -/
structure Undirected (next : σ → List σ) (states : Finset σ) : Prop where
  closed : ∀ s ∈ states, ∀ t ∈ next s, t ∈ states
  back : ∀ s ∈ states, ∀ t ∈ next s, s ∈ next t

theorem Undirected.mem {states : Finset σ} (h : Undirected next states) {s t : σ}
    (hs : s ∈ states) (hst : ReflTransGen (Step next) s t) : t ∈ states := by
  induction hst with
  | refl => exact hs
  | tail _ hstep ih => exact h.closed _ ih _ hstep

theorem Undirected.reach_symm {states : Finset σ} (h : Undirected next states) {s t : σ}
    (hs : s ∈ states) (hst : ReflTransGen (Step next) s t) : ReflTransGen (Step next) t s := by
  induction hst with
  | refl => exact .refl
  | tail hsm hstep ih => exact .head (h.back _ (h.mem hs hsm) _ hstep) ih

/-- Between two searches. -/
structure ClassInv (next : σ → List σ) (seen : List σ) (classes : List (List σ)) : Prop where
  closed : PushInv next [] seen
  nodup : seen.Nodup
  cover : ∀ s, s ∈ seen ↔ ∃ c ∈ classes, s ∈ c
  sound : ∀ c ∈ classes, ∀ r ∈ c, ∀ s, s ∈ c ↔ ReflTransGen (Step next) r s
  disjoint : classes.Pairwise List.Disjoint

/-- The classes found: every state is in the class of the states reachable from
it, and no two classes meet. -/
structure Classes (next : σ → List σ) (starts : List σ) (classes : List (List σ)) : Prop where
  cover : ∀ s ∈ starts, ∃ c ∈ classes, s ∈ c
  sound : ∀ c ∈ classes, ∀ r ∈ c, ∀ s, s ∈ c ↔ ReflTransGen (Step next) r s
  disjoint : classes.Pairwise List.Disjoint

theorem Classes.exists_index {starts : List σ} (h : Classes next starts classes) {s : σ}
    (hs : s ∈ starts) : ∃ (k : Nat) (hk : k < classes.length), s ∈ classes[k] := by
  obtain ⟨c, hc, hsc⟩ := h.cover s hs
  obtain ⟨k, hk, rfl⟩ := getElem_of_mem hc
  exact ⟨k, hk, hsc⟩

/-- Two states are in one class exactly when one reaches the other. -/
theorem Classes.index_eq_iff {starts : List σ} (h : Classes next starts classes) {s t : σ}
    {a b : Nat} (ha : a < classes.length) (hb : b < classes.length) (hs : s ∈ classes[a])
    (ht : t ∈ classes[b]) : a = b ↔ ReflTransGen (Step next) s t := by
  have hclass := h.sound _ (getElem_mem ha) s hs
  constructor
  · rintro rfl
    exact (hclass t).mp ht
  · intro hst
    have hta : t ∈ classes[a] := (hclass t).mpr hst
    by_contra hne
    rcases Nat.lt_or_gt_of_ne hne with hlt | hlt
    · exact pairwise_iff_getElem.mp h.disjoint a b ha hb hlt hta ht
    · exact pairwise_iff_getElem.mp h.disjoint b a hb ha hlt ht hta

theorem ClassInv.init : ClassInv next [] [] where
  closed := ⟨nofun, nofun⟩
  nodup := nodup_nil
  cover := by simp
  sound := nofun
  disjoint := List.Pairwise.nil

theorem ClassInv.search [DecidableEq σ] {states : Finset σ} (hundirected : Undirected next states)
    (h : ClassInv next seen classes) {start : σ} (hmem : start ∈ states) (hnew : start ∉ seen)
    {fuel : Nat}
    {out taken : List σ}
    (hrun : queueSearch next fuel [start] (start :: seen) [] = some (out, taken)) :
    ClassInv next out (classes ++ [taken]) ∧ start ∈ out ∧ ∀ s ∈ seen, s ∈ out := by
  have hpush := h.closed.restart start
  have hswept := hpush.swept (nodup_cons.mpr ⟨hnew, h.nodup⟩) hrun
  have hclosed : ∀ s ∈ seen, ∀ t, ReflTransGen (Step next) s t → t ∈ seen := by
    intro s hs t hst
    induction hst with
    | refl => exact hs
    | tail _ hstep ih => exact (h.closed.closed _ ih).resolve_left not_mem_nil _ hstep
  -- what the search takes is what it reaches: nothing met before leads back to the start
  have htaken : ∀ s, s ∈ taken ↔ ReflTransGen (Step next) start s := by
    intro s
    have hfresh : ReflTransGen (Step next) start s → s ∉ seen := fun hreach hs =>
      hnew (hclosed s hs start (hundirected.reach_symm hmem hreach))
    rw [hswept.taken, or_iff_right not_mem_nil]
    constructor
    · rintro ⟨hout, hs | hs⟩
      · exact mem_singleton.mp hs ▸ .refl
      · rcases hswept.spread.sound s hout with hmet | hreach
        · exact absurd hmet hs
        · exact reach_singleton.mp hreach
    · intro hreach
      refine ⟨hswept.spread.mem (hswept.spread.keeps _ mem_cons_self) hreach, ?_⟩
      by_cases hs : s = start
      · exact Or.inl (mem_singleton.mpr hs)
      · exact Or.inr fun hmem => (mem_cons.mp hmem).elim hs (hfresh hreach)
  have hkeep : ∀ s ∈ seen, s ∈ out := fun s hs =>
    hswept.spread.keeps s (mem_cons_of_mem _ hs)
  refine ⟨⟨⟨nofun, fun s hs => Or.inr (hswept.spread.closed s hs)⟩, hswept.nodup, fun s => ?_, ?_,
    ?_⟩, hswept.spread.keeps _ mem_cons_self, hkeep⟩
  · constructor
    · intro hs
      by_cases hseen : s ∈ seen
      · obtain ⟨c, hc, hsc⟩ := (h.cover s).mp hseen
        exact ⟨c, mem_append_left _ hc, hsc⟩
      · refine ⟨taken, mem_append_right _ (mem_singleton_self _), (htaken s).mpr ?_⟩
        rcases hswept.spread.sound s hs with hmet | hreach
        · exact (mem_cons.mp hmet).resolve_right hseen ▸ .refl
        · exact reach_singleton.mp hreach
    · rintro ⟨c, hc, hsc⟩
      rcases mem_append.mp hc with hc | hc
      · exact hkeep s ((h.cover s).mpr ⟨c, hc, hsc⟩)
      · rw [mem_singleton.mp hc, hswept.taken, or_iff_right not_mem_nil] at hsc
        exact hsc.1
  · intro c hc
    rcases mem_append.mp hc with hc | hc
    · exact h.sound c hc
    · rw [mem_singleton.mp hc]
      intro r hr s
      have hto := (htaken r).mp hr
      rw [htaken]
      exact ⟨(hundirected.reach_symm hmem hto).trans, hto.trans⟩
  · refine pairwise_append.mpr ⟨h.disjoint, pairwise_singleton _ _, fun c hc d hd => ?_⟩
    rw [mem_singleton.mp hd]
    intro s hsc hst
    have hseen : s ∈ seen := (h.cover s).mpr ⟨c, hc, hsc⟩
    exact hnew (hclosed s hseen start (hundirected.reach_symm hmem ((htaken s).mp hst)))

/-- Inside a finite set closed under successors every search returns, and the
result is the classes of the starts. -/
theorem ClassInv.found [DecidableEq σ] {states : Finset σ} (hundirected : Undirected next states)
    {fuel : Nat} (hfuel : states.card ≤ fuel) :
    ∀ {starts seen : List σ} {classes : List (List σ)}, ClassInv next seen classes →
      (∀ s ∈ seen, s ∈ states) → (∀ s ∈ starts, s ∈ states) →
      ∃ result, classesFrom next fuel starts seen classes = some result ∧
        (∀ s ∈ seen, ∃ c ∈ result, s ∈ c) ∧ (∀ c ∈ result, ∀ s ∈ c, s ∈ states) ∧
        Classes next starts result
  | [], seen, classes, h, hseen, _ => by
      refine ⟨classes, rfl, fun s hs => (h.cover s).mp hs, fun c hc s hs => ?_, nofun, h.sound,
        h.disjoint⟩
      exact hseen s ((h.cover s).mpr ⟨c, hc, hs⟩)
  | start :: starts, seen, classes, h, hseen, hstarts => by
      have hrest : ∀ s ∈ starts, s ∈ states := fun s hs => hstarts s (mem_cons_of_mem _ hs)
      rw [classesFrom]
      by_cases hmet : start ∈ seen
      · obtain ⟨result, hrun, hcover, hsub, hresult⟩ := h.found hundirected hfuel hseen hrest
        refine ⟨result, by rw [if_pos hmet, hrun], hcover, hsub, ?_, hresult.sound, hresult.disjoint⟩
        exact forall_mem_cons.mpr ⟨hcover start hmet, hresult.cover⟩
      · have hsub : ∀ s ∈ start :: seen, s ∈ states :=
          forall_mem_cons.mpr ⟨hstarts start mem_cons_self, hseen⟩
        have hpush := h.closed.restart start
        obtain ⟨out, taken, hsearch⟩ := queueSearch_terminates hundirected.closed fuel [] hpush hsub
          (nodup_cons.mpr ⟨hmet, h.nodup⟩) (by
            simp only [length_cons, length_nil]
            omega)
        obtain ⟨hinv, hstart, hkeep⟩ := h.search hundirected (hstarts start mem_cons_self) hmet hsearch
        have hout : ∀ s ∈ out, s ∈ states := fun s hs => by
          have hswept := hpush.swept (nodup_cons.mpr ⟨hmet, h.nodup⟩) hsearch
          refine (hswept.spread.sound s hs).elim (hsub s) ?_
          intro hreach
          exact hundirected.mem (hstarts start mem_cons_self) (reach_singleton.mp hreach)
        obtain ⟨result, hrun, hcover, hstates, hresult⟩ := hinv.found hundirected hfuel hout hrest
        refine ⟨result, ?_, fun s hs => hcover s (hkeep s hs), hstates, ?_, hresult.sound,
          hresult.disjoint⟩
        · simp only [if_neg hmet, hsearch, Option.bind_eq_bind, Option.bind_some, hrun]
        · exact forall_mem_cons.mpr ⟨hcover start hstart, hresult.cover⟩

end Classes

end Worklist
