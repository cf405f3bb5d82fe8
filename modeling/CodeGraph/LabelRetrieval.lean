import CodeGraph.RankFusion

/-!
# Label-filtered retrieval

`search::hybrid::retrieve_ranked` asks a retriever for more and more of its hits, until enough
of them have the label of the filter. Products of `usize` keep their low 64 bits, as a release
build computes them.
-/

namespace CodeGraph

open List

namespace LabelRetrieval

open RankFusion (RankedEntry)

structure SearchOptions where
  limit : ℕ
  limit_lt : limit < 2 ^ 64
  labelFilter : Option Text

structure Candidate where
  key : Text
  label : Text

def overfetchFactor : ℕ := 3

def mixedCorpusHeadroom : ℕ := 2

def maxFetchLimit : ℕ := 4000

def usizeMul (a b : ℕ) : ℕ := a * b % 2 ^ 64

def baseFetchLimit (options : SearchOptions) : ℕ :=
  usizeMul (usizeMul options.limit overfetchFactor) mixedCorpusHeadroom

def eqIgnoreAsciiCase (a b : Text) : Bool := a.map Char.toLower == b.map Char.toLower

def passesLabelFilter (options : SearchOptions) (candidate : Candidate) : Bool :=
  match options.labelFilter with
  | some filter => eqIgnoreAsciiCase candidate.label filter
  | none => true

def asRanking (keys : List Text) : List RankedEntry :=
  keys.zipIdx.map fun (key, i) => ⟨key, i + 1⟩

section Loop

variable (fetch : ℕ → Except Text (List Candidate)) (options : SearchOptions)

/-- The number of hits with the label that is enough. -/
def target : ℕ := usizeMul options.limit overfetchFactor

def survivors (hits : List Candidate) : List Text :=
  (hits.filter (passesLabelFilter options)).map Candidate.key

/-- The loop at a depth; `none` when the fuel is used up. -/
def retrieveFrom : ℕ → ℕ → Option (Except Text (List RankedEntry))
  | 0, _ => none
  | fuel + 1, fetchLimit =>
      match fetch fetchLimit with
      | .error e => some (.error e)
      | .ok hits =>
          let kept := survivors options hits
          if target options ≤ kept.length ∨ hits.length < fetchLimit ∨
              maxFetchLimit ≤ fetchLimit then
            some (.ok (asRanking kept))
          else retrieveFrom fuel (min (usizeMul fetchLimit 2) maxFetchLimit)

def retrieveRanked (fuel : ℕ) : Option (Except Text (List RankedEntry)) :=
  retrieveFrom fetch options fuel (baseFetchLimit options)

end Loop

/-- A retriever of a fixed list of hits. -/
def firstOf (hits : List Candidate) (n : ℕ) : Except Text (List Candidate) := .ok (hits.take n)

/-! ## What a result shows -/

variable (options : SearchOptions) (hits : List Candidate)

/-- The first `n` hits are enough, are all, or reach the ceiling. -/
def DeepEnough (n : ℕ) : Prop :=
  options.limit * overfetchFactor ≤ (survivors options (hits.take n)).length ∨
    hits.length ≤ n ∨ maxFetchLimit ≤ n

/-- The loop ends with the survivors of the first hits, of which there are enough. For a
limit other than zero, no survivor means that none is above the ceiling. -/
def RetrievesAll : Prop :=
  ∃ fuel n, retrieveRanked (firstOf hits) options fuel =
      some (.ok (asRanking (survivors options (hits.take n)))) ∧
    DeepEnough options hits n ∧
    (options.limit ≠ 0 → survivors options (hits.take n) = [] →
      survivors options (hits.take maxFetchLimit) = [])

@[simp] theorem length_asRanking (keys : List Text) : (asRanking keys).length = keys.length := by
  rw [asRanking, length_map, length_zipIdx]

theorem survivors_append (before after : List Candidate) :
    survivors options (before ++ after) = survivors options before ++ survivors options after := by
  rw [survivors, filter_append, map_append]
  rfl

variable {options hits}

theorem length_survivors_take_le (n : ℕ) : (survivors options (hits.take n)).length ≤ n := by
  rw [survivors, length_map]
  exact (length_filter_le _ _).trans (length_take_le n hits)

theorem survivors_take_of_le (options : SearchOptions) (hits : List Candidate) {n m : ℕ}
    (h : n ≤ m) : survivors options (hits.take m) =
    survivors options (hits.take n) ++ survivors options ((hits.take m).drop n) := by
  rw [← survivors_append, ← Nat.min_eq_left h, ← take_take, Nat.min_eq_left h,
    take_append_drop]

theorem survivors_take_mono (options : SearchOptions) (hits : List Candidate) {n m : ℕ}
    (h : n ≤ m) :
    survivors options (hits.take n) <+: survivors options (hits.take m) :=
  ⟨_, (survivors_take_of_le options hits h).symm⟩

theorem DeepEnough.empty {n : ℕ} (h : DeepEnough options hits n) (hlimit : options.limit ≠ 0)
    (hnil : survivors options (hits.take n) = []) :
    survivors options (hits.take maxFetchLimit) = [] := by
  rcases h with henough | hall | hceiling
  · rw [hnil, length_nil, overfetchFactor] at henough
    omega
  · rw [take_of_length_le hall] at hnil
    have := survivors_take_mono options hits
      (Nat.min_le_left hits.length maxFetchLimit)
    rw [take_length, hnil] at this
    rcases le_total hits.length maxFetchLimit with hle | hle
    · rw [take_of_length_le hle, hnil]
    · rw [Nat.min_eq_right hle] at this
      exact prefix_nil.mp this
  · have := survivors_take_mono options hits hceiling
    rw [hnil] at this
    exact prefix_nil.mp this

/-! ## One pass through the loop -/

/-- The three conditions under which the loop ends. -/
def Stops (options : SearchOptions) (hits : List Candidate) (d : ℕ) : Prop :=
  target options ≤ (survivors options (hits.take d)).length ∨ hits.length < d ∨ maxFetchLimit ≤ d

theorem retrieveFrom_succ (fuel d : ℕ) : retrieveFrom (firstOf hits) options (fuel + 1) d =
    if target options ≤ (survivors options (hits.take d)).length ∨ (hits.take d).length < d ∨
        maxFetchLimit ≤ d then
      some (.ok (asRanking (survivors options (hits.take d))))
    else retrieveFrom (firstOf hits) options fuel (min (usizeMul d 2) maxFetchLimit) := rfl

theorem retrieveFrom_of_stops {d : ℕ} (h : Stops options hits d) (fuel : ℕ) :
    retrieveFrom (firstOf hits) options (fuel + 1) d =
      some (.ok (asRanking (survivors options (hits.take d)))) := by
  rw [retrieveFrom_succ, if_pos]
  rcases h with h | h | h
  · exact .inl h
  · exact .inr (.inl (by rw [length_take]; omega))
  · exact .inr (.inr h)

theorem retrieveFrom_of_not_stops {d : ℕ} (h : ¬ Stops options hits d) (fuel : ℕ) :
    retrieveFrom (firstOf hits) options (fuel + 1) d =
      retrieveFrom (firstOf hits) options fuel (min (d * 2) maxFetchLimit) := by
  simp only [Stops, not_or] at h
  have hd : usizeMul d 2 = d * 2 := by
    simp only [usizeMul, maxFetchLimit] at *
    omega
  rw [retrieveFrom_succ, if_neg, hd]
  rintro (h' | h' | h')
  · exact h.1 h'
  · rw [length_take] at h'
    omega
  · exact h.2.2 h'

/-- From a depth that is not zero the loop ends, at the first depth of its sequence where it
stops. -/
theorem exists_retrieveFrom (options : SearchOptions) (hits : List Candidate) {d : ℕ}
    (hd : 0 < d) :
    ∃ fuel n, retrieveFrom (firstOf hits) options fuel d =
        some (.ok (asRanking (survivors options (hits.take n)))) ∧
      Stops options hits n ∧ (maxFetchLimit ≤ n ∨ ∃ k, n = d * 2 ^ k) ∧
      ∀ k, d * 2 ^ k < maxFetchLimit → Stops options hits (d * 2 ^ k) → n ≤ d * 2 ^ k := by
  induction h : maxFetchLimit - d using Nat.strong_induction_on generalizing d with
  | _ m ih =>
    by_cases hstops : Stops options hits d
    · refine ⟨1, d, retrieveFrom_of_stops hstops 0, hstops, .inr ⟨0, by simp⟩, ?_⟩
      exact fun k _ _ => Nat.le_mul_of_pos_right _ (Nat.two_pow_pos k)
    · have hbelow : d < maxFetchLimit := by
        by_contra hle
        exact hstops (.inr (.inr (not_lt.mp hle)))
      obtain ⟨fuel, n, hrun, hn, hdepth, hfirst⟩ := ih (maxFetchLimit - min (d * 2) maxFetchLimit)
        (by omega) (d := min (d * 2) maxFetchLimit) (by omega) rfl
      refine ⟨fuel + 1, n, (retrieveFrom_of_not_stops hstops fuel).trans hrun, hn, ?_, ?_⟩
      · rcases hdepth with hceiling | ⟨k, rfl⟩
        · exact .inl hceiling
        rcases le_total (d * 2) maxFetchLimit with hle | hle
        · rw [Nat.min_eq_left hle]
          exact .inr ⟨k + 1, by rw [pow_succ', mul_assoc]⟩
        · rw [Nat.min_eq_right hle]
          exact .inl (Nat.le_mul_of_pos_right _ (Nat.two_pow_pos k))
      · intro k hk hstop
        cases k with
        | zero => exact absurd (by simpa using hstop) hstops
        | succ k =>
            rw [pow_succ', ← mul_assoc] at hk hstop ⊢
            have hle : d * 2 ≤ d * 2 * 2 ^ k := Nat.le_mul_of_pos_right _ (Nat.two_pow_pos k)
            rw [Nat.min_eq_left (hle.trans hk.le)] at hfirst
            exact hfirst k hk hstop

/-- More fuel does not change a result. -/
theorem retrieveFrom_succ_of_some {fuel d : ℕ} {r : Except Text (List RankedEntry)}
    (h : retrieveFrom (firstOf hits) options fuel d = some r) :
    retrieveFrom (firstOf hits) options (fuel + 1) d = some r := by
  induction fuel generalizing d with
  | zero => nomatch h
  | succ fuel ih =>
      by_cases hstops : Stops options hits d
      · rw [retrieveFrom_of_stops hstops] at h ⊢
        exact h
      · rw [retrieveFrom_of_not_stops hstops] at h ⊢
        exact ih h

theorem retrieveFrom_mono {fuel fuel' d : ℕ} {r : Except Text (List RankedEntry)}
    (hle : fuel ≤ fuel') (h : retrieveFrom (firstOf hits) options fuel d = some r) :
    retrieveFrom (firstOf hits) options fuel' d = some r := by
  induction hle with
  | refl => exact h
  | step _ ih => exact retrieveFrom_succ_of_some ih

theorem retrieveFrom_unique {fuel fuel' d : ℕ} {r r' : Except Text (List RankedEntry)}
    (h : retrieveFrom (firstOf hits) options fuel d = some r)
    (h' : retrieveFrom (firstOf hits) options fuel' d = some r') : r = r' := by
  have hl := retrieveFrom_mono (le_max_left fuel fuel') h
  have hr := retrieveFrom_mono (le_max_right fuel fuel') h'
  exact Option.some.inj (hl.symm.trans hr)

/-! ## Limits whose products do not fit -/

/-- At the depth 0 the loop never ends when it waits for survivors. -/
theorem retrieveFrom_zero (h : 0 < target options) (fuel : ℕ) :
    retrieveFrom (firstOf hits) options fuel 0 = none := by
  induction fuel with
  | zero => rfl
  | succ fuel ih =>
      have hstops : ¬ Stops options hits 0 := by
        rintro (h' | h' | h')
        · exact absurd (h.trans_le (h'.trans (length_survivors_take_le 0))) (lt_irrefl 0)
        · exact absurd h' (Nat.not_lt_zero _)
        · exact absurd h' (by decide)
      rw [retrieveFrom_of_not_stops hstops, Nat.zero_mul]
      exact ih

/-- Three times the limit fits in a `usize`; or, the limit being another one than 2⁶³, no
survivor is between a depth of the loop at which what is left of the product is reached and the
ceiling. -/
def Fits (options : SearchOptions) (hits : List Candidate) : Prop :=
  options.limit * overfetchFactor < 2 ^ 64 ∨
    (options.limit ≠ 2 ^ 63 ∧ ∀ k, baseFetchLimit options * 2 ^ k < maxFetchLimit →
      target options ≤ (survivors options (hits.take (baseFetchLimit options * 2 ^ k))).length →
      survivors options ((hits.take maxFetchLimit).drop (baseFetchLimit options * 2 ^ k)) = [])

theorem target_of_fits (h : options.limit * overfetchFactor < 2 ^ 64) :
    target options = options.limit * overfetchFactor := Nat.mod_eq_of_lt h

theorem baseFetchLimit_eq_zero_iff :
    baseFetchLimit options = 0 ↔ options.limit = 0 ∨ options.limit = 2 ^ 63 := by
  rw [baseFetchLimit, usizeMul, usizeMul, overfetchFactor, mixedCorpusHeadroom, Nat.mod_mul_mod,
    ← Nat.dvd_iff_mod_eq_zero, show 2 ^ 64 = 2 ^ 63 * 2 from rfl,
    Nat.mul_dvd_mul_iff_right Nat.two_pos]
  constructor
  · intro hdvd
    have hcoprime : Nat.Coprime (2 ^ 63) 3 := Nat.Coprime.pow_left 63 (by decide)
    obtain ⟨c, hc⟩ := hcoprime.dvd_of_dvd_mul_right hdvd
    have hlt : 2 ^ 63 * c < 2 ^ 63 * 2 := hc ▸ options.limit_lt
    have hc2 : c < 2 := Nat.lt_of_mul_lt_mul_left hlt
    rcases Nat.le_one_iff_eq_zero_or_eq_one.mp (Nat.le_of_lt_succ hc2) with rfl | rfl
    · exact .inl (hc.trans (Nat.mul_zero _))
    · exact .inr (hc.trans (Nat.mul_one _))
  · rintro (h | h)
    · rw [h, Nat.zero_mul]
      exact Nat.dvd_zero _
    · rw [h]
      exact Nat.dvd_mul_right _ _

theorem RetrievesAll.of_deepEnough (fuel n : ℕ)
    (hrun : retrieveRanked (firstOf hits) options fuel =
      some (.ok (asRanking (survivors options (hits.take n)))))
    (hdeep : DeepEnough options hits n) : RetrievesAll options hits :=
  ⟨fuel, n, hrun, hdeep, hdeep.empty⟩

theorem retrievesAll_of_fits (h : Fits options hits) : RetrievesAll options hits := by
  rcases Nat.eq_zero_or_pos (baseFetchLimit options) with hzero | hpos
  · -- only the limit 0: the first pass is enough
    have hlimit : options.limit = 0 := by
      rcases baseFetchLimit_eq_zero_iff.mp hzero with h0 | h63
      · exact h0
      · rcases h with h | h
        · rw [h63, overfetchFactor] at h
          omega
        · exact absurd h63 h.1
    refine RetrievesAll.of_deepEnough 1 0 ?_ (.inl ?_)
    · rw [retrieveRanked, hzero]
      exact retrieveFrom_of_stops (.inl (by simp [target, hlimit, usizeMul])) 0
    · simp [hlimit]
  · obtain ⟨fuel, n, hrun, hstops, hdepth, -⟩ :=
      exists_retrieveFrom options hits hpos
    rcases hstops with henough | hall | hceiling
    · rcases h with hfits | ⟨-, hnone⟩
      · exact RetrievesAll.of_deepEnough _ _ hrun (.inl (target_of_fits hfits ▸ henough))
      rcases hdepth with hceiling | ⟨k, rfl⟩
      · exact RetrievesAll.of_deepEnough _ _ hrun (.inr (.inr hceiling))
      by_cases hbelow : baseFetchLimit options * 2 ^ k < maxFetchLimit
      · -- no survivor up to the ceiling is missing
        have hsame := survivors_take_of_le options hits hbelow.le
        rw [hnone k hbelow henough, append_nil] at hsame
        rw [← hsame] at hrun
        exact RetrievesAll.of_deepEnough _ _ hrun (.inr (.inr le_rfl))
      · exact RetrievesAll.of_deepEnough _ _ hrun (.inr (.inr (not_lt.mp hbelow)))
    · exact RetrievesAll.of_deepEnough _ _ hrun (.inr (.inl hall.le))
    · exact RetrievesAll.of_deepEnough _ _ hrun (.inr (.inr hceiling))

/-- A result that has as many survivors as its depth shows those up to the ceiling. -/
theorem DeepEnough.length_le {n m : ℕ} (h : DeepEnough options hits n)
    (hlimit : 2 ^ 64 ≤ options.limit * overfetchFactor) (hm : m < maxFetchLimit)
    (hsame : (survivors options (hits.take n)).length ≤ m) :
    (survivors options (hits.take maxFetchLimit)).length ≤
      (survivors options (hits.take n)).length := by
  rcases h with henough | hall | hceiling
  · simp only [maxFetchLimit] at hm
    omega
  · rw [take_of_length_le hall]
    have := (survivors_take_mono options hits
      (le_max_left maxFetchLimit hits.length)).length_le
    rwa [take_of_length_le (le_max_right maxFetchLimit hits.length)] at this
  · exact (survivors_take_mono options hits hceiling).length_le

theorem fits_of_retrievesAll (h : RetrievesAll options hits) : Fits options hits := by
  obtain ⟨fuel, n, hrun, hdeep, -⟩ := h
  by_cases hfits : options.limit * overfetchFactor < 2 ^ 64
  · exact .inl hfits
  have hlimit := not_lt.mp hfits
  have h63 : options.limit ≠ 2 ^ 63 := by
    intro h63
    have htarget : 0 < target options := by
      rw [target, h63]
      decide
    rw [retrieveRanked, baseFetchLimit_eq_zero_iff.mpr (.inr h63), retrieveFrom_zero htarget]
      at hrun
    nomatch hrun
  refine .inr ⟨h63, fun k hk henough => ?_⟩
  have hpos : 0 < baseFetchLimit options := by
    refine Nat.pos_of_ne_zero fun hzero => ?_
    rcases baseFetchLimit_eq_zero_iff.mp hzero with h0 | h0
    · rw [h0] at hlimit
      omega
    · exact h63 h0
  obtain ⟨fuel', n', hrun', -, -, hfirst⟩ :=
    exists_retrieveFrom options hits hpos
  have hn' : n' ≤ baseFetchLimit options * 2 ^ k := hfirst k hk (.inl henough)
  have hsame : (survivors options (hits.take n)).length =
      (survivors options (hits.take n')).length := by
    have := congrArg List.length (Except.ok.inj (retrieveFrom_unique hrun hrun'))
    rwa [length_asRanking, length_asRanking] at this
  have hup := (survivors_take_mono options hits hn').length_le
  have hdown := hdeep.length_le hlimit hk
    (hsame ▸ (length_survivors_take_le n').trans hn')
  have hsplit := congrArg List.length
    (survivors_take_of_le options hits hk.le)
  rw [length_append] at hsplit
  exact length_eq_zero_iff.mp (by omega)

/-- Retrieval ends with the survivors of enough hits just where the products that it computes
from the limit fit, or where what is lost by that is no survivor. -/
theorem retrieves_iff_fits (options : SearchOptions) (hits : List Candidate) :
    RetrievesAll options hits ↔ Fits options hits :=
  ⟨fits_of_retrievesAll, retrievesAll_of_fits⟩

/-- For the limit 2⁶³ the first depth is zero, and so is every later one. -/
theorem limit_two_pow_63_never_ends :
    ¬ RetrievesAll ⟨2 ^ 63, by decide, none⟩ [⟨"f".toList, "Function".toList⟩] := by
  rintro ⟨fuel, n, hrun, -⟩
  have hloop : retrieveFrom (firstOf [⟨"f".toList, "Function".toList⟩])
      ⟨2 ^ 63, by decide, none⟩ fuel 0 = none := retrieveFrom_zero (by decide) fuel
  rw [retrieveRanked, baseFetchLimit_eq_zero_iff.mpr (.inr rfl), hloop] at hrun
  nomatch hrun

end LabelRetrieval

end CodeGraph
