import Mathlib.Data.List.Basic

/-!
# Values with the questions behind them

A computation that asks questions and keeps a record of them: what it returns, and what it
asked. A question that fails is answered by nothing; what a computation makes of that is
its own affair, and the record says which questions its value rests on.
-/

universe u v w

structure Asked (Q : Type v) (α : Type u) where
  value : α
  asked : List Q

namespace Asked

variable {Q : Type v} {α β : Type u}

instance : Monad (Asked Q) where
  pure a := ⟨a, []⟩
  bind x f := ⟨(f x.value).value, x.asked ++ (f x.value).asked⟩

/-- One question, whose answer is `answer` unless it fails. -/
def ask (fails : Q → Bool) (q : Q) (answer : α) : Asked Q (Option α) :=
  ⟨if fails q then none else some answer, [q]⟩

@[simp] theorem value_pure (a : α) : (pure a : Asked Q α).value = a := rfl

@[simp] theorem asked_pure (a : α) : (pure a : Asked Q α).asked = [] := rfl

@[simp] theorem value_bind (x : Asked Q α) (f : α → Asked Q β) :
    (x >>= f).value = (f x.value).value := rfl

@[simp] theorem asked_bind (x : Asked Q α) (f : α → Asked Q β) :
    (x >>= f).asked = x.asked ++ (f x.value).asked := rfl

@[simp] theorem value_map (f : α → β) (x : Asked Q α) : (f <$> x).value = f x.value := rfl

@[simp] theorem asked_map (f : α → β) (x : Asked Q α) : (f <$> x).asked = x.asked :=
  List.append_nil _

@[simp] theorem value_ask (fails : Q → Bool) (q : Q) (answer : α) :
    (ask fails q answer).value = if fails q then none else some answer := rfl

@[simp] theorem asked_ask (fails : Q → Bool) (q : Q) (answer : α) :
    (ask fails q answer).asked = [q] := rfl

/-! ## Along a list -/

section

variable {γ : Type w}

/-- The first element that passes; nothing is asked behind it. -/
def first (p : γ → Asked Q Bool) : List γ → Asked Q (Option γ)
  | [] => ⟨none, []⟩
  | c :: cs =>
      if (p c).value then ⟨some c, (p c).asked⟩
      else ⟨(first p cs).value, (p c).asked ++ (first p cs).asked⟩

/-- The elements that pass. -/
def keep (p : γ → Asked Q Bool) : List γ → Asked Q (List γ)
  | [] => ⟨[], []⟩
  | c :: cs =>
      ⟨if (p c).value then c :: (keep p cs).value else (keep p cs).value,
        (p c).asked ++ (keep p cs).asked⟩

def gather (f : γ → Asked Q (List α)) (cs : List γ) : Asked Q (List α) :=
  ⟨cs.flatMap fun c => (f c).value, cs.flatMap fun c => (f c).asked⟩

def anyOf (p : γ → Asked Q Bool) (cs : List γ) : Asked Q Bool :=
  ⟨((first p cs).value).isSome, (first p cs).asked⟩

@[simp] theorem value_first (p : γ → Asked Q Bool) (cs : List γ) :
    (first p cs).value = cs.find? fun c => (p c).value := by
  induction cs with
  | nil => rfl
  | cons c cs ih =>
      rw [first, List.find?_cons]
      cases hp : (p c).value with
      | true => rfl
      | false => exact ih

@[simp] theorem value_keep (p : γ → Asked Q Bool) (cs : List γ) :
    (keep p cs).value = cs.filter fun c => (p c).value := by
  induction cs with
  | nil => rfl
  | cons c cs ih =>
      rw [keep, List.filter_cons, ih]

@[simp] theorem value_gather (f : γ → Asked Q (List α)) (cs : List γ) :
    (gather f cs).value = cs.flatMap fun c => (f c).value := rfl

theorem mem_asked_gather {f : γ → Asked Q (List α)} {cs : List γ} {q : Q} :
    q ∈ (gather f cs).asked ↔ ∃ c ∈ cs, q ∈ (f c).asked := List.mem_flatMap

/-- What stands behind elements that do not pass is asked about. -/
theorem mem_asked_first {p : γ → Asked Q Bool} {pre : List γ} (hpre : ∀ c ∈ pre, (p c).value = false)
    (c : γ) (post : List γ) {q : Q} (hq : q ∈ (p c).asked) :
    q ∈ (first p (pre ++ c :: post)).asked := by
  induction pre with
  | nil =>
      rw [List.nil_append, first]
      split
      · exact hq
      · exact List.mem_append_left _ hq
  | cons d pre ih =>
      rw [List.forall_mem_cons] at hpre
      rw [List.cons_append, first, if_neg (by rw [hpre.1]; decide)]
      exact List.mem_append_right _ (ih hpre.2)

end

end Asked
