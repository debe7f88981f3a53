import CertsManager.Clock
import CertsManager.Layout

/-!
# RetryBudget — the cap on failed issuance attempts

`retry_budget.go`.  A hostname's failures within a sliding hour, and the time until which the CA has
refused it; a companion's attempts count against its domain's hostname.

One call reads the clock more than once: for a block, for the window, and for the wait or the time
of a failure.
-/

namespace CertsManager

def retryBudgetWindow : Time := hour

structure RetryBudget where
  failures : String → List Time
  blocked : String → Option Time

namespace RetryBudget

def empty : RetryBudget :=
  ⟨fun _ => [], fun _ => none⟩

def budgetKey (name : String) : String :=
  Layout.certDomain name

/-- The failures of `host` younger than the window, oldest first.  `t.After(now - window)`. -/
def recent (b : RetryBudget) (now : Time) (host : String) : List Time :=
  (b.failures host).filter fun t => decide (now < t + retryBudgetWindow)

def prune (b : RetryBudget) (now : Time) (host : String) : RetryBudget :=
  { b with failures := Function.update b.failures host (b.recent now host) }

def block (b : RetryBudget) (name : String) (liftsAt : Time) : RetryBudget :=
  { b with blocked := Function.update b.blocked (budgetKey name) (some liftsAt) }

/-- The readings of the clock of one call. -/
structure Reads where
  block : Time
  cutoff : Time
  stamp : Time
  ordered : block ≤ cutoff ∧ cutoff ≤ stamp

/-- All in one instant. -/
abbrev Reads.once (now : Time) : Reads :=
  ⟨now, now, now, le_rfl, le_rfl⟩

/-- `ok` when another attempt may run, otherwise how long until one may.  A wait that is over by the
last reading is 0 here and not positive in the source. -/
def allow (b : RetryBudget) (max : Nat) (r : Reads) (name : String) :
    Except Time Unit × RetryBudget :=
  let host := budgetKey name
  match b.blocked host with
  | some liftsAt =>
      if r.block < liftsAt then (.error (liftsAt - r.block), b)
      else
        let b := { b with blocked := Function.update b.blocked host none }
        afterBlock b max r host
  | none => afterBlock b max r host
where
  afterBlock (b : RetryBudget) (max : Nat) (r : Reads) (host : String) :
      Except Time Unit × RetryBudget :=
    let failures := b.recent r.cutoff host
    let b := b.prune r.cutoff host
    if failures.length < max then (.ok (), b)
    else (.error (failures.headD 0 + retryBudgetWindow - r.stamp), b)

def recordFailure (b : RetryBudget) (r : Reads) (name : String) : RetryBudget :=
  let host := budgetKey name
  { b with failures := Function.update b.failures host (b.recent r.cutoff host ++ [r.stamp]) }

def reset (b : RetryBudget) (name : String) : RetryBudget :=
  let host := budgetKey name
  { b with
    failures := Function.update b.failures host []
    blocked := Function.update b.blocked host none }

/-- A block that is in force refuses; asking removes one that is not, and changes no other. -/
theorem allow_blocked (b : RetryBudget) (max : Nat) (r : Reads) (name host : String) :
    (b.allow max r name).2.blocked host = b.blocked host ∨
      (budgetKey name = host ∧ ∃ liftsAt ∈ b.blocked host, liftsAt ≤ r.block) := by
  have hafter : ∀ b : RetryBudget, (allow.afterBlock b max r (budgetKey name)).2.blocked = b.blocked := by
    intro b
    simp only [allow.afterBlock]
    split <;> rfl
  cases hb : b.blocked (budgetKey name) with
  | none => simp [allow, hb, hafter]
  | some liftsAt =>
      by_cases hnow : r.block < liftsAt
      · simp [allow, hb, hnow]
      · by_cases hhost : budgetKey name = host
        · subst hhost
          exact Or.inr ⟨rfl, liftsAt, hb, Nat.le_of_not_lt hnow⟩
        · simp [allow, hb, hnow, hafter, Function.update_of_ne (Ne.symm hhost)]

theorem allow_ok {b : RetryBudget} {max : Nat} {r : Reads} {name : String}
    (hok : (b.allow max r name).1 = .ok ()) {liftsAt : Time}
    (hb : b.blocked (budgetKey name) = some liftsAt) : liftsAt ≤ r.block := by
  by_contra hnow
  simp [allow, hb, Nat.lt_of_not_le hnow] at hok

/-- Failures only age. -/
theorem recent_length_antitone (b : RetryBudget) {now now' : Time} (hle : now ≤ now') (host : String) :
    (b.recent now' host).length ≤ (b.recent now host).length := by
  refine List.Sublist.length_le (List.monotone_filter_right _ fun t ht => ?_)
  simp only [decide_eq_true_eq] at ht ⊢
  exact Nat.lt_of_le_of_lt hle ht

/-- Asking drops what has aged out, of the name's hostname only. -/
theorem allow_failures (b : RetryBudget) (max : Nat) (r : Reads) (name host : String) :
    (b.allow max r name).2.failures host = b.failures host ∨
      budgetKey name = host ∧ (b.allow max r name).2.failures host = b.recent r.cutoff host := by
  have hafter : ∀ b' : RetryBudget, b'.failures = b.failures →
      (allow.afterBlock b' max r (budgetKey name)).2.failures host = b.failures host ∨
        budgetKey name = host ∧
          (allow.afterBlock b' max r (budgetKey name)).2.failures host = b.recent r.cutoff host := by
    intro b' hb'
    have hpruned : (allow.afterBlock b' max r (budgetKey name)).2 = b'.prune r.cutoff (budgetKey name) := by
      simp only [allow.afterBlock]
      split <;> rfl
    simp only [hpruned, prune, recent, hb']
    by_cases hhost : budgetKey name = host
    · subst hhost
      exact .inr ⟨rfl, Function.update_self ..⟩
    · exact .inl (Function.update_of_ne (Ne.symm hhost) ..)
  cases hb : b.blocked (budgetKey name) with
  | none =>
      simp only [allow, hb]
      exact hafter _ rfl
  | some liftsAt =>
      by_cases hnow : r.block < liftsAt
      · exact .inl (by simp [allow, hb, hnow])
      · simp only [allow, hb, hnow, if_false]
        exact hafter _ rfl

/-- An attempt is let through below the cap. -/
theorem allow_ok_recent {b : RetryBudget} {max : Nat} {r : Reads} {name : String}
    (hok : (b.allow max r name).1 = .ok ()) : (b.recent r.cutoff (budgetKey name)).length < max := by
  have hafter : ∀ b' : RetryBudget, (allow.afterBlock b' max r (budgetKey name)).1 = .ok () →
      b'.failures = b.failures → (b.recent r.cutoff (budgetKey name)).length < max := by
    intro b' hok' hb'
    by_contra hmax
    simp [allow.afterBlock, recent, hb', show ¬((b.failures (budgetKey name)).filter _).length < max
      from hmax] at hok'
  cases hb : b.blocked (budgetKey name) with
  | none =>
      simp only [allow, hb] at hok
      exact hafter _ hok rfl
  | some liftsAt =>
      by_cases hnow : r.block < liftsAt
      · simp [allow, hb, hnow] at hok
      · simp only [allow, hb, hnow, if_false] at hok
        exact hafter _ hok rfl

end RetryBudget

end CertsManager
