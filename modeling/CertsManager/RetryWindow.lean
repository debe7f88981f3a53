import CertsManager.Names
import CertsManager.RetryBudget
import CertsManager.Window

/-!
# RetryWindow — the retry budget against its sliding hour

`retry_budget.go` over whole logs of calls, with the lower-casing of `budgetKey`.  What a hostname's
budget should say is read off the log: the failures recorded since the last reset, and the last
block.  The budget itself forgets: it prunes on each call and drops blocks that have lifted.

Whether an attempt may run is right for every log, and wherever the clock stands at each of the
readings of a call.  The wait of a refusal made in one instant is never too long, but it looks at one
thing only, the block if one is in force and otherwise the oldest failure; it is right exactly when
nothing else is left to wait for at the time it points at.
-/

namespace CertsManager
namespace RetryWindow

open Window RetryBudget

/-! ## The calls, by hostname -/

/-- `budgetKey`, of a name as it was typed. -/
def budgetKey (u : Unicode) (name : String) : String :=
  u.lower (Layout.certDomain name)

/-- `allow` once the hostname is known. -/
def allowHost (b : RetryBudget) (max : Nat) (r : Reads) (host : String) :
    Except Time Unit × RetryBudget :=
  match b.blocked host with
  | some liftsAt =>
      if r.block < liftsAt then (.error (liftsAt - r.block), b)
      else allow.afterBlock { b with blocked := Function.update b.blocked host none } max r host
  | none => allow.afterBlock b max r host

/-- For a name that is lower case already this is the budget of the rest of the development. -/
theorem allowHost_budgetKey (b : RetryBudget) (max : Nat) (r : Reads) (name : String) :
    allowHost b max r (RetryBudget.budgetKey name) = b.allow max r name := rfl

inductive Call where
  | allow (domain : String)
  | recordFailure (domain : String)
  | block (domain : String) (liftsAt : Time)
  | reset (domain : String)

structure Event where
  reads : Reads
  call : Call

section

variable (u : Unicode) (max : Nat)

def perform (b : RetryBudget) (e : Event) : RetryBudget :=
  match e.call with
  | .allow d => (allowHost b max e.reads (budgetKey u d)).2
  | .recordFailure d =>
      let host := budgetKey u d
      { b with failures :=
          Function.update b.failures host (b.recent e.reads.cutoff host ++ [e.reads.stamp]) }
  | .block d liftsAt =>
      { b with blocked := Function.update b.blocked (budgetKey u d) (some liftsAt) }
  | .reset d =>
      let host := budgetKey u d
      { b with
        failures := Function.update b.failures host []
        blocked := Function.update b.blocked host none }

/-- A new budget after the calls of a log, newest first. -/
def after : List Event → RetryBudget
  | [] => .empty
  | e :: log => perform u max (after log) e

end

/-! ## What the log says of a hostname -/

section

variable (u : Unicode) (host : String)

/-- The failures recorded since the last reset, oldest first. -/
def failuresOf : List Event → List Time
  | [] => []
  | ⟨r, .recordFailure d⟩ :: log =>
      if budgetKey u d = host then failuresOf log ++ [r.stamp] else failuresOf log
  | ⟨_, .reset d⟩ :: log => if budgetKey u d = host then [] else failuresOf log
  | ⟨_, .allow _⟩ :: log => failuresOf log
  | ⟨_, .block _ _⟩ :: log => failuresOf log

/-- When the last block since the last reset lifts. -/
def blockOf : List Event → Option Time
  | [] => none
  | ⟨_, .block d liftsAt⟩ :: log => if budgetKey u d = host then some liftsAt else blockOf log
  | ⟨_, .reset d⟩ :: log => if budgetKey u d = host then none else blockOf log
  | ⟨_, .allow _⟩ :: log => blockOf log
  | ⟨_, .recordFailure _⟩ :: log => blockOf log

/-- The block in force at `now`. -/
def inForce (now : Time) (log : List Event) : Option Time :=
  (blockOf u host log).filter fun liftsAt => decide (now < liftsAt)

/-- The failures of the last hour. -/
def lastHour (now : Time) (log : List Event) : List Time :=
  within retryBudgetWindow now (failuresOf u host log)

/-- The time the wait of a refusal at `now` points at. -/
def pointsAt (now : Time) (log : List Event) : Time :=
  match inForce u host now log with
  | some liftsAt => liftsAt
  | none => (lastHour u host now log).headD 0 + retryBudgetWindow

end

/-- The clock does not go back from one call of a log, newest first, to the next. -/
def Chronological (log : List Event) : Prop :=
  log.Pairwise fun later earlier => earlier.reads.stamp ≤ later.reads.block

instance (log : List Event) : Decidable (Chronological log) :=
  inferInstanceAs (Decidable (log.Pairwise _))

/-! ## One call -/

theorem recent_eq_within (b : RetryBudget) (now : Time) (host : String) :
    b.recent now host = within retryBudgetWindow now (b.failures host) := rfl

theorem afterBlock_snd (b : RetryBudget) (max : Nat) (r : Reads) (host : String) :
    (allow.afterBlock b max r host).2 = b.prune r.cutoff host := by
  simp only [allow.afterBlock]
  split <;> rfl

/-- What a budget remembers of a hostname that a look at `now` or later can tell. -/
structure Agrees (b : RetryBudget) (host : String) (now : Time) (failures : List Time)
    (block : Option Time) : Prop where
  failures : within retryBudgetWindow now (b.failures host) = within retryBudgetWindow now failures
  block : (b.blocked host).filter (fun liftsAt => decide (now < liftsAt)) =
    block.filter fun liftsAt => decide (now < liftsAt)

/-- Asking forgets nothing that a later look can tell. -/
theorem agrees_allow (b : RetryBudget) (max : Nat) (asked host : String) {r : Reads} {later : Time}
    (hle : r.cutoff ≤ later) :
    Agrees (allowHost b max r asked).2 host later (b.failures host) (b.blocked host) := by
  have hprune : ∀ b' : RetryBudget, b'.failures = b.failures →
      within retryBudgetWindow later ((b'.prune r.cutoff asked).failures host) =
        within retryBudgetWindow later (b.failures host) := by
    intro b' hb'
    by_cases hhost : asked = host
    · subst hhost
      simp only [prune, Function.update_self, recent_eq_within, hb']
      exact within_within _ hle _
    · simp [prune, hb', Function.update_of_ne (Ne.symm hhost)]
  cases hblock : b.blocked asked with
  | none =>
      simp only [allowHost, hblock, afterBlock_snd]
      exact ⟨hprune b rfl, rfl⟩
  | some liftsAt =>
      by_cases hforce : r.block < liftsAt
      · simp only [allowHost, hblock, hforce, if_true]
        exact ⟨rfl, rfl⟩
      · simp only [allowHost, hblock, hforce, if_false, afterBlock_snd]
        refine ⟨hprune _ rfl, ?_⟩
        by_cases hhost : asked = host
        · -- the block that is dropped had lifted, and stays lifted
          subst hhost
          have hlifted : ¬ later < liftsAt := fun h =>
            hforce (lt_of_le_of_lt (r.ordered.1.trans hle) h)
          simp only [prune, hblock, Function.update_self, Option.filter_none]
          exact (if_neg (by simpa using hlifted)).symm
        · simp [prune, Function.update_of_ne (Ne.symm hhost)]

/-- The failures of the log are kept in the order in which they were recorded. -/
theorem failuresOf_mem {u : Unicode} {host : String} {t : Time} {log : List Event}
    (ht : t ∈ failuresOf u host log) : ∃ e ∈ log, e.reads.stamp = t := by
  induction log with
  | nil => cases ht
  | cons e log ih =>
      obtain ⟨r, call⟩ := e
      have hlater : t ∈ failuresOf u host log →
          ∃ e ∈ (⟨r, call⟩ :: log : List Event), e.reads.stamp = t :=
        fun h => (ih h).imp fun e he => ⟨List.mem_cons_of_mem _ he.1, he.2⟩
      cases call with
      | allow d => exact hlater ht
      | block d liftsAt => exact hlater ht
      | recordFailure d =>
          simp only [failuresOf] at ht
          split at ht
          · rcases List.mem_append.1 ht with ht | ht
            · exact hlater ht
            · exact ⟨_, List.mem_cons_self, (List.mem_singleton.1 ht).symm⟩
          · exact hlater ht
      | reset d =>
          simp only [failuresOf] at ht
          split at ht
          · cases ht
          · exact hlater ht

theorem failuresOf_sorted {u : Unicode} {host : String} {log : List Event}
    (hlog : Chronological log) : (failuresOf u host log).Pairwise (· ≤ ·) := by
  induction log with
  | nil => exact List.Pairwise.nil
  | cons e log ih =>
      obtain ⟨r, call⟩ := e
      have hrest := ih hlog.of_cons
      cases call with
      | allow d => exact hrest
      | block d liftsAt => exact hrest
      | recordFailure d =>
          simp only [failuresOf]
          split
          · refine List.pairwise_append.2 ⟨hrest, List.pairwise_singleton _ _, ?_⟩
            intro t ht t' ht'
            obtain ⟨e, he, rfl⟩ := failuresOf_mem ht
            cases List.mem_singleton.1 ht'
            have hle : e.reads.stamp ≤ r.block := List.rel_of_pairwise_cons hlog he
            exact hle.trans (r.ordered.1.trans r.ordered.2)
          · exact hrest
      | reset d =>
          simp only [failuresOf]
          split
          · exact List.Pairwise.nil
          · exact hrest

/-- What a budget says after a log is what the log says, at every later time. -/
theorem after_agrees (u : Unicode) (max : Nat) (host : String) {log : List Event}
    (hlog : Chronological log) {now : Time} (hnow : ∀ e ∈ log, e.reads.stamp ≤ now) :
    Agrees (after u max log) host now (failuresOf u host log) (blockOf u host log) := by
  induction log with
  | nil => exact ⟨rfl, rfl⟩
  | cons e log ih =>
      obtain ⟨r, call⟩ := e
      obtain ⟨hstamp, hbefore⟩ := List.forall_mem_cons.1 hnow
      have hcutoff : r.cutoff ≤ now := r.ordered.2.trans hstamp
      have hrest := ih hlog.of_cons hbefore
      cases call with
      | allow d =>
          have hasked := agrees_allow (after u max log) max (budgetKey u d) host hcutoff
          exact ⟨hasked.failures.trans hrest.failures, hasked.block.trans hrest.block⟩
      | recordFailure d =>
          refine ⟨?_, hrest.block⟩
          by_cases hhost : budgetKey u d = host
          · -- the new failure goes after those the pruning at its own time left
            subst hhost
            simp only [after, perform, failuresOf, if_true, Function.update_self, within_append,
              recent_eq_within, within_within _ hcutoff, hrest.failures]
          · simpa [after, perform, failuresOf, hhost, Function.update_of_ne (Ne.symm hhost)] using
              hrest.failures
      | block d liftsAt =>
          refine ⟨hrest.failures, ?_⟩
          by_cases hhost : budgetKey u d = host
          · subst hhost
            simp [after, perform, blockOf]
          · simpa [after, perform, blockOf, hhost, Function.update_of_ne (Ne.symm hhost)] using
              hrest.block
      | reset d =>
          by_cases hhost : budgetKey u d = host
          · subst hhost
            exact ⟨by simp [after, perform, failuresOf], by simp [after, perform, blockOf]⟩
          · exact ⟨by simpa [after, perform, failuresOf, hhost, Function.update_of_ne (Ne.symm hhost)]
                using hrest.failures,
              by simpa [after, perform, blockOf, hhost, Function.update_of_ne (Ne.symm hhost)]
                using hrest.block⟩

/-! ## The answer -/

/-- What `allow` answers, given the failures recorded and the last block. -/
def verdict (max : Nat) (r : Reads) (failures : List Time) (block : Option Time) :
    Except Time Unit :=
  match block.filter fun liftsAt => decide (r.block < liftsAt) with
  | some liftsAt => .error (liftsAt - r.block)
  | none =>
      let recent := within retryBudgetWindow r.cutoff failures
      if recent.length < max then .ok () else .error (recent.headD 0 + retryBudgetWindow - r.stamp)

theorem allowHost_fst (b : RetryBudget) (max : Nat) (r : Reads) (host : String) :
    (allowHost b max r host).1 = verdict max r (b.failures host) (b.blocked host) := by
  have hafter : ∀ b' : RetryBudget, b'.failures = b.failures →
      (allow.afterBlock b' max r host).1 = verdict max r (b.failures host) none := by
    intro b' hb'
    simp only [allow.afterBlock, verdict, Option.filter_none, recent_eq_within, hb']
    split <;> rfl
  cases hblock : b.blocked host with
  | none =>
      simp only [allowHost, hblock]
      exact hafter b rfl
  | some liftsAt =>
      by_cases hforce : r.block < liftsAt
      · simp [allowHost, hblock, hforce, verdict, Option.filter_some]
      · simp only [allowHost, hblock, hforce, if_false]
        refine (hafter { b with blocked := Function.update b.blocked host none } rfl).trans ?_
        simp [verdict, Option.filter_some, hforce]

theorem verdict_congr {max : Nat} {r : Reads} {b : RetryBudget} {host : String}
    {failures : List Time} {block : Option Time} (h : Agrees b host r.block failures block) :
    verdict max r (b.failures host) (b.blocked host) = verdict max r failures block := by
  have hrecent : within retryBudgetWindow r.cutoff (b.failures host) =
      within retryBudgetWindow r.cutoff failures := by
    rw [← within_within _ r.ordered.1, h.failures, within_within _ r.ordered.1]
  simp only [verdict, h.block, hrecent]

theorem verdict_of_inForce {max : Nat} {r : Reads} {liftsAt : Time} {failures : List Time}
    (hforce : r.block < liftsAt) :
    verdict max r failures (some liftsAt) = .error (liftsAt - r.block) := by
  simp [verdict, hforce, Option.filter_some]

theorem verdict_of_lifted {max : Nat} {r : Reads} {failures : List Time} {block : Option Time}
    (hlifted : ∀ liftsAt ∈ block, liftsAt ≤ r.block) :
    verdict max r failures block = verdict max r failures none := by
  cases block with
  | none => rfl
  | some liftsAt =>
      have hforce : ¬ r.block < liftsAt := Nat.not_lt.2 (hlifted liftsAt rfl)
      simp [verdict, Option.filter_some, hforce]

theorem verdict_none_ok_iff {max : Nat} {r : Reads} {failures : List Time} :
    verdict max r failures none = .ok () ↔
      (within retryBudgetWindow r.cutoff failures).length < max := by
  simp only [verdict, Option.filter_none]
  split <;> simp_all

theorem verdict_ok_iff {u : Unicode} {max : Nat} {r : Reads} {host : String} {log : List Event} :
    verdict max r (failuresOf u host log) (blockOf u host log) = .ok () ↔
      inForce u host r.block log = none ∧ (lastHour u host r.cutoff log).length < max := by
  by_cases hblock : ∃ liftsAt ∈ blockOf u host log, r.block < liftsAt
  · obtain ⟨liftsAt, hsome, hforce⟩ := hblock
    replace hsome : blockOf u host log = some liftsAt := hsome
    rw [hsome, verdict_of_inForce hforce]
    simp [inForce, hsome, Option.filter_some, hforce]
  · have hlifted : ∀ liftsAt ∈ blockOf u host log, liftsAt ≤ r.block := fun liftsAt hmem =>
      Nat.le_of_not_lt fun hforce => hblock ⟨liftsAt, hmem, hforce⟩
    have hin : inForce u host r.block log = none :=
      Option.filter_eq_none_iff.2 fun liftsAt hmem => by simpa using hlifted liftsAt hmem
    rw [verdict_of_lifted hlifted, verdict_none_ok_iff]
    exact ⟨fun hlt => ⟨hin, hlt⟩, And.right⟩

/-- The answer after a log, to a call at any time from its end on. -/
theorem answer_after (u : Unicode) (max : Nat) (host : String) {log : List Event}
    (hlog : Chronological log) {r : Reads} (hr : ∀ e ∈ log, e.reads.stamp ≤ r.block) :
    (allowHost (after u max log) max r host).1 =
      verdict max r (failuresOf u host log) (blockOf u host log) :=
  (allowHost_fst ..).trans (verdict_congr (after_agrees u max host hlog hr))

/-- The answer to the same question asked again after `wait`, with no call in between. -/
def askedAgain (u : Unicode) (max : Nat) (log : List Event) (now : Time) (d : String)
    (wait : Time) : Except Time Unit :=
  (allowHost (after u max (⟨.once now, .allow d⟩ :: log)) max (.once (now + wait)) (budgetKey u d)).1

theorem askedAgain_eq (u : Unicode) (max : Nat) {log : List Event} (hlog : Chronological log)
    {now : Time} (hnow : ∀ e ∈ log, e.reads.stamp ≤ now) (d : String) (wait : Time) :
    askedAgain u max log now d wait =
      verdict max (.once (now + wait)) (failuresOf u (budgetKey u d) log)
        (blockOf u (budgetKey u d) log) :=
  answer_after u max _ (List.pairwise_cons.2 ⟨hnow, hlog⟩) <| List.forall_mem_cons.2
    ⟨Nat.le_add_right _ _, fun e he => Nat.le_trans (hnow e he) (Nat.le_add_right _ _)⟩

/-- At the time the wait of a refusal points at, the failures of the hour before let an attempt
through. -/
def WaitSuffices (u : Unicode) (max : Nat) (host : String) (now : Time) (log : List Event) : Prop :=
  (within retryBudgetWindow (pointsAt u host now log) (failuresOf u host log)).length < max

instance (u : Unicode) (max : Nat) (host : String) (now : Time) (log : List Event) :
    Decidable (WaitSuffices u max host now log) :=
  inferInstanceAs (Decidable (_ < _))

/-- A delay before which a question has no good answer is the least that has one if it has one. -/
theorem isLeast_iff {answered : Time → Prop} {wait : Time} (hbefore : ∀ w < wait, ¬ answered w) :
    wait ∈ lowerBounds {w | answered w} ∧ (IsLeast {w | answered w} wait ↔ answered wait) := by
  have hlower : wait ∈ lowerBounds {w | answered w} := fun w hw =>
    Nat.le_of_not_lt fun hlt => hbefore w hlt hw
  exact ⟨hlower, fun hleast => hleast.1, fun hwait => ⟨hwait, hlower⟩⟩

/-- Under a block no attempt is allowed before it lifts, and then what the failures allow. -/
theorem wait_blocked {max : Nat} {now liftsAt : Time} {failures : List Time}
    (hforce : now < liftsAt) :
    (∀ w < liftsAt - now, verdict max (.once (now + w)) failures (some liftsAt) ≠ .ok ()) ∧
      (verdict max (.once (now + (liftsAt - now))) failures (some liftsAt) = .ok () ↔
        (within retryBudgetWindow liftsAt failures).length < max) := by
  constructor
  · intro w hw
    have hstill : now + w < liftsAt := by
      have hadd : now + w < now + (liftsAt - now) := Nat.add_lt_add_left hw now
      rwa [Nat.add_sub_cancel' (Nat.le_of_lt hforce)] at hadd
    rw [verdict_of_inForce hstill]
    exact nofun
  · rw [Nat.add_sub_cancel' (Nat.le_of_lt hforce), verdict_of_lifted, verdict_none_ok_iff]
    rintro t ⟨⟩
    exact Nat.le_refl _

/-- With no block in force and the cap reached, no attempt is allowed before the oldest failure of
the hour leaves the window. -/
theorem wait_exhausted {max : Nat} {now oldest : Time} {failures rest : List Time}
    (hsorted : failures.Pairwise (· ≤ ·))
    (hrecent : within retryBudgetWindow now failures = oldest :: rest)
    (hmax : max ≤ (oldest :: rest).length) :
    now < oldest + retryBudgetWindow ∧
      (∀ w < oldest + retryBudgetWindow - now,
        verdict max (.once (now + w)) failures none ≠ .ok ()) ∧
      (verdict max (.once (now + (oldest + retryBudgetWindow - now))) failures none = .ok () ↔
        (within retryBudgetWindow (oldest + retryBudgetWindow) failures).length < max) := by
  have hold : now < oldest + retryBudgetWindow :=
    (mem_within.1 (hrecent ▸ List.mem_cons_self : oldest ∈ within retryBudgetWindow now failures)).2
  refine ⟨hold, ?_, ?_⟩
  · intro w hw
    -- the oldest failure has not left the window, so none has
    have hstill : now + w < oldest + retryBudgetWindow := by
      have hadd : now + w < now + (oldest + retryBudgetWindow - now) := Nat.add_lt_add_left hw now
      rwa [Nat.add_sub_cancel' (Nat.le_of_lt hold)] at hadd
    have hsame : within retryBudgetWindow (now + w) failures = oldest :: rest := by
      rw [← within_within retryBudgetWindow (Nat.le_add_right now w), hrecent]
      exact within_eq_self (hrecent ▸ hsorted.sublist (within_sublist ..)) hstill
    rw [Ne, verdict_none_ok_iff, hsame]
    exact Nat.not_lt.2 hmax
  · rw [Nat.add_sub_cancel' (Nat.le_of_lt hold), verdict_none_ok_iff]

/-- With no block in force and exactly as many failures in the hour as the cap allows, the wait
suffices: once the oldest is out of the window, the cap is not reached. -/
theorem waitSuffices_of_eq {u : Unicode} {max : Nat} {host : String} {now : Time} {log : List Event}
    (hmax : 1 ≤ max) (hforce : inForce u host now log = none)
    (hfull : (lastHour u host now log).length = max) : WaitSuffices u max host now log := by
  cases hrecent : lastHour u host now log with
  | nil =>
      rw [hrecent] at hfull
      exact absurd hfull (Nat.ne_of_lt hmax)
  | cons oldest rest =>
      have hpoint : pointsAt u host now log = oldest + retryBudgetWindow := by
        simp [pointsAt, hforce, hrecent]
      have hold : now ≤ oldest + retryBudgetWindow :=
        Nat.le_of_lt (mem_within.1 (hrecent ▸ List.mem_cons_self : oldest ∈ lastHour u host now log)).2
      have hout : within retryBudgetWindow (oldest + retryBudgetWindow) (oldest :: rest) =
          within retryBudgetWindow (oldest + retryBudgetWindow) rest :=
        List.filter_cons_of_neg (by simp)
      calc (within retryBudgetWindow (pointsAt u host now log) (failuresOf u host log)).length
          = (within retryBudgetWindow (oldest + retryBudgetWindow) (oldest :: rest)).length := by
            rw [hpoint, ← within_within retryBudgetWindow hold, ← hrecent, lastHour]
        _ ≤ rest.length := by
            rw [hout]
            exact (within_sublist ..).length_le
        _ < max := by
            rw [← hfull, hrecent]
            exact Nat.lt_succ_self _

/-- The budget against its meaning.  After every log of calls, with the clock anywhere at each of
their readings as long as it does not go back, an attempt is allowed exactly when no block is in force
and the failures of the last hour since the last reset are fewer than the cap.  The wait of a refusal
made in one instant is positive and no earlier attempt is allowed; it is the least delay after which
one is exactly when, at the time it points at, the failures of the hour before are fewer than the
cap. -/
theorem allow_slidingHour (u : Unicode) (max : Nat) (hmax : 1 ≤ max) (log : List Event)
    (hlog : Chronological log) (d : String) :
    (∀ r : Reads, (∀ e ∈ log, e.reads.stamp ≤ r.block) →
      ((allowHost (after u max log) max r (budgetKey u d)).1 = .ok () ↔
        inForce u (budgetKey u d) r.block log = none ∧
          (lastHour u (budgetKey u d) r.cutoff log).length < max)) ∧
    ∀ now, (∀ e ∈ log, e.reads.stamp ≤ now) → ∀ wait,
      (allowHost (after u max log) max (.once now) (budgetKey u d)).1 = .error wait →
      0 < wait ∧ wait ∈ lowerBounds {w | askedAgain u max log now d w = .ok ()} ∧
      (IsLeast {w | askedAgain u max log now d w = .ok ()} wait ↔
        WaitSuffices u max (budgetKey u d) now log) := by
  refine ⟨fun r hr => (answer_after u max _ hlog hr).symm ▸ verdict_ok_iff, fun now hnow => ?_⟩
  have hr : ∀ e ∈ log, e.reads.stamp ≤ (Reads.once now).block := hnow
  rw [answer_after u max _ hlog hr]
  simp only [askedAgain_eq u max hlog hnow]
  -- the two ways to be refused: by a block, or by the failures
  by_cases hblock : ∃ liftsAt ∈ blockOf u (budgetKey u d) log, now < liftsAt
  · obtain ⟨liftsAt, hsome, hforce⟩ := hblock
    replace hsome : blockOf u (budgetKey u d) log = some liftsAt := hsome
    have hin : inForce u (budgetKey u d) now log = some liftsAt := by
      simp [inForce, hsome, Option.filter_some, hforce]
    obtain ⟨hbefore, hend⟩ := wait_blocked hforce
    rw [hsome, verdict_of_inForce hforce]
    rintro wait ⟨⟩
    obtain ⟨hlower, hleast⟩ := isLeast_iff hbefore
    refine ⟨Nat.sub_pos_of_lt hforce, hlower, hleast.trans (hend.trans ?_)⟩
    simp [WaitSuffices, pointsAt, hin]
  · have hlifted : ∀ liftsAt ∈ blockOf u (budgetKey u d) log, liftsAt ≤ now := fun liftsAt hmem =>
      Nat.le_of_not_lt fun hforce => hblock ⟨liftsAt, hmem, hforce⟩
    have hlater : ∀ (w : Time) (failures : List Time),
        verdict max (.once (now + w)) failures (blockOf u (budgetKey u d) log) =
          verdict max (.once (now + w)) failures none := fun w failures =>
      verdict_of_lifted fun liftsAt hmem =>
        Nat.le_trans (hlifted liftsAt hmem) (Nat.le_add_right _ _)
    have hin : inForce u (budgetKey u d) now log = none :=
      Option.filter_eq_none_iff.2 fun liftsAt hmem => by simpa using hlifted liftsAt hmem
    rw [verdict_of_lifted hlifted]
    simp only [hlater]
    intro wait hwait
    have hfull : max ≤ (lastHour u (budgetKey u d) now log).length := by
      refine Nat.le_of_not_lt fun hlt => ?_
      rw [verdict_none_ok_iff.2 hlt] at hwait
      cases hwait
    cases hrecent : lastHour u (budgetKey u d) now log with
    | nil =>
        rw [hrecent] at hfull
        exact absurd (Nat.le_trans hmax hfull) (by decide)
    | cons oldest rest =>
        rw [hrecent] at hfull
        replace hrecent : within retryBudgetWindow now (failuresOf u (budgetKey u d) log) =
          oldest :: rest := hrecent
        obtain ⟨hold, hbefore, hend⟩ := wait_exhausted (failuresOf_sorted hlog) hrecent hfull
        have hvalue : wait = oldest + retryBudgetWindow - now := by
          simp only [verdict, Option.filter_none, hrecent, if_neg (Nat.not_lt.2 hfull)] at hwait
          exact (Except.error.inj hwait).symm
        subst hvalue
        obtain ⟨hlower, hleast⟩ := isLeast_iff hbefore
        refine ⟨Nat.sub_pos_of_lt hold, hlower, hleast.trans (hend.trans ?_)⟩
        simp [WaitSuffices, pointsAt, hin, lastHour, hrecent]

/-- Failures of a hostname under two spellings, newest first. -/
def failuresAt (times : List Time) : List Event :=
  times.map fun t => ⟨.once t, .recordFailure "MX.example.com"⟩

theorem allow_slidingHour_full :
    (allowHost (after .ascii 2 (failuresAt [40 * minute, 0])) 2 (.once (50 * minute))
        (budgetKey .ascii "mx.example.com")).1 = .error (10 * minute) ∧
      IsLeast {w | askedAgain .ascii 2 (failuresAt [40 * minute, 0]) (50 * minute) "mx.example.com" w
        = .ok ()} (10 * minute) := by
  have hrefused : (allowHost (after .ascii 2 (failuresAt [40 * minute, 0])) 2 (.once (50 * minute))
      (budgetKey .ascii "mx.example.com")).1 = .error (10 * minute) := by decide +kernel
  have hspec := allow_slidingHour .ascii 2 (by decide) (failuresAt [40 * minute, 0])
    (by decide +kernel) "mx.example.com"
  obtain ⟨-, -, hleast⟩ := hspec.2 (50 * minute) (by decide +kernel) _ hrefused
  exact ⟨hrefused, hleast.2
    (waitSuffices_of_eq (by decide) (by decide +kernel) (by decide +kernel))⟩

/-- Two waits after which an attempt is refused again: that of a block that lifts while the failures
still exhaust the budget, and that of an hour with more failures than the cap. -/
theorem wait_tooShort :
    ((allowHost (after .ascii 3 (⟨.once (10 * second), .block "mx.example.com" (20 * second)⟩ ::
          failuresAt [3 * second, 2 * second, second])) 3 (.once (10 * second))
          (budgetKey .ascii "mx.example.com")).1 = .error (10 * second) ∧
      askedAgain .ascii 3 (⟨.once (10 * second), .block "mx.example.com" (20 * second)⟩ ::
          failuresAt [3 * second, 2 * second, second]) (10 * second) "mx.example.com" (10 * second) =
        .error (hour - 19 * second)) ∧
    ((allowHost (after .ascii 3 (failuresAt [4 * second, 3 * second, 2 * second, second])) 3
          (.once (10 * second)) (budgetKey .ascii "mx.example.com")).1 = .error (hour - 9 * second) ∧
      askedAgain .ascii 3 (failuresAt [4 * second, 3 * second, 2 * second, second]) (10 * second)
          "mx.example.com" (hour - 9 * second) = .error second) := by
  decide +kernel

end RetryWindow
end CertsManager
