import CertsManager.Window

/-!
# TokenBucket — the hard ceiling on new orders

`tokenBucket` (ondemand.go): at most `max` grants in a window.  The list of grants is filtered on
each call, and a call reads the clock twice: once for the cutoff, and once more for the grant it
records.

The bound holds for the window at every position, not only for those that end at a call, and no call
is refused below it.  Times and the window are integers, so the window may be empty or negative.
-/

namespace CertsManager

open Window

structure TokenBucket where
  max : Nat
  window : Int
  events : List Int

namespace TokenBucket

def newTokenBucket (max : Nat) (window : Int) : TokenBucket :=
  ⟨max, window, []⟩

/-- The two readings of the clock of one call. -/
structure Reads where
  cutoff : Int
  grant : Int
  ordered : cutoff ≤ grant

/-- `take`.  `t.After(now - window)` is `now < t + window`. -/
def take (b : TokenBucket) (r : Reads) : Bool × TokenBucket :=
  let kept := within b.window r.cutoff b.events
  if b.max ≤ kept.length then (false, { b with events := kept })
  else (true, { b with events := kept ++ [r.grant] })

section

variable (max : Nat) (window : Int)

/-- A new bucket after a log of calls, newest first. -/
def after : List Reads → TokenBucket
  | [] => newTokenBucket max window
  | r :: log => ((after log).take r).2

/-- The times of the grants of a log, oldest first. -/
def granted : List Reads → List Int
  | [] => []
  | r :: log =>
      if ((after max window log).take r).1 then granted log ++ [r.grant] else granted log

end

/-- The clock does not go back from one call to the next. -/
def Chronological (log : List Reads) : Prop :=
  log.Pairwise fun later earlier => earlier.grant ≤ later.cutoff

/-- The grants of a log at times in `(low, high]`. -/
def grantsIn (max : Nat) (window : Int) (log : List Reads) (low high : Int) : List Int :=
  (granted max window log).filter fun t => decide (low < t ∧ t ≤ high)

variable {max : Nat} {window : Int} {log : List Reads}

@[simp] theorem take_max (b : TokenBucket) (r : Reads) : (b.take r).2.max = b.max := by
  simp only [take]
  split <;> rfl

@[simp] theorem take_window (b : TokenBucket) (r : Reads) : (b.take r).2.window = b.window := by
  simp only [take]
  split <;> rfl

theorem take_fst (b : TokenBucket) (r : Reads) :
    (b.take r).1 = true ↔ (within b.window r.cutoff b.events).length < b.max := by
  simp only [take]
  split
  · rename_i hfull
    simpa using hfull
  · rename_i hroom
    simpa using hroom

theorem take_events (b : TokenBucket) (r : Reads) :
    (b.take r).2.events =
      within b.window r.cutoff b.events ++ if (b.take r).1 then [r.grant] else [] := by
  simp only [take]
  split <;> simp

theorem after_max (log : List Reads) : (after max window log).max = max := by
  induction log with
  | nil => rfl
  | cons r log ih => simpa [after] using ih

theorem after_window (log : List Reads) : (after max window log).window = window := by
  induction log with
  | nil => rfl
  | cons r log ih => simpa [after] using ih

theorem granted_cons (r : Reads) (log : List Reads) :
    granted max window (r :: log) =
      granted max window log ++ if ((after max window log).take r).1 then [r.grant] else [] := by
  simp only [granted]
  split <;> simp

/-- The list a bucket keeps tells, of any time from the end of the log on, which grants are in the
window. -/
theorem within_events (hlog : Chronological log) {now : Int} (hnow : ∀ r ∈ log, r.grant ≤ now) :
    within window now (after max window log).events = within window now (granted max window log) := by
  induction log with
  | nil => rfl
  | cons r log ih =>
      obtain ⟨hr, hbefore⟩ := List.forall_mem_cons.1 hnow
      have hcutoff : r.cutoff ≤ now := le_trans r.ordered hr
      rw [after, take_events, granted_cons, within_append, within_append, after_window,
        within_within _ hcutoff, ih hlog.of_cons hbefore]

theorem granted_le {now : Int} (hnow : ∀ r ∈ log, r.grant ≤ now) :
    ∀ t ∈ granted max window log, t ≤ now := by
  induction log with
  | nil => simp [granted]
  | cons r log ih =>
      obtain ⟨hr, hbefore⟩ := List.forall_mem_cons.1 hnow
      rw [granted_cons]
      intro t ht
      rcases List.mem_append.1 ht with ht | ht
      · exact ih hbefore t ht
      · split at ht
        · rwa [List.mem_singleton.1 ht]
        · cases ht

/-- A call is let through exactly when the window that ends at its cutoff has room. -/
theorem take_after (hlog : Chronological log) {r : Reads} (hr : ∀ e ∈ log, e.grant ≤ r.cutoff) :
    ((after max window log).take r).1 = true ↔
      (within window r.cutoff (granted max window log)).length < max := by
  rw [take_fst, after_window, after_max, within_events hlog hr]

/-- What is in the window at `now` of grants that are not later. -/
theorem grantsIn_eq_within {now : Int} (hnow : ∀ r ∈ log, r.grant ≤ now) :
    grantsIn max window log (now - window) now = within window now (granted max window log) := by
  refine List.filter_congr fun t ht => ?_
  have hle := granted_le hnow t ht
  have hiff : now - window < t ∧ t ≤ now ↔ now < t + window := by omega
  simp only [hiff]

/-- A window that reaches a grant holds, before it, only what its call counted. -/
theorem length_grantsIn_le (max : Nat) (log : List Reads) {r : Reads} {s : Int} (hs : r.grant ≤ s + window) :
    (grantsIn max window log s (s + window)).length ≤
      (within window r.cutoff (granted max window log)).length := by
  refine (List.monotone_filter_right _ fun t ht => ?_).length_le
  have hcutoff := r.ordered
  simp only [decide_eq_true_eq] at ht ⊢
  omega

theorem grantsIn_bounded (max : Nat) (window : Int) (hlog : Chronological log) (s : Int) :
    (grantsIn max window log s (s + window)).length ≤ max := by
  induction log with
  | nil => exact Nat.zero_le _
  | cons r log ih =>
      have hrest := ih hlog.of_cons
      rw [grantsIn, granted_cons, List.filter_append, List.length_append]
      by_cases hcount : ((after max window log).take r).1 = true ∧ s < r.grant ∧ r.grant ≤ s + window
      · -- the new grant is in the window: the others in it were counted when it was made
        obtain ⟨hgrant, hin⟩ := hcount
        have hroom := (take_after hlog.of_cons
          (fun e he => List.rel_of_pairwise_cons hlog he)).1 hgrant
        have hold := length_grantsIn_le max log hin.2
        simp only [grantsIn] at hold
        simp only [hgrant, if_true, List.filter_cons, hin.1, hin.2, and_self, decide_true,
          List.filter_nil, List.length_singleton]
        omega
      · have hnone : (if ((after max window log).take r).1 then [r.grant] else []).filter
            (fun t => decide (s < t ∧ t ≤ s + window)) = [] := by
          split
          · rename_i hgrant
            exact List.filter_cons_of_neg (by simpa using fun h h' => hcount ⟨hgrant, h, h'⟩)
          · rfl
        rw [hnone]
        exact hrest

/-- Every window `(s, s + window]` holds at most `max` grants, and a call is refused only when the
window that ends at it holds `max` of them. -/
theorem bucket_tight (max : Nat) (window : Int) (log : List Reads) (hlog : Chronological log) :
    (∀ s, (grantsIn max window log s (s + window)).length ≤ max) ∧
    ∀ r : Reads, (∀ e ∈ log, e.grant ≤ r.cutoff) → ((after max window log).take r).1 = false →
      (grantsIn max window log (r.cutoff - window) r.cutoff).length = max := by
  refine ⟨grantsIn_bounded max window hlog, fun r hr hrefused => ?_⟩
  have hfull : max ≤ (within window r.cutoff (granted max window log)).length := by
    refine Nat.le_of_not_lt fun hroom => ?_
    rw [(take_after hlog hr).2 hroom] at hrefused
    cases hrefused
  have hbound := grantsIn_bounded max window hlog (r.cutoff - window)
  rw [Int.sub_add_cancel] at hbound
  exact le_antisymm hbound (by rwa [grantsIn_eq_within hr])

/-- A call that reads one time twice. -/
def readsAt (t : Int) : Reads :=
  ⟨t, t, le_rfl⟩

theorem bucket_tight_refused :
    Chronological [readsAt 10, readsAt 0] ∧
      ((after 2 60 [readsAt 10, readsAt 0]).take (readsAt 59)).1 = false ∧
      (grantsIn 2 60 [readsAt 10, readsAt 0] (59 - 60) 59).length = 2 := by
  have hlog : Chronological [readsAt 10, readsAt 0] := by
    simp [Chronological, readsAt]
  have hrefused : ((after 2 60 [readsAt 10, readsAt 0]).take (readsAt 59)).1 = false := by decide
  refine ⟨hlog, hrefused, ?_⟩
  exact (bucket_tight 2 60 _ hlog).2 (readsAt 59) (by simp [readsAt]) hrefused

end TokenBucket
end CertsManager
