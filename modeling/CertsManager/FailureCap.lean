import CertsManager.Interleave.Ledger
import CertsManager.Attempts
import CertsManager.Custody

/-!
# FailureCap — how many failures of a hostname an hour can hold

The budget is asked before the lease is taken and charged after the order has failed.  A domain and
its companion share both, but not the lock that keeps two attempts for one name apart: an attempt for
the one can be let through while an attempt for the other is still running, wait for the lease and
fail in its turn.  Each such attempt adds one failure above the cap.

Where no failure is recorded while another attempt for the hostname has been let through, the cap
holds: what was below it when the attempt was let through is below it when the attempt fails.
-/

namespace CertsManager

open Interleave

/-! ## Who has been let through -/

/-- The name the budget let through, until the attempt is settled: charged, reset, or over. -/
def letThrough : History → Option Name
  | [] => none
  | ⟨.mem (.retriesAllow n), .ok ()⟩ :: _ => some n
  | ⟨.mem (.retriesRecordFailure _), _⟩ :: _ => none
  | ⟨.mem (.retriesReset _), _⟩ :: _ => none
  | ⟨.env (.acquireLease _ _), false⟩ :: _ => none
  | ⟨.env (.releaseLease _), _⟩ :: _ => none
  | _ :: h => letThrough h

/-- A failure is charged to the name that was let through, once. -/
def mayCharge (h : History) : Op → Prop
  | .mem (.retriesRecordFailure n) => letThrough h = some n
  | _ => True

section

variable {h : History} {n : Name} {o : Op}

theorem Op.Settling.charge (ho : o.Settling) : mayCharge h o := by
  cases o with
  | mem o => cases o <;> trivial
  | _ => trivial

theorem letThrough_calm (ho : o.Calm) (r : Res o) : letThrough (⟨o, r⟩ :: h) = letThrough h := by
  cases o with
  | storage ctx o => rfl
  | mem o => cases o <;> first | rfl | cases ho
  | env o => cases o <;> first | rfl | cases ho

theorem settling_charges {α : Type} {p : M α} (hp : p.Calls Op.Settling) :
    p.Conforms mayCharge h fun _ _ => True :=
  (hp.conforms fun _ _ ho => ho.charge).mono fun _ _ _ => trivial

theorem calm_charges {α : Type} {p : M α} (hp : p.Calls Op.Calm) (hh : letThrough h = some n) :
    p.Conforms mayCharge h fun h' _ => letThrough h' = some n :=
  hp.keeps (fun _ _ hh ho => ⟨ho.unmetered.settling.charge, fun r => (letThrough_calm ho r).trans hh⟩)
    hh

/-! ## The attempt -/

theorem placeOrder_charges (cfg : Settings) (ctx : Time) (k : Key) (hh : letThrough h = some n) :
    (Manager.placeOrder cfg ctx n k).Conforms mayCharge h fun _ _ => True := by
  refine (calm_charges (calm_of_quiet (ensureIssuer_quiet cfg ctx)) hh).bind fun h₁ r _ hh₁ => ?_
  cases r with
  | error err => exact ⟨hh₁, fun _ => trivial⟩
  | ok _ =>
      simp only [onEnv, Prog.conforms_bind, Prog.conforms_perform]
      refine ⟨trivial, fun r => ?_⟩
      cases r with
      | error f =>
          simp only [onMem, Prog.conforms_bind, Prog.conforms_perform]
          refine ⟨hh₁, fun _ => ?_⟩
          unfold Manager.noteRateLimit
          split
          · trivial
          · exact ⟨trivial, fun _ => ⟨trivial, fun _ => trivial⟩⟩
      | ok c =>
          refine (calm_charges (store_calm cfg ctx n c k) (by exact hh₁)).bind fun h₂ r _ hh₂ => ?_
          cases r with
          | unusable err => exact ⟨hh₂, fun _ => trivial⟩
          | stored cert => exact ⟨trivial, fun _ => trivial⟩
          | unstored cert err =>
              simp only [onMem, Prog.conforms_bind, Prog.conforms_perform]
              refine ⟨hh₂, fun _ => ?_⟩
              split
              · trivial
              · exact ⟨trivial, fun _ => ⟨trivial, fun _ => trivial⟩⟩

theorem issueUnderLease_charges (cfg : Settings) (ctx : Time) (k : Key) (force : Bool)
    (hh : letThrough h = some n) :
    (Manager.issueUnderLease cfg ctx n k force).Conforms mayCharge h fun _ _ => True := by
  refine (calm_charges (refresh_calm cfg ctx n) hh).bind fun h₁ r _ hh₁ => ?_
  cases r with
  | error err =>
      dsimp only
      split
      · exact placeOrder_charges cfg ctx k hh₁
      · trivial
  | ok stored =>
      dsimp only
      split
      · exact placeOrder_charges cfg ctx k hh₁
      · refine (calm_charges (leafNotAfter_calm n) hh₁).bind fun h₂ r _ hh₂ => ?_
        cases r with
        | none => exact placeOrder_charges cfg ctx k hh₂
        | some notAfter =>
            simp only [Manager.now, onEnv, Prog.conforms_bind, Prog.conforms_perform]
            refine ⟨trivial, fun t => ?_⟩
            split
            · trivial
            · exact placeOrder_charges cfg ctx k hh₂

theorem issueWithKey_charges (cfg : Settings) (ctx : Time) (k : Key) (force : Bool) :
    (Manager.issueWithKey cfg ctx n k force).Conforms mayCharge h fun _ _ => True := by
  refine ⟨trivial, fun r => ?_⟩
  cases r with
  | error wait => trivial
  | ok _ =>
      refine ⟨trivial, fun ok => ?_⟩
      cases ok with
      | false =>
          refine (settling_charges ((refresh_calm cfg ctx n).mono
            fun _ ho => ho.unmetered.settling)).bind fun _ r _ _ => ?_
          cases r with
          | error err => trivial
          | ok cert =>
              dsimp only
              split <;> trivial
      | true =>
          refine (issueUnderLease_charges cfg ctx k force rfl).bind fun _ _ _ _ => ?_
          exact ⟨trivial, fun _ => trivial⟩

end

def charging : Protocol Op Res Call Out where
  may _ h o := mayCharge h o
  done _ _ _ := True

theorem cluster_charging {N T : Type} [DecidableEq N] (cfg : Settings) (node : T → N) :
    (cluster cfg node).Follows charging := by
  intro q
  show (body cfg q).Conforms mayCharge [] fun _ _ => True
  cases body_shape cfg q with
  | attempt n hp =>
      refine hp.conforms (I := fun _ => True) (fun _ _ ho => ho.settling.charge)
        (fun _ _ _ _ _ => trivial) ?_ trivial
      rintro _ h ⟨ctx, k, force, rfl⟩ -
      exact issueWithKey_charges cfg ctx k force
  | activation n hp =>
      refine hp.conforms (I := fun _ => True) (fun _ _ ho => ho.settling.charge)
        (fun _ _ _ _ _ => trivial) (fun h o _ ho => ?_) trivial
      cases o with
      | env o => trivial
      | _ => cases ho
  | other hp => exact settling_charges hp

/-! ## Every run -/

section

variable {N T : Type}

/-- The thread and the name of a failure this move records. -/
def charged : ClusterLabel T → Option (T × Name)
  | .did t ⟨.mem (.retriesRecordFailure n), _⟩ => some (t, n)
  | _ => none

/-- When a failure is recorded no other attempt of the node for the hostname has been let through. -/
def FailsAlone (node : T → N) (v : ClusterView N T) (l : ClusterLabel T) (_ : ClusterView N T) :
    Prop :=
  ∀ g ∈ charged l, ∀ u, u ≠ g.1 → node u = node g.1 → ∀ x ∈ v.task u, ∀ m ∈ letThrough x.2,
    Layout.certDomain m ≠ Layout.certDomain g.2

instance [Fintype T] [DecidableEq T] [DecidableEq N] (node : T → N) (v : ClusterView N T)
    (l : ClusterLabel T) (v' : ClusterView N T) : Decidable (FailsAlone node v l v') :=
  inferInstanceAs (Decidable (∀ g ∈ charged l, ∀ u, u ≠ g.1 → node u = node g.1 → _))

variable [DecidableEq N]

/-- The move records a failure of the hostname on the node. -/
def failureOf (node : T → N) (i : N) (host : Name) (_ : ClusterView N T) (l : ClusterLabel T)
    (_ : ClusterView N T) : Bool :=
  (charged l).any fun g => decide (node g.1 = i ∧ Layout.certDomain g.2 = host)

theorem failureOf_iff {node : T → N} {i : N} {host : Name} {v v' : ClusterView N T}
    {l : ClusterLabel T} : failureOf node i host v l v' = true ↔
      ∃ t n, charged l = some (t, n) ∧ node t = i ∧ Layout.certDomain n = host := by
  cases hl : charged l with
  | none => simp [failureOf, hl]
  | some g =>
      obtain ⟨t, n⟩ := g
      simp [failureOf, hl]

omit [DecidableEq N] in
theorem charged_did {t u : T} {o : Op} {r : Res o} {n : Name}
    (h : charged (.did t ⟨o, r⟩ : ClusterLabel T) = some (u, n)) :
    u = t ∧ o = .mem (.retriesRecordFailure n) := by
  cases o with
  | mem o =>
      cases o with
      | retriesRecordFailure m =>
          cases h
          exact ⟨rfl, rfl⟩
      | _ => cases h
  | _ => cases h

/-- The moves are within an hour from `since`, and none resets the hostname's budget on the node. -/
def InWindow (node : T → N) (i : N) (host : Name) (since : Time) (_ : ClusterView N T)
    (l : ClusterLabel T) (v' : ClusterView N T) : Prop :=
  since ≤ v'.shared.clock ∧ v'.shared.clock < since + retryBudgetWindow ∧
    ∀ g ∈ budgetReset l, ¬(node g.1 = i ∧ Layout.certDomain g.2 = host)

instance (node : T → N) (i : N) (host : Name) (since : Time) (v : ClusterView N T)
    (l : ClusterLabel T) (v' : ClusterView N T) : Decidable (InWindow node i host since v l v') :=
  inferInstanceAs (Decidable (_ ∧ _ ∧ ∀ g ∈ budgetReset l, _))

/-- An attempt that was let through is below the cap. -/
def BelowCap (cfg : Settings) (node : T → N) (v : ClusterView N T) : Prop :=
  ∀ t q h, v.task t = some (q, h) → ∀ n, letThrough h = some n →
    ((v.shared.node (node t)).retries.recent v.shared.clock (Layout.certDomain n)).length <
      cfg.maxRetries

/-- The failures of the hostname on the node that are in the window. -/
def inWindow (i : N) (host : Name) (since : Time) (v : ClusterView N T) : Nat :=
  ((v.shared.node i).retries.failures host).countP fun t => decide (since ≤ t)

variable [DecidableEq T] {cfg : Settings} {node : T → N} {v v' : ClusterView N T} {l : ClusterLabel T}

omit [DecidableEq T] in
/-- What a call of another attempt leaves of the cap, unless it records a failure of the hostname. -/
theorem recent_exec {w w' : World N T} {t : T} {o : Op} {a : Answer} {r : Res o} {i : N} {host : Name}
    (he : exec cfg.maxRetries node w t o a = some (r, w'))
    (hnot : ∀ n, o = .mem (.retriesRecordFailure n) → i = node t → Layout.certDomain n ≠ host) :
    ((w'.node i).retries.recent w'.clock host).length ≤
      ((w.node i).retries.recent w.clock host).length := by
  have hage := RetryBudget.recent_length_antitone (w.node i).retries (exec_clock he) host
  refine Nat.le_trans (List.Sublist.length_le ?_) hage
  rcases exec_failures he i host with ⟨-, hf | hf⟩ | ⟨n, ho, hi, hn, -⟩ | ⟨n, -, -, -, hf⟩
  · simp only [RetryBudget.recent, hf]
    exact List.Sublist.refl _
  · simp only [RetryBudget.recent, hf]
    exact List.filter_sublist
  · exact absurd hn (hnot n ho hi)
  · simp only [RetryBudget.recent, hf]
    exact List.nil_sublist _

omit [DecidableEq N] [DecidableEq T] in
/-- What lets an attempt through, and what leaves it so. -/
theorem letThrough_cons {h : History} {e : Event} {n : Name} (hn : letThrough (e :: h) = some n) :
    e = ⟨.mem (.retriesAllow n), .ok ()⟩ ∨
      letThrough h = some n ∧ ∀ m, e.op ≠ .mem (.retriesRecordFailure m) := by
  obtain ⟨o, r⟩ := e
  cases o with
  | storage ctx o => exact .inr ⟨hn, nofun⟩
  | mem o =>
      cases o with
      | retriesAllow m =>
          rcases r with wait | _
          · exact .inr ⟨hn, nofun⟩
          · cases hn
            exact .inl rfl
      | retriesRecordFailure m => cases hn
      | retriesReset m => cases hn
      | _ => exact .inr ⟨hn, nofun⟩
  | env o =>
      cases o with
      | acquireLease ctx m =>
          cases r with
          | false => cases hn
          | true => exact .inr ⟨hn, nofun⟩
      | releaseLease m => cases hn
      | _ => exact .inr ⟨hn, nofun⟩

theorem belowCap_move (hI : BelowCap cfg node v) (hmove : Move (cluster cfg node) charging v l v')
    (hA : FailsAlone node v l v') : BelowCap cfg node v' := by
  refine hmove.tasks (J := fun (w : World N T) t _ h => ∀ n, letThrough h = some n →
    ((w.node (node t)).retries.recent w.clock (Layout.certDomain n)).length < cfg.maxRetries)
    hI (fun _ _ => nofun) ?_ ?_
  · intro t q h o a r w' _ ht _ he n hn
    rcases letThrough_cons hn with hallow | ⟨hn, hnot⟩
    · cases hallow
      exact exec_allow_recent he
    · exact Nat.lt_of_le_of_lt (recent_exec he fun m ho => absurd ho (hnot m)) (hI t q h ht n hn)
  · intro t q h o a r w' hl _ _ he u q' h' hut hu n hn
    refine Nat.lt_of_le_of_lt (recent_exec he ?_) (hI u q' h' hu n hn)
    rintro m rfl hnode hhost
    subst hl
    exact hA (t, m) rfl u hut hnode (q', h') hu n hn hhost.symm

/-- In the window a failure adds one to the failures in it, which are then within the cap, and no
move takes one away. -/
theorem inWindow_move {i : N} {host : Name} {since : Time} (hI : BelowCap cfg node v)
    (hmove : Move (cluster cfg node) charging v l v') (hwin : InWindow node i host since v l v') :
    (failureOf node i host v l v').toNat + inWindow i host since v ≤ inWindow i host since v' ∧
      (failureOf node i host v l v' = true → inWindow i host since v' ≤ cfg.maxRetries) := by
  obtain ⟨hsince, huntil, hreset⟩ := hwin
  cases hmove with
  | start _ | finish _ _ | crash => simp [failureOf, charged, inWindow]
  | @did t q h o a r w' ht hmay he =>
      replace he : exec cfg.maxRetries node v.shared t o a = some (r, w') := he
      simp only [View.put_shared] at hsince huntil
      -- what has aged out of the budget is older than the window
      have hrecent : ((v.shared.node i).retries.recent w'.clock host).countP
          (fun t => decide (since ≤ t)) = inWindow i host since v := by
        rw [RetryBudget.recent, List.countP_filter]
        refine List.countP_congr fun t _ => ?_
        simp only [Bool.and_eq_true, decide_eq_true_eq, and_iff_left_iff_imp]
        intro hle
        exact Nat.lt_of_lt_of_le huntil (Nat.add_le_add_right hle _)
      rcases exec_failures he i host with ⟨hnot, hf⟩ | ⟨n, rfl, rfl, rfl, hf⟩ | ⟨n, rfl, rfl, rfl, -⟩
      · have hnone : failureOf node i host v (.did t ⟨o, r⟩)
            (v.put t w' (some (q, ⟨o, r⟩ :: h))) = false := by
          rw [Bool.eq_false_iff]
          intro hfails
          obtain ⟨u, n, hcharged, hnode, hhost⟩ := failureOf_iff.1 hfails
          obtain ⟨rfl, rfl⟩ := charged_did hcharged
          exact hnot n rfl hnode.symm hhost
        rw [hnone]
        refine ⟨?_, Bool.noConfusion⟩
        rcases hf with hf | hf
        · simp [inWindow, hf]
        · simp [inWindow, hf, hrecent]
      · have hfails : failureOf node (node t) (RetryBudget.budgetKey n) v
            (.did t ⟨.mem (.retriesRecordFailure n), r⟩)
            (v.put t w' (some (q, ⟨.mem (.retriesRecordFailure n), r⟩ :: h))) = true :=
          failureOf_iff.2 ⟨t, n, rfl, rfl, rfl⟩
        have hafter : inWindow (node t) (RetryBudget.budgetKey n) since
            (v.put t w' (some (q, ⟨.mem (.retriesRecordFailure n), r⟩ :: h))) =
              inWindow (node t) (RetryBudget.budgetKey n) since v + 1 := by
          rw [← hrecent]
          simp [inWindow, hf, hsince]
        rw [hfails, hafter]
        refine ⟨by simp [Nat.add_comm], fun _ => ?_⟩
        calc inWindow (node t) (RetryBudget.budgetKey n) since v + 1
            ≤ ((v.shared.node (node t)).retries.recent w'.clock (RetryBudget.budgetKey n)).length + 1 := by
              rw [← hrecent]
              exact Nat.succ_le_succ List.countP_le_length
          _ ≤ ((v.shared.node (node t)).retries.recent v.shared.clock
                (RetryBudget.budgetKey n)).length + 1 :=
              Nat.succ_le_succ (RetryBudget.recent_length_antitone _ (exec_clock he) _)
          _ ≤ cfg.maxRetries := hI t q h ht n hmay
      · exact absurd ⟨rfl, rfl⟩ (hreset (t, n) rfl)

/-- Where no failure is recorded while another attempt for the hostname has been let through, an hour
without a reset holds at most `maxRetries` failures. -/
theorem failures_capped (cfg : Settings) (node : T → N) (i : N) (host : Name) (w₀ : World N T)
    (before window : List (Action T Call Answer)) (c : Config Op Res (World N T) T Call Out)
    (since : Time)
    (hA : (cluster cfg node).Meets (FailsAlone node) (.idle w₀) (before ++ window))
    (hbefore : (cluster cfg node).run (.idle w₀) before = some c)
    (hwindow : (cluster cfg node).Meets (InWindow node i host since) c window) :
    (cluster cfg node).count (failureOf node i host) c window ≤ cfg.maxRetries := by
  have hstep : ∀ v l v', BelowCap cfg node v → Move (cluster cfg node) charging v l v' →
      FailsAlone node v l v' → BelowCap cfg node v' := fun v l v' => belowCap_move
  obtain ⟨hA₁, hA₂⟩ := Machine.meets_append hA
  obtain ⟨hI, htrack⟩ := Machine.run_invariant (cluster_charging cfg node) hstep before _ c
    (Machine.onTrack_idle w₀) nofun hA₁ hbefore
  have hmoves := Machine.run_meets (A := fun v l v' => FailsAlone node v l v' ∧
      InWindow node i host since v l v') (cluster_charging cfg node)
    (fun v l v' hv hmove hl => hstep v l v' hv hmove hl.1) window c htrack hI
    ((hA₂ c hbefore).and hwindow)
  have hraises := hmoves.mono fun v l v' hm => inWindow_move hm.2.2.1 hm.1 hm.2.1.2
  rcases Machine.count_le_of_potential (inWindow i host since) hraises with hnone | hle
  · rw [hnone]
    exact Nat.zero_le _
  · exact Nat.le_trans (Nat.le_add_right _ _) hle

end

/-! ## A domain and its companion -/

/-- The domain "a" with a companion, and one failed attempt an hour. -/
def Settings.oneRetry : Settings :=
  { Settings.plain ["a"] with maxRetries := 1, rsaCompanion := true }

/-- An operator's renewal of "a", up to the answer of the budget. -/
def asksForDomain : List (Action (Fin 2) Call Answer) :=
  .start 0 (.renewCertificate "a") :: List.replicate 9 (.step 0 {})

/-- Maintenance of its companion, as far. -/
def asksForCompanion : List (Action (Fin 2) Call Answer) :=
  .start 1 (.renewIfNeeded "a+rsa") :: List.replicate 11 (.step 1 {})

/-- The operator's order fails. -/
def failsForDomain : List (Action (Fin 2) Call Answer) :=
  (List.replicate 11 (.step 0 {}) : Schedule 2) ++
    (.step 0 { outcome := .fail } :: List.replicate 3 (.step 0 {}) : Schedule 2) ++
    ([.finish 0] : Schedule 2)

/-- One attempt after the other: the second is refused. -/
theorem failures_capped_in_turn :
    (cluster .oneRetry fun _ : Fin 2 => ()).count (failureOf (fun _ => ()) () "a")
        (.idle (World.empty Unit (Fin 2)))
        (asksForDomain ++ failsForDomain ++ asksForCompanion ++ [.step 1 {}, .finish 1]) ≤ 1 ∧
      ((cluster .oneRetry fun _ : Fin 2 => ()).run (.idle (World.empty Unit (Fin 2)))
        (asksForDomain ++ failsForDomain ++ asksForCompanion ++ [.step 1 {}, .finish 1])).isSome := by
  refine ⟨?_, by decide +kernel⟩
  exact failures_capped .oneRetry (fun _ : Fin 2 => ()) () "a" (World.empty Unit (Fin 2)) [] _ _ 0
    (by decide +kernel) rfl (by decide +kernel)

/-- Both are let through, take the lease in turn and fail: two failures in the hour. -/
theorem failures_over_cap :
    (cluster .oneRetry fun _ : Fin 2 => ()).Meets (LeaseExclusive .oneRetry)
      (.idle (World.empty Unit (Fin 2)))
      (asksForDomain ++ asksForCompanion ++ failsForDomain ++
        (List.replicate 5 (.step 1 {}) ++ [.step 1 { outcome := .fail }, .step 1 {}])) ∧
    (cluster .oneRetry fun _ : Fin 2 => ()).Meets (InWindow (fun _ => ()) () "a" 0)
      (.idle (World.empty Unit (Fin 2)))
      (asksForDomain ++ asksForCompanion ++ failsForDomain ++
        (List.replicate 5 (.step 1 {}) ++ [.step 1 { outcome := .fail }, .step 1 {}])) ∧
    Settings.oneRetry.maxRetries <
      (cluster .oneRetry fun _ : Fin 2 => ()).count (failureOf (fun _ => ()) () "a")
        (.idle (World.empty Unit (Fin 2)))
        (asksForDomain ++ asksForCompanion ++ failsForDomain ++
          (List.replicate 5 (.step 1 {}) ++ [.step 1 { outcome := .fail }, .step 1 {}])) := by
  refine ⟨by decide +kernel, by decide +kernel, by decide +kernel⟩

end CertsManager
