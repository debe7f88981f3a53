import CertsManager.HeldServed
import CertsManager.Discipline.Budget

/-!
# RateLimits — the CA's rate limits, across attempts

A rate limit is recorded in the retry budget of the hostname, under the lease, and every order but
an activation's asks the budget before it takes the lease.  So a limit is kept to, except where the
budget is passed by or undone:

* an activation orders without asking, and records no limit it is answered with;
* a flush that lands a held chain resets the budget, block and all;
* an attempt for the hostname's other name may have been let through before the limit was recorded,
  and order when the lease comes free.

`LimitRules` excludes these three.
-/

namespace CertsManager

open Interleave

section

variable {N T : Type}

/-! ## The rules of a run -/

/-- The hostname is blocked at `now`. -/
def RetryBudget.InForce (b : RetryBudget) (host : Name) (now : Time) : Prop :=
  ∃ liftsAt ∈ b.blocked host, now < liftsAt

instance (b : RetryBudget) (host : Name) (now : Time) : Decidable (b.InForce host now) :=
  inferInstanceAs (Decidable (∃ liftsAt ∈ b.blocked host, now < liftsAt))

/-- The rate limit an order was answered with. -/
def limitNamed : ClusterLabel T → Option Time
  | .did _ ⟨.env (.issue _ _ _), .error f⟩ => f.rateLimit
  | _ => none

/-- The thread and the name of a block this move recorded. -/
def blockRecorded : ClusterLabel T → Option (T × Name)
  | .did t ⟨.mem (.retriesBlock n _), _⟩ => some (t, n)
  | _ => none

/-- An activation orders only when the hostname is not blocked, and is not rate-limited. -/
def ActivatesUnblocked (node : T → N) (v : ClusterView N T) (l : ClusterLabel T)
    (_ : ClusterView N T) : Prop :=
  ∀ g ∈ ordered l, ∀ x ∈ v.task g.1, x.1.activates = true →
    ¬(v.shared.node (node g.1)).retries.InForce (Layout.certDomain g.2) v.shared.clock ∧
      limitNamed l = none

instance [DecidableEq N] (node : T → N) (v : ClusterView N T) (l : ClusterLabel T)
    (v' : ClusterView N T) : Decidable (ActivatesUnblocked node v l v') :=
  inferInstanceAs (Decidable (∀ g ∈ ordered l, ∀ x ∈ v.task g.1, x.1.activates = true →
    ¬(v.shared.node (node g.1)).retries.InForce (Layout.certDomain g.2) v.shared.clock ∧
      limitNamed l = none))

/-- A flush resets the budget only of a hostname that is not blocked. -/
def FlushSparesBlocks (node : T → N) (v : ClusterView N T) (l : ClusterLabel T)
    (v' : ClusterView N T) : Prop :=
  ∀ g ∈ budgetReset l, ∀ x ∈ v.task g.1, x.1 = .flushHeldChains →
    ¬(v.shared.node (node g.1)).retries.InForce (Layout.certDomain g.2) v'.shared.clock

instance (node : T → N) (v : ClusterView N T) (l : ClusterLabel T) (v' : ClusterView N T) :
    Decidable (FlushSparesBlocks node v l v') :=
  inferInstanceAs (Decidable (∀ g ∈ budgetReset l, ∀ x ∈ v.task g.1, x.1 = .flushHeldChains →
    ¬(v.shared.node (node g.1)).retries.InForce (Layout.certDomain g.2) v'.shared.clock))

/-- When a block is recorded no other attempt for the hostname has been let through already. -/
def BlocksInTime (v : ClusterView N T) (l : ClusterLabel T) (_ : ClusterView N T) : Prop :=
  ∀ g ∈ blockRecorded l, ∀ u, u ≠ g.1 → ∀ x ∈ v.task u, ∀ m ∈ (attempt x.2).cleared,
    Layout.certDomain m ≠ Layout.certDomain g.2

instance [Fintype T] [DecidableEq T] (v : ClusterView N T) (l : ClusterLabel T)
    (v' : ClusterView N T) : Decidable (BlocksInTime v l v') :=
  inferInstanceAs (Decidable (∀ g ∈ blockRecorded l, ∀ u, u ≠ g.1 → ∀ x ∈ v.task u,
    ∀ m ∈ (attempt x.2).cleared, Layout.certDomain m ≠ Layout.certDomain g.2))

/-- Nothing is cut off, leases exclude one another, and the budget is neither passed by nor
undone. -/
def LimitRules (cfg : Settings) (node : T → N) (v : ClusterView N T) (l : ClusterLabel T)
    (v' : ClusterView N T) : Prop :=
  crashed l = none ∧ LeaseExclusive cfg v l v' ∧ ActivatesUnblocked node v l v' ∧
    FlushSparesBlocks node v l v' ∧ BlocksInTime v l v'

instance [Fintype T] [DecidableEq T] [DecidableEq N] (cfg : Settings) (node : T → N)
    (v : ClusterView N T) (l : ClusterLabel T) (v' : ClusterView N T) :
    Decidable (LimitRules cfg node v l v') :=
  inferInstanceAs (Decidable (_ ∧ _ ∧ _ ∧ _ ∧ _))

/-- No order for the hostname is placed before the limit lifts. -/
def OrdersAfter (host : Name) (liftsAt : Time) (v : ClusterView N T) (l : ClusterLabel T)
    (_ : ClusterView N T) : Prop :=
  ∀ g ∈ ordered l, Layout.certDomain g.2 = host → liftsAt ≤ v.shared.clock

instance (host : Name) (liftsAt : Time) (v : ClusterView N T) (l : ClusterLabel T)
    (v' : ClusterView N T) : Decidable (OrdersAfter host liftsAt v l v') :=
  inferInstanceAs (Decidable (∀ g ∈ ordered l, Layout.certDomain g.2 = host →
    liftsAt ≤ v.shared.clock))

/-! ## The invariant -/

/-- An order that was given, and a limit that is still to be recorded, are under the lease. -/
structure Attempt.UnderLease (β : Attempt) (κ : Know) : Prop where
  paid : ∀ n, β.paid = some n → κ.Leased n
  owed : ∀ d, β.owed = some d → κ.Leased d.1

structure MeterInv (cfg : Settings) (v : ClusterView N T) : Prop where
  alone : HostAlone cfg v
  lease : ∀ t q h, v.task t = some (q, h) → q.activates = false →
    (attempt h).UnderLease (know cfg h)

/-- The thread `t` was answered with the limit and has not recorded it yet. -/
def Recording (host : Name) (liftsAt : Time) (t : T) (v : ClusterView N T) : Prop :=
  ∃ q h n wait read, v.task t = some (q, h) ∧ q.activates = false ∧
    (attempt h).owed = some (n, wait, read) ∧ Layout.certDomain n = host ∧
    liftsAt ≤ read.getD v.shared.clock + rateLimitWait wait

/-- The limit is recorded, and nobody can get round it. -/
structure Barred (i : N) (host : Name) (liftsAt : Time) (v : ClusterView N T) : Prop where
  blocked : ∃ until' ∈ (v.shared.node i).retries.blocked host, liftsAt ≤ until'
  cleared : ∀ u q h, v.task u = some (q, h) → q.activates = false →
    ∀ m, (attempt h).cleared = some m → Layout.certDomain m ≠ host
  paid : ∀ u q h, v.task u = some (q, h) → q.activates = false →
    ∀ m, (attempt h).paid = some m → Layout.certDomain m ≠ host
  owed : ∀ u q h, v.task u = some (q, h) → q.activates = false →
    ∀ d, (attempt h).owed = some d → Layout.certDomain d.1 ≠ host

theorem Barred.transport {i : N} {host : Name} {liftsAt : Time} {v v' : ClusterView N T}
    (hbar : Barred i host liftsAt v) (hshared : v'.shared = v.shared)
    (htask : ∀ u q h, v'.task u = some (q, h) → v.task u = some (q, h) ∨ h = []) :
    Barred i host liftsAt v' := by
  refine ⟨hshared ▸ hbar.blocked, ?_, ?_, ?_⟩ <;> intro u q h hu hq m hm <;>
    rcases htask u q h hu with hu | rfl
  · exact hbar.cleared u q h hu hq m hm
  · cases hm
  · exact hbar.paid u q h hu hq m hm
  · cases hm
  · exact hbar.owed u q h hu hq m hm
  · cases hm

/-- From the answer on: the limit has lifted, or it is being recorded, or it is recorded. -/
def Limited (i : N) (host : Name) (liftsAt : Time) (t : T) (v : ClusterView N T) : Prop :=
  liftsAt ≤ v.shared.clock ∨ Recording host liftsAt t v ∨ Barred i host liftsAt v

/-! ## One attempt -/

section Attempts

variable {cfg : Settings} {q : Call} {h : History} {e : Event}

theorem cleared_after {n : Name} (hn : ((attempt h).after e).cleared = some n) :
    (attempt h).cleared = some n ∨ e = ⟨.mem (.retriesAllow n), .ok ()⟩ := by
  obtain ⟨o, r⟩ := e
  cases o with
  | storage ctx o => exact Or.inl hn
  | mem o =>
      cases o with
      | retriesAllow m =>
          rcases r with wait | _
          · exact Or.inl hn
          · cases hn
            exact Or.inr rfl
      | unlock m | retriesBlock m t => cases hn
      | _ => exact Or.inl hn
  | env o =>
      cases o with
      | acquireLease ctx m =>
          cases r with
          | true => exact Or.inl hn
          | false => cases hn
      | releaseLease m => cases hn
      | issue ctx m k => cases r <;> exact Or.inl hn
      | _ => exact Or.inl hn

theorem paid_after {n : Name} (hn : ((attempt h).after e).paid = some n) :
    ((attempt h).paid = some n ∧ ∀ m, e.op ≠ .env (.releaseLease m)) ∨
      ∃ ctx k c, e = ⟨.env (.issue ctx n k), .ok c⟩ := by
  obtain ⟨o, r⟩ := e
  cases o with
  | storage ctx o => exact Or.inl ⟨hn, by simp⟩
  | mem o =>
      cases o with
      | retriesAllow m => rcases r with wait | _ <;> exact Or.inl ⟨hn, by simp⟩
      | unlock m | retriesBlock m t => cases hn
      | _ => exact Or.inl ⟨hn, by simp⟩
  | env o =>
      cases o with
      | acquireLease ctx m => cases r <;> exact Or.inl ⟨hn, by simp⟩
      | releaseLease m => cases hn
      | issue ctx m k =>
          cases r with
          | error f => exact Or.inl ⟨hn, by simp⟩
          | ok c =>
              cases hn
              exact Or.inr ⟨ctx, k, c, rfl⟩
      | _ => exact Or.inl ⟨hn, by simp⟩

theorem owed_after {d : Name × Time × Option Time} (hd : ((attempt h).after e).owed = some d) :
    (∃ read, (attempt h).owed = some (d.1, d.2.1, read)) ∨
      ∃ ctx k f, e = ⟨.env (.issue ctx d.1 k), .error f⟩ := by
  obtain ⟨o, r⟩ := e
  cases o with
  | storage ctx o => exact Or.inl ⟨_, hd⟩
  | mem o =>
      cases o with
      | retriesAllow m => rcases r with wait | _ <;> exact Or.inl ⟨_, hd⟩
      | retriesBlock m t => cases hd
      | _ => exact Or.inl ⟨_, hd⟩
  | env o =>
      cases o with
      | now =>
          obtain ⟨⟨n, wait, read⟩, howed, rfl⟩ := Option.map_eq_some_iff.1 hd
          exact Or.inl ⟨read, howed⟩
      | acquireLease ctx m => cases r <;> exact Or.inl ⟨_, hd⟩
      | issue ctx m k =>
          cases r with
          | ok c => exact Or.inl ⟨_, hd⟩
          | error f =>
              obtain ⟨wait, -, rfl⟩ := Option.map_eq_some_iff.1 hd
              exact Or.inr ⟨ctx, k, f, rfl⟩
      | _ => exact Or.inl ⟨_, hd⟩

/-- While a limit is owed nothing happens but what records it. -/
theorem owing_calls {o : Op} {d : Name × Time × Option Time} (hd : (attempt h).owed = some d)
    (hq : q.activates = false) (hmay : mayMeter q h o) :
    (∃ n, o = .mem (.retriesRecordFailure n)) ∨ o = .env .now ∨
      ∃ t, d.2.2 = some t ∧ o = .mem (.retriesBlock d.1 (t + rateLimitWait d.2.1)) := by
  have hsquare : ¬Square h := by simp [Square, hd]
  have hother : ¬(q.activates = true ∨ Square h) := by simp [hq, hsquare]
  cases o with
  | storage ctx o => exact absurd hmay hother
  | mem o =>
      cases o with
      | retriesRecordFailure n => exact Or.inl ⟨n, rfl⟩
      | retriesBlock n liftsAt =>
          obtain ⟨-, wait, t, howed, rfl⟩ := hmay
          obtain rfl : (n, wait, some t) = d := Option.some.inj (howed.symm.trans hd)
          exact Or.inr (Or.inr ⟨t, rfl, rfl⟩)
      | retriesReset n => exact absurd hmay.2.1 hsquare
      | _ => exact absurd hmay hother
  | env o =>
      cases o with
      | now => exact Or.inr (Or.inl rfl)
      | issue ctx n k =>
          rcases hmay with hact | ⟨hsq, -⟩
          · simp [hq] at hact
          · exact absurd hsq hsquare
      | _ => exact absurd hmay hother

theorem underLease_after (hβ : (attempt h).UnderLease (know cfg h)) (hq : q.activates = false)
    (hkeep : mayKeep cfg q h e.op) (hmeter : mayMeter q h e.op) :
    ((attempt h).after e).UnderLease ((know cfg h).after cfg e) := by
  -- a lease that is held is held on, unless this gives it back
  have hheld : ∀ n, (know cfg h).Leased n → e.op ≠ .env (.releaseLease n) →
      ((know cfg h).after cfg e).Leased n := fun n hn hne =>
    (leased_until hn hkeep).resolve_right hne
  refine ⟨fun n hn => ?_, fun d hd => ?_⟩
  · rcases paid_after hn with ⟨hpaid, hne⟩ | ⟨ctx, k, c, rfl⟩
    · exact hheld n (hβ.paid n hpaid) (hne n)
    · exact hheld n hkeep.1 (by simp)
  · rcases owed_after hd with ⟨read, howed⟩ | ⟨ctx, k, f, rfl⟩
    · refine hheld d.1 (hβ.owed (d.1, d.2.1, read) howed) ?_
      rcases owing_calls howed hq hmeter with ⟨n, ho⟩ | ho | ⟨t, -, ho⟩ <;> simp [ho]
    · exact hheld d.1 hkeep.1 (by simp)

end Attempts

/-! ## What a call does -/

variable [DecidableEq N] [DecidableEq T] {cfg : Settings} {node : T → N}

section Did

variable {v : ClusterView N T} {t u : T} {q : Call} {h : History} {o : Op} {a : Answer} {r : Res o}
  {w' : World N T} {host : Name} {liftsAt : Time}

/-- The thread that was answered goes on to record the limit. -/
theorem recording_own (hI : MeterInv cfg v) (hrec : Recording host liftsAt u v)
    (ht : v.task u = some (q, h)) (hmay : mayMeter q h o)
    (he : exec cfg.maxRetries node v.shared u o a = some (r, w'))
    (hA : BlocksInTime v (.did u ⟨o, r⟩) (v.put u w' (some (q, ⟨o, r⟩ :: h)))) :
    Recording host liftsAt u (v.put u w' (some (q, ⟨o, r⟩ :: h))) ∨
      Barred (node u) host liftsAt (v.put u w' (some (q, ⟨o, r⟩ :: h))) := by
  obtain ⟨q', h', n, wait, read, ht', hq, howed, rfl, hle⟩ := hrec
  cases ht.symm.trans ht'
  have hclock := exec_clock he
  rcases owing_calls howed hq hmay with ⟨m, rfl⟩ | rfl | ⟨s, hs, rfl⟩
  · refine Or.inl ⟨q, _, n, wait, read, View.put_self _ _ _ _, hq, howed, rfl, hle.trans ?_⟩
    cases read with
    | none => exact Nat.add_le_add_right hclock _
    | some s => exact le_rfl
  · refine Or.inl ⟨q, _, n, wait, read.or (some r), View.put_self _ _ _ _, hq, ?_, rfl, hle.trans ?_⟩
    · simp [Attempt.after, howed]
    · cases read with
      | none =>
          obtain rfl := exec_now he
          exact Nat.add_le_add_right hclock _
      | some s => exact le_rfl
  · right
    obtain rfl : read = some s := hs
    have hlease := (hI.lease u q h ht hq).owed _ howed
    -- whoever else has an order or a limit of the hostname would hold the lease too
    have hothers : ∀ u' q' h', u' ≠ u → v.task u' = some (q', h') → ∀ m,
        (know cfg h').Leased m → Layout.certDomain m ≠ Layout.certDomain n := by
      intro u' q' h' hne hu' m hm hhost
      exact hne (hI.alone u' u q' q h' h m n hu' ht hm hlease hhost)
    refine ⟨⟨s + rateLimitWait wait, exec_block he, hle⟩, ?_, ?_, ?_⟩
    · intro u' q' h' hu' hq' m hm
      rcases View.put_cases hu' with ⟨-, ⟨⟩⟩ | ⟨hne, hu'⟩
      · cases hm
      · exact hA (u, n) rfl u' hne (q', h') hu' m hm
    · intro u' q' h' hu' hq' m hm
      rcases View.put_cases hu' with ⟨-, ⟨⟩⟩ | ⟨hne, hu'⟩
      · cases hm
      · exact hothers u' q' h' hne hu' m ((hI.lease u' q' h' hu' hq').paid m hm)
    · intro u' q' h' hu' hq' d hd
      rcases View.put_cases hu' with ⟨-, ⟨⟩⟩ | ⟨hne, hu'⟩
      · cases hd
      · exact hothers u' q' h' hne hu' d.1 ((hI.lease u' q' h' hu' hq').owed d hd)

/-- Who is to record the limit is not disturbed by the others. -/
theorem recording_other (hrec : Recording host liftsAt t v) (hut : u ≠ t)
    (he : exec cfg.maxRetries node v.shared u o a = some (r, w')) (x : Option (Call × History)) :
    Recording host liftsAt t (v.put u w' x) := by
  obtain ⟨q', h', n, wait, read, ht, hq, howed, hhost, hle⟩ := hrec
  refine ⟨q', h', n, wait, read, by rwa [View.put_other v _ _ (Ne.symm hut)], hq, howed, hhost,
    hle.trans ?_⟩
  cases read with
  | none => exact Nat.add_le_add_right (exec_clock he) _
  | some s => exact le_rfl

/-- A recorded limit stays recorded until it lifts. -/
theorem barred_did (hone : ∀ t u, node t = node u) (hbar : Barred (node t) host liftsAt v)
    (hu : v.task u = some (q, h)) (hmay : mayMeter q h o)
    (he : exec cfg.maxRetries node v.shared u o a = some (r, w'))
    (hA : FlushSparesBlocks node v (.did u ⟨o, r⟩) (v.put u w' (some (q, ⟨o, r⟩ :: h)))) :
    liftsAt ≤ w'.clock ∨ Barred (node t) host liftsAt (v.put u w' (some (q, ⟨o, r⟩ :: h))) := by
  obtain ⟨lift, hlift, hle⟩ := hbar.blocked
  by_cases hlifted : liftsAt ≤ w'.clock
  · exact Or.inl hlifted
  have hforce : w'.clock < lift := (Nat.lt_of_not_le hlifted).trans_le hle
  -- an order for the hostname would need to have been let through
  have hnoOrder : q.activates = false → ∀ ctx n k, o = .env (.issue ctx n k) →
      Layout.certDomain n ≠ host := by
    rintro hq ctx n k rfl
    rcases hmay with hact | ⟨-, hcleared, -⟩
    · simp [hq] at hact
    · exact hbar.cleared u q h hu hq n hcleared
  right
  refine ⟨?_, ?_, ?_, ?_⟩
  · rcases exec_blocked he (node t) host with hsame | ⟨n, s, rfl, hhost, -⟩ | ⟨n, rfl, -, hhost⟩ |
      ⟨lift', hlift', hpast⟩
    · exact ⟨lift, by rw [View.put_shared, hsame]; exact hlift, hle⟩
    · obtain ⟨hq, wait, s', howed, -⟩ := hmay
      exact absurd hhost (hbar.owed u q h hu hq _ howed)
    · obtain ⟨hq, -, rfl | hpaid⟩ := hmay
      · refine absurd ⟨lift, ?_, hforce⟩ (hA (u, n) rfl _ hu rfl)
        rw [hone u t]
        subst hhost
        exact hlift
      · exact absurd hhost (hbar.paid u q h hu hq n hpaid)
    · obtain rfl : lift = lift' := Option.some.inj (hlift.symm.trans hlift')
      exact absurd hpast (Nat.not_le_of_lt hforce)
  · intro u' q' h' hu' hq' m hm
    rcases View.put_cases hu' with ⟨rfl, ⟨⟩⟩ | ⟨-, hu'⟩
    · rcases cleared_after hm with hm | heq
      · exact hbar.cleared u' q h hu hq' m hm
      · cases heq
        rintro rfl
        have hb : (v.shared.node (node u')).retries.blocked (RetryBudget.budgetKey m) = some lift := by
          rw [hone u' t]
          exact hlift
        exact absurd (exec_allow he hb) (Nat.not_le_of_lt hforce)
    · exact hbar.cleared u' q' h' hu' hq' m hm
  · intro u' q' h' hu' hq' m hm
    rcases View.put_cases hu' with ⟨rfl, ⟨⟩⟩ | ⟨-, hu'⟩
    · rcases paid_after hm with ⟨hm, -⟩ | ⟨ctx, k, c, heq⟩
      · exact hbar.paid u' q h hu hq' m hm
      · cases heq
        exact hnoOrder hq' ctx m k rfl
    · exact hbar.paid u' q' h' hu' hq' m hm
  · intro u' q' h' hu' hq' d hd
    rcases View.put_cases hu' with ⟨rfl, ⟨⟩⟩ | ⟨-, hu'⟩
    · rcases owed_after hd with ⟨read, howed⟩ | ⟨ctx, k, f, heq⟩
      · exact hbar.owed u' q h hu hq' (d.1, d.2.1, read) howed
      · cases heq
        exact hnoOrder hq' ctx d.1 k rfl
    · exact hbar.owed u' q' h' hu' hq' d hd

end Did

/-! ## Whole runs -/

theorem meterInv_move {v v' : ClusterView N T} {l : ClusterLabel T} (hI : MeterInv cfg v)
    (hmove : Move (cluster cfg node) ((keeps cfg).and meters) v l v')
    (hA : LeaseExclusive cfg v l v') : MeterInv cfg v' := by
  have halone := hostAlone_move hI.alone hmove.left hA
  cases hmove with
  | start _ =>
      refine ⟨halone, fun u q' h' hu hq => ?_⟩
      rcases View.put_cases hu with ⟨-, ⟨⟩⟩ | ⟨-, hu'⟩
      · exact ⟨by simp, by simp⟩
      · exact hI.lease u q' h' hu' hq
  | @did t q h o a r w' ht hmay he =>
      refine ⟨halone, fun u q' h' hu hq => ?_⟩
      rcases View.put_cases hu with ⟨-, ⟨⟩⟩ | ⟨-, hu'⟩
      · exact underLease_after (hI.lease t q h ht hq) hq hmay.1 hmay.2
      · exact hI.lease u q' h' hu' hq
  | finish _ _ | crash =>
      refine ⟨halone, fun u q' h' hu hq => ?_⟩
      rcases View.put_cases hu with ⟨-, ⟨⟩⟩ | ⟨-, hu'⟩
      exact hI.lease u q' h' hu' hq

theorem limited_move (hone : ∀ t u, node t = node u) {v v' : ClusterView N T} {l : ClusterLabel T}
    {t : T} {host : Name} {liftsAt : Time} (hI : MeterInv cfg v)
    (hlim : Limited (node t) host liftsAt t v)
    (hmove : Move (cluster cfg node) ((keeps cfg).and meters) v l v')
    (hA : LimitRules cfg node v l v') : Limited (node t) host liftsAt t v' := by
  obtain ⟨hcrash, -, -, hflush, hblocks⟩ := hA
  cases hmove with
  | @start u q hu =>
      rcases hlim with hpast | hrec | hbar
      · exact Or.inl hpast
      · obtain ⟨q', h', n, wait, read, ht, hrest⟩ := hrec
        have hne : t ≠ u := by
          rintro rfl
          cases ht.symm.trans hu
        exact Or.inr (Or.inl ⟨q', h', n, wait, read, by rwa [View.put_other v _ _ hne], hrest⟩)
      · refine Or.inr (Or.inr (hbar.transport rfl fun u' q' h' hu' => ?_))
        rcases View.put_cases hu' with ⟨-, ⟨⟩⟩ | ⟨-, hu'⟩
        · exact Or.inr rfl
        · exact Or.inl hu'
  | @did u q h o a r w' hu hmay he =>
      replace he : exec cfg.maxRetries node v.shared u o a = some (r, w') := he
      rcases hlim with hpast | hrec | hbar
      · exact Or.inl (hpast.trans (exec_clock he))
      · by_cases hut : u = t
        · subst hut
          exact Or.inr (recording_own hI hrec hu hmay.2 he hblocks)
        · exact Or.inr (Or.inl (recording_other hrec hut he _))
      · rcases barred_did hone hbar hu hmay.2 he hflush with hpast | hbar'
        · exact Or.inl hpast
        · exact Or.inr (Or.inr hbar')
  | @finish u q h out hu hdone =>
      rcases hlim with hpast | hrec | hbar
      · exact Or.inl hpast
      · obtain ⟨q', h', n, wait, read, ht, hq, howed, hrest⟩ := hrec
        have hne : t ≠ u := by
          rintro rfl
          cases ht.symm.trans hu
          rcases hdone.2 with hact | hsquare
          · simp [hq] at hact
          · simp [show (attempt h).owed = none from hsquare] at howed
        exact Or.inr (Or.inl ⟨q', h', n, wait, read, by rwa [View.put_other v _ _ hne], hq, howed,
          hrest⟩)
      · refine Or.inr (Or.inr (hbar.transport rfl fun u' q' h' hu' => ?_))
        rcases View.put_cases hu' with ⟨-, ⟨⟩⟩ | ⟨-, hu'⟩
        exact Or.inl hu'
  | crash => cases hcrash

/-- Whoever orders meanwhile would have had to be let through, or to hold the same lease. -/
theorem ordersAfter_move (hone : ∀ t u, node t = node u) {v v' : ClusterView N T}
    {l : ClusterLabel T} {t : T} {host : Name} {liftsAt : Time} (hI : MeterInv cfg v)
    (hlim : Limited (node t) host liftsAt t v)
    (hmove : Move (cluster cfg node) ((keeps cfg).and meters) v l v')
    (hA : ActivatesUnblocked node v l v') : OrdersAfter host liftsAt v l v' := by
  rintro ⟨u, n⟩ hg rfl
  cases hmove with
  | @did s q h o a r w' hs hmay he =>
      cases o with
      | env o =>
          cases o with
          | issue ctx m k =>
              cases hg
              obtain ⟨hkeep, hmeter⟩ := hmay
              replace hmeter : mayMeter q h (.env (.issue ctx n k)) := hmeter
              rcases hlim with hpast | hrec | hbar
              · exact hpast
              · obtain ⟨q', h', m, wait, read, ht, hq, howed, hhost, -⟩ := hrec
                have hlease := (hI.lease t q' h' ht hq).owed _ howed
                obtain rfl : u = t := hI.alone u t q q' h h' n m hs ht hkeep.1 hlease hhost.symm
                cases hs.symm.trans ht
                rcases owing_calls howed hq hmeter with ⟨_, ho⟩ | ho | ⟨_, -, ho⟩ <;> simp at ho
              · cases hq : q.activates with
                | false =>
                    rcases hmeter with hact | ⟨-, hcleared, -⟩
                    · simp [hq] at hact
                    · exact absurd rfl (hbar.cleared u q h hs hq n hcleared)
                | true =>
                    obtain ⟨lift, hlift, hle⟩ := hbar.blocked
                    by_contra hlt
                    refine (hA (u, n) rfl (q, h) hs hq).1 ⟨lift, ?_, ?_⟩
                    · rw [hone u t]
                      exact hlift
                    · exact (Nat.lt_of_not_le hlt).trans_le hle
          | _ => simp [ordered] at hg
      | _ => simp [ordered] at hg
  | _ => simp [ordered] at hg

/-- One process, any calls in it.  If nothing passes the budget by or undoes it, then after an order
for one of a hostname's names was answered with a rate limit, no order for any of its names is placed
before the limit lifts. -/
theorem limits_honoured (cfg : Settings) (node : T → N) (hone : ∀ t u, node t = node u)
    (w : World N T) (as : List (Action T Call Answer))
    (hA : (cluster cfg node).Meets (LimitRules cfg node) (.idle w) as) :
    ∀ as₁ a as₂ c₁ c₂ t ctx n k f wait, as = as₁ ++ a :: as₂ →
      (cluster cfg node).run (.idle w) as₁ = some c₁ →
      (cluster cfg node).step c₁ a = some (.did t ⟨.env (.issue ctx n k), .error f⟩, c₂) →
      f.rateLimit = some wait →
      (cluster cfg node).Meets
        (OrdersAfter (Layout.certDomain n) (c₂.shared.clock + rateLimitWait wait)) c₂ as₂ := by
  rintro as₁ a as₂ c₁ c₂ t ctx n k f wait rfl hrun hissue hwait
  have hfollows := Machine.Follows.and (cluster_keeps cfg node) (cluster_meters cfg node)
  have hinit : MeterInv cfg (Config.idle w : Config Op Res (World N T) T Call Out).view := by
    refine ⟨?_, ?_⟩ <;> simp [HostAlone, AloneUpTo, Config.view, Config.idle]
  have hstep : ∀ v l v', MeterInv cfg v → Move (cluster cfg node) ((keeps cfg).and meters) v l v' →
      LimitRules cfg node v l v' → MeterInv cfg v' :=
    fun _ _ _ hI hmove hA => meterInv_move hI hmove hA.2.1
  obtain ⟨hA₁, hrest⟩ := Machine.meets_append hA
  obtain ⟨hI₁, htrack₁⟩ := Machine.run_invariant hfollows hstep as₁ _ c₁ (Machine.onTrack_idle w)
    hinit hA₁ hrun
  have hA₂ := hrest c₁ hrun
  simp only [Machine.Meets, hissue] at hA₂
  obtain ⟨hmove, htrack₂⟩ := Machine.step_refines hfollows htrack₁ hissue
  have hI₂ := hstep _ _ _ hI₁ hmove hA₂.1
  -- the answer leaves a limit to record
  have hlim₂ : Limited (node t) (Layout.certDomain n) (c₂.shared.clock + rateLimitWait wait) t
      c₂.view := by
    obtain ⟨q, h, a, ht, hmay, he⟩ := hmove.did_cases
    have hq : q.activates = false := by
      cases hq : q.activates with
      | false => rfl
      | true =>
          have hnone : f.rateLimit = none := (hA₂.1.2.2.1 (t, n) rfl (q, h) ht hq).2
          simp [hnone] at hwait
    refine Or.inr (Or.inl ⟨q, _, n, wait, none, hmove.did_task ht, hq, ?_, rfl, le_rfl⟩)
    simp [Attempt.after, hwait]
  refine (Machine.run_meets hfollows
    (I := fun v => MeterInv cfg v ∧
      Limited (node t) (Layout.certDomain n) (c₂.shared.clock + rateLimitWait wait) t v)
    (fun v l v' hI hmove hA => ⟨hstep v l v' hI.1 hmove hA,
      limited_move hone hI.1 hI.2 hmove hA⟩) as₂ c₂ htrack₂ ⟨hI₂, hlim₂⟩ hA₂.2).mono ?_
  rintro _ _ _ ⟨hmove, hA, hI, -⟩
  exact ordersAfter_move hone hI.1 hI.2 hmove hA.2.2.1

end

/-! ## One process -/

/-- A renewal up to its order. -/
def renewalToOrder : List (Action (Fin 1) Call Answer) :=
  .start 0 (.renewCertificate "a") :: List.replicate 19 (.step 0 {})

/-- The CA refuses it, for a week. -/
def limitedForAWeek : Answer :=
  { outcome := .fail, rateLimit := some (604800 * second) }

/-- The next renewal is refused by the budget; the one after that comes when the week is over. -/
def renewalsAfterLimit : List (Action (Fin 1) Call Answer) :=
  (List.replicate 5 (.step 0 {}) : Schedule 1) ++
    ([.finish 0, .start 0 (.renewCertificate "a")] : Schedule 1) ++
    (List.replicate 6 (.step 0 {}) : Schedule 1) ++
    ([.finish 0, .start 0 (.renewCertificate "a"),
      .step 0 { wait := 604800 * second }] : Schedule 1) ++
    (List.replicate 20 (.step 0 { notAfter := 20000000 }) : Schedule 1)

theorem limits_honoured_renewalsAfterLimit :
    ∃ c₁ c₂ t ctx n k f,
      (cluster (.plain ["a"]) fun _ : Fin 1 => ()).run (.idle (storedWorld _ _)) renewalToOrder =
        some c₁ ∧
      (cluster (.plain ["a"]) fun _ : Fin 1 => ()).step c₁ (.step 0 limitedForAWeek) =
        some (.did t ⟨.env (.issue ctx n k), .error f⟩, c₂) ∧
      f.rateLimit = some (604800 * second) ∧
      (cluster (.plain ["a"]) fun _ : Fin 1 => ()).Meets
        (OrdersAfter (Layout.certDomain n) (c₂.shared.clock + rateLimitWait (604800 * second))) c₂
        renewalsAfterLimit ∧
      ∃ c ∈ (cluster (.plain ["a"]) fun _ : Fin 1 => ()).run c₂ renewalsAfterLimit,
        (c.shared.issued "a").length = 2 := by
  refine ⟨_, _, _, _, _, _, _, rfl, rfl, rfl, ?_, by decide +kernel⟩
  exact limits_honoured (.plain ["a"]) (fun _ => ()) (fun _ _ => rfl) (storedWorld _ _)
    (renewalToOrder ++ .step 0 limitedForAWeek :: renewalsAfterLimit) (by decide +kernel)
    renewalToOrder _ renewalsAfterLimit _ _ _ _ _ _ _ _ rfl rfl rfl rfl

/-- A key replacement is begun and activated at once. -/
def activationAfterLimit : List (Action (Fin 1) Call Answer) :=
  (List.replicate 5 (.step 0 {}) : Schedule 1) ++
    ([.finish 0, .start 0 (.replaceCertificateKey "a")] : Schedule 1) ++
    (List.replicate 9 (.step 0 {}) : Schedule 1) ++
    ([.finish 0, .start 0 (.activateCertificateKey "a" true)] : Schedule 1) ++
    (List.replicate 10 (.step 0 {}) : Schedule 1)

/-- The activation's order does not wait for the week to pass. -/
theorem limit_passed_by :
    ∃ c₁ c₂ t ctx n k f,
      (cluster (.plain ["a"]) fun _ : Fin 1 => ()).run (.idle (storedWorld _ _)) renewalToOrder =
        some c₁ ∧
      (cluster (.plain ["a"]) fun _ : Fin 1 => ()).step c₁ (.step 0 limitedForAWeek) =
        some (.did t ⟨.env (.issue ctx n k), .error f⟩, c₂) ∧
      f.rateLimit = some (604800 * second) ∧
      ¬(cluster (.plain ["a"]) fun _ : Fin 1 => ()).Meets
        (OrdersAfter (Layout.certDomain n) (c₂.shared.clock + rateLimitWait (604800 * second))) c₂
        activationAfterLimit := by
  refine ⟨_, _, _, _, _, _, _, rfl, rfl, rfl, ?_⟩
  decide +kernel

end CertsManager
