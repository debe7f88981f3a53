import CertsManager.Discipline.Budget

/-!
# Attempts — what surrounds an attempt to issue

Of the entry points, some make one run of `issueWithKey` for their name, with no use of the budget
around it; an activation places at most one order of its own; the others neither order nor count a
failure.
-/

namespace CertsManager

open Interleave

section

variable (cfg : Settings) (ctx : Time) (n : Name)

/-- A run of `issueWithKey` for the name. -/
def IssuesFor (p : M Manager.Returned) : Prop :=
  ∃ ctx k force, p = Manager.issueWithKey cfg ctx n k force

/-- Unmetered, but for a reset. -/
def Op.Settling : Op → Prop
  | .mem (.retriesReset _) => True
  | o => o.Unmetered

theorem Op.Unmetered.settling {o : Op} (h : o.Unmetered) : o.Settling := by
  cases o with
  | mem o => cases o <;> first | exact h | trivial
  | _ => exact h

theorem unmetered_of_quiet {α : Type} {p : M α} (hp : p.Calls Op.Quiet) : p.Calls Op.Unmetered :=
  unmetered_of_calm (calm_of_quiet hp)

/-- The issuance that ends a locked section. -/
theorem issueWithKey_around (k : Key) (force : Bool) :
    (Manager.issueWithKey cfg ctx n k force).Around Op.Unmetered (IssuesFor cfg n) := by
  have hwhole : Manager.issueWithKey cfg ctx n k force =
      Manager.issueWithKey cfg ctx n k force >>= pure := (Prog.bind_pure _).symm
  rw [hwhole]
  exact .sub ⟨ctx, k, force, rfl⟩ fun _ => .pure _

theorem obtain_around :
    (Manager.obtain cfg ctx n).Around Op.Unmetered (IssuesFor cfg n) := by
  refine .before (.perform trivial) fun _ => ?_
  refine Prog.Around.bind ?_ fun r => Prog.Calls.bind (.perform trivial) fun _ => .pure _
  refine .before (.perform trivial) fun cert => ?_
  cases cert with
  | some cert => exact .calls (.pure _)
  | none =>
      refine .before (unmetered_of_quiet (gateIssuance_quiet cfg ctx n)) fun r => ?_
      cases r with
      | error err => exact .calls (.pure _)
      | ok _ =>
          refine .before (unmetered_of_calm (loadOrCreateCertKey_calm cfg ctx n)) fun r => ?_
          cases r with
          | error err => exact .calls (.pure _)
          | ok k => exact issueWithKey_around cfg ctx n k false

theorem renewIfNeeded_around :
    (Manager.renewIfNeeded cfg ctx n).Around Op.Unmetered (IssuesFor cfg n) := by
  refine .before (unmetered_of_calm (renewalBase_calm cfg ctx n)) fun r => ?_
  cases r with
  | error err => exact .calls (.pure _)
  | ok notAfter =>
      refine .before (unmetered_of_quiet (stillFresh_quiet cfg notAfter)) fun fresh => ?_
      cases fresh with
      | true => exact .calls (.pure _)
      | false =>
          refine .before (.perform trivial) fun free => ?_
          cases free with
          | false => exact .calls (.pure _)
          | true =>
              refine Prog.Around.bind ?_ fun r => Prog.Calls.bind (.perform trivial) fun _ => .pure _
              refine .before (unmetered_of_calm (leafNotAfter_calm n)) fun notAfter => ?_
              refine .before (unmetered_of_quiet (stillFresh_quiet cfg notAfter)) fun fresh => ?_
              cases fresh with
              | true => exact .calls (.pure _)
              | false =>
                  refine .before (unmetered_of_quiet (gateIssuance_quiet cfg ctx n)) fun r => ?_
                  cases r with
                  | error err => exact .calls (.pure _)
                  | ok _ =>
                      refine .before (unmetered_of_calm (loadOrCreateCertKey_calm cfg ctx n))
                        fun r => ?_
                      cases r with
                      | error err => exact .calls (.pure _)
                      | ok k => exact .sub ⟨ctx, k, false, rfl⟩ fun _ => .pure _

theorem renewAndRecord_around :
    (OnDemand.renewAndRecord cfg ctx n).Around Op.Unmetered (IssuesFor cfg n) := by
  refine (renewIfNeeded_around cfg ctx n).bind fun r => ?_
  cases r with
  | some err => exact .pure _
  | none => exact (recordIssued_lookup cfg ctx n).mono fun _ ho => ho.calm.unmetered

theorem requestIssue_around (onDemandHost : Bool) :
    (Manager.requestIssue cfg n onDemandHost).Around Op.Unmetered (IssuesFor cfg n) := by
  refine .before (.perform trivial) fun t => ?_
  dsimp only
  split
  · refine .before (.perform trivial) fun ok => ?_
    cases ok with
    | false => exact .calls (.pure _)
    | true =>
        refine .before (.perform trivial) fun taken => ?_
        cases taken with
        | false => exact .calls (.pure _)
        | true => exact (obtain_around cfg _ n).bind fun _ => .pure _
  · exact (obtain_around cfg _ n).bind fun _ => .pure _

theorem runHost_around (isRenewal : Bool) :
    (OnDemand.runHost cfg n isRenewal).Around Op.Unmetered (IssuesFor cfg n) := by
  refine .before (.perform trivial) fun t => .before (.perform trivial) fun ok => ?_
  cases ok with
  | false => exact .calls (.pure _)
  | true =>
      cases isRenewal with
      | true => exact renewAndRecord_around cfg _ n
      | false =>
          refine .before (unmetered_of_calm (refresh_calm cfg _ n)) fun r => ?_
          cases r with
          | ok cert => exact renewAndRecord_around cfg _ n
          | error err =>
              dsimp only
              split
              · exact .calls (.pure _)
              · refine .before (.perform trivial) fun taken => ?_
                cases taken with
                | false => exact .calls (.pure _)
                | true => exact renewAndRecord_around cfg _ n

/-- The admin API asks for the domain to be configured. -/
theorem renewCertificate_around : (Manager.renewCertificate cfg n).Around Op.Unmetered
    fun p => IssuesFor cfg n p ∧ n ∈ cfg.domains := by
  refine .before (.perform trivial) fun leader => ?_
  cases leader with
  | false => exact .calls (.pure _)
  | true =>
      simp only [Bool.not_true, Bool.false_eq_true, if_false]
      split
      · exact .calls (.pure _)
      · rename_i hconfigured
        refine .before (.perform trivial) fun t => .before (.perform trivial) fun _ => ?_
        refine Prog.Around.bind ?_ fun r => Prog.Calls.bind (.perform trivial) fun _ => .pure _
        refine .before (unmetered_of_quiet (gateIssuance_quiet cfg _ n)) fun _ => ?_
        refine .before (unmetered_of_calm (loadOrCreateCertKey_calm cfg _ n)) fun r => ?_
        cases r with
        | error err => exact .calls (.pure _)
        | ok k =>
            refine .sub ⟨⟨_, k, true, rfl⟩, by simpa using hconfigured⟩ fun r => ?_
            rcases r with ⟨cert, _ | err⟩ <;> exact .pure _

theorem flushHeldChains_settling : (Manager.flushHeldChains cfg ctx).Calls Op.Settling :=
  flushHeldChains_calls trivial (fun _ _ _ ho => ho.unmetered.settling) trivial fun _ => trivial

end

/-! ## Every entry point -/

/-- The requests that can place an order. -/
def Call.orders : Call → Bool
  | .obtain _ => true
  | .requestIssue _ _ => true
  | .renewIfNeeded _ => true
  | .renewCertificate _ => true
  | .activateCertificateKey _ _ => true
  | .runHost _ _ => true
  | _ => false

theorem body_settling (cfg : Settings) {q : Call} (hq : q.orders = false) :
    (body cfg q).Calls Op.Settling := by
  have hmap {α : Type} {p : M α} {f : α → Out} (hp : p.Calls Op.Settling) :
      (f <$> p).Calls Op.Settling := hp.bind fun _ => .pure _
  have hcalm {α : Type} {p : M α} {f : α → Out} (hp : p.Calls Op.Calm) :
      (f <$> p).Calls Op.Settling := hmap (hp.mono fun _ ho => ho.unmetered.settling)
  have hwithin {α : Type} {timeout : Time} {p : Time → M α} {f : α → Out}
      (hp : ∀ ctx, (p ctx).Calls Op.Settling) : (f <$> within timeout p).Calls Op.Settling :=
    hmap (Prog.Calls.bind (.perform trivial) fun t => hp _)
  have hunder {α : Type} {timeout : Time} {p : Time → M α} {f : α → Out}
      (hp : ∀ ctx, (p ctx).Calls Op.Calm) : (f <$> within timeout p).Calls Op.Settling :=
    hwithin fun ctx => (hp ctx).mono fun _ ho => ho.unmetered.settling
  cases q with
  | obtain d | requestIssue d onDemandHost | renewIfNeeded d | renewCertificate d
  | activateCertificateKey d force | runHost d isRenewal => cases hq
  | loadCertKey d => exact hunder fun ctx => calm_of_quiet (load_quiet cfg ctx (.live d))
  | loadOrCreateCertKey d => exact hunder fun ctx => loadOrCreateCertKey_calm cfg ctx d
  | refresh d => exact hunder fun ctx => refresh_calm cfg ctx d
  | flushHeldChains => exact hwithin fun ctx => flushHeldChains_settling cfg ctx
  | restoreMissingChains =>
      exact hwithin fun ctx => (restoreMissingChains_unmetered cfg ctx).mono fun _ ho => ho.settling
  | reconcileCeremony d => exact hunder fun ctx => calm_of_light (reconcileCeremony_light cfg ctx d)
  | replaceCertificateKey d => exact hcalm (calm_of_light (replaceCertificateKey_light cfg d))
  | cleanupExpiredRetiring =>
      simp only [body]
      split
      · exact .pure _
      · exact hunder fun ctx => calm_of_aside (cleanupExpiredRetiring_aside _ ctx)
  | desiredRecords =>
      simp only [body]
      split
      · exact .pure _
      · exact hunder fun ctx => calm_of_aside (desiredFrom_aside cfg _ ctx _)
  | maintainFollower => exact hcalm (maintainFollower_calm cfg)
  | planLeader => exact hcalm (planLeader_calm cfg)

/-- The three kinds of request. -/
inductive Shape (cfg : Settings) (p : M Out) : Prop
  | attempt (n : Name) (hp : p.Around Op.Unmetered (IssuesFor cfg n))
  | activation (n : Name) (hp : p.Once Op.Unmetered (Op.OrdersFor n))
  | other (hp : p.Calls Op.Settling)

theorem body_shape (cfg : Settings) (q : Call) : Shape cfg (body cfg q) := by
  have hmap {α : Type} {p : M α} {f : α → Out} {n : Name}
      (hp : p.Around Op.Unmetered (IssuesFor cfg n)) : Shape cfg (f <$> p) :=
    .attempt n (hp.bind fun _ => .pure _)
  have hwithin {α : Type} {timeout : Time} {p : Time → M α} {f : α → Out} {n : Name}
      (hp : ∀ ctx, (p ctx).Around Op.Unmetered (IssuesFor cfg n)) :
      Shape cfg (f <$> within timeout p) :=
    hmap (.before (.perform trivial) fun t => hp _)
  cases q with
  | obtain d => exact hwithin fun ctx => obtain_around cfg ctx d
  | requestIssue d onDemandHost => exact hmap (requestIssue_around cfg d onDemandHost)
  | renewIfNeeded d => exact hwithin fun ctx => renewIfNeeded_around cfg ctx d
  | renewCertificate d => exact hmap ((renewCertificate_around cfg d).weaken fun _ hs => hs.1)
  | runHost host isRenewal => exact hmap (runHost_around cfg host isRenewal)
  | activateCertificateKey d force =>
      refine .activation d (Prog.Once.bind ?_ fun _ => .pure _)
      exact (activateCertificateKey_once cfg d force).mono (fun _ ho => ho) fun _ ho => ho.1
  | _ => exact .other (body_settling cfg rfl)

end CertsManager
