import CertsManager.Discipline.Marks

/-!
# Budget — how an attempt uses the retry budget

Every order but an activation's asks the budget first.  `Attempt` folds an operation's calls and
replies into what concerns the budget: the name it has been let through for, the order it was given,
the rate limit it was answered with and has not recorded yet.  `mayMeter` says what that permits:

* an order is placed for the name that was let through, with the live key that was read;
* after a rate limit nothing is done but count the failure, read the clock and record the block, for
  as long as the CA named from that reading;
* the budget is reset after an order that was given, or by a flush.

An activation orders without asking, and records nothing.
-/

namespace CertsManager

open Interleave

/-! ## What an attempt has seen -/

structure Attempt where
  /-- The name the budget has let through. -/
  cleared : Option Name := none
  /-- The name of an order that was given under the present lease. -/
  paid : Option Name := none
  /-- A rate limit not recorded yet: its name, the wait that was named, and the first clock reading
  since. -/
  owed : Option (Name × Time × Option Time) := none

namespace Attempt

def after (β : Attempt) : Event → Attempt
  | ⟨.mem (.retriesAllow n), .ok ()⟩ => { β with cleared := some n }
  | ⟨.env (.acquireLease _ _), got⟩ => if got then β else { β with cleared := none }
  | ⟨.env (.releaseLease _), _⟩ => { β with cleared := none, paid := none }
  | ⟨.mem (.unlock _), _⟩ => { β with cleared := none, paid := none }
  | ⟨.env (.issue _ n _), .ok _⟩ => { β with paid := some n }
  | ⟨.env (.issue _ n _), .error f⟩ =>
      { β with owed := f.rateLimit.map fun wait => (n, wait, none) }
  | ⟨.env .now, t⟩ => { β with owed := β.owed.map fun d => (d.1, d.2.1, d.2.2.or (some t)) }
  | ⟨.mem (.retriesBlock _ _), _⟩ => {}
  | _ => β

end Attempt

def attempt (h : History) : Attempt :=
  h.foldr (fun e β => β.after e) {}

@[simp] theorem attempt_nil : attempt [] = {} := rfl

@[simp] theorem attempt_cons (e : Event) (h : History) :
    attempt (e :: h) = (attempt h).after e := rfl

/-- No rate limit is left to record. -/
def Square (h : History) : Prop :=
  (attempt h).owed = none

/-! ## What is permitted -/

def Call.activates : Call → Bool
  | .activateCertificateKey _ _ => true
  | _ => false

/-- How long a rate limit is taken to last. -/
def rateLimitWait (wait : Time) : Time :=
  if wait = 0 then Manager.defaultRateLimitBackoff else wait

def mayMeter (q : Call) (h : History) : Op → Prop
  | .env (.issue _ n k) =>
      q.activates = true ∨ (Square h ∧ (attempt h).cleared = some n ∧ LiveRead h n k)
  | .mem (.retriesBlock n liftsAt) =>
      q.activates = false ∧
        ∃ wait t, (attempt h).owed = some (n, wait, some t) ∧ liftsAt = t + rateLimitWait wait
  | .mem (.retriesReset n) =>
      q.activates = false ∧ Square h ∧ (q = .flushHeldChains ∨ (attempt h).paid = some n)
  | .mem (.retriesRecordFailure _) => True
  | .env .now => True
  | _ => q.activates = true ∨ Square h

/-! ## Calls apart from the budget -/

/-- Neither orders nor asks or changes the budget. -/
def Op.Unmetered : Op → Prop
  | .mem (.retriesAllow _) => False
  | .mem (.retriesRecordFailure _) => False
  | .mem (.retriesBlock _ _) => False
  | .mem (.retriesReset _) => False
  | .env (.issue _ _ _) => False
  | _ => True

/-- Unmetered, and on no lock and no lease. -/
def Op.Calm : Op → Prop
  | .mem (.unlock _) => False
  | .env (.acquireLease _ _) => False
  | .env (.releaseLease _) => False
  | o => o.Unmetered

theorem Op.Calm.unmetered {o : Op} (h : o.Calm) : o.Unmetered := by
  cases o with
  | storage ctx o => exact h
  | mem o => cases o <;> first | exact h | trivial
  | env o => cases o <;> first | exact h | trivial

theorem Op.Light.calm {o : Op} (h : o.Light) : o.Calm := by
  cases o with
  | storage ctx o => trivial
  | mem o => cases o <;> first | exact h | trivial
  | env o => cases o <;> exact h

theorem Op.Lookup.calm {o : Op} (h : o.Lookup) : o.Calm := by
  cases o with
  | storage ctx o => trivial
  | mem o => cases o <;> first | exact Op.Aside.light h | trivial
  | env o => exact (Op.Aside.light (o := .env o) h).calm

theorem Storing.calm {n : Name} {c : ChainPEM} {o : Op} (h : Storing n c o) : o.Calm := by
  cases h <;> trivial

section

variable {q : Call} {h : History} {α : Type} {p : M α}

theorem calm_of_light (hp : p.Calls Op.Light) : p.Calls Op.Calm :=
  hp.mono fun _ ho => ho.calm

theorem unmetered_of_calm (hp : p.Calls Op.Calm) : p.Calls Op.Unmetered :=
  hp.mono fun _ ho => ho.unmetered

theorem mayMeter_of_unmetered {o : Op} (hh : q.activates = true ∨ Square h) (ho : o.Unmetered) :
    mayMeter q h o := by
  cases o with
  | storage ctx o => exact hh
  | mem o => cases o <;> first | exact hh | exact ho.elim
  | env o => cases o <;> first | exact hh | exact ho.elim | trivial

theorem Square.unmetered {o : Op} (hh : Square h) (ho : o.Unmetered) (r : Res o) :
    Square (⟨o, r⟩ :: h) := by
  cases o with
  | storage ctx o => exact hh
  | mem o => cases o <;> first | exact hh | exact ho.elim
  | env o =>
      cases o with
      | now => simp [Square, Attempt.after, show (attempt h).owed = none from hh]
      | acquireLease ctx n => cases r <;> exact hh
      | issue ctx n k => exact ho.elim
      | _ => exact hh

/-- A calm call changes nothing of an attempt that is square. -/
theorem attempt_calm {o : Op} (hh : Square h) (ho : o.Calm) (r : Res o) :
    attempt (⟨o, r⟩ :: h) = attempt h := by
  cases o with
  | storage ctx o => rfl
  | mem o => cases o <;> first | rfl | exact ho.elim
  | env o =>
      cases o with
      | now =>
          have howed : (attempt h).owed = none := hh
          simp only [attempt_cons, Attempt.after, howed, Option.map_none]
          rw [← howed]
      | acquireLease ctx n | releaseLease n | issue ctx n k => exact ho.elim
      | _ => rfl

theorem unmetered_meters (hp : p.Calls Op.Unmetered) (hh : Square h) :
    p.Conforms (mayMeter q) h fun h' _ => Square h' :=
  hp.keeps (fun _ _ hh ho => ⟨mayMeter_of_unmetered (Or.inr hh) ho, fun r => hh.unmetered ho r⟩) hh

theorem calm_meters (hp : p.Calls Op.Calm) (hh : Square h) :
    p.Conforms (mayMeter q) h fun h' _ => Square h' ∧ attempt h' = attempt h := by
  refine hp.keeps (I := fun h' => Square h' ∧ attempt h' = attempt h) ?_ ⟨hh, rfl⟩
  rintro h' o ⟨hh', heq⟩ ho
  refine ⟨mayMeter_of_unmetered (Or.inr hh') ho.unmetered, fun r => ?_⟩
  exact ⟨hh'.unmetered ho.unmetered r, (attempt_calm hh' ho r).trans heq⟩

end

/-! ## Calm functions -/

section

variable (cfg : Settings) (ctx : Time) (n : Name)

theorem calm_of_quiet {α : Type} {p : M α} (hp : p.Calls Op.Quiet) : p.Calls Op.Calm :=
  calm_of_light (light_of_quiet hp)

theorem calm_of_aside {α : Type} {p : M α} (hp : p.Calls Op.Aside) : p.Calls Op.Calm :=
  calm_of_light (light_of_aside hp)

theorem refresh_calm : (CertCache.refresh cfg ctx n).Calls Op.Calm :=
  calm_of_light (refresh_light cfg ctx n)

theorem loadOrCreateCertKey_calm : (KeyStore.loadOrCreateCertKey cfg ctx n).Calls Op.Calm :=
  loadOrCreate_calls cfg ctx (.live n) _ (fun _ ho => ho.aside.light.calm) fun _ => trivial

theorem hold_calm (cert : Certificate) (c : ChainPEM) : (CertCache.hold n cert c).Calls Op.Calm :=
  Prog.Calls.bind (.perform trivial) fun _ => .perform trivial

theorem store_calm (c : ChainPEM) (k : Key) : (CertCache.store cfg ctx n c k).Calls Op.Calm :=
  (store_storing cfg ctx n c k).mono fun _ ho => ho.calm

theorem heldChainFor_calm (k : Key) : (CertCache.heldChainFor n k).Calls Op.Calm := by
  refine Prog.Calls.bind (.perform trivial) fun r => ?_
  cases r with
  | none => exact .pure _
  | some p =>
      simp only
      cases buildCertificate p.chainPEM k <;> exact .pure _

theorem leafNotAfter_calm : (CertCache.leafNotAfter n).Calls Op.Calm :=
  (leafNotAfter_lookup n).mono fun _ ho => ho.calm

theorem passes_calm : Passes (fun _ => Op.Calm) fun _ => True :=
  passes_calls fun _ ho => ho.calm

theorem renewalBase_calm : (Manager.renewalBase cfg ctx n).Calls Op.Calm :=
  fun h => passes_calm.renewalBase (fun h _ => refresh_calm cfg ctx n h) h trivial

theorem maintainFollower_calm : (OnDemand.maintainFollower cfg).Calls Op.Calm :=
  fun h => passes_calm.maintainFollower (fun ctx n h _ => refresh_calm cfg ctx n h) h trivial

theorem loadHosts_calm (hosts : List Name) : (OnDemand.loadHosts cfg ctx hosts).Calls Op.Calm :=
  fun h => passes_calm.loadHosts (fun ctx n h _ => refresh_calm cfg ctx n h) ctx hosts h trivial

theorem planLeader_calm : (OnDemand.planLeader cfg).Calls Op.Calm :=
  fun h => passes_calm.planLeader (fun ctx n h _ => refresh_calm cfg ctx n h) h trivial

/-! ## Flushing and restoring -/

theorem Flushing.unmetered {n : Name} {c : ChainPEM} {o : Op} (h : Flushing n c o) :
    o.Unmetered := by
  cases h with
  | serve h => exact h.light.calm.unmetered
  | store h => exact h.calm.unmetered
  | _ => trivial

theorem flushOne_unmetered (p : PendingPersist) :
    (Manager.flushOne cfg ctx n p).Calls Op.Unmetered :=
  (flushOne_flushing cfg ctx n p).mono fun _ ho => ho.unmetered

theorem restoreMissingChains_unmetered :
    (Manager.restoreMissingChains cfg ctx).Calls Op.Unmetered :=
  restoreMissingChains_calls (fun _ ho => ho.calm.unmetered) fun _ _ _ ho => ho.unmetered

end

/-! ## Attempts -/

section

variable {cfg : Settings} {q : Call} {h : History} {n : Name}

/-- A rate limit is recorded from the next clock reading. -/
theorem noteRateLimit_meters (hq : q.activates = false) (f : IssueFault)
    (howed : (attempt h).owed = f.rateLimit.map fun wait => (n, wait, none)) :
    (Manager.noteRateLimit n f).Conforms (mayMeter q) h fun h' _ => Square h' := by
  cases hf : f.rateLimit with
  | none =>
      simp only [Manager.noteRateLimit, hf, Prog.conforms_pure]
      simpa [Square, hf] using howed
  | some wait =>
      simp only [Manager.noteRateLimit, hf, Manager.now, onEnv, onMem, Prog.conforms_bind,
        Prog.conforms_perform]
      refine ⟨trivial, fun t => ⟨⟨hq, wait, t, ?_, rfl⟩, fun _ => rfl⟩⟩
      simp [Attempt.after, howed, hf]

theorem placeOrder_meters (ctx : Time) {k : Key} (hq : q.activates = false) (hh : Square h)
    (hn : (attempt h).cleared = some n) (hk : LiveRead h n k) :
    (Manager.placeOrder cfg ctx n k).Conforms (mayMeter q) h fun h' _ => Square h' := by
  refine (calm_meters (calm_of_quiet (ensureIssuer_quiet cfg ctx)) hh).bind
    fun h₁ r hs₁ ⟨hh₁, heq₁⟩ => ?_
  cases r with
  | error err =>
      simp only [onMem, Prog.conforms_bind, Prog.conforms_perform]
      exact ⟨trivial, fun _ => hh₁⟩
  | ok _ =>
      simp only [onEnv, onMem, Prog.conforms_bind, Prog.conforms_perform]
      refine ⟨Or.inr ⟨hh₁, by rw [heq₁]; exact hn, hk.extend hs₁⟩, fun r => ?_⟩
      cases r with
      | error f =>
          simp only [Prog.conforms_bind, Prog.conforms_perform]
          exact ⟨trivial, fun _ => noteRateLimit_meters hq f rfl⟩
      | ok c =>
          -- the order is given: a reset is in order until the lease is
          have hh₂ : Square (⟨.env (.issue ctx n k), .ok c⟩ :: h₁) := hh₁
          refine (calm_meters (store_calm cfg ctx n c k) hh₂).bind fun h₃ r _ ⟨hh₃, heq₃⟩ => ?_
          have hpaid : (attempt h₃).paid = some n := by rw [heq₃]; rfl
          cases r with
          | unusable err =>
              simp only [Prog.conforms_bind, Prog.conforms_perform]
              exact ⟨trivial, fun _ => hh₃⟩
          | unstored cert err =>
              simp only [Prog.conforms_bind, Prog.conforms_perform]
              refine ⟨trivial, fun _ => ?_⟩
              split
              · exact hh₃
              · refine (calm_meters (hold_calm n cert c) ?_).bind fun _ _ _ hh₄ => hh₄.1
                exact hh₃
          | stored cert =>
              simp only [Prog.conforms_bind, Prog.conforms_perform]
              exact ⟨⟨hq, hh₃, Or.inr hpaid⟩, fun _ => hh₃⟩

theorem issueUnderLease_meters (ctx : Time) {k : Key} (force : Bool) (hq : q.activates = false)
    (hh : Square h) (hn : (attempt h).cleared = some n) (hk : LiveRead h n k) :
    (Manager.issueUnderLease cfg ctx n k force).Conforms (mayMeter q) h fun h' _ => Square h' := by
  refine (calm_meters (refresh_calm cfg ctx n) hh).bind fun h₁ r hs₁ ⟨hh₁, heq₁⟩ => ?_
  have hn₁ : (attempt h₁).cleared = some n := heq₁ ▸ hn
  have hk₁ := hk.extend hs₁
  cases r with
  | ok stored =>
      cases force with
      | true => exact placeOrder_meters ctx hq hh₁ hn₁ hk₁
      | false =>
          simp only [Bool.false_eq_true, if_false, CertCache.leafNotAfter, CertCache.get, onMem,
            Prog.conforms_bind, Prog.conforms_perform, Prog.conforms_pure]
          refine ⟨Or.inr hh₁, fun r => ?_⟩
          have hk₂ := hk₁.extend (List.suffix_cons (⟨.mem (.memGet n), r⟩ : Event) h₁)
          cases r with
          | none => exact placeOrder_meters ctx hq hh₁ hn₁ hk₂
          | some cert =>
              simp only [Option.map_some, Manager.now, onEnv, Prog.conforms_bind,
                Prog.conforms_perform]
              refine ⟨trivial, fun t => ?_⟩
              have hread := attempt_calm (o := .env .now) hh₁ trivial t
              split
              · exact (congrArg Attempt.owed hread).trans hh₁
              · exact placeOrder_meters ctx hq ((congrArg Attempt.owed hread).trans hh₁)
                  ((congrArg Attempt.cleared hread).trans hn₁) (hk₂.extend (List.suffix_cons _ _))
  | error rerr =>
      simp only
      split
      · exact placeOrder_meters ctx hq hh₁ hn₁ hk₁
      · exact hh₁

theorem issueWithKey_meters (ctx : Time) {k : Key} (force : Bool) (hq : q.activates = false)
    (hh : Square h) (hk : LiveRead h n k) :
    (Manager.issueWithKey cfg ctx n k force).Conforms (mayMeter q) h fun h' _ => Square h' := by
  simp only [Manager.issueWithKey, Manager.acquireIssueLease, Manager.releaseIssueLease, onMem,
    onEnv, Prog.conforms_bind, Prog.conforms_perform]
  refine ⟨Or.inr hh, fun r => ?_⟩
  cases r with
  | error wait => exact hh
  | ok _ =>
      simp only [Prog.conforms_bind, Prog.conforms_perform]
      refine ⟨Or.inr hh, fun ok => ?_⟩
      cases ok with
      | false =>
          refine (calm_meters (refresh_calm cfg ctx n) ?_).bind fun h₁ r _ hr => ?_
          · exact hh
          · have hh₁ := hr.1
            cases r with
            | error err => exact hh₁
            | ok cert => cases force <;> exact hh₁
      | true =>
          refine (issueUnderLease_meters ctx force hq (by exact hh) rfl
            (hk.extend (List.suffix_append [_, _] h))).bind fun h₁ r _ hh₁ => ?_
          simp only [Prog.conforms_bind, Prog.conforms_perform]
          exact ⟨Or.inr hh₁, fun _ => hh₁⟩

theorem passes_meters : Passes (mayMeter q) Square :=
  fun _ _ hh ho =>
    ⟨mayMeter_of_unmetered (.inr hh) ho.calm.unmetered, hh.unmetered ho.calm.unmetered⟩

theorem loadOrCreateCertKey_meters (ctx : Time) (n : Name) (hh : Square h) :
    (KeyStore.loadOrCreateCertKey cfg ctx n).Conforms (mayMeter q) h fun h' r =>
      Square h' ∧ ∀ k, r = .ok k → LiveRead h' n k := by
  refine loadOrCreate_reads (K := fun h k => LiveRead h n k) cfg ctx (.live n) _
    (fun h o hh ho => passes_meters h o hh ho.aside.lookup) (fun h k hh _ => ⟨.inr hh, fun _ => hh⟩)
    (fun h hh => (load_reply ctx (.live n) (.inr hh)).mono ?_) hh
  rintro _ r ⟨reply, rfl, hok, -⟩
  refine ⟨hh, ?_⟩
  intro k hr
  exact ⟨ctx, by rw [(hok k).1 hr]; exact List.mem_cons_self⟩

theorem issuing_meters (cfg : Settings) (hq : q.activates = false) :
    Issuing cfg (mayMeter q) Square (fun _ => Square) LiveRead where
  free := passes_meters
  locked _ := passes_meters
  lock _ _ hh := ⟨.inr hh, fun _ => hh⟩
  tryLock _ _ hh := ⟨.inr hh, hh, hh⟩
  unlock _ _ hh := ⟨.inr hh, fun _ => hh⟩
  refresh ctx n _ hh := (calm_meters (refresh_calm cfg ctx n) hh).mono fun _ _ hr => hr.1
  key ctx n _ hh := loadOrCreateCertKey_meters ctx n hh
  order ctx _ _ _ hh hk := issueWithKey_meters ctx false hq hh hk

/-! ## A flush, and an activation -/

theorem flushHeldChains_meters (ctx : Time) (hq : q = .flushHeldChains) :
    (Manager.flushHeldChains cfg ctx).Keeps (mayMeter q) Square := by
  refine flushHeldChains_keeps_of (E := fun _ _ _ => True) (fun _ _ => trivial)
    (fun h hh => passes_meters h _ hh trivial) (fun h hh => ?_) (fun h n hh => ?_)
    fun h n p hh _ => unmetered_meters (flushOne_unmetered cfg ctx n p) hh
  · exact ⟨.inr hh, fun _ => ⟨hh, fun _ _ => trivial⟩⟩
  · exact ⟨⟨by simp [hq, Call.activates], hh, .inl hq⟩, fun _ => hh⟩

end

section

variable (cfg : Settings) (ctx : Time) (n : Name)

/-! ## Activation -/

theorem chainForActivation_once (k : Key) :
    (Manager.chainForActivation cfg ctx n k).Once Op.Unmetered (Op.OrdersFor n) := by
  refine (unmetered_of_calm (heldChainFor_calm n k)).bind_once fun held => ?_
  cases held with
  | some x => exact (Prog.Calls.pure _).once
  | none =>
      refine (unmetered_of_calm (calm_of_quiet (ensureIssuer_quiet cfg ctx))).bind_once fun r => ?_
      cases r with
      | error err => exact (Prog.Calls.pure _).once
      | ok _ =>
          refine Prog.Once.bind (Prog.Once.perform rfl) fun r => ?_
          cases r <;> exact .pure _

theorem promoteStored_calm : (Manager.promoteStored cfg ctx n).Calls Op.Calm := by
  refine (calm_of_aside (markOutgoing_aside cfg ctx n)).bind fun r => ?_
  cases r with
  | error err => exact .pure _
  | ok _ =>
      refine Prog.Calls.bind (.perform trivial) fun leader => ?_
      cases leader with
      | false => exact .pure _
      | true =>
          refine (calm_of_light (promoteNextCertKey_light cfg ctx n)).bind fun r => ?_
          cases r <;> exact .pure _

theorem activateLeased_once (force : Bool) :
    (Manager.activateLeased cfg ctx n force).Once Op.Unmetered (Op.OrdersFor n) := by
  have hquiet {α : Type} {p : M α} (hp : p.Calls Op.Quiet) : p.Calls Op.Unmetered :=
    unmetered_of_calm (calm_of_quiet hp)
  refine (hquiet (load_quiet cfg ctx (.next n))).bind_once fun r => ?_
  cases r with
  | error err => exact (Prog.Calls.pure _).once
  | ok k =>
      refine (hquiet (activationGate_quiet cfg ctx n k force)).bind_once fun r => ?_
      cases r with
      | error err => exact (Prog.Calls.pure _).once
      | ok _ =>
          refine (chainForActivation_once cfg ctx n k).bind fun r => ?_
          cases r with
          | error err => exact .pure _
          | ok c =>
              refine (unmetered_of_calm (store_calm cfg ctx n c k)).bind fun r => ?_
              cases r with
              | unusable err => exact .pure _
              | stored cert => exact unmetered_of_calm (promoteStored_calm cfg ctx n)
              | unstored cert err =>
                  dsimp only
                  split
                  · exact .pure _
                  · exact (unmetered_of_calm (hold_calm n cert c)).bind fun _ => .pure _

/-- An activation neither records a limit nor resets the budget, and orders once, for a configured
domain. -/
theorem activateCertificateKey_once (force : Bool) :
    (Manager.activateCertificateKey cfg n force).Once Op.Unmetered
      fun o => o.OrdersFor n ∧ n ∈ cfg.domains := by
  refine Prog.Calls.bind_once (.perform trivial) fun leader => ?_
  cases leader with
  | false => exact (Prog.Calls.pure _).once
  | true =>
      simp only [Bool.not_true, Bool.false_eq_true, if_false]
      split
      · exact (Prog.Calls.pure _).once
      · rename_i hconfigured
        have hn : n ∈ cfg.domains := by simpa using hconfigured
        refine Prog.Calls.bind_once (.perform trivial) fun t => ?_
        refine Prog.Calls.bind_once (.perform trivial) fun _ => ?_
        refine Prog.Once.bind ?_ fun r => Prog.Calls.bind (.perform trivial) fun _ => .pure _
        refine Prog.Calls.bind_once (.perform trivial) fun ok => ?_
        cases ok with
        | false => exact (Prog.Calls.pure _).once
        | true =>
            refine ((activateLeased_once cfg _ n force).bind fun r => ?_).mono (fun _ ho => ho)
              fun _ ho => ⟨ho, hn⟩
            exact Prog.Calls.bind (.perform trivial) fun _ => .pure _

end

section

variable {cfg : Settings} {q : Call} {h : History} {n : Name}

theorem activateCertificateKey_meters (n : Name) (force : Bool) (hq : q.activates = true) :
    (Manager.activateCertificateKey cfg n force).Conforms (mayMeter q) h fun _ _ => True := by
  refine (activateCertificateKey_once cfg n force).conforms (I := fun _ => True)
    (fun _ _ ho => mayMeter_of_unmetered (Or.inl hq) ho) (fun _ _ _ _ _ => trivial)
    (fun h o _ ho => ?_) trivial
  cases o with
  | env o =>
      cases o with
      | issue ctx m k => exact Or.inl hq
      | _ => cases ho.1
  | _ => cases ho.1

end

/-! ## Every entry point -/

def meters : Protocol Op Res Call Out where
  may := mayMeter
  done q h _ := q.activates = true ∨ Square h

theorem cluster_meters {N T : Type} [DecidableEq N] (cfg : Settings) (node : T → N) :
    (cluster cfg node).Follows meters := by
  intro q
  show (body cfg q).Conforms (mayMeter q) [] fun h _ => q.activates = true ∨ Square h
  -- under a context of its own
  have hwithin {α : Type} {timeout : Time} {f : Time → M α} {g : α → Out}
      (hf : ∀ ctx h, Square h → (f ctx).Conforms (mayMeter q) h fun h' _ => Square h') :
      (g <$> within timeout f).Conforms (mayMeter q) [] fun h _ =>
        q.activates = true ∨ Square h := by
    refine Prog.conforms_map.2 (within_conforms trivial fun t => ?_)
    exact (hf _ _ (show Square [⟨.env .now, t⟩] from rfl)).mono fun _ _ hh => Or.inr hh
  have hfrom {α : Type} {p : M α} {g : α → Out}
      (hp : p.Conforms (mayMeter q) [] fun h' _ => Square h') :
      (g <$> p).Conforms (mayMeter q) [] fun h _ => q.activates = true ∨ Square h :=
    Prog.conforms_map.2 (hp.mono fun _ _ hh => Or.inr hh)
  have hcalm {α : Type} {p : M α} {h : History} (hp : p.Calls Op.Calm) (hh : Square h) :
      p.Conforms (mayMeter q) h fun h' _ => Square h' := unmetered_meters (unmetered_of_calm hp) hh
  cases q with
  | loadCertKey n => exact hwithin fun ctx _ => hcalm (calm_of_quiet (load_quiet cfg ctx (.live n)))
  | loadOrCreateCertKey n => exact hwithin fun ctx _ => hcalm (loadOrCreateCertKey_calm cfg ctx n)
  | refresh n => exact hwithin fun ctx _ => hcalm (refresh_calm cfg ctx n)
  | obtain n => exact hwithin fun ctx => (issuing_meters cfg rfl).obtain ctx n
  | requestIssue n onDemandHost =>
      exact hfrom ((issuing_meters cfg rfl).requestIssue n onDemandHost [] rfl)
  | renewIfNeeded n => exact hwithin fun ctx => (issuing_meters cfg rfl).renewIfNeeded ctx n
  | renewCertificate n =>
      refine hfrom ((issuing_meters cfg rfl).renewCertificate n ?_ [] rfl)
      exact fun ctx k h hh hk => issueWithKey_meters ctx true rfl hh hk
  | flushHeldChains => exact hwithin fun ctx => flushHeldChains_meters ctx rfl
  | restoreMissingChains =>
      exact hwithin fun ctx _ => unmetered_meters (restoreMissingChains_unmetered cfg ctx)
  | reconcileCeremony n =>
      exact hwithin fun ctx _ => hcalm (calm_of_light (reconcileCeremony_light cfg ctx n))
  | replaceCertificateKey n => exact hfrom (hcalm (calm_of_light (replaceCertificateKey_light cfg n)) rfl)
  | activateCertificateKey n force =>
      refine Prog.conforms_map.2 ((activateCertificateKey_meters n force rfl).mono fun _ _ _ => ?_)
      exact Or.inl rfl
  | cleanupExpiredRetiring =>
      simp only [body]
      cases cfg.dane with
      | none => exact Or.inr rfl
      | some d => exact hwithin fun ctx _ => hcalm (calm_of_aside (cleanupExpiredRetiring_aside d ctx))
  | desiredRecords =>
      simp only [body]
      cases cfg.dane with
      | none => exact Or.inr rfl
      | some d =>
          exact hwithin fun ctx _ => hcalm (calm_of_aside (desiredFrom_aside cfg d ctx d.mxHosts))
  | maintainFollower => exact hfrom (hcalm (maintainFollower_calm cfg) rfl)
  | planLeader => exact hfrom (hcalm (planLeader_calm cfg) rfl)
  | runHost n isRenewal => exact hfrom ((issuing_meters cfg rfl).runHost n isRenewal [] rfl)

end CertsManager
