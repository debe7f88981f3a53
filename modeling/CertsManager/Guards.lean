import CertsManager.Interleave.Ledger
import CertsManager.Attempts
import CertsManager.DefiniteAbsence

/-!
# Guards — what stands before an order for an on-demand hostname

Two ways lead to the CA for a hostname of the allow-set that is not configured: a handshake
(`requestIssue`) and the maintenance loop (`runHost`).  On both the hostname must pass the DNS
pre-flight, and an attempt that decided that neither memory nor storage held a certificate takes a
token of its own from the new-order bucket.  An attempt places at most one order, so a node never
places more first orders than it was granted tokens.

A renewal of the maintenance loop takes no token: the plan puts only hostnames there that memory
holds a certificate for.
-/

namespace CertsManager

open Interleave

/-! ## Programs that order at most once -/

def Op.Orderless : Op → Prop
  | .env (.issue _ _ _) => False
  | _ => True

theorem Op.Idle.orderless {o : Op} (h : o.Idle) : o.Orderless := by
  cases o with
  | env o => cases o <;> trivial
  | _ => trivial

theorem Op.Settling.orderless {o : Op} (h : o.Settling) : o.Orderless := by
  cases o with
  | env o => cases o <;> trivial
  | _ => trivial

theorem orderless_of_calm {α : Type} {p : M α} (hp : p.Calls Op.Calm) : p.Calls Op.Orderless :=
  hp.mono fun _ ho => ho.unmetered.settling.orderless

/-- An attempt orders at most once, for its name. -/
theorem around_once {α : Type} {p : M α} {cfg : Settings} {n : Name}
    (hp : p.Around Op.Unmetered (IssuesFor cfg n)) : p.Once Op.Orderless (Op.OrdersFor n) := by
  refine hp.once (fun _ ho => ho.settling.orderless) ?_
  rintro _ ⟨ctx, k, force, rfl⟩
  exact (issueWithKey_once cfg ctx n k force).mono (fun _ ho => ho.orderless) fun _ ho => ho

/-! ## What an attempt has been cleared by -/

/-- The pre-flight of the hostname succeeded. -/
def preflighted (d : Name) (h : History) : Bool :=
  h.any fun
    | ⟨.env (.preflight _ n), ok⟩ => decide (n = d) && ok
    | _ => false

def tokenGranted : Event → Bool
  | ⟨.env .takeOrder, taken⟩ => taken
  | _ => false

def ordering : Event → Bool
  | ⟨.env (.issue _ _ _), _⟩ => true
  | _ => false

def askedToken : Event → Bool
  | ⟨.env .takeOrder, _⟩ => true
  | _ => false

/-- Memory held a certificate, or storage did and it was put in memory, before any token was asked
for. -/
def heldFirst (d : Name) : History → Bool
  | [] => false
  | e :: h => heldFirst d h || (memEvidence d e && !h.any askedToken)

/-- A token of the attempt's own, not yet spent on an order. -/
def Paid (h : History) : Prop :=
  h.any tokenGranted = true ∧ h.any ordering = false

/-- A handshake for a hostname that is not configured. -/
def Call.handshake (cfg : Settings) : Call → Bool
  | .requestIssue _ onDemandHost => onDemandHost && cfg.onDemand
  | _ => false

/-- What each request may order. -/
def mayOrder (cfg : Settings) (q : Call) (h : History) : Op → Prop
  | .env (.issue _ n _) =>
      match q with
      | .obtain d => n = d
      | .renewIfNeeded d => n = d
      | .renewCertificate d => n = d ∧ d ∈ cfg.domains
      | .activateCertificateKey d _ => n = d ∧ d ∈ cfg.domains
      | .requestIssue d _ =>
          n = d ∧ (q.handshake cfg = true → preflighted d h = true ∧ Paid h)
      | .runHost d isRenewal =>
          n = d ∧ preflighted d h = true ∧ (isRenewal = true ∨ heldFirst d h = true ∨ Paid h)
      | _ => False
  | _ => True

section

variable {cfg : Settings} {q : Call} {d : Name} {h : History} {o : Op}

theorem Op.Orderless.order (ho : o.Orderless) : mayOrder cfg q h o := by
  cases o with
  | env o => cases o <;> trivial
  | _ => trivial

theorem orderless_orders {α : Type} {p : M α} (hp : p.Calls Op.Orderless) :
    p.Conforms (mayOrder cfg q) h fun _ _ => True :=
  (hp.conforms fun _ _ ho => ho.order).mono fun _ _ _ => trivial

theorem preflighted_cons {e : Event} (hp : preflighted d h = true) :
    preflighted d (e :: h) = true := by
  simp only [preflighted, List.any_cons, Bool.or_eq_true]
  exact .inr hp

theorem heldFirst_cons {e : Event} (hf : heldFirst d h = true) : heldFirst d (e :: h) = true := by
  simp [heldFirst, hf]

theorem Op.Orderless.not_ordering (ho : o.Orderless) (r : Res o) : ordering ⟨o, r⟩ = false := by
  cases o with
  | env o => cases o <;> first | rfl | cases ho
  | _ => rfl

theorem Paid.cons (hp : Paid h) (ho : o.Orderless) (r : Res o) : Paid (⟨o, r⟩ :: h) := by
  refine ⟨by simp [hp.1], ?_⟩
  rw [List.any_cons, ho.not_ordering r, hp.2]
  rfl

/-- Up to its one order an attempt keeps what cleared it. -/
theorem once_orders {α : Type} {p : M α} {I : History → Prop}
    (hp : p.Once Op.Orderless (Op.OrdersFor d))
    (hI : ∀ h o, I h → o.Orderless → ∀ r, I (⟨o, r⟩ :: h))
    (hQ : ∀ h ctx k, I h → mayOrder cfg q h (.env (.issue ctx d k))) (hh : I h) :
    p.Conforms (mayOrder cfg q) h fun _ _ => True := by
  refine hp.conforms (fun _ _ ho => ho.order) hI (fun h o hi ho => ?_) hh
  cases o with
  | env o =>
      cases o with
      | issue ctx n k =>
          obtain rfl : n = d := ho
          exact hQ h ctx k hi
      | _ => cases ho
  | _ => cases ho

theorem heldFirst_of_any (hany : h.any (memEvidence d) = true) (htoken : h.any askedToken = false) :
    heldFirst d h = true := by
  induction h with
  | nil => cases hany
  | cons e h ih =>
      simp only [List.any_cons, Bool.or_eq_true, Bool.or_eq_false_iff] at hany htoken
      rcases hany with he | hh
      · simp [heldFirst, he, htoken.2]
      · exact heldFirst_cons (ih hh htoken.2)

/-- Of storage or of the node's memory. -/
def Op.Inward : Op → Prop
  | .env _ => False
  | _ => True

theorem Op.Inward.orderless (ho : o.Inward) : o.Orderless := by
  cases o with
  | env o => cases ho
  | _ => trivial

theorem Op.Inward.not_askedToken (ho : o.Inward) (r : Res o) : askedToken ⟨o, r⟩ = false := by
  cases o with
  | env o => cases ho
  | _ => rfl

theorem refresh_inward (cfg : Settings) (ctx : Time) (n : Name) :
    (CertCache.refresh cfg ctx n).Calls Op.Inward := by
  have hconfirmed : ∀ cert, (CertCache.confirmed cfg n cert).Calls Op.Inward := by
    intro cert
    refine Prog.Calls.bind (Prog.Calls.perform trivial) fun _ => ?_
    split
    · exact Prog.Calls.bind (Prog.Calls.perform trivial) fun _ => Prog.Calls.pure _
    · exact Prog.Calls.pure _
  have hload : (KeyStore.loadCertKey cfg ctx n).Calls Op.Inward := by
    refine Prog.Calls.bind (Prog.Calls.perform trivial) fun r => ?_
    rcases r with (_ | ⟨_ | _, _⟩) | pem <;> exact Prog.Calls.pure _
  refine Prog.Calls.bind (Prog.Calls.bind (Prog.Calls.perform trivial) fun r => ?_) fun r => ?_
  · cases r <;> exact Prog.Calls.pure _
  · cases r with
    | error err => exact Prog.Calls.pure _
    | ok c =>
        refine Prog.Calls.bind hload fun r => ?_
        cases r with
        | error err => exact Prog.Calls.pure _
        | ok k =>
            dsimp only
            cases buildCertificate c k with
            | error err => exact Prog.Calls.pure _
            | ok cert =>
                refine Prog.Calls.bind (Prog.Calls.perform trivial) fun _ => ?_
                exact Prog.Calls.bind (hconfirmed cert) fun _ => Prog.Calls.pure _

/-- Before any token was asked for, a `Refresh` that succeeds is a certificate found first. -/
theorem refresh_orders (ctx : Time) (htoken : h.any askedToken = false) :
    (CertCache.refresh cfg ctx d).Conforms (mayOrder cfg q) h fun h' r =>
      (∃ l, h' = l ++ h ∧ ∀ e ∈ l, e.op.Inward) ∧ ∀ cert, r = .ok cert → heldFirst d h' = true := by
  have hcalls : (CertCache.refresh cfg ctx d).Conforms (mayOrder cfg q) h fun h' _ =>
      ∃ l, h' = l ++ h ∧ ∀ e ∈ l, e.op.Inward :=
    (refresh_inward cfg ctx d).conforms fun _ _ ho => ho.orderless.order
  have hlooks := hcalls.and (refresh_looks cfg ctx fun h o ho =>
    (ho.idle.orderless.order : mayOrder cfg q h o))
  refine (hlooks.weaken fun _ _ hm => hm.1).mono ?_
  rintro h' r ⟨⟨l, rfl, hl⟩, -, hheld⟩
  refine ⟨⟨l, rfl, hl⟩, fun cert hr => heldFirst_of_any (hheld cert hr) ?_⟩
  rw [List.any_append, htoken, Bool.or_false, List.any_eq_false]
  intro e he
  simp [(hl e he).not_askedToken e.res]

theorem requestIssue_orders (onDemandHost : Bool) :
    (Manager.requestIssue cfg d onDemandHost).Conforms (mayOrder cfg (.requestIssue d onDemandHost))
      [] fun _ _ => True := by
  simp only [Manager.requestIssue, Manager.now, onEnv, Prog.conforms_bind, Prog.conforms_perform]
  refine ⟨trivial, fun t => ?_⟩
  split
  · simp only [Prog.conforms_bind, Prog.conforms_perform]
    refine ⟨trivial, fun ok => ?_⟩
    cases ok with
    | false => trivial
    | true =>
        simp only [Bool.not_true, Bool.false_eq_true, if_false, Prog.conforms_bind,
          Prog.conforms_perform]
        refine ⟨trivial, fun taken => ?_⟩
        cases taken with
        | false => trivial
        | true =>
            refine Prog.Conforms.bind (once_orders (I := fun h => preflighted d h = true ∧ Paid h)
              (around_once (obtain_around cfg (t + issueTimeout) d))
              (fun h o hi ho r => ⟨preflighted_cons hi.1, hi.2.cons ho r⟩)
              (fun h ctx k hi => ⟨rfl, fun _ => hi⟩) ⟨?_, ?_⟩) fun _ _ _ _ => trivial
            · simp [preflighted]
            · simp [Paid, tokenGranted, ordering]
  · -- a configured domain: neither guard applies
    rename_i hcond
    refine Prog.Conforms.bind (once_orders (I := fun _ => True)
      (around_once (obtain_around cfg (t + issueTimeout) d)) (fun _ _ _ _ _ => trivial)
      (fun h ctx k _ => ⟨rfl, fun hs => absurd hs hcond⟩) trivial) fun _ _ _ _ => trivial

theorem runHost_orders (isRenewal : Bool) :
    (OnDemand.runHost cfg d isRenewal).Conforms (mayOrder cfg (.runHost d isRenewal)) []
      fun _ _ => True := by
  -- the three ways to the order: a planned renewal, a certificate found, a token
  have hgo : ∀ (ctx : Time) (I : History → Prop) (h : History),
      (∀ h, I h → isRenewal = true ∨ heldFirst d h = true ∨ Paid h) →
      (∀ h o, I h → o.Orderless → ∀ r, I (⟨o, r⟩ :: h)) → preflighted d h = true → I h →
      (OnDemand.renewAndRecord cfg ctx d).Conforms (mayOrder cfg (.runHost d isRenewal)) h
        fun _ _ => True := by
    intro ctx I h hway hstable hpre hi
    refine once_orders (I := fun h => preflighted d h = true ∧ I h) (around_once (renewAndRecord_around cfg ctx d))
      (fun h o hh ho r => ⟨preflighted_cons hh.1, hstable h o hh.2 ho r⟩) ?_ ⟨hpre, hi⟩
    exact fun h ctx k hh => ⟨rfl, hh.1, hway h hh.2⟩
  simp only [OnDemand.runHost, Manager.now, onEnv, Prog.conforms_bind, Prog.conforms_perform]
  refine ⟨trivial, fun t => ⟨trivial, fun ok => ?_⟩⟩
  cases ok with
  | false => trivial
  | true =>
      have hpre : ∀ l : History, preflighted d (l ++ [⟨.env (.preflight (t + issueTimeout) d), true⟩,
          ⟨.env .now, t⟩]) = true := fun l => by simp [preflighted]
      simp only [Bool.not_true, Bool.false_eq_true, if_false]
      cases isRenewal with
      | true =>
          exact hgo _ (fun _ => True) _ (fun _ _ => .inl rfl) (fun _ _ _ _ _ => trivial) (hpre [])
            trivial
      | false =>
          simp only [Bool.false_eq_true, if_false, Prog.conforms_bind]
          refine (refresh_orders _ (by simp [askedToken])).mono fun h₁ r hr => ?_
          obtain ⟨⟨l, rfl, hl⟩, hheld⟩ := hr
          cases r with
          | ok cert =>
              exact hgo _ (fun h => heldFirst d h = true) _ (fun _ hf => .inr (.inl hf))
                (fun _ _ hf _ _ => heldFirst_cons hf) (hpre l) (hheld cert rfl)
          | error err =>
              dsimp only
              split
              · trivial
              · simp only [Prog.conforms_bind, Prog.conforms_perform]
                refine ⟨trivial, fun taken => ?_⟩
                cases taken with
                | false => trivial
                | true =>
                    have hnone : l.any ordering = false := by
                      rw [List.any_eq_false]
                      intro e he
                      simp [(hl e he).orderless.not_ordering e.res]
                    refine hgo _ Paid _ (fun _ hp => .inr (.inr hp))
                      (fun _ _ hp ho r => hp.cons ho r) (hpre (⟨.env .takeOrder, true⟩ :: l)) ⟨by simp [tokenGranted], ?_⟩
                    simp [hnone, ordering]

/-- The plan renews only what memory was seen to hold. -/
theorem classify_orders (hosts : List Name) :
    (OnDemand.classify cfg hosts).Conforms (mayOrder cfg q) h fun h' plan =>
      ∀ host ∈ plan.renewals, h'.any (memEvidence host) = true := by
  induction hosts generalizing h with
  | nil => exact nofun
  | cons host hosts ih =>
      simp only [OnDemand.classify, CertCache.leafNotAfter, CertCache.get, onMem, Manager.now, onEnv,
        Prog.conforms_bind, Prog.conforms_perform, Prog.conforms_pure]
      refine ⟨trivial, fun cert => ?_⟩
      cases cert with
      | none =>
          simp only [Option.map_none, Prog.conforms_bind, Prog.conforms_pure]
          exact ih
      | some cert =>
          simp only [Option.map_some, Prog.conforms_bind, Prog.conforms_perform]
          refine ⟨trivial, fun t => ih.extends.mono ?_⟩
          rintro h' plan ⟨hext, hplan⟩
          split
          · exact hplan
          · intro host' hmem
            rcases List.mem_cons.1 hmem with rfl | hmem
            · refine List.any_eq_true.2 ⟨⟨.mem (.memGet host'), some cert⟩, hext.subset ?_, ?_⟩
              · simp
              · simp [memEvidence]
            · exact hplan host' hmem

theorem planLeader_orders :
    (OnDemand.planLeader cfg).Conforms (mayOrder cfg q) h fun h' plan =>
      ∀ host ∈ plan.renewals, h'.any (memEvidence host) = true := by
  simp only [OnDemand.planLeader, onMem, Prog.conforms_bind, Prog.conforms_perform]
  refine ⟨trivial, fun hosts => ?_⟩
  split
  · intro host hmem
    cases hmem
  · simp only [Manager.now, onEnv, Prog.conforms_bind, Prog.conforms_perform]
    refine ⟨trivial, fun t => ?_⟩
    refine (orderless_orders (orderless_of_calm
      (calm_of_aside (republishIndexIfDirty_aside _)))).mono fun _ _ _ => ?_
    refine (orderless_orders (orderless_of_calm (loadHosts_calm cfg _ hosts))).mono fun _ _ _ => ?_
    exact classify_orders hosts

/-! ## The protocol -/

/-- What may be ordered, and what a plan rests on. -/
def guarding (cfg : Settings) : Protocol Op Res Call Out where
  may := mayOrder cfg
  done
    | .planLeader, h, out => ∀ plan, out = .plan plan → ∀ host ∈ plan.renewals,
        h.any (memEvidence host) = true
    | _, _, _ => True

theorem cluster_guarding {N T : Type} [DecidableEq N] (cfg : Settings) (node : T → N) :
    (cluster cfg node).Follows (guarding cfg) := by
  have honce : ∀ {p : M Out} {q : Call} {n : Name}, p.Once Op.Orderless (Op.OrdersFor n) →
      (∀ h ctx k, mayOrder cfg q h (.env (.issue ctx n k))) →
      p.Conforms (mayOrder cfg q) [] fun _ _ => True :=
    fun hp hQ => once_orders (I := fun _ => True) hp (fun _ _ _ _ _ => trivial)
      (fun h ctx k _ => hQ h ctx k) trivial
  have hadmin : ∀ {p : M Out} {q : Call} {d : Name},
      p.Once Op.Orderless (fun o => o.OrdersFor d ∧ d ∈ cfg.domains) →
      (∀ h ctx k, d ∈ cfg.domains → mayOrder cfg q h (.env (.issue ctx d k))) →
      p.Conforms (mayOrder cfg q) [] fun _ _ => True := by
    intro p q d hp hQ
    by_cases hd : d ∈ cfg.domains
    · exact honce (hp.mono (fun _ ho => ho) fun _ ho => ho.1) fun h ctx k => hQ h ctx k hd
    · exact orderless_orders (hp.calls (fun _ ho => ho) fun _ ho => absurd ho.2 hd)
  have hother : ∀ {q : Call}, q.orders = false →
      (body cfg q).Conforms (mayOrder cfg q) [] fun _ _ => True :=
    fun hq => orderless_orders ((body_settling cfg hq).mono fun _ ho => ho.orderless)
  intro q
  show (body cfg q).Conforms (mayOrder cfg q) [] ((guarding cfg).done q)
  cases q with
  | obtain d =>
      have hp : (body cfg (.obtain d)).Around Op.Unmetered (IssuesFor cfg d) :=
        (Prog.Around.before (.perform trivial) fun t => obtain_around cfg _ d).bind fun _ => .pure _
      exact honce (around_once hp) fun _ _ _ => rfl
  | renewIfNeeded d =>
      have hp : (body cfg (.renewIfNeeded d)).Around Op.Unmetered (IssuesFor cfg d) :=
        (Prog.Around.before (.perform trivial) fun t => renewIfNeeded_around cfg _ d).bind
          fun _ => .pure _
      exact honce (around_once hp) fun _ _ _ => rfl
  | requestIssue d onDemandHost => exact Prog.conforms_map.2 (requestIssue_orders onDemandHost)
  | runHost host isRenewal => exact Prog.conforms_map.2 (runHost_orders isRenewal)
  | renewCertificate d =>
      refine hadmin (Prog.Once.bind ?_ fun _ => .pure _) fun _ _ _ hd => ⟨rfl, hd⟩
      refine (renewCertificate_around cfg d).once (fun _ ho => ho.settling.orderless) ?_
      rintro _ ⟨⟨ctx, k, force, rfl⟩, hd⟩
      exact (issueWithKey_once cfg ctx d k force).mono (fun _ ho => ho.orderless) fun _ ho => ⟨ho, hd⟩
  | activateCertificateKey d force =>
      refine hadmin (Prog.Once.bind ?_ fun _ => .pure _) fun _ _ _ hd => ⟨rfl, hd⟩
      exact (activateCertificateKey_once cfg d force).mono (fun _ ho => ho.settling.orderless)
        fun _ ho => ho
  | planLeader =>
      have hplans : (OnDemand.planLeader cfg).Conforms (mayOrder cfg .planLeader) []
          fun h' plan => ∀ host ∈ plan.renewals, h'.any (memEvidence host) = true :=
        planLeader_orders
      refine Prog.conforms_map.2 (hplans.mono fun h' plan hplan plan' hout => ?_)
      obtain rfl : plan = plan' := Out.plan.inj hout
      exact hplan
  | _ => exact hother rfl

end

/-! ## Every run -/

section

variable {N T : Type}

/-- The hostnames a finished plan renews, with the node it is for. -/
def plannedBy (node : T → N) : ClusterLabel T → List (N × Name)
  | .finish t .planLeader (.plan plan) => plan.renewals.map fun host => (node t, host)
  | _ => []

/-- What the manager starts on node `i`: a handshake says whether its hostname is configured, the
maintenance of configured domains keeps to them and their companions, and a renewal of the
on-demand loop is one a plan of the node lists. -/
def Spawned (cfg : Settings) (planned : List (N × Name)) (i : N) : Call → Prop
  | .obtain d => d ∈ cfg.domains
  | .renewIfNeeded d => d ∈ cfg.domains ∨ Layout.isCompanion d = true
  | .requestIssue d onDemandHost => onDemandHost = true ∨ d ∈ cfg.domains
  | .runHost d true => (i, d) ∈ planned
  | _ => True

instance [DecidableEq N] (cfg : Settings) (planned : List (N × Name)) (i : N) (q : Call) :
    Decidable (Spawned cfg planned i q) := by
  unfold Spawned
  split <;> infer_instance

/-- Every request is one the manager starts. -/
def AsSpawned (cfg : Settings) (node : T → N) (planned : List (N × Name)) (_ : ClusterView N T)
    (l : ClusterLabel T) (_ : ClusterView N T) : Prop :=
  ∀ x ∈ startedBy l, Spawned cfg planned (node x.1) x.2

instance [DecidableEq N] (cfg : Settings) (node : T → N) (planned : List (N × Name))
    (v : ClusterView N T) (l : ClusterLabel T) (v' : ClusterView N T) :
    Decidable (AsSpawned cfg node planned v l v') :=
  inferInstanceAs (Decidable (∀ x ∈ startedBy l, _))

/-- A hostname a plan renews is in memory. -/
def PlansHeld (node : T → N) (v : ClusterView N T) (l : ClusterLabel T) (_ : ClusterView N T) :
    Prop :=
  ∀ x ∈ plannedBy node l, (v.shared.node x.1).mem x.2 ≠ none

/-- An order for `d` comes after a pre-flight that succeeded, and after a token of its own unless the
attempt found a certificate first or was started to renew the one memory holds. -/
def OrdersGuarded (node : T → N) (d : Name) (v : ClusterView N T) (l : ClusterLabel T)
    (_ : ClusterView N T) : Prop :=
  ∀ g ∈ ordered l, g.2 = d → ∀ k ∈ v.task g.1, preflighted d k.2 = true ∧
    (k.2.any tokenGranted = true ∨ heldFirst d k.2 = true ∨
      k.1 = .runHost d true ∧ (v.shared.node (node g.1)).mem d ≠ none)

/-- An order of an attempt that found no certificate for an on-demand hostname. -/
def firstOrder (cfg : Settings) (q : Call) (h : History) (e : Event) : Bool :=
  ordering e &&
    match q with
    | .runHost d isRenewal => !isRenewal && !heldFirst d h
    | q => q.handshake cfg

/-- What holds along a run: memory keeps what was planned, and a task is one the manager starts. -/
structure Watched (cfg : Settings) (node : T → N) (planned : List (N × Name))
    (v : ClusterView N T) : Prop where
  mem : ∀ d, MemKept node d v
  held : ∀ x ∈ planned, (v.shared.node x.1).mem x.2 ≠ none
  spawned : ∀ t q h, v.task t = some (q, h) → Spawned cfg planned (node t) q

variable {cfg : Settings} {node : T → N}

theorem Spawned.mono {planned planned' : List (N × Name)} {i : N} {q : Call}
    (hs : Spawned cfg planned i q) (hsub : planned ⊆ planned') : Spawned cfg planned' i q := by
  unfold Spawned at hs ⊢
  split
  · exact hs
  · exact hs
  · exact hs
  · exact hsub hs
  · trivial

variable [DecidableEq N] [DecidableEq T] {planned : List (N × Name)} {v v' : ClusterView N T}
  {l : ClusterLabel T}

theorem plansHeld_move (hI : Watched cfg node planned v)
    (hmove : Move (cluster cfg node) (guarding cfg) v l v') : PlansHeld node v l v' := by
  intro x hx
  cases hmove with
  | start _ => cases hx
  | did _ _ _ => cases hx
  | crash => cases hx
  | @finish t q h out ht hdone =>
      unfold plannedBy at hx
      split at hx
      · rename_i hl
        cases hl
        obtain ⟨host, hhost, rfl⟩ := List.mem_map.1 hx
        exact (hI.mem host).kept t _ h ht (hdone _ rfl host hhost)
      · cases hx

theorem watched_move (hI : Watched cfg node planned v)
    (hmove : Move (cluster cfg node) (guarding cfg) v l v')
    (hA : AsSpawned cfg node planned v l v') : Watched cfg node (plannedBy node l ++ planned) v' := by
  have hkept : ∀ x : N × Name, (v.shared.node x.1).mem x.2 ≠ none →
      (v'.shared.node x.1).mem x.2 ≠ none := by
    intro x hx
    cases hmove with
    | did _ _ he => exact exec_mem_kept he _ hx
    | _ => exact hx
  have hsub : planned ⊆ plannedBy node l ++ planned := List.subset_append_right _ _
  refine ⟨fun d => memKept_move (hI.mem d) hmove, fun x hx => ?_, ?_⟩
  · rcases List.mem_append.1 hx with hx | hx
    · exact hkept x (plansHeld_move hI hmove x hx)
    · exact hkept x (hI.held x hx)
  · refine hmove.tasks (J := fun _ t q _ => Spawned cfg (plannedBy node l ++ planned) (node t) q)
      (fun t q h ht => (hI.spawned t q h ht).mono hsub) (fun hl => ?_)
      (fun _ ht _ _ => (hI.spawned _ _ _ ht).mono hsub)
      fun _ _ _ _ u q' h' _ hu => (hI.spawned u q' h' hu).mono hsub
    subst hl
    exact (hA _ rfl).mono hsub

/-- Each request's case. -/
theorem ordersGuarded_move {d : Name} (hcfg : cfg.onDemand = true) (hd : d ∉ cfg.domains)
    (hhost : Layout.isCompanion d = false) (hI : Watched cfg node planned v)
    (hmove : Move (cluster cfg node) (guarding cfg) v l v') : OrdersGuarded node d v l v' := by
  rintro ⟨t, n⟩ hg rfl ⟨q, h⟩ hk
  cases hmove with
  | start _ => cases hg
  | finish _ _ => cases hg
  | crash => cases hg
  | @did u q' h' o a r s hu hmay he =>
      cases o with
      | storage ctx o => cases hg
      | mem o => cases hg
      | env o =>
          cases o with
          | issue ctx m k =>
              obtain ⟨rfl, rfl⟩ : u = t ∧ m = n := by simpa [ordered] using hg
              obtain ⟨rfl, rfl⟩ : q' = q ∧ h' = h := by
                simpa using Option.some.inj (hu.symm.trans hk)
              have hs := hI.spawned u q' h' hu
              cases q' with
              | obtain d =>
                  obtain rfl : m = d := hmay
                  exact absurd hs hd
              | renewIfNeeded d =>
                  obtain rfl : m = d := hmay
                  rcases hs with hs | hs
                  · exact absurd hs hd
                  · rw [hhost] at hs
                    cases hs
              | renewCertificate d =>
                  obtain ⟨rfl, hconf⟩ : m = d ∧ d ∈ cfg.domains := hmay
                  exact absurd hconf hd
              | activateCertificateKey d force =>
                  obtain ⟨rfl, hconf⟩ : m = d ∧ d ∈ cfg.domains := hmay
                  exact absurd hconf hd
              | requestIssue d onDemandHost =>
                  obtain ⟨rfl, hguards⟩ := hmay
                  rcases hs with rfl | hs
                  · obtain ⟨hpre, hpaid⟩ := hguards (by simp [Call.handshake, hcfg])
                    exact ⟨hpre, .inl hpaid.1⟩
                  · exact absurd hs hd
              | runHost d isRenewal =>
                  obtain ⟨rfl, hpre, hway⟩ := hmay
                  refine ⟨hpre, ?_⟩
                  rcases hway with rfl | hfirst | hpaid
                  · exact .inr (.inr ⟨rfl, hI.held (node u, m) hs⟩)
                  · exact .inr (.inl hfirst)
                  · exact .inl hpaid.1
              | _ => exact absurd hmay id
          | _ => cases hg

/-- A request has spent no more on first orders than it was granted, and nothing before an order. -/
def Solvent (cfg : Settings) (q : Call) (h : History) : Prop :=
  tally (firstOrder cfg) q h ≤ tally (fun _ _ e => tokenGranted e) q h ∧
    (h.any ordering = false → tally (firstOrder cfg) q h = 0)

omit [DecidableEq N] [DecidableEq T] in
theorem tally_granted_pos {q : Call} {h : History} (hg : h.any tokenGranted = true) :
    1 ≤ tally (fun _ _ e => tokenGranted e) q h := by
  induction h with
  | nil => cases hg
  | cons e h ih =>
      simp only [List.any_cons, Bool.or_eq_true] at hg
      rcases hg with he | hh
      · simp [tally, he]
      · exact Nat.le_trans (ih hh) (Nat.le_add_right _ _)

omit [DecidableEq N] [DecidableEq T] in
/-- Only an order that was paid for counts. -/
theorem paid_of_first {q : Call} {h : History} {o : Op} {r : Res o} (hmay : mayOrder cfg q h o)
    (hf : firstOrder cfg q h ⟨o, r⟩ = true) : Paid h := by
  simp only [firstOrder, Bool.and_eq_true] at hf
  obtain ⟨hord, hfirst⟩ := hf
  cases o with
  | storage ctx o => cases hord
  | mem o => cases hord
  | env o =>
      cases o with
      | issue ctx n k =>
          cases q with
          | requestIssue d onDemandHost => exact (hmay.2 hfirst).2
          | runHost d isRenewal =>
              simp only [Bool.and_eq_true, Bool.not_eq_true'] at hfirst
              rcases hmay.2.2 with hren | hheld | hpaid
              · rw [hfirst.1] at hren
                cases hren
              · rw [hfirst.2] at hheld
                cases hheld
              · exact hpaid
          | _ => cases hfirst
      | _ => cases hord

omit [DecidableEq N] [DecidableEq T] in
theorem solvent_cons {q : Call} {h : History} {o : Op} {r : Res o} (hs : Solvent cfg q h)
    (hmay : mayOrder cfg q h o) : Solvent cfg q (⟨o, r⟩ :: h) := by
  by_cases hf : firstOrder cfg q h ⟨o, r⟩ = true
  · have hpaid := paid_of_first hmay hf
    have hord : ordering ⟨o, r⟩ = true := by
      simp only [firstOrder, Bool.and_eq_true] at hf
      exact hf.1
    refine ⟨?_, fun hnone => by simp [hord] at hnone⟩
    calc tally (firstOrder cfg) q (⟨o, r⟩ :: h)
        = 1 := by simp [tally, hf, hs.2 hpaid.2]
      _ ≤ tally (fun _ _ e => tokenGranted e) q h := tally_granted_pos hpaid.1
      _ ≤ tally (fun _ _ e => tokenGranted e) q (⟨o, r⟩ :: h) := Nat.le_add_right _ _
  · have hsame : tally (firstOrder cfg) q (⟨o, r⟩ :: h) = tally (firstOrder cfg) q h := by
      simp [tally, hf]
    refine ⟨?_, fun hnone => ?_⟩
    · rw [hsame]
      exact Nat.le_trans hs.1 (Nat.le_add_right _ _)
    · rw [hsame]
      exact hs.2 (by simpa using (by simpa using hnone : _ ∧ _).2)

/-- In every run of handshakes and maintenance, orders for on-demand hostnames are guarded, plans
renew only what memory holds, and a node places no more first orders than it was granted tokens. -/
theorem on_demand_orders_guarded (cfg : Settings) (hcfg : cfg.onDemand = true) (node : T → N)
    (w₀ : World N T) (as : List (Action T Call Answer))
    (hA : (cluster cfg node).MeetsNoting (plannedBy node) (AsSpawned cfg node) [] (.idle w₀) as) :
    (∀ d, d ∉ cfg.domains → Layout.isCompanion d = false →
      (cluster cfg node).Meets (OrdersGuarded node d) (.idle w₀) as) ∧
    (cluster cfg node).Meets (PlansHeld node) (.idle w₀) as ∧
    ∀ i, ((cluster cfg node).calls (.idle w₀) as).countP
        (fun x => x.counts (firstOrder cfg) && decide (node x.thread = i)) ≤
      ((cluster cfg node).calls (.idle w₀) as).countP
        fun x => x.counts (fun _ _ e => tokenGranted e) && decide (node x.thread = i) := by
  have hstart : Watched cfg node [] (Config.idle w₀ : Config Op Res (World N T) T Call Out).view :=
    ⟨fun _ => ⟨nofun, nofun⟩, nofun, nofun⟩
  refine ⟨fun d hd hhost => ?_, ?_, fun i => ?_⟩
  · exact hA.meets (cluster_guarding cfg node) (fun planned v l v' hI hmove hl =>
      ⟨watched_move hI hmove hl, ordersGuarded_move hcfg hd hhost hI hmove⟩) as [] (.idle w₀)
      (Machine.onTrack_idle w₀) hstart
  · exact hA.meets (cluster_guarding cfg node) (fun planned v l v' hI hmove hl =>
      ⟨watched_move hI hmove hl, plansHeld_move hI hmove⟩) as [] (.idle w₀)
      (Machine.onTrack_idle w₀) hstart
  · exact Machine.calls_balance (J := Solvent cfg) (cluster_guarding cfg node)
      (fun _ => ⟨Nat.le_refl 0, fun _ => rfl⟩) (fun q h o r hs hmay => solvent_cons hs hmay)
      (fun q h hs => hs.1) (fun t => decide (node t = i)) w₀ as

end

/-! ## A handshake, then a renewal -/

/-- The allow-set of the one node is "b". -/
def allowsB : World Unit (Fin 1) :=
  { World.empty Unit (Fin 1) with node := fun _ => { NodeMemory.empty with hosts := ["b"] } }

/-- A handshake orders for "b", the next plan lists it and its renewal orders again. -/
def kickThenRenew : List (Action (Fin 1) Call Answer) :=
  (.start 0 (.requestIssue "b" true) :: List.replicate 30 (.step 0 {}) : Schedule 1) ++
    (.finish 0 :: .start 0 .planLeader :: List.replicate 15 (.step 0 {}) : Schedule 1) ++
    (.finish 0 :: .start 0 (.runHost "b" true) :: List.replicate 35 (.step 0 {}) : Schedule 1) ++
    ([.finish 0] : Schedule 1)

theorem on_demand_orders_guarded_renewal :
    ((cluster .fleet fun _ : Fin 1 => ()).run (.idle allowsB) kickThenRenew).map
      (fun c => (c.shared.issued "b").length) = some 2 ∧
    (cluster .fleet fun _ : Fin 1 => ()).Meets (OrdersGuarded (fun _ => ()) "b") (.idle allowsB)
      kickThenRenew ∧
    ((cluster .fleet fun _ : Fin 1 => ()).calls (.idle allowsB) kickThenRenew).countP
        (fun x => x.counts (firstOrder .fleet) && decide (() = ())) ≤
      ((cluster .fleet fun _ : Fin 1 => ()).calls (.idle allowsB) kickThenRenew).countP
        fun x => x.counts (fun _ _ e => tokenGranted e) && decide (() = ()) := by
  have hguarded := on_demand_orders_guarded .fleet rfl (fun _ : Fin 1 => ()) allowsB kickThenRenew
    (by decide +kernel)
  exact ⟨by decide +kernel, hguarded.1 "b" (by decide) (by decide +kernel), hguarded.2.2 ()⟩

end CertsManager
