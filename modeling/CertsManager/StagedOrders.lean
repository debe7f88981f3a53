import CertsManager.NoDowngrade
import CertsManager.RateLimits

/-!
# StagedOrders — one order for a staged key

An activation that could not store its chain holds it, and the next one takes it up again instead of
ordering.  It looks among the held chains only.  An activation that stored its chain and failed
afterwards, at the marker, at the leadership check or at the promotion, has left nothing there; run
again before reconciliation has promoted the key, it orders a second time.

`CeremonyRules` asks that no activation comes to ordering while storage holds a chain for the staged
key, and that nothing else displaces that chain.
-/

namespace CertsManager

open Interleave

/-! ## What an activation does with its order -/

/-- The CA answered an order with a chain that is not for the order's key. -/
def Unusable (h : History) (n : Name) (c : ChainPEM) : Prop :=
  ∃ ctx k, (⟨.env (.issue ctx n k), .ok c⟩ : Event) ∈ h ∧ (buildCertificate c k).toOption = none

/-- The chain in hand is stored or held, unless it was useless. -/
def Safe (cfg : Settings) (h : History) (n : Name) : Prop :=
  ∀ c, (know cfg h).order = some c →
    (know cfg h).chain = some (some c) ∨
      (∃ p, (know cfg h).held = some (some p) ∧ p.chainPEM = c) ∨ Unusable h n c

/-- An activation orders when it has found no chain held for the key, and does not give up the lease
before its order is safe. -/
def maySecure (cfg : Settings) (q : Call) (h : History) : Op → Prop
  | .env (.issue _ _ k) => q.activates = true →
      ∃ r, (know cfg h).held = some r ∧ ∀ p ∈ r, (buildCertificate p.chainPEM k).toOption = none
  | .env (.releaseLease n) => q.activates = true → Safe cfg h n
  | _ => True

theorem builds_of_bound {c : ChainPEM} {k : Key} (hb : Bound (· = k.public) c) :
    (buildCertificate c k).toOption ≠ none := by
  cases c with
  | garbage => exact hb.elim
  | chain leaf =>
      have hpub : k.public = leaf.pub := hb.symm
      simp [buildCertificate, hpub, Except.toOption]

section

variable {cfg : Settings} {q : Call} {h : History} {n : Name} {α : Type} {p : M α}

theorem maySecure_of_calm {o : Op} (ho : o.Calm) : maySecure cfg q h o := by
  cases o with
  | env o => cases o <;> first | exact ho.elim | trivial
  | _ => trivial

/-- Beside the rules of `keeps`. -/
abbrev mayBoth (cfg : Settings) (q : Call) (h : History) (o : Op) : Prop :=
  mayKeep cfg q h o ∧ maySecure cfg q h o

theorem calm_secures {Q : History → α → Prop} (hp : p.Calls Op.Calm)
    (hkeep : p.Conforms (mayKeep cfg q) h Q) : p.Conforms (mayBoth cfg q) h Q :=
  (hkeep.and (hp.conforms fun _ _ ho => maySecure_of_calm ho)).mono fun _ _ hQ => hQ.1

/-- A held chain that builds is taken up, and otherwise one is ordered. -/
theorem chainForActivation_secures (ctx : Time) (k : Key) (hn : (know cfg h).lock = some n) :
    (Manager.chainForActivation cfg ctx n k).Conforms (maySecure cfg q) h fun h' r =>
      ∀ c, r = .ok c → (buildCertificate c k).toOption = none →
        (⟨.env (.issue ctx n k), .ok c⟩ : Event) ∈ h' := by
  simp only [Manager.chainForActivation, CertCache.heldChainFor, onMem, Prog.conforms_bind,
    Prog.conforms_perform]
  refine ⟨trivial, fun held => ?_⟩
  have hheld : (know cfg (⟨.mem (.pendingGet n), held⟩ :: h)).held = some held := by
    simp only [know_cons, Know.after, hn, if_true]
  have horder : (∀ p ∈ held, (buildCertificate p.chainPEM k).toOption = none) →
      (Manager.orderForActivation cfg ctx n k).Conforms (maySecure cfg q)
        (⟨.mem (.pendingGet n), held⟩ :: h) fun h' r =>
        ∀ c, r = .ok c → (buildCertificate c k).toOption = none →
          (⟨.env (.issue ctx n k), .ok c⟩ : Event) ∈ h' := by
    intro hnone
    refine ((ensureIssuer_quiet cfg ctx).conforms fun _ _ ho =>
      maySecure_of_calm ho.aside.light.calm).bind ?_
    rintro h₁ r - ⟨l, rfl, hl⟩
    cases r with
    | error err => simp
    | ok _ =>
        have hsteady := know_append_steady cfg (⟨.mem (.pendingGet n), held⟩ :: h) l
          fun e he => (hl e he).aside
        simp only [onEnv, Prog.conforms_bind, Prog.conforms_perform]
        refine ⟨fun _ => ⟨held, hsteady.held.trans hheld, hnone⟩, fun r => ?_⟩
        cases r with
        | error f => simp
        | ok c =>
            rintro c' ⟨⟩ -
            exact List.mem_cons_self
  cases held with
  | none => exact horder (by simp)
  | some p =>
      simp only
      cases hb : buildCertificate p.chainPEM k with
      | error err => exact horder (by simp [hb, Except.toOption])
      | ok cert =>
          rintro c ⟨⟩ hnone
          simp [hb, Except.toOption] at hnone

/-- A chain that built fails to be stored in one way only. -/
theorem store_fault (cfg : Settings) (ctx : Time) (n : Name) (c : ChainPEM) (k : Key) :
    (CertCache.store cfg ctx n c k).Conforms (fun _ _ => True) h fun _ r =>
      ∀ cert err, r = .unstored cert err → err.is .persistFailed = true := by
  have hpersist : ∀ left attempt h, (CertCache.persistFrom ctx n c left attempt).Conforms
      (fun _ _ => True) h fun _ r => ∀ err, r = .error err → err.is .persistFailed = true := by
    have hfault : ∀ reason, (CertCache.persistError n reason).is .persistFailed = true := by
      intro reason
      simp [CertCache.persistError, Err.is, Err.wrap, Err.of]
    intro left
    induction left with
    | zero =>
        intro attempt h
        simp only [CertCache.persistFrom, onStorage, Prog.conforms_bind, Prog.conforms_perform]
        refine ⟨trivial, fun r => ?_⟩
        cases r with
        | ok _ => simp
        | error f =>
            rintro err ⟨⟩
            exact hfault _
    | succ left ih =>
        intro attempt h
        simp only [CertCache.persistFrom, onStorage, onEnv, Prog.conforms_bind,
          Prog.conforms_perform]
        refine ⟨trivial, fun r => ?_⟩
        cases r with
        | ok _ => simp
        | error f =>
            simp only [Prog.conforms_bind, Prog.conforms_perform]
            refine ⟨trivial, fun slept => ?_⟩
            cases slept with
            | true => exact ih _ _
            | false =>
                rintro err ⟨⟩
                exact hfault _
  simp only [CertCache.store]
  cases buildCertificate c k with
  | error err => simp
  | ok cert =>
      refine (hpersist _ _ h).bind fun h₁ r _ hr => ?_
      cases r with
      | error err =>
          rintro _ _ ⟨⟩
          exact hr err rfl
      | ok _ =>
          simp only [CertCache.set, CertCache.dropPending, onMem, Prog.conforms_bind,
            Prog.conforms_perform]
          refine ⟨trivial, fun _ => ⟨trivial, fun _ => ?_⟩⟩
          exact ((confirmed_serving cfg n cert _).weaken fun _ _ _ => trivial).mono
            fun _ _ _ => by simp

theorem activateLeased_secures (ctx : Time) (force : Bool) (hq : q.forced = true)
    (hn : (know cfg h).Leased n) (ho : (know cfg h).order = none)
    (hsp : (know cfg h).spoiled = false) :
    (Manager.activateLeased cfg ctx n force).Conforms (mayBoth cfg q) h fun h' _ =>
      (know cfg h').Leased n ∧ (know cfg h').Settled ∧ Safe cfg h' n := by
  have hnone : ∀ h', (know cfg h').Leased n → (know cfg h').order = none →
      (know cfg h').Leased n ∧ (know cfg h').Settled ∧ Safe cfg h' n := fun h' hn ho =>
    ⟨hn, .of_none ho, fun c hc => by simp [ho] at hc⟩
  refine (calm_secures (calm_of_quiet (load_quiet cfg ctx (.next n)))
    (quiet_keeps (load_quiet cfg ctx (.next n)))).bind fun h₁ r _ hs₁ => ?_
  have hn₁ := hs₁.leased hn
  have ho₁ := hs₁.order.trans ho
  cases r with
  | error err => exact hnone h₁ hn₁ ho₁
  | ok k =>
      refine (calm_secures (calm_of_quiet (activationGate_quiet cfg ctx n k force))
        (quiet_keeps (activationGate_quiet cfg ctx n k force))).bind fun h₂ r _ hs₂ => ?_
      have hn₂ := hs₂.leased hn₁
      have ho₂ := hs₂.order.trans ho₁
      cases r with
      | error err => exact hnone h₂ hn₂ ho₂
      | ok _ =>
          have hsp₂ := hs₂.spoiled.trans (hs₁.spoiled.trans hsp)
          refine ((chainForActivation_keeps ctx k hq hn₂ ho₂ hsp₂).and
            (chainForActivation_secures ctx k hn₂.1)).bind ?_
          rintro h₃ r - ⟨⟨hn₃, herr, hok⟩, hplaced⟩
          cases r with
          | error err => exact hnone h₃ hn₃ (herr err rfl)
          | ok c =>
              obtain ⟨hhand, hbad⟩ := hok c rfl
              -- whatever was ordered is the chain in hand
              have hsame : ∀ c', (know cfg h₃).order = some c' → c' = c := by
                intro c' hc'
                rcases hhand with heq | ⟨heq, -⟩
                · exact Option.some.inj (hc'.symm.trans heq)
                · simp [heq] at hc'
              refine ((calm_secures (store_calm cfg ctx n c k) (store_keeps ctx c k hn₃ hhand)).and
                (store_fault cfg ctx n c k)).weaken (fun _ _ hmay => hmay.1) |>.bind ?_
              rintro h₄ r hs₄ ⟨⟨hn₄, ho₄, hstored, hunstored, hunusable⟩, hfault⟩
              cases r with
              | unusable err =>
                  obtain ⟨hb, hspoiled⟩ := hunusable err rfl
                  refine ⟨hn₄, fun hne => Or.inr (hspoiled.trans (hbad (ho₄ ▸ hne) err hb)), ?_⟩
                  intro c' hc'
                  obtain rfl := hsame c' (ho₄.symm.trans hc')
                  have hfails : (buildCertificate c' k).toOption = none := by
                    simp [hb, Except.toOption]
                  exact Or.inr (Or.inr ⟨ctx, k, hs₄.subset (hplaced c' rfl hfails), hfails⟩)
              | stored cert =>
                  obtain ⟨hchain, hput⟩ := hstored cert rfl
                  have hcalm : (Manager.promoteStored cfg ctx n).Calls Op.Calm := by
                    refine (calm_of_aside (markOutgoing_aside cfg ctx n)).bind fun r => ?_
                    cases r with
                    | error err => exact .pure _
                    | ok _ =>
                        refine Prog.Calls.bind (.perform trivial) fun leader => ?_
                        cases leader with
                        | false => exact .pure _
                        | true =>
                            refine (calm_of_light (promoteNextCertKey_light cfg ctx n)).bind fun r => ?_
                            cases r <;> exact .pure _
                  refine (calm_secures hcalm (promoteStored_keeps ctx hn₄ hchain hput)).mono
                    fun h₅ _ hst₅ => ?_
                  refine ⟨hst₅.leased hn₄, fun _ => Or.inl ⟨c, hst₅.chain.trans hchain⟩, ?_⟩
                  intro c' hc'
                  obtain rfl := hsame c' (ho₄.symm.trans (hst₅.order.symm.trans hc'))
                  exact Or.inl (hst₅.chain.trans hchain)
              | unstored cert err =>
                  obtain ⟨rfl, hhand₄, hspoiled⟩ := hunstored cert err rfl
                  simp only [hfault cert err rfl, Bool.not_true, Bool.false_eq_true, if_false]
                  refine (calm_secures (hold_calm n cert _) (hold_keeps hn₄ hhand₄)).bind ?_
                  rintro h₅ _ - ⟨hn₅, ho₅, hsp₅, hheld₅⟩
                  refine ⟨hn₅, .of_spoiled (hsp₅.trans hspoiled), fun c' hc' => ?_⟩
                  obtain rfl := hsame c' (ho₄.symm.trans (ho₅.symm.trans hc'))
                  exact Or.inr (Or.inl ⟨_, hheld₅, rfl⟩)

theorem activateCertificateKey_secures (n : Name) (force : Bool) (hq : q.forced = true)
    (hh : (know cfg h).lock = none) :
    (Manager.activateCertificateKey cfg n force).Conforms (mayBoth cfg q) h fun _ _ => True := by
  simp only [Manager.activateCertificateKey, isLeader, onEnv, Prog.conforms_bind,
    Prog.conforms_perform]
  refine ⟨⟨trivial, trivial⟩, fun leader => ?_⟩
  cases leader with
  | false => trivial
  | true =>
      simp only [Bool.not_true, Bool.false_eq_true, if_false]
      split
      · trivial
      · simp only [Manager.now, Manager.activateLocked, Manager.acquireIssueLease,
          Manager.releaseIssueLease, onEnv, onMem, Prog.conforms_bind, Prog.conforms_perform]
        refine ⟨⟨trivial, trivial⟩, fun t => ?_⟩
        refine ⟨⟨((know cfg h).now_steady cfg t).lock.trans hh, trivial⟩, fun u => ?_⟩
        refine ⟨⟨⟨rfl, rfl⟩, trivial⟩, fun got => ?_⟩
        cases got with
        | false => exact ⟨⟨⟨rfl, rfl⟩, trivial⟩, fun _ => trivial⟩
        | true =>
            simp only [Bool.not_true, Bool.false_eq_true, if_false]
            refine (activateLeased_secures _ force hq ?_ ?_ ?_).bind
              fun h₁ r _ hactivated => ?_
            · simp [Know.after, Know.Leased]
            · simp [Know.after]
            · simp [Know.after]
            · simp only [Prog.conforms_bind, Prog.conforms_perform]
              obtain ⟨hn₁, hset, hsafe⟩ := hactivated
              exact ⟨⟨⟨hn₁, hset⟩, fun _ => hsafe⟩, fun _ => ⟨⟨⟨hn₁.1, rfl⟩, trivial⟩, fun _ => trivial⟩⟩

end

/-- Of the other calls this protocol says nothing. -/
def secures (cfg : Settings) : Protocol Op Res Call Out where
  may := maySecure cfg
  done _ _ _ := True

theorem cluster_secures {N T : Type} [DecidableEq N] (cfg : Settings) (node : T → N) :
    (cluster cfg node).Follows (secures cfg) := by
  intro q
  show (body cfg q).Conforms (maySecure cfg q) [] fun _ _ => True
  cases hq : q.activates with
  | false =>
      refine Prog.conforms_of_all (fun h o => ?_) fun _ _ => trivial
      cases o with
      | env o => cases o <;> first | exact fun hact => absurd hact (by simp [hq]) | trivial
      | _ => trivial
  | true =>
      cases q with
      | activateCertificateKey n force =>
          refine Prog.conforms_map.2 ?_
          exact (activateCertificateKey_secures n force rfl rfl).weaken fun _ _ hmay => hmay.2
      | _ => cases hq

section

variable {N T : Type}

/-! ## The rules of a run -/

/-- Storage holds a chain for `k`. -/
def StoredFor (d : Name) (k : Key) (w : World N T) : Prop :=
  ∃ c ∈ w.storage.chain d, Bound (· = k.public) c

/-- Memory holds a chain for `k` that is to be stored. -/
def HeldFor (d : Name) (k : Key) (m : NodeMemory T) : Prop :=
  ∃ p ∈ m.pending.lookup d, Bound (· = k.public) p.chainPEM

instance (d : Name) (k : Key) (w : World N T) : Decidable (StoredFor d k w) :=
  inferInstanceAs (Decidable (∃ c ∈ w.storage.chain d, Bound (· = k.public) c))

instance (d : Name) (k : Key) (m : NodeMemory T) : Decidable (HeldFor d k m) :=
  inferInstanceAs (Decidable (∃ p ∈ m.pending.lookup d, Bound (· = k.public) p.chainPEM))

/-- The name and the key of an order this move placed. -/
def orderedFor : ClusterLabel T → Option (Name × Key)
  | .did _ ⟨.env (.issue _ n k), _⟩ => some (n, k)
  | _ => none

/-- The thread, the name and the entry of a chain this move set aside. -/
def setAside : ClusterLabel T → Option (T × Name × PendingPersist)
  | .did t ⟨.mem (.pendingSet n p), _⟩ => some (t, n, p)
  | _ => none

/-- The key `k` is not promoted yet. -/
def Unpromoted (d : Name) (k : Key) (v : ClusterView N T) (_ : ClusterLabel T)
    (_ : ClusterView N T) : Prop :=
  v.shared.storage.key (.live d) ≠ some (.key k)

instance (d : Name) (k : Key) (v : ClusterView N T) (l : ClusterLabel T) (v' : ClusterView N T) :
    Decidable (Unpromoted d k v l v') :=
  inferInstanceAs (Decidable (v.shared.storage.key (.live d) ≠ some (.key k)))

/-- No order for `k` is placed while storage holds a chain for it. -/
def OrdersUnstored (d : Name) (k : Key) (v : ClusterView N T) (l : ClusterLabel T)
    (_ : ClusterView N T) : Prop :=
  orderedFor l = some (d, k) → ¬StoredFor d k v.shared

instance (d : Name) (k : Key) (v : ClusterView N T) (l : ClusterLabel T) (v' : ClusterView N T) :
    Decidable (OrdersUnstored d k v l v') :=
  inferInstanceAs (Decidable (orderedFor l = some (d, k) → ¬StoredFor d k v.shared))

/-- A stored chain for `k` is overwritten only by another; a held one is let go, or replaced by one
for another key, only when one is stored. -/
def Undisplaced (node : T → N) (d : Name) (k : Key) (v : ClusterView N T) (l : ClusterLabel T)
    (_ : ClusterView N T) : Prop :=
  (∀ g ∈ chainPut l, g.2.1 = d → StoredFor d k v.shared → Bound (· = k.public) g.2.2) ∧
  (∀ g ∈ dropped l, g.2 = d → HeldFor d k (v.shared.node (node g.1)) → StoredFor d k v.shared) ∧
  (∀ g ∈ setAside l, g.2.1 = d → HeldFor d k (v.shared.node (node g.1)) →
    Bound (· = k.public) g.2.2.chainPEM ∨ StoredFor d k v.shared)

instance (node : T → N) (d : Name) (k : Key) (v : ClusterView N T) (l : ClusterLabel T)
    (v' : ClusterView N T) : Decidable (Undisplaced node d k v l v') :=
  inferInstanceAs (Decidable ((∀ g ∈ chainPut l, _) ∧ (∀ g ∈ dropped l, _) ∧
    (∀ g ∈ setAside l, _)))

def CeremonyRules (node : T → N) (d : Name) (k : Key) (v : ClusterView N T) (l : ClusterLabel T)
    (v' : ClusterView N T) : Prop :=
  crashed l = none ∧ Unpromoted d k v l v' ∧ OrdersUnstored d k v l v' ∧ Undisplaced node d k v l v'

instance [DecidableEq T] (node : T → N) (d : Name) (k : Key) (v : ClusterView N T)
    (l : ClusterLabel T) (v' : ClusterView N T) : Decidable (CeremonyRules node d k v l v') :=
  inferInstanceAs (Decidable (_ ∧ _ ∧ _ ∧ _))

/-- No order for `k` is placed at all. -/
def OrdersNoMore (d : Name) (k : Key) (_ : ClusterView N T) (l : ClusterLabel T)
    (_ : ClusterView N T) : Prop :=
  orderedFor l ≠ some (d, k)

instance (d : Name) (k : Key) (v : ClusterView N T) (l : ClusterLabel T) (v' : ClusterView N T) :
    Decidable (OrdersNoMore d k v l v') :=
  inferInstanceAs (Decidable (orderedFor l ≠ some (d, k)))

/-! ## The invariant -/

structure StagedInv (cfg : Settings) (node : T → N) (d : Name) (k : Key) (v : ClusterView N T) :
    Prop where
  custody : Custody cfg node v
  /-- Nobody has read `k` as the live key. -/
  unread : ∀ t q h, v.task t = some (q, h) → ¬LiveRead h d k
  /-- What the CA gave for a key is for that key. -/
  given : ∀ t q h, v.task t = some (q, h) → ∀ ctx n k' c,
    (⟨.env (.issue ctx n k'), .ok c⟩ : Event) ∈ h → Bound (· = k'.public) c

/-- The chain that was ordered for `k` is in an activation's hands, or held, or stored. -/
def Secured (cfg : Settings) (i : N) (d : Name) (k : Key) (v : ClusterView N T) : Prop :=
  (∃ t q h c, v.task t = some (q, h) ∧ q.activates = true ∧ (know cfg h).Leased d ∧
      (know cfg h).order = some c ∧ Bound (· = k.public) c) ∨
    HeldFor d k (v.shared.node i) ∨ StoredFor d k v.shared

variable [DecidableEq N] [DecidableEq T] {cfg : Settings} {node : T → N} {d : Name} {k : Key}

section Did

variable {v : ClusterView N T} {t : T} {q : Call} {h : History} {o : Op} {a : Answer} {r : Res o}
  {w' : World N T}

omit [DecidableEq T] in
theorem unread_did (hk : v.shared.storage.key (.live d) ≠ some (.key k)) (hread : ¬LiveRead h d k)
    (he : exec cfg.maxRetries node v.shared t o a = some (r, w')) : ¬LiveRead (⟨o, r⟩ :: h) d k := by
  rintro ⟨ctx, hmem⟩
  rcases List.mem_cons.1 hmem with heq | hmem
  · cases heq
    exact hk (exec_getKey_ok he)
  · exact hread ⟨ctx, hmem⟩

omit [DecidableEq T] in
theorem given_did (hgiven : ∀ ctx n k' c, (⟨.env (.issue ctx n k'), .ok c⟩ : Event) ∈ h →
      Bound (· = k'.public) c)
    (he : exec cfg.maxRetries node v.shared t o a = some (r, w')) {ctx : Time} {n : Name} {k' : Key}
    {c : ChainPEM} (hmem : (⟨.env (.issue ctx n k'), .ok c⟩ : Event) ∈ ⟨o, r⟩ :: h) :
    Bound (· = k'.public) c := by
  rcases List.mem_cons.1 hmem with heq | hmem
  · cases heq
    obtain ⟨notAfter, rfl, -⟩ := exec_issue_ok he
    exact rfl
  · exact hgiven ctx n k' c hmem

omit [DecidableEq N] [DecidableEq T] in
/-- At the end of the lease the order is held or stored. -/
theorem covered_of_safe {c : ChainPEM} (hI : StagedInv cfg node d k v) (ht : v.task t = some (q, h))
    (hn : (know cfg h).Leased d) (hc : (know cfg h).order = some c) (hb : Bound (· = k.public) c)
    (hsafe : Safe cfg h d) :
    HeldFor d k (v.shared.node (node t)) ∨ StoredFor d k v.shared := by
  rcases hsafe c hc with hchain | ⟨p, hheld, rfl⟩ | ⟨ctx, k', hmem, hfails⟩
  · exact Or.inr ⟨c, (hI.custody t q h ht).chain d _ hn hchain, hb⟩
  · exact Or.inl ⟨p, (hI.custody t q h ht).held d _ hn.1 hheld, hb⟩
  · exact absurd hfails (builds_of_bound (hI.given t q h ht ctx d k' c hmem))

/-- What is held or stored for `k` stays held or stored. -/
theorem covered_did (hone : ∀ t u, node t = node u) {u : T}
    (he : exec cfg.maxRetries node v.shared t o a = some (r, w'))
    (hA : Undisplaced node d k v (.did t ⟨o, r⟩) (v.put t w' (some (q, ⟨o, r⟩ :: h))))
    (hcov : HeldFor d k (v.shared.node (node u)) ∨ StoredFor d k v.shared) :
    HeldFor d k (w'.node (node u)) ∨ StoredFor d k w' := by
  obtain ⟨hput, hdrop, hset⟩ := hA
  have hstored : StoredFor d k v.shared → StoredFor d k w' := by
    rintro ⟨c, hc, hb⟩
    rcases exec_chain he d with hsame | ⟨ctx, c', rfl, hnew⟩
    · exact ⟨c, hsame.trans hc, hb⟩
    · exact ⟨c', hnew, hput (t, d, c') rfl rfl ⟨c, hc, hb⟩⟩
  rcases hcov with hheld | hst
  · rw [hone u t] at hheld ⊢
    rcases exec_pending he (node t) d with hsame | ⟨p, rfl, -, hnew⟩ | ⟨rfl, -, -⟩
    · obtain ⟨p, hp, hb⟩ := hheld
      exact Or.inl ⟨p, hsame.trans hp, hb⟩
    · rcases hset (t, d, p) rfl rfl hheld with hb | hst
      · exact Or.inl ⟨p, hnew, hb⟩
      · exact Or.inr (hstored hst)
    · exact Or.inr (hstored (hdrop (t, d) rfl rfl hheld))
  · exact Or.inr (hstored hst)

end Did

/-! ## Whole runs -/

theorem stagedInv_move (hone : ∀ t u, node t = node u) {v v' : ClusterView N T}
    {l : ClusterLabel T} (hI : StagedInv cfg node d k v)
    (hmove : Move (cluster cfg node) (keeps cfg) v l v') (hA : CeremonyRules node d k v l v') :
    StagedInv cfg node d k v' := by
  -- on one node the lock alone makes the lease exclusive
  have halone : Alone cfg v := fun t u q q' h h' n ht hu hn hn' =>
    hI.custody.same_of_lock ht hu (hone t u) hn.1 hn'.1
  have hcustody := custody_move hI.custody halone hmove
  cases hmove with
  | start _ =>
      refine ⟨hcustody, fun u q' h' hu => ?_, fun u q' h' hu => ?_⟩ <;>
        rcases View.put_cases hu with ⟨-, ⟨⟩⟩ | ⟨-, hu'⟩
      · simp [LiveRead]
      · exact hI.unread u q' h' hu'
      · simp
      · exact hI.given u q' h' hu'
  | @did t q h o a r w' ht hmay he =>
      replace he : exec cfg.maxRetries node v.shared t o a = some (r, w') := he
      refine ⟨hcustody, fun u q' h' hu => ?_, fun u q' h' hu ctx n k' c hmem => ?_⟩ <;>
        rcases View.put_cases hu with ⟨-, ⟨⟩⟩ | ⟨-, hu'⟩
      · exact unread_did hA.2.1 (hI.unread t q h ht) he
      · exact hI.unread u q' h' hu'
      · exact given_did (hI.given t q h ht) he hmem
      · exact hI.given u q' h' hu' ctx n k' c hmem
  | finish _ _ | crash =>
      refine ⟨hcustody, fun u q' h' hu => ?_, fun u q' h' hu => ?_⟩ <;>
        rcases View.put_cases hu with ⟨-, ⟨⟩⟩ | ⟨-, hu'⟩
      · exact hI.unread u q' h' hu'
      · exact hI.given u q' h' hu'

theorem secured_move (hone : ∀ t u, node t = node u) {u : T} {v v' : ClusterView N T}
    {l : ClusterLabel T} (hI : StagedInv cfg node d k v) (hsec : Secured cfg (node u) d k v)
    (hmove : Move (cluster cfg node) ((keeps cfg).and (secures cfg)) v l v')
    (hA : CeremonyRules node d k v l v') : Secured cfg (node u) d k v' := by
  obtain ⟨hcrash, -, -, hundisplaced⟩ := hA
  rcases hsec with ⟨s, q₀, h₀, c, hs, hq, hn, hc, hb⟩ | hcov
  · cases hmove with
    | @start t q ht =>
        have hst : s ≠ t := by
          rintro rfl
          cases hs.symm.trans ht
        exact Or.inl ⟨s, q₀, h₀, c, by rwa [View.put_other v _ _ hst], hq, hn, hc, hb⟩
    | @did t q h o a r w' ht hmay he =>
        replace he : exec cfg.maxRetries node v.shared t o a = some (r, w') := he
        by_cases hst : s = t
        · subst hst
          cases hs.symm.trans ht
          obtain ⟨hkeep, hsecure⟩ := hmay
          rcases leased_until (e := ⟨o, r⟩) hn hkeep with hn' | hrel
          · rcases order_until (e := ⟨o, r⟩) hn hc hkeep with hc' | hrel
            · exact Or.inl ⟨s, q₀, _, c, View.put_self _ _ _ _, hq, hn', hc', hb⟩
            · obtain rfl : o = .env (.releaseLease d) := hrel
              exact Or.inr (covered_did hone he hundisplaced (hone u s ▸
                covered_of_safe hI hs hn hc hb (hsecure hq)))
          · obtain rfl : o = .env (.releaseLease d) := hrel
            exact Or.inr (covered_did hone he hundisplaced (hone u s ▸
              covered_of_safe hI hs hn hc hb (hsecure hq)))
        · exact Or.inl ⟨s, q₀, h₀, c, by rwa [View.put_other v _ _ hst], hq, hn, hc, hb⟩
    | @finish t q h out ht hdone =>
        have hst : s ≠ t := by
          rintro rfl
          cases hs.symm.trans ht
          exact absurd hn.1 (by simp [show _ = none from hdone.1])
        exact Or.inl ⟨s, q₀, h₀, c, by rwa [View.put_other v _ _ hst], hq, hn, hc, hb⟩
    | crash => cases hcrash
  · cases hmove with
    | @did t q h o a r w' ht hmay he => exact Or.inr (covered_did hone he hundisplaced hcov)
    | _ => exact Or.inr hcov

/-- Whoever would order again holds the lock: it has the chain in hand already, or has found it
held. -/
theorem ordersNoMore_move (hone : ∀ t u, node t = node u) {u : T} {v v' : ClusterView N T}
    {l : ClusterLabel T} (hI : StagedInv cfg node d k v) (hsec : Secured cfg (node u) d k v)
    (hmove : Move (cluster cfg node) (((keeps cfg).and (secures cfg)).and meters) v l v')
    (hA : CeremonyRules node d k v l v') : OrdersNoMore d k v l v' := by
  intro hordered
  cases hmove with
  | @did t q h o a r w' ht hmay he =>
      cases o with
      | env o =>
          cases o with
          | issue ctx n k' =>
              cases hordered
              obtain ⟨⟨hkeep, hsecure⟩, hmeter⟩ := hmay
              replace hkeep : mayKeep cfg q h (.env (.issue ctx d k)) := hkeep
              cases hq : q.activates with
              | false =>
                  rcases hmeter with hact | ⟨-, -, hread⟩
                  · simp [hq] at hact
                  · exact hI.unread t q h ht hread
              | true =>
                  rcases hsec with ⟨s, q₀, h₀, c, hs, -, hn, hc, -⟩ | hheld | hstored
                  · obtain rfl : s = t :=
                      hI.custody.same_of_lock hs ht (hone s t) hn.1 hkeep.1.1
                    cases hs.symm.trans ht
                    simp [hkeep.2.1] at hc
                  · obtain ⟨r₀, hr₀, hfails⟩ := hsecure hq
                    obtain ⟨p, hp, hb⟩ := hheld
                    have hlookup := (hI.custody t q h ht).held d r₀ hkeep.1.1 hr₀
                    rw [hone t u] at hlookup
                    exact builds_of_bound hb (hfails p (hlookup.symm.trans hp))
                  · exact hA.2.2.1 rfl hstored
          | _ => simp [orderedFor] at hordered
      | _ => simp [orderedFor] at hordered
  | _ => simp [orderedFor] at hordered

/-- One process, any calls in it, while `k` is staged and not promoted.  If no order for `k` comes to
be placed while storage holds a chain for `k`, and nothing displaces what is held or stored for it,
then after one order for `k` was answered with a chain no other is placed. -/
theorem one_order (cfg : Settings) (node : T → N) (hone : ∀ t u, node t = node u) (d : Name)
    (k : Key) (w : World N T) (as : List (Action T Call Answer))
    (hA : (cluster cfg node).Meets (CeremonyRules node d k) (.idle w) as) :
    ∀ as₁ a as₂ c₁ c₂ t ctx chain, as = as₁ ++ a :: as₂ →
      (cluster cfg node).run (.idle w) as₁ = some c₁ →
      (cluster cfg node).step c₁ a = some (.did t ⟨.env (.issue ctx d k), .ok chain⟩, c₂) →
      (cluster cfg node).Meets (OrdersNoMore d k) c₂ as₂ := by
  rintro as₁ a as₂ c₁ c₂ t ctx chain rfl hrun hissue
  have hfollows := Machine.Follows.and
    (Machine.Follows.and (cluster_keeps cfg node) (cluster_secures cfg node))
    (cluster_meters cfg node)
  have hinit : StagedInv cfg node d k
      (Config.idle w : Config Op Res (World N T) T Call Out).view := by
    refine ⟨?_, ?_, ?_⟩ <;> simp [Custody, Config.view, Config.idle]
  have hstep : ∀ v l v', StagedInv cfg node d k v →
      Move (cluster cfg node) (((keeps cfg).and (secures cfg)).and meters) v l v' →
      CeremonyRules node d k v l v' → StagedInv cfg node d k v' :=
    fun _ _ _ hI hmove hA => stagedInv_move hone hI hmove.left.left hA
  obtain ⟨hA₁, hrest⟩ := Machine.meets_append hA
  obtain ⟨hI₁, htrack₁⟩ := Machine.run_invariant hfollows hstep as₁ _ c₁ (Machine.onTrack_idle w)
    hinit hA₁ hrun
  have hA₂ := hrest c₁ hrun
  simp only [Machine.Meets, hissue] at hA₂
  obtain ⟨hmove, htrack₂⟩ := Machine.step_refines hfollows htrack₁ hissue
  have hI₂ := hstep _ _ _ hI₁ hmove hA₂.1
  -- the order is in hand, and it is an activation's
  have hsec₂ : Secured cfg (node t) d k c₂.view := by
    obtain ⟨q, h, a, ht, ⟨⟨hkeep, -⟩, hmeter⟩, he⟩ := hmove.did_cases
    replace hkeep : mayKeep cfg q h (.env (.issue ctx d k)) := hkeep
    obtain ⟨notAfter, rfl, -⟩ := exec_issue_ok (show exec cfg.maxRetries node c₁.view.shared t
      (.env (.issue ctx d k)) a = some (.ok chain, c₂.view.shared) from he)
    have hq : q.activates = true := by
      rcases hmeter with hact | ⟨-, -, hread⟩
      · exact hact
      · exact absurd hread (hI₁.unread t q h ht)
    have hκ : know cfg (⟨.env (.issue ctx d k), .ok (.chain ⟨k.public, notAfter⟩)⟩ :: h) =
        (know cfg h).ordered k (.chain ⟨k.public, notAfter⟩) := by
      simp only [know_cons, Know.after, hkeep.1, if_true]
    refine Or.inl ⟨t, q, _, .chain ⟨k.public, notAfter⟩, hmove.did_task ht, hq, ?_, ?_, rfl⟩
    · rw [hκ]
      exact hkeep.1
    · rw [hκ]
      rfl
  refine (Machine.run_meets hfollows
    (I := fun v => StagedInv cfg node d k v ∧ Secured cfg (node t) d k v)
    (fun v l v' hI hmove hA => ⟨hstep v l v' hI.1 hmove hA,
      secured_move hone hI.1 hI.2 hmove.left hA⟩) as₂ c₂ htrack₂ ⟨hI₂, hsec₂⟩ hA₂.2).mono ?_
  rintro _ _ _ ⟨hmove, hA, hI, -⟩
  exact ordersNoMore_move hone hI.1 hI.2 hmove hA

end

/-! ## One process -/

/-- A key is staged, and an activation comes to its order. -/
def activationToOrder : List (Action (Fin 1) Call Answer) :=
  (.start 0 (.replaceCertificateKey "a") :: List.replicate 9 (.step 0 {}) : Schedule 1) ++
    ([.finish 0, .start 0 (.activateCertificateKey "a" true)] : Schedule 1) ++
    (List.replicate 15 (.step 0 {}) : Schedule 1)

/-- Storage refuses the chain; the second activation takes up the held one and stores it. -/
def secondActivation : List (Action (Fin 1) Call Answer) :=
  (List.replicate 5 (.step 0 { outcome := .fail }) : Schedule 1) ++
    (List.replicate 4 (.step 0 {}) : Schedule 1) ++
    ([.finish 0, .start 0 (.activateCertificateKey "a" true)] : Schedule 1) ++
    (List.replicate 13 (.step 0 {}) : Schedule 1)

theorem one_order_secondActivation :
    ∃ c₁ c₂ t ctx chain,
      (cluster (.plain ["a"]) fun _ : Fin 1 => ()).run (.idle (storedWorld _ _)) activationToOrder =
        some c₁ ∧
      (cluster (.plain ["a"]) fun _ : Fin 1 => ()).step c₁ (.step 0 { notAfter := 20000000 }) =
        some (.did t ⟨.env (.issue ctx "a" ⟨1⟩), .ok chain⟩, c₂) ∧
      (cluster (.plain ["a"]) fun _ : Fin 1 => ()).Meets (OrdersNoMore "a" ⟨1⟩) c₂
        secondActivation ∧
      ∃ c ∈ (cluster (.plain ["a"]) fun _ : Fin 1 => ()).run c₂ secondActivation,
        StoredFor "a" ⟨1⟩ c.shared := by
  refine ⟨_, _, _, _, _, rfl, rfl, ?_, by decide +kernel⟩
  exact one_order (.plain ["a"]) (fun _ => ()) (fun _ _ => rfl) "a" ⟨1⟩ (storedWorld _ _)
    (activationToOrder ++ .step 0 { notAfter := 20000000 } :: secondActivation) (by decide +kernel)
    activationToOrder _ secondActivation _ _ _ _ _ rfl rfl rfl

/-- The chain is stored, the leadership check fails, and the activation is run again. -/
def rerunAfterStore : List (Action (Fin 1) Call Answer) :=
  (List.replicate 4 (.step 0 {}) : Schedule 1) ++
    (.step 0 { yes := false } :: List.replicate 2 (.step 0 {}) : Schedule 1) ++
    ([.finish 0, .start 0 (.activateCertificateKey "a" true)] : Schedule 1) ++
    (List.replicate 9 (.step 0 {}) : Schedule 1) ++
    ([.step 0 { notAfter := 20000001 }] : Schedule 1)

/-- The staged key is still staged, and the CA gives a second chain for it. -/
theorem ordered_again :
    ∃ c₁ c₂ t ctx chain,
      (cluster (.plain ["a"]) fun _ : Fin 1 => ()).run (.idle (storedWorld _ _)) activationToOrder =
        some c₁ ∧
      (cluster (.plain ["a"]) fun _ : Fin 1 => ()).step c₁ (.step 0 { notAfter := 20000000 }) =
        some (.did t ⟨.env (.issue ctx "a" ⟨1⟩), .ok chain⟩, c₂) ∧
      (cluster (.plain ["a"]) fun _ : Fin 1 => ()).Meets (Unpromoted "a" ⟨1⟩) c₂ rerunAfterStore ∧
      ¬(cluster (.plain ["a"]) fun _ : Fin 1 => ()).Meets (OrdersNoMore "a" ⟨1⟩) c₂
        rerunAfterStore ∧
      ∃ c ∈ (cluster (.plain ["a"]) fun _ : Fin 1 => ()).run c₂ rerunAfterStore,
        c.shared.storage.chain "a" = some chain ∧
          ((c.shared.issued "a").filter fun leaf => leaf.pub = (⟨1⟩ : Key).public).length = 2 := by
  refine ⟨_, _, _, _, _, rfl, rfl, by decide +kernel, by decide +kernel, by decide +kernel⟩

end CertsManager
