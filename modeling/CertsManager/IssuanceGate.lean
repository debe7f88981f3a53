import CertsManager.Discipline.Walk

/-!
# IssuanceGate — no new key under published TLSA records

`gateIssuance` stands before every automatic issuance for an MX host: with no live key in storage
and usage-3 records in DNS it refuses, since a new key would not match them.  The gate reads the
key object for itself, and `loadOrCreateCertKey` reads it again.  When the gate's read fails the
gate asks nothing of DNS and lets the attempt pass; if storage has recovered by the second read, a
key is created under the published records.  An attempt whose gate got an answer creates none.
-/

namespace CertsManager

open Interleave

/-! ## The attempt and its gate -/

/-- The host whose issuance a request attempts automatically; an operator's renewal is not gated. -/
def Call.attempts : Call → Option Name
  | .obtain d => some d
  | .requestIssue d _ => some d
  | .renewIfNeeded d => some d
  | .runHost host _ => some host
  | _ => none

/-- An MX host, and published records can be looked up. -/
def Settings.guards (cfg : Settings) (host : Name) : Bool :=
  cfg.dane.any fun d => d.lookup && d.mxHosts.contains host

/-- The reply to a read of the host's live key. -/
def liveKeyReply (host : Name) : Event → Option (Except ReadFault KeyPEM)
  | ⟨.storage _ (.getKey (.live n)), r⟩ => if n = host then some r else none
  | _ => none

/-- The host's lock was taken, or tried. -/
def locking (host : Name) : Event → Bool
  | ⟨.mem (.lock n), _⟩ => decide (n = host)
  | ⟨.mem (.tryLock n), _⟩ => decide (n = host)
  | _ => false

/-- The first read of the live key since the lock was taken, which is the gate's. -/
def gateRead (host : Name) : History → Option (Except ReadFault KeyPEM)
  | [] => none
  | e :: h => if locking host e then none else (gateRead host h).or (liveKeyReply host e)

/-- The gate could not read the key object. -/
def gateFailed (host : Name) (h : History) : Bool :=
  match gateRead host h with
  | some (.error (.failed _ _)) => true
  | _ => false

/-- A read found a live key object. -/
def keySeen (host : Name) (e : Event) : Bool :=
  match liveKeyReply host e with
  | some (.ok _) => true
  | _ => false

/-- A lookup that did not answer with a usage-3 record. -/
def unpublished (host : Name) : Event → Bool
  | ⟨.env (.lookupTLSA _ n), .ok published⟩ => decide (n = host) && !published.hasDANEEE
  | ⟨.env (.lookupTLSA _ n), .error _⟩ => decide (n = host)
  | _ => false

/-- No read of the attempt found the key, and every lookup it made answered with a usage-3
record. -/
def KeyLost (host : Name) (h : History) : Prop :=
  ∀ e ∈ h, keySeen host e = false ∧ unpublished host e = false

instance (host : Name) (h : History) : Decidable (KeyLost host h) :=
  inferInstanceAs (Decidable (∀ e ∈ h, _))

/-- Why an attempt may create the host's live key. -/
def GateOpen (cfg : Settings) (host : Name) (h : History) : Prop :=
  cfg.guards host = true → KeyLost host h → gateFailed host h = true

/-- A live key is written only past an open gate. -/
def mayMint (cfg : Settings) (host : Name) (h : History) : Op → Prop
  | .storage _ (.putKey (.live n) _ _) => n = host ∧ GateOpen cfg host h
  | _ => True

/-! ## What is remembered -/

section

variable {cfg : Settings} {host : Name} {h h' : History} {e : Event}

theorem keyLost_cons : KeyLost host (e :: h) ↔
    (keySeen host e = false ∧ unpublished host e = false) ∧ KeyLost host h :=
  List.forall_mem_cons

theorem gateRead_cons (he : locking host e = false) :
    gateRead host (e :: h) = (gateRead host h).or (liveKeyReply host e) := by
  simp [gateRead, he]

/-- Once the gate has let the attempt pass, later calls under the lock do not close it. -/
theorem GateOpen.cons (hopen : GateOpen cfg host h) (he : locking host e = false) :
    GateOpen cfg host (e :: h) := by
  intro hguards hlost
  have hfailed := hopen hguards (keyLost_cons.1 hlost).2
  unfold gateFailed at hfailed ⊢
  rw [gateRead_cons he]
  cases hr : gateRead host h with
  | none => simp [hr] at hfailed
  | some r => simpa [hr] using hfailed

/-- The call is about the key of nobody, and takes no lock. -/
def Op.Lockless : Op → Prop
  | .mem (.lock _) => False
  | .mem (.tryLock _) => False
  | o => o.Keyless

theorem Op.Lockless.locking {o : Op} {r : Res o} (ho : o.Lockless) :
    locking host ⟨o, r⟩ = false := by
  cases o with
  | mem o => cases o <;> trivial
  | _ => rfl

theorem Op.Lockless.keyless {o : Op} (ho : o.Lockless) : o.Keyless := by
  cases o with
  | mem o => trivial
  | _ => exact ho

theorem Op.Serving.lockless {o : Op} (ho : o.Serving) : o.Lockless := by
  cases o with
  | storage ctx o => exact ho.keyless
  | mem o => cases o <;> trivial
  | env o => trivial

/-- Calls that write no live key are allowed at any time. -/
theorem keyless_mints {α : Type} {p : M α} (hp : p.Calls Op.Keyless) :
    p.Conforms (mayMint cfg host) h fun _ _ => True := by
  refine (hp.conforms fun h o ho => ?_).mono fun _ _ _ => trivial
  cases o with
  | storage ctx o =>
      cases o with
      | putKey slot k createOnly =>
          obtain ⟨rfl, -⟩ : slot = .account ∧ createOnly = true := ho
          trivial
      | _ => trivial
  | _ => trivial

/-! ## The functions of an attempt -/

/-- Just after the lock was taken the gate has read nothing yet. -/
theorem gateRead_locked (he : locking host e = true) : gateRead host (e :: h) = none := by
  simp [gateRead, he]

theorem loadKey_gateRead (ctx : Time) (r : Except ReadFault KeyPEM) (hread : gateRead host h = none) :
    gateRead host (⟨.storage ctx (.getKey (.live host)), r⟩ :: h) = some r := by
  rw [gateRead_cons rfl, hread]
  simp [liveKeyReply]

/-- The gate lets an attempt pass for one of three reasons: it saw the key, DNS did not answer with
a usage-3 record, or it could not read the key object. -/
theorem gateIssuance_mints (ctx : Time) (hread : gateRead host h = none) :
    (Dane.gateIssuance cfg ctx host).Conforms (mayMint cfg host) h fun h' r =>
      r = .ok () → GateOpen cfg host h' := by
  cases hd : cfg.dane with
  | none =>
      simp only [Dane.gateIssuance, hd]
      intro _ hguards
      simp [Settings.guards, hd] at hguards
  | some d =>
      simp only [Dane.gateIssuance, hd]
      split
      · rename_i hno
        intro _ hguards
        simp only [Settings.guards, hd, Option.any_some] at hguards
        cases hl : d.lookup <;> simp_all
      · simp only [KeyStore.loadCertKey, KeyStore.load, onStorage, onEnv, Prog.conforms_bind,
          Prog.conforms_perform]
        refine ⟨trivial, fun r => ?_⟩
        rcases r with (_ | ⟨inBody, reason⟩) | pem
        · -- no key: DNS decides
          simp only [readFailure, Prog.conforms_pure, Err.is_of, decide_true, if_true,
            Prog.conforms_bind, Prog.conforms_perform]
          refine ⟨trivial, fun r => ?_⟩
          cases r with
          | error reason =>
              intro _ _ hlost
              have := (keyLost_cons.1 hlost).1.2
              simp [unpublished] at this
          | ok published =>
              by_cases hp : published.hasDANEEE
              · simp [hp]
              · simp only [hp, Bool.false_eq_true, if_false]
                intro _ _ hlost
                have := (keyLost_cons.1 hlost).1.2
                simp [unpublished, hp] at this
        · -- the read failed: the gate asks nothing more
          have hopen : GateOpen cfg host (⟨.storage ctx (.getKey (.live host)),
              .error (.failed inBody reason)⟩ :: h) :=
            fun _ _ => by simp [gateFailed, loadKey_gateRead ctx _ hread]
          cases inBody <;> simpa [readFailure, Err.is, Err.wrap] using hopen
        · have hseen : ∀ h' : History, ¬ KeyLost host
              (h' ++ ⟨.storage ctx (.getKey (.live host)), .ok pem⟩ :: h) := by
            intro h' hlost
            have := (hlost _ (List.mem_append_right _ (List.mem_cons_self ..))).1
            simp [keySeen, liveKeyReply] at this
          cases pem with
          | key k =>
              simp only [parseKeyPEM, Prog.conforms_pure, Prog.conforms_bind, Prog.conforms_perform]
              exact ⟨trivial, fun r _ _ hlost => absurd hlost (hseen [_])⟩
          | garbage =>
              simp only [parseKeyPEM, Prog.conforms_pure, Err.is_new, Bool.false_eq_true, if_false]
              exact fun _ _ hlost => absurd hlost (hseen [])

/-- Past an open gate a key may be created. -/
theorem loadOrCreateCertKey_mints (ctx : Time) (hopen : GateOpen cfg host h) :
    (KeyStore.loadOrCreateCertKey cfg ctx host).Conforms (mayMint cfg host) h fun _ _ => True := by
  refine (loadOrCreate_keeps cfg ctx (.live host) _ (fun h o hopen ho => ?_) (fun h k hopen => ?_)
    hopen).mono fun _ _ _ => trivial
  · have hlock := ho.serving.lockless
    exact ⟨(keyless_mints (Prog.Calls.perform hlock.keyless)).1, fun r => hopen.cons hlock.locking⟩
  · exact ⟨⟨rfl, hopen⟩, fun r => hopen.cons rfl⟩

/-- The gate, the key and the order, under the lock. -/
theorem gatedIssue_mints (ctx : Time) {α : Type} {refused : Err → M α} {order : Key → M α}
    (hread : gateRead host h = none) (hrefused : ∀ err, (refused err).Calls Op.Keyless)
    (horder : ∀ k, (order k).Calls Op.Keyless) :
    (do match ← Dane.gateIssuance cfg ctx host with
        | .error err => refused err
        | .ok () =>
            match ← KeyStore.loadOrCreateCertKey cfg ctx host with
            | .error err => refused err
            | .ok certKey => order certKey : M α).Conforms (mayMint cfg host) h fun _ _ => True := by
  refine (gateIssuance_mints ctx hread).bind fun h₁ r _ hopen => ?_
  cases r with
  | error err => exact keyless_mints (hrefused err)
  | ok _ =>
      refine (loadOrCreateCertKey_mints ctx (hopen rfl)).bind fun h₂ r _ _ => ?_
      cases r with
      | error err => exact keyless_mints (hrefused err)
      | ok k => exact keyless_mints (horder k)

theorem obtain_mints (ctx : Time) :
    (Manager.obtain cfg ctx host).Conforms (mayMint cfg host) h fun _ _ => True := by
  simp only [Manager.obtain, Manager.obtainLocked, CertCache.get, onMem, Prog.conforms_bind,
    Prog.conforms_perform]
  refine ⟨trivial, fun _ => ⟨trivial, fun r => ?_⟩⟩
  cases r with
  | some cert => simp [mayMint]
  | none =>
      have hread : gateRead host
          (⟨.mem (.memGet host), none⟩ :: ⟨.mem (.lock host), ()⟩ :: h) = none := by
        rw [gateRead_cons rfl, gateRead_locked (by simp [locking])]
        rfl
      refine (gatedIssue_mints ctx hread (fun _ => Prog.Calls.pure _)
        fun k => issueWithKey_keyless cfg ctx host k false).mono fun _ _ _ => ?_
      simp [mayMint]

theorem passes_mints : Passes (mayMint cfg host) fun _ => True :=
  fun _ _ _ ho => ⟨(keyless_mints (.perform ho.idle.keyless)).1, fun _ => trivial⟩

theorem refresh_mints (ctx : Time) :
    (CertCache.refresh cfg ctx host).Keeps (mayMint cfg host) fun _ => True :=
  fun _ _ => keyless_mints (refresh_keyless cfg ctx host)

theorem renewIfNeededLocked_mints (ctx : Time) (hread : gateRead host h = none) :
    (Manager.renewIfNeededLocked cfg ctx host).Conforms (mayMint cfg host) h fun _ _ => True := by
  simp only [Manager.renewIfNeededLocked, CertCache.leafNotAfter, CertCache.get, onMem,
    Prog.conforms_bind, Prog.conforms_perform, Prog.conforms_pure]
  refine ⟨trivial, fun cert => ?_⟩
  have hread₁ : gateRead host (⟨.mem (.memGet host), cert⟩ :: h) = none := by
    rw [gateRead_cons rfl, hread]
    rfl
  have hfresh : (Manager.stillFresh cfg (cert.map fun c => c.leaf.notAfter)).Conforms
      (mayMint cfg host) (⟨.mem (.memGet host), cert⟩ :: h) fun h' _ => gateRead host h' = none := by
    cases cert with
    | none => exact hread₁
    | some cert =>
        refine ⟨trivial, fun t => ?_⟩
        exact (gateRead_cons (e := ⟨.env .now, t⟩) rfl).trans (by rw [hread₁]; rfl)
  refine hfresh.mono fun h₁ fresh hread₂ => ?_
  cases fresh with
  | true => trivial
  | false =>
      refine gatedIssue_mints ctx hread₂ (fun _ => Prog.Calls.pure _) fun k => ?_
      exact Prog.Calls.bind (issueWithKey_keyless cfg ctx host k false) fun _ => Prog.Calls.pure _

theorem renewIfNeeded_mints (ctx : Time) :
    (Manager.renewIfNeeded cfg ctx host).Conforms (mayMint cfg host) h fun _ _ => True := by
  refine (passes_mints.renewalBase (refresh_mints ctx) h trivial).bind fun h₁ r _ _ => ?_
  cases r with
  | error err => trivial
  | ok notAfter =>
      refine (passes_mints.quiet (stillFresh_quiet cfg notAfter) h₁ trivial).bind
        fun h₂ fresh _ _ => ?_
      cases fresh with
      | true => trivial
      | false =>
          simp only [Bool.false_eq_true, if_false, onMem, Prog.conforms_bind, Prog.conforms_perform]
          refine ⟨trivial, fun free => ?_⟩
          cases free with
          | false => trivial
          | true =>
              have hread : gateRead host (⟨.mem (.tryLock host), true⟩ :: h₂) = none :=
                gateRead_locked (by simp [locking])
              refine (renewIfNeededLocked_mints ctx hread).bind fun h₃ r _ _ => ?_
              exact ⟨trivial, fun _ => trivial⟩

end

/-! ## Every run -/

/-- An automatic issuance creates a key only past an open gate. -/
def mints (cfg : Settings) : Protocol Op Res Call Out where
  may q h o := ∀ host ∈ q.attempts, mayMint cfg host h o
  done _ _ _ := True

section

variable {N T : Type} [DecidableEq N] [DecidableEq T]

omit [DecidableEq T] in
theorem cluster_mints (cfg : Settings) (node : T → N) : (cluster cfg node).Follows (mints cfg) := by
  have hfree : ∀ q : Call, q.attempts = none →
      (body cfg q).Conforms ((mints cfg).may q) [] ((mints cfg).done q) := by
    intro q hq
    refine Prog.conforms_of_all (fun h o host hhost => ?_) fun _ _ => trivial
    rw [hq] at hhost
    cases hhost
  have hgated : ∀ (q : Call) (host : Name), q.attempts = some host →
      (body cfg q).Conforms (mayMint cfg host) [] (fun _ _ => True) →
      (body cfg q).Conforms ((mints cfg).may q) [] ((mints cfg).done q) := by
    intro q host hq hbody
    refine hbody.weaken fun h o ho host' hhost' => ?_
    obtain rfl : host = host' := Option.some.inj (hq.symm.trans hhost')
    exact ho
  intro q
  cases q with
  | obtain d =>
      refine hgated _ d rfl (Prog.conforms_map.2 (within_conforms trivial fun t => ?_))
      exact obtain_mints _
  | renewIfNeeded d =>
      refine hgated _ d rfl (Prog.conforms_map.2 (within_conforms trivial fun t => ?_))
      exact renewIfNeeded_mints _
  | requestIssue d onDemandHost =>
      refine hgated _ d rfl (Prog.conforms_map.2 ?_)
      exact passes_mints.requestIssue onDemandHost (fun ctx _ _ => obtain_mints ctx) [] trivial
  | runHost host isRenewal =>
      refine hgated _ host rfl (Prog.conforms_map.2 ?_)
      exact passes_mints.runHost isRenewal refresh_mints (fun ctx _ _ => renewIfNeeded_mints ctx) []
        trivial
  | _ => exact hfree _ rfl

omit [DecidableEq N] [DecidableEq T] in
/-- The thread that writes the host's live key. -/
def minting (host : Name) : ClusterLabel T → Option T
  | .did t ⟨.storage _ (.putKey (.live n) _ _), _⟩ => if n = host then some t else none
  | _ => none

/-- No automatic issuance that finds the key missing and usage-3 records published creates a key,
if `P` holds of what it has seen. -/
def MintsNone (host : Name) (P : History → Bool) (v : ClusterView N T) (l : ClusterLabel T)
    (_ : ClusterView N T) : Prop :=
  ∀ t ∈ minting host l, ∀ k ∈ v.task t, k.1.attempts = some host → P k.2 = true →
    ¬ KeyLost host k.2

instance (host : Name) (P : History → Bool) (v : ClusterView N T) (l : ClusterLabel T)
    (v' : ClusterView N T) : Decidable (MintsNone host P v l v') :=
  inferInstanceAs (Decidable (∀ t ∈ minting host l, ∀ k ∈ v.task t, _))

/-- With the gate's read answered, no key is created for an MX host under published records. -/
theorem no_key_minted (cfg : Settings) (node : T → N) (host : Name)
    (hguards : cfg.guards host = true) (w₀ : World N T) (as : List (Action T Call Answer)) :
    (cluster cfg node).Meets (MintsNone host fun h => !gateFailed host h) (.idle w₀) as := by
  have hruns := Machine.run_meets (A := fun _ _ _ => True) (I := fun _ => True)
    (cluster_mints cfg node) (fun _ _ _ _ _ _ => trivial) as (.idle w₀) (Machine.onTrack_idle w₀)
    trivial (Machine.meets_of_all fun _ _ _ => trivial)
  refine hruns.mono ?_
  rintro v l v' ⟨hmove, -⟩ t ht ⟨q, h⟩ hk hq hP hlost
  cases hmove with
  | start _ => cases ht
  | finish _ _ => cases ht
  | crash => cases ht
  | @did u q' h' o a r s hu hmay he =>
      cases o with
      | storage ctx o =>
          cases o with
          | putKey slot k createOnly =>
              cases slot with
              | live n =>
                  obtain ⟨rfl, rfl⟩ : n = host ∧ u = t := by
                    simpa [minting, Option.ite_none_right_eq_some] using ht
                  obtain ⟨rfl, rfl⟩ : q' = q ∧ h' = h := by
                    simpa using Option.some.inj (hu.symm.trans hk)
                  have hfailed := (hmay n hq).2 hguards hlost
                  simp [hfailed] at hP
              | _ => cases ht
          | _ => cases ht
      | _ => cases ht

end

/-! ## A lost key -/

/-- One MX host, with lookups. -/
def mxSettings : Settings :=
  { Settings.plain ["mx"] with dane := some ⟨["mx"], 3600, 48 * hour, true⟩ }

/-- A lookup that found a usage-3 record. -/
def published (host : Name) : Event → Bool
  | ⟨.env (.lookupTLSA _ n), .ok published⟩ => decide (n = host) && published.hasDANEEE
  | _ => false

/-- An attempt comes to its gate, which finds no key and a usage-3 record. -/
def gatedAttempt (t : Fin 2) : List (Action (Fin 2) Call Answer) :=
  (.start t (.obtain "mx") :: List.replicate 4 (.step t {}) : Schedule 2) ++
    ([.step t { lookup := ⟨[], true⟩ }] : Schedule 2)

theorem no_key_minted_refused :
    ((cluster mxSettings (id : Fin 2 → Fin 2)).run (.idle (.empty _ _))
        (gatedAttempt 0 ++ [.step 0 {}, .finish 0])).map
          (fun c => c.shared.storage.key (.live "mx")) = some none ∧
      (cluster mxSettings (id : Fin 2 → Fin 2)).Meets
        (MintsNone "mx" fun h => !gateFailed "mx" h) (.idle (.empty _ _))
        (gatedAttempt 0 ++ [.step 0 {}, .finish 0]) :=
  ⟨by decide +kernel, no_key_minted mxSettings id "mx" (by decide) _ _⟩

/-- The gate of one node cannot read the key object; another node's gate is answered by DNS
meanwhile; then storage answers the first node that there is no key. -/
def mintedPastGate : List (Action (Fin 2) Call Answer) :=
  (.start 0 (.obtain "mx") :: List.replicate 3 (.step 0 {}) : Schedule 2) ++
    ([.step 0 { outcome := .fail }] : Schedule 2) ++ gatedAttempt 1 ++
    (List.replicate 4 (.step 0 {}) : Schedule 2)

/-- A key is created although no read found one and DNS has a usage-3 record. -/
theorem minted_past_gate :
    ¬ (cluster mxSettings (id : Fin 2 → Fin 2)).Meets (MintsNone "mx" fun _ => true)
        (.idle (.empty _ _)) mintedPastGate ∧
      ((cluster mxSettings (id : Fin 2 → Fin 2)).run (.idle (.empty _ _)) mintedPastGate).map
          (fun c => (c.shared.storage.key (.live "mx"),
            (c.task 1).any fun k => k.hist.any (published "mx"))) =
        some (some (.key ⟨0⟩), true) := by
  constructor <;> decide +kernel

end CertsManager
