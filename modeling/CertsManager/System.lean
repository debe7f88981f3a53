import CertsManager.OnDemand

/-!
# System — every entry point, run by any number of threads on any number of nodes

A request is one call of an entry point; its context is made when it starts.  Threads of one node
share its memory, threads of all nodes share storage.
-/

namespace CertsManager

open Interleave

inductive Call where
  | loadCertKey (domain : Name)
  | loadOrCreateCertKey (domain : Name)
  | refresh (domain : Name)
  | obtain (domain : Name)
  | requestIssue (domain : Name) (onDemandHost : Bool)
  | renewIfNeeded (domain : Name)
  | renewCertificate (domain : Name)
  | flushHeldChains
  | restoreMissingChains
  | reconcileCeremony (domain : Name)
  | replaceCertificateKey (domain : Name)
  | activateCertificateKey (domain : Name) (force : Bool)
  | cleanupExpiredRetiring
  | desiredRecords
  | maintainFollower
  | planLeader
  | runHost (host : Name) (isRenewal : Bool)
  deriving DecidableEq, Repr

/-- What a request returns. -/
inductive Out where
  | unit
  | key (r : Except Err Key)
  | cert (r : Except Err Certificate)
  | returned (r : Manager.Returned)
  | err (r : Option Err)
  | names (r : List Name)
  | renewed (r : Except Err (List Name))
  | records (r : Except Err (List TLSARecord))
  | plan (p : OnDemand.Plan)

/-- Under a context of `timeout`. -/
def within {α : Type} (timeout : Time) (f : Time → M α) : M α := do
  let t ← Manager.now
  f (t + timeout)

def body (cfg : Settings) : Call → M Out
  | .loadCertKey d => Out.key <$> within issueTimeout (KeyStore.loadCertKey cfg · d)
  | .loadOrCreateCertKey d => Out.key <$> within issueTimeout (KeyStore.loadOrCreateCertKey cfg · d)
  | .refresh d => Out.cert <$> within issueTimeout (CertCache.refresh cfg · d)
  | .obtain d => Out.returned <$> within issueTimeout (Manager.obtain cfg · d)
  | .requestIssue d onDemandHost => (fun _ => .unit) <$> Manager.requestIssue cfg d onDemandHost
  | .renewIfNeeded d => Out.err <$> within issueTimeout (Manager.renewIfNeeded cfg · d)
  | .renewCertificate d => Out.renewed <$> Manager.renewCertificate cfg d
  | .flushHeldChains => Out.names <$> within flushTimeout (Manager.flushHeldChains cfg)
  | .restoreMissingChains => Out.names <$> within flushTimeout (Manager.restoreMissingChains cfg)
  | .reconcileCeremony d =>
      (fun _ => .unit) <$> within issueTimeout (Manager.reconcileCeremony cfg · d)
  | .replaceCertificateKey d => Out.records <$> Manager.replaceCertificateKey cfg d
  | .activateCertificateKey d force => Out.err <$> Manager.activateCertificateKey cfg d force
  | .cleanupExpiredRetiring =>
      match cfg.dane with
      | none => pure .unit
      | some d => (fun _ => .unit) <$> within issueTimeout (Dane.cleanupExpiredRetiring d)
  | .desiredRecords =>
      match cfg.dane with
      | none => pure (.records (.ok []))
      | some d => Out.records <$> within issueTimeout (Dane.desiredRecords cfg d)
  | .maintainFollower => (fun _ => .unit) <$> OnDemand.maintainFollower cfg
  | .planLeader => Out.plan <$> OnDemand.planLeader cfg
  | .runHost host isRenewal => (fun _ => .unit) <$> OnDemand.runHost cfg host isRenewal

section

variable {N T : Type} [DecidableEq N]

/-- A cluster: the threads `T`, each on the node `node` gives it. -/
def cluster (cfg : Settings) (node : T → N) :
    Machine Op Res (World N T) T Call Out Answer where
  exec := exec cfg.maxRetries node
  body := body cfg

end

/-! ## What an observer sees of a move -/

/-- What happens, in order, when `n` threads run. -/
abbrev Schedule (n : Nat) : Type := List (Action (Fin n) Call Answer)

abbrev ClusterView (N T : Type) : Type := View Op Res (World N T) T Call
abbrev ClusterLabel (T : Type) : Type := Label Op Res T Call Out

section

variable {N T : Type}

/-- What a started request was asked. -/
def started : ClusterLabel T → Option Call
  | .start _ q => some q
  | _ => none

/-- The thread that starts a request, and what it was asked. -/
def startedBy : ClusterLabel T → Option (T × Call)
  | .start t q => some (t, q)
  | _ => none

def crashed : ClusterLabel T → Option T
  | .crash t => some t
  | _ => none

/-- The thread and the name of an order this move placed. -/
def ordered : ClusterLabel T → Option (T × Name)
  | .did t ⟨.env (.issue _ n _), _⟩ => some (t, n)
  | _ => none

/-- The thread, the name and the chain of a write this move made or tried. -/
def chainPut : ClusterLabel T → Option (T × Name × ChainPEM)
  | .did t ⟨.storage _ (.putChain n c), _⟩ => some (t, n, c)
  | _ => none

/-- The thread and the name of a budget this move reset. -/
def budgetReset : ClusterLabel T → Option (T × Name)
  | .did t ⟨.mem (.retriesReset n), _⟩ => some (t, n)
  | _ => none

/-- A request starts only when no other is in progress. -/
def Sequential (v : ClusterView N T) (l : ClusterLabel T) (_ : ClusterView N T) : Prop :=
  ∀ _q ∈ started l, ∀ u, (v.task u).isNone

instance [Fintype T] (v : ClusterView N T) (l : ClusterLabel T) (v' : ClusterView N T) :
    Decidable (Sequential v l v') :=
  inferInstanceAs (Decidable (∀ _q ∈ started l, ∀ u, (v.task u).isNone))

/-- A later order gets a later expiry. -/
def LaterOrders (_ : ClusterView N T) (l : ClusterLabel T) (v' : ClusterView N T) : Prop :=
  ∀ g ∈ ordered l, (v'.shared.issued g.2).Pairwise fun later earlier =>
    earlier.notAfter < later.notAfter

instance (v : ClusterView N T) (l : ClusterLabel T) (v' : ClusterView N T) :
    Decidable (LaterOrders v l v') :=
  inferInstanceAs (Decidable (∀ g ∈ ordered l, _))

end

end CertsManager
