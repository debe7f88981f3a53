import CertsManager.System
import CertsManager.Names
import CertsManager.Interleave.Via

/-!
# Handshake — the certificate a TLS client gets

`GetCertificate` as `buildTLSConfig` sets it up (manager.go), down to the storage read of a follower
and the wait for an issuance in flight.  Everything else the manager does runs beside it, as in
`System`: the certificate cache, storage and the clock are those of the cluster.

What a handshake adds to the memory of a node is here: the misses a follower remembers (`neg`), the
lock it reads storage under (`refreshing`), the names an issuance has been kicked off for
(`issuing`) and the goroutines that wait to be scheduled.  The names are lower-cased when they enter,
and `strings.ToLower` is not applied again.

`SupportsCertificate` of crypto/tls, `net.ParseIP` and the challenge server are parameters or
answers of the environment.
-/

namespace CertsManager
namespace Handshake

open Interleave

def certMissNegativeTTL : Time := 3 * second

/-! ## Clients -/

abbrev CurveID : Type := Nat

def curveP256 : CurveID := 23
def curveP384 : CurveID := 24
def curveP521 : CurveID := 25

inductive Curve where
  | p256
  | p384
  | p521
  | other
  deriving DecidableEq, Repr

/-- The public half of a certificate's key, as far as a handshake tells keys apart; `unsigning` is a
private key that is no `crypto.Signer`. -/
inductive KeyKind where
  | ecdsa (curve : Curve)
  | notECDSA
  | unsigning
  deriving DecidableEq, Repr

/-- What the manager reads of a `tls.ClientHelloInfo`; the cipher suites, versions and signature
schemes of the client, which only `SupportsCertificate` reads, are its `offer`. -/
structure ClientHello (ω : Type) where
  serverName : String
  supportedProtos : List String
  supportedCurves : List CurveID
  offer : ω

def alpnProto : String := "acme-tls/1"

def isALPNChallenge {ω : Type} (hello : ClientHello ω) : Bool :=
  decide (hello.supportedProtos = [alpnProto])

/-- A manager as its listeners see it. -/
structure Listener (ω : Type) where
  cfg : Settings
  unicode : Unicode
  defaultDomain : String
  handshakeWait : Time
  isIPAddress : String → Bool
  supportsCertificate : ClientHello ω → Certificate → Except String Unit
  keyKind : Key → KeyKind

/-! ## Errors -/

inductive Reason where
  | missingServerName
  | hostNotAllowed
  | certificateUnavailable
  deriving DecidableEq, Repr

def Reason.text : Reason → String
  | .missingServerName => "tls: missing server name (SNI) and no default domain configured"
  | .hostNotAllowed => "tls: host not allowed"
  | .certificateUnavailable => "tls: certificate unavailable"

/-- The sentinel a refused client's error wraps, and its text. -/
structure Refusal where
  reason : Reason
  text : String
  deriving DecidableEq, Repr

/-- `fmt.Errorf` with the sentinel in front. -/
def Refusal.of (reason : Reason) (detail : String) : Refusal :=
  ⟨reason, reason.text ++ detail⟩

/-! ## Calls -/

inductive Op where
  | inner (o : CertsManager.Op)
  | setHosts (hosts : List Name)
  | getALPN (name : Name)
  | negDelete (name : Name)
  | recentMiss (name : Name)
  | noteMiss (name : Name)
  | refreshLock (name : Name)
  | refreshUnlock (name : Name)
  | issuingLoadOrStore (name : Name)
  | issuingDelete (name : Name)
  | spawn (name : Name) (onDemandHost : Bool)
  | spawned
  | pause (d : Time)
  | overrun

/-- `τ` is the type of challenge certificates. -/
@[reducible] def Res (τ : Type) : Op → Type
  | .inner o => CertsManager.Res o
  | .getALPN _ => Option τ
  | .recentMiss _ => Bool
  | .issuingLoadOrStore _ => Bool
  | .spawned => Name × Bool
  | .pause _ => Bool
  | _ => Unit

/-- What a client is served with. -/
inductive Served (τ : Type) where
  | certificate (cert : Certificate)
  | token (cert : τ)

section Programs

variable {τ ω : Type}

abbrev P (τ : Type) : Type → Type := Prog Op (Res τ)

def call (o : Op) : P τ (Res τ o) := Prog.perform o

/-- A call of the cluster, made by a node with listeners: what is installed is no miss any more
(`certCache.set`). -/
def onNode : (o : CertsManager.Op) → P τ (CertsManager.Res o)
  | .mem (.memSet name cert) => do
      call (.inner (.mem (.memSet name cert)))
      call (.negDelete name)
  | o => call (.inner o)

def inner {α : Type} (p : M α) : P τ α :=
  p.via onNode

/-! ## Names -/

def allowsName (L : Listener ω) (serverName : Name) : P τ Bool := do
  if L.cfg.domains.contains serverName then
    return true
  else if L.cfg.onDemand then
    let hosts ← inner (onMem .hosts)
    return hosts.contains serverName
  else
    return false

/-- The name a certificate is looked up for: the default domain's for a client that named none. -/
def resolve (L : Listener ω) (hello : ClientHello ω) : Option Name :=
  let serverName := L.unicode.lower hello.serverName
  if serverName = "" ∨ L.isIPAddress serverName = true then
    if L.defaultDomain = "" then none else some (L.unicode.lower L.defaultDomain)
  else
    some serverName

/-! ## The RSA companion -/

def errCertificateCurve : String := "client doesn't support certificate curve"

def certificateCurve (L : Listener ω) (cert : Certificate) : Option CurveID :=
  match L.keyKind cert.privateKey with
  | .unsigning => none
  | .notECDSA => none
  | .ecdsa .p256 => some curveP256
  | .ecdsa .p384 => some curveP384
  | .ecdsa .p521 => some curveP521
  | .ecdsa .other => none

def usableAtHandshake (L : Listener ω) (probe : ClientHello ω) (cert : Certificate) : Bool :=
  match L.supportsCertificate probe cert with
  | .ok () => true
  | .error err =>
      match certificateCurve L cert with
      | none => false
      | some curve =>
          if err ≠ errCertificateCurve then false
          else
            let probe := { probe with supportedCurves := probe.supportedCurves ++ [curve] }
            (L.supportsCertificate probe cert).isOk

def companionFor (L : Listener ω) (hello : ClientHello ω) (domain : Name) (primary : Certificate) :
    P τ (Option Certificate) := do
  let probe := { hello with serverName := "" }
  if usableAtHandshake L probe primary then
    return none
  else
    match ← inner (CertCache.get (Layout.companion domain)) with
    | none => return none
    | some companion =>
        if (L.supportsCertificate probe companion).isOk then
          return some companion
        else
          return none

/-! ## A name memory holds nothing for -/

/-- Up to the goroutine it starts, which is `Manager.requestIssue`. -/
def requestIssue (domain : Name) (onDemandHost : Bool) : P τ Unit := do
  let inFlight ← call (.issuingLoadOrStore domain)
  if inFlight then
    return ()
  else
    call (.spawn domain onDemandHost)

/-- The loop of `awaitCertificate`, at most `polls` times.  A loop that has not ended by then says
so. -/
def awaitFrom (L : Listener ω) (domain : Name) (leader : Bool) (deadline : Time) :
    (polls : Nat) → P τ (Option Certificate)
  | 0 => do
      call .overrun
      return none
  | polls + 1 => do
      let t ← inner Manager.now
      if deadline ≤ t then
        return none
      else
        let slept ← call (.pause (min second (deadline - t)))
        if !slept then
          return none
        else
          match ← inner (CertCache.get domain) with
          | some cert => return some cert
          | none =>
              if leader then
                awaitFrom L domain leader deadline polls
              else
                let t ← inner Manager.now
                match ← inner (CertCache.refresh L.cfg (t + 3 * second) domain) with
                | .ok cert => return some cert
                | .error _ => awaitFrom L domain leader deadline polls

def awaitCertificate (L : Listener ω) (domain : Name) (limit : Time) :
    P τ (Option Certificate) := do
  let t ← inner Manager.now
  let leader ← inner isLeader
  awaitFrom L domain leader (t + limit) (limit / second + 2)

/-- The certificate waited for, or `err` when there is none or no wait. -/
def awaitOr (L : Listener ω) (domain : Name) (wait : Time) (err : Err) :
    P τ (Except Err Certificate) := do
  if wait = 0 then
    return .error err
  else
    match ← awaitCertificate L domain wait with
    | some cert => return .ok cert
    | none => return .error err

/-- `fmt.Errorf` of `getCertificate`'s errors. -/
def unavailable (detail : String) : Err :=
  .new (Reason.certificateUnavailable.text ++ ": " ++ detail)

/-- The read of a follower: one at a time, and none soon after one that found nothing. -/
def refreshThrottled (L : Listener ω) (domain : Name) : P τ (Except Err Certificate) := do
  call (.refreshLock domain)
  let r ← match ← inner (CertCache.get domain) with
    | some cert => pure (.ok cert)
    | none => do
        let recent ← call (.recentMiss domain)
        if recent then
          pure (.error (unavailable (domain ++ " not yet issued by leader")))
        else
          let t ← inner Manager.now
          match ← inner (CertCache.refresh L.cfg (t + 5 * second) domain) with
          | .error err => do
              call (.noteMiss domain)
              pure (.error (unavailable (domain ++ " not yet available (follower): " ++ err.text)))
          | .ok cert => pure (.ok cert)
  call (.refreshUnlock domain)
  return r

def getCertificate (L : Listener ω) (domain : Name) (onDemandHost : Bool) :
    P τ (Except Err Certificate) := do
  match ← inner (CertCache.get domain) with
  | some cert => return .ok cert
  | none =>
      let wait := if onDemandHost && L.cfg.onDemand then L.handshakeWait else 0
      let leader ← inner isLeader
      if leader then
        match ← inner (Manager.leaderMiss L.cfg domain onDemandHost) with
        | .serve cert => return .ok cert
        | .unavailable err => return .error err
        | .kick =>
            requestIssue domain onDemandHost
            awaitOr L domain wait (unavailable ("issuance in progress for " ++ domain))
      else
        match ← refreshThrottled L domain with
        | .ok cert => return .ok cert
        | .error err => awaitOr L domain wait err

/-! ## A ClientHello -/

/-- A TLS-ALPN-01 challenge. -/
def answerChallenge (L : Listener ω) (serverName : Name) : P τ (Except Refusal (Served τ)) := do
  let allowed ← allowsName L serverName
  if !allowed then
    return .error (.of .hostNotAllowed (": " ++ serverName))
  else
    match ← call (.getALPN serverName) with
    | some cert => return .ok (.token cert)
    | none =>
        return .error (.of .certificateUnavailable
          (": no tls-alpn-01 challenge in progress for " ++ serverName))

/-- The certificate of a name, or of its companion for a client that cannot use it. -/
def serveName (L : Listener ω) (hello : ClientHello ω) (serverName : Name) :
    P τ (Except Refusal (Served τ)) := do
  let allowed ← allowsName L serverName
  if !allowed then
    return .error (.of .hostNotAllowed (": " ++ serverName))
  else
    let onDemandHost := !L.cfg.domains.contains serverName
    match ← getCertificate L serverName onDemandHost with
    | .error err =>
        return .error (.of .certificateUnavailable (" for " ++ serverName ++ ": " ++ err.text))
    | .ok cert =>
        if L.cfg.rsaCompanion && !onDemandHost then
          match ← companionFor L hello serverName cert with
          | some companion => return .ok (.certificate companion)
          | none => return .ok (.certificate cert)
        else
          return .ok (.certificate cert)

/-- `cfg.GetCertificate` of `buildTLSConfig`. -/
def tlsGetCertificate (L : Listener ω) (hello : ClientHello ω) : P τ (Except Refusal (Served τ)) :=
  if isALPNChallenge hello then
    answerChallenge L (L.unicode.lower hello.serverName)
  else
    match resolve L hello with
    | none => return .error (.of .missingServerName "")
    | some serverName => serveName L hello serverName

end Programs

/-! ## State -/

/-- What listeners add to the memory of a node. -/
structure NodeState (T : Type) where
  neg : Name → Option Time
  refreshing : Name → Option T
  issuing : Finset Name
  jobs : List (Name × Bool)

structure World (N T : Type) where
  cluster : CertsManager.World N T
  node : N → NodeState T

def NodeState.empty {T : Type} : NodeState T where
  neg _ := none
  refreshing _ := none
  issuing := ∅
  jobs := []

def World.empty (N T : Type) : World N T where
  cluster := .empty N T
  node _ := .empty

/-- `job` is the goroutine the scheduler picks, `stopped` a closed `stopCh`. -/
structure Answer (τ : Type) where
  cluster : CertsManager.Answer := {}
  token : Option τ := none
  job : Nat := 0
  stopped : Bool := false

section Exec

variable {τ N T : Type} [DecidableEq N]

def World.pass (w : World N T) (d : Time) : World N T :=
  { w with cluster := w.cluster.tick d }

def World.setNode (w : World N T) (i : N) (m : NodeState T) : World N T :=
  { w with node := Function.update w.node i m }

/-- What a call of its listeners does to a node's state, `now` being the time. -/
def execNode (t : T) (now : Time) (a : Answer τ) (m : NodeState T) :
    (o : Op) → Option (Res τ o × NodeState T)
  | .inner _ => none
  | .setHosts _ => none
  | .getALPN _ => some (a.token, m)
  | .negDelete name => some ((), { m with neg := Function.update m.neg name none })
  | .recentMiss name =>
      match m.neg name with
      | none => some (false, m)
      | some at_ => some (decide (now - at_ < certMissNegativeTTL), m)
  | .noteMiss name => some ((), { m with neg := Function.update m.neg name (some now) })
  | .refreshLock name =>
      if (m.refreshing name).isNone then
        some ((), { m with refreshing := Function.update m.refreshing name (some t) })
      else none
  | .refreshUnlock name =>
      some ((), { m with refreshing := Function.update m.refreshing name none })
  | .issuingLoadOrStore name =>
      if name ∈ m.issuing then some (true, m)
      else some (false, { m with issuing := insert name m.issuing })
  | .issuingDelete name => some ((), { m with issuing := m.issuing.erase name })
  | .spawn name onDemandHost => some ((), { m with jobs := m.jobs ++ [(name, onDemandHost)] })
  | .spawned =>
      match m.jobs[a.job]? with
      | some job => some (job, { m with jobs := m.jobs.eraseIdx a.job })
      | none => none
  | .pause _ => some (!a.stopped, m)
  | .overrun => some ((), m)

/-- How long a call takes besides what the environment adds: a pause that is not cut short. -/
def paused (a : Answer τ) : Op → Time
  | .pause d => if a.stopped then 0 else d
  | _ => 0

/-- The allow-set of a node (`onDemand.store`). -/
def setHosts (w : CertsManager.World N T) (i : N) (hosts : List Name) : CertsManager.World N T :=
  { w with node := Function.update w.node i { w.node i with hosts := hosts } }

def exec (maxRetries : Nat) (node : T → N) (w : World N T) (t : T) (o : Op) (a : Answer τ) :
    Option (Res τ o × World N T) :=
  match o with
  | .inner o =>
      (CertsManager.exec maxRetries node w.cluster t o a.cluster).map fun x =>
        (x.1, { w with cluster := x.2 })
  | .setHosts hosts =>
      some ((), { w with cluster := setHosts (w.cluster.tick a.cluster.wait) (node t) hosts })
  | o =>
      let w := w.pass (a.cluster.wait + paused a o)
      (execNode t w.cluster.clock a (w.node (node t)) o).map fun x => (x.1, w.setNode (node t) x.2)

end Exec

/-! ## Nodes with listeners -/

/-- A handshake, a goroutine a handshake has started, a new allow-set, or any other entry point. -/
inductive Call (ω : Type) where
  | hello (hello : ClientHello ω)
  | goroutine
  | refreshAllowSet (hosts : List Name)
  | other (q : CertsManager.Call)

inductive Out (τ : Type) where
  | served (r : Except Refusal (Served τ))
  | unit
  | other (out : CertsManager.Out)

def body {τ ω : Type} (L : Listener ω) : Call ω → P τ (Out τ)
  | .hello hello => Out.served <$> tlsGetCertificate L hello
  | .goroutine => do
      let (domain, onDemandHost) ← call .spawned
      inner (Manager.requestIssue L.cfg domain onDemandHost)
      call (.issuingDelete domain)
      return .unit
  | .refreshAllowSet hosts => do
      call (.setHosts hosts)
      return .unit
  | .other q => Out.other <$> inner (CertsManager.body L.cfg q)

section

variable {τ ω N T : Type} [DecidableEq N]

def listeners (L : Listener ω) (node : T → N) :
    Machine Op (Res τ) (World N T) T (Call ω) (Out τ) (Answer τ) where
  exec := exec L.cfg.maxRetries node
  body := body L

end

abbrev Event (τ : Type) : Type := Ev Op (Res τ)
abbrev History (τ : Type) : Type := Hist Op (Res τ)
abbrev ListenersView (τ ω N T : Type) : Type := View Op (Res τ) (World N T) T (Call ω)
abbrev ListenersLabel (τ ω T : Type) : Type := Label Op (Res τ) T (Call ω) (Out τ)

/-! Runs that are written out are of one manager. -/

/-- One node, with "a" configured and nothing else to decide. -/
def plainListener : Listener Unit where
  cfg := Settings.plain ["a"]
  unicode := Unicode.ascii
  defaultDomain := ""
  handshakeWait := 0
  isIPAddress _ := false
  supportsCertificate _ _ := .ok ()
  keyKind _ := .ecdsa .p256

abbrev Schedule (n : Nat) : Type := List (Action (Fin n) (Call Unit) (Answer Unit))

end Handshake
end CertsManager
