import CertsManager.Dane

/-!
# Issue — placing an order

`manager.go`.  Every order runs under the per-domain lock of its process and under the hostname's
issuance lease, and looks at storage once more before it calls the CA.
-/

namespace CertsManager
namespace Manager

open Interleave

def now : M Time :=
  onEnv .now

def acquireIssueLease (ctx : Time) (domain : Name) : M Bool :=
  onEnv (.acquireLease ctx domain)

def releaseIssueLease (domain : Name) : M Unit :=
  onEnv (.releaseLease domain)

/-- `time.Until(notAfter) > m.renewBefore`. -/
def outlivesRenewal (cfg : Settings) (now : Time) (notAfter : Nat) : Bool :=
  decide (now + cfg.renewBefore < notAfter * second)

/-- The part of `ensureIssuer` under `issuerMu`. -/
def ensureIssuerLocked (cfg : Settings) (ctx : Time) : M (Except Err Unit) := do
  let ready ← onMem .issuer
  if ready then
    return .ok ()
  else
    match ← KeyStore.loadOrCreateAccountKey cfg ctx with
    | .error err => return .error (.wrap "load ACME account key: " err "")
    | .ok _ =>
        onMem .setIssuer
        return .ok ()

def ensureIssuer (cfg : Settings) (ctx : Time) : M (Except Err Unit) := do
  onMem .issuerLock
  let r ← ensureIssuerLocked cfg ctx
  onMem .issuerUnlock
  return r

def defaultRateLimitBackoff : Time := hour

/-- A rate limit blocks the hostname for as long as the CA named, an hour if it named nothing. -/
def noteRateLimit (domain : Name) (f : IssueFault) : M Unit :=
  match f.rateLimit with
  | none => return ()
  | some wait => do
      let t ← now
      let wait := if wait = 0 then defaultRateLimitBackoff else wait
      onMem (.retriesBlock domain (t + wait))

/-- A whole number of seconds as `time.Duration` prints it. -/
def durationText (seconds : Nat) : String :=
  let h := seconds / 3600
  let m := seconds / 60 % 60
  let s := seconds % 60
  if h ≠ 0 then toString h ++ "h" ++ toString m ++ "m" ++ toString s ++ "s"
  else if m ≠ 0 then toString m ++ "m" ++ toString s ++ "s"
  else toString s ++ "s"

def budgetExhausted (cfg : Settings) (domain : Name) (wait : Time) : Err :=
  .new ("issuance retry budget exhausted for " ++ domain ++ " (max " ++ toString cfg.maxRetries ++
    " failed attempts per hour, protecting CA rate limits); next attempt allowed in " ++
    durationText ((wait + second / 2) / second))

def orderNotPersisted (domain : Name) (err : Err) : Err :=
  .wrap "" (.of .orderNotPersisted) (" for " ++ domain ++ ": " ++ err.text)

def notOrdering (domain : Name) (err : Err) : Err :=
  .wrap ("not ordering for " ++ domain ++ ": ") (.of .storageUnavailable) (": " ++ err.text)

/-- A certificate and an error, as Go returns them: after a failed store both are there. -/
abbrev Returned : Type := Option Certificate × Option Err

/-- The call of the CA and what becomes of its answer. -/
def placeOrder (cfg : Settings) (ctx : Time) (domain : Name) (certKey : Key) : M Returned := do
  match ← ensureIssuer cfg ctx with
  | .error err =>
      onMem (.retriesRecordFailure domain)
      return (none, some err)
  | .ok () =>
      match ← onEnv (.issue ctx domain certKey) with
      | .error f =>
          onMem (.retriesRecordFailure domain)
          noteRateLimit domain f
          return (none, some (.new f.reason))
      | .ok chainPEM =>
          match ← CertCache.store cfg ctx domain chainPEM certKey with
          | .unusable err =>
              onMem (.retriesRecordFailure domain)
              return (none, some err)
          | .unstored cert err =>
              onMem (.retriesRecordFailure domain)
              if !err.is .persistFailed then
                return (none, some err)
              else
                CertCache.hold domain cert chainPEM
                return (some cert, some (orderNotPersisted domain err))
          | .stored cert =>
              onMem (.retriesReset domain)
              return (some cert, none)

/-- What `issueWithKey` does while it holds the lease: storage decides whether to order. -/
def issueUnderLease (cfg : Settings) (ctx : Time) (domain : Name) (certKey : Key) (force : Bool) :
    M Returned := do
  match ← CertCache.refresh cfg ctx domain with
  | .ok stored =>
      if force then
        placeOrder cfg ctx domain certKey
      else
        match ← CertCache.leafNotAfter domain with
        | none => placeOrder cfg ctx domain certKey
        | some notAfter =>
            let t ← now
            if outlivesRenewal cfg t notAfter then
              return (some stored, none)
            else
              placeOrder cfg ctx domain certKey
  | .error rerr =>
      if force || CertCache.absentFromStorage rerr then
        placeOrder cfg ctx domain certKey
      else
        return (none, some (notOrdering domain rerr))

def issueWithKey (cfg : Settings) (ctx : Time) (domain : Name) (certKey : Key) (force : Bool) :
    M Returned := do
  match ← onMem (.retriesAllow domain) with
  | .error wait => return (none, some (budgetExhausted cfg domain wait))
  | .ok () =>
      let ok ← acquireIssueLease ctx domain
      if !ok then
        let busy : Err := .new ("issuance in progress on another node for " ++ domain)
        match ← CertCache.refresh cfg ctx domain with
        | .ok cert =>
            if !force then
              return (some cert, none)
            else
              return (none, some busy)
        | .error _ => return (none, some busy)
      else
        let r ← issueUnderLease cfg ctx domain certKey force
        releaseIssueLease domain
        return r

/-- The part of `obtain` under the domain's lock. -/
def obtainLocked (cfg : Settings) (ctx : Time) (domain : Name) : M Returned := do
  match ← CertCache.get domain with
  | some cert => return (some cert, none)
  | none =>
      match ← Dane.gateIssuance cfg ctx domain with
      | .error err => return (none, some err)
      | .ok () =>
          match ← KeyStore.loadOrCreateCertKey cfg ctx domain with
          | .error err => return (none, some err)
          | .ok certKey => issueWithKey cfg ctx domain certKey false

def obtain (cfg : Settings) (ctx : Time) (domain : Name) : M Returned := do
  onMem (.lock domain)
  let r ← obtainLocked cfg ctx domain
  onMem (.unlock domain)
  return r

/-- The goroutine `requestIssue` starts; a handshake for an on-demand hostname is guarded by the
pre-flight and the new-order budget. -/
def requestIssue (cfg : Settings) (domain : Name) (onDemandHost : Bool) : M Unit := do
  let t ← now
  let ctx := t + issueTimeout
  if onDemandHost && cfg.onDemand then
    let ok ← onEnv (.preflight ctx domain)
    if !ok then
      return ()
    else
      let taken ← onEnv .takeOrder
      if !taken then
        return ()
      else
        let _ ← obtain cfg ctx domain
        return ()
  else
    let _ ← obtain cfg ctx domain
    return ()

/-- How a handshake goes for a name memory holds nothing for: it is served from storage, refused, or
refused with an issuance kicked off (`requestIssue`, in a goroutine of its own). -/
inductive Miss where
  | serve (cert : Certificate)
  | unavailable (err : Err)
  | kick

/-- The leader's part of `getCertificate` up to the kick.  Storage is asked for an on-demand hostname
only; a configured domain was preloaded. -/
def leaderMiss (cfg : Settings) (domain : Name) (onDemandHost : Bool) : M Miss := do
  if onDemandHost then
    let t ← now
    match ← CertCache.refresh cfg (t + 5 * second) domain with
    | .ok cert => return .serve cert
    | .error err =>
        if !CertCache.absentFromStorage err then
          return .unavailable (.new ("tls: certificate unavailable: cannot tell whether a " ++
            "certificate exists for " ++ domain ++ ": " ++ err.text))
        else
          return .kick
  else
    return .kick

/-- The part of `RenewCertificate` under the domain's lock; the gate's answer is only logged. -/
def renewLocked (cfg : Settings) (ctx : Time) (domain : Name) : M (Except Err (List Name)) := do
  let _ ← Dane.gateIssuance cfg ctx domain
  match ← KeyStore.loadOrCreateCertKey cfg ctx domain with
  | .error err => return .error err
  | .ok certKey =>
      match ← issueWithKey cfg ctx domain certKey true with
      | (_, some err) => return .error (.wrap ("renew " ++ domain ++ ": ") err "")
      | (_, none) => return .ok [domain]

def notConfigured (domain : Name) : Err :=
  .new ("domain " ++ quoted domain ++ " is not in the configured domain list")

def renewCertificate (cfg : Settings) (domain : Name) : M (Except Err (List Name)) := do
  let leader ← isLeader
  if !leader then
    return .error (.new "certificate renewal must be performed on the cluster leader node")
  else if !cfg.domains.contains domain then
    return .error (notConfigured domain)
  else
    let t ← now
    onMem (.lock domain)
    let r ← renewLocked cfg (t + issueTimeout) domain
    onMem (.unlock domain)
    return r

end Manager
end CertsManager
