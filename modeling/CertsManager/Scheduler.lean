import CertsManager.Issue

/-!
# Scheduler — maintenance and the key-replacement ceremony

`scheduler.go`.  Held chains are flushed and lost ones restored under the domain's lock and lease;
renewal reuses the live key; the ceremony stages a key, issues for it and promotes it, and
reconciliation finishes a ceremony that was cut off after its chain was stored.
-/

namespace CertsManager
namespace Manager

open Interleave

/-! ## Held and lost chains -/

/-- The write of `flushOne`: one attempt, then the chain is no longer held. -/
def writeHeld (cfg : Settings) (ctx : Time) (domain : Name) (p : PendingPersist) : M Bool := do
  match ← CertCache.persist ctx domain p.chainPEM 1 with
  | .error _ => return false
  | .ok () =>
      CertCache.dropPending domain
      match ← CertCache.get domain with
      | some cert =>
          CertCache.confirmed cfg domain cert
          return true
      | none => return true

/-- What `flushOne` does while it holds the lease: it writes only over what it has read. -/
def flushLeased (cfg : Settings) (ctx : Time) (domain : Name) (p : PendingPersist) : M Bool := do
  match ← CertCache.storedNotAfter ctx domain with
  | .ok notAfter =>
      if p.notAfter ≤ notAfter then
        match ← CertCache.refresh cfg ctx domain with
        | .error _ => return false
        | .ok _ =>
            CertCache.dropPending domain
            return false
      else
        writeHeld cfg ctx domain p
  | .error err =>
      if err.is .notExist || err.is .storedChainUnparseable then
        writeHeld cfg ctx domain p
      else
        return false

def flushLocked (cfg : Settings) (ctx : Time) (domain : Name) (p : PendingPersist) : M Bool := do
  let ok ← acquireIssueLease ctx domain
  if !ok then
    return false
  else
    let stored ← flushLeased cfg ctx domain p
    releaseIssueLease domain
    return stored

def flushOne (cfg : Settings) (ctx : Time) (domain : Name) (p : PendingPersist) : M Bool := do
  let free ← onMem (.tryLock domain)
  if !free then
    return false
  else
    let stored ← flushLocked cfg ctx domain p
    onMem (.unlock domain)
    return stored

/-- The loop of `flushHeldChains` over what is left of its snapshot. -/
def flushEntries (cfg : Settings) (ctx : Time) : List (Name × PendingPersist) → M (List Name)
  | [] => return []
  | (domain, p) :: held => do
      let done ← onEnv (.ctxErr ctx)
      if done then
        return []
      else
        let stored ← flushOne cfg ctx domain p
        if stored then
          onMem (.retriesReset domain)
          let rest ← flushEntries cfg ctx held
          return domain :: rest
        else
          flushEntries cfg ctx held

def flushHeldChains (cfg : Settings) (ctx : Time) : M (List Name) := do
  let held ← CertCache.pendingSnapshot
  flushEntries cfg ctx held

/-- The chain of a served certificate goes back if it is unexpired and the stored key's. -/
def restoreServed (cfg : Settings) (ctx : Time) (domain : Name) : M Bool := do
  match ← CertCache.get domain with
  | none => return false
  | some cert =>
      let t ← now
      if cert.leaf.notAfter * second ≤ t then
        return false
      else
        match ← KeyStore.loadCertKey cfg ctx domain with
        | .error _ => return false
        | .ok key =>
            let chainPEM := encodeChainPEM cert
            match buildCertificate chainPEM key with
            | .error _ => return false
            | .ok _ => flushOne cfg ctx domain ⟨chainPEM, cert.leaf.notAfter⟩

/-- One name of `restoreMissingChains`; a held chain is the flush's to write. -/
def restoreOne (cfg : Settings) (ctx : Time) (inStorage : Name → Bool) (domain : Name) :
    M Bool := do
  if inStorage domain then
    return false
  else
    let held ← CertCache.isPending domain
    if held then
      return false
    else
      restoreServed cfg ctx domain

def restoreNames (cfg : Settings) (ctx : Time) (inStorage : Name → Bool) :
    List Name → M (List Name)
  | [] => return []
  | domain :: names => do
      let done ← onEnv (.ctxErr ctx)
      if done then
        return []
      else
        let restored ← restoreOne cfg ctx inStorage domain
        let rest ← restoreNames cfg ctx inStorage names
        return if restored then domain :: rest else rest

def servedNames (cfg : Settings) : M (List Name) := do
  let names := cfg.domains.dedup.insertionSort (· ≤ ·)
  if cfg.onDemand then
    let hosts ← onMem .hosts
    return names ++ hosts.filter fun h => !cfg.domains.contains h
  else
    return names

def companionNames (cfg : Settings) : List Name :=
  if cfg.rsaCompanion then cfg.domains.map Layout.companion else []

def restoreMissingChains (cfg : Settings) (ctx : Time) : M (List Name) := do
  match ← onStorage ctx .listChains with
  | .error _ => return []
  | .ok inStorage =>
      let served ← servedNames cfg
      restoreNames cfg ctx inStorage (served ++ companionNames cfg)

/-! ## Renewal -/

/-- Storage's answer for a name memory holds nothing for: an expiry, none, or a reason not to
order. -/
def renewalBase (cfg : Settings) (ctx : Time) (domain : Name) : M (Except Err (Option Nat)) := do
  match ← CertCache.leafNotAfter domain with
  | some notAfter => return .ok (some notAfter)
  | none =>
      match ← CertCache.refresh cfg ctx domain with
      | .ok _ =>
          let notAfter ← CertCache.leafNotAfter domain
          return .ok notAfter
      | .error err =>
          if CertCache.absentFromStorage err then
            return .ok none
          else if err.is .keyCertMismatch then
            return .error (.wrap ("not ordering for " ++ domain ++ ": the stored chain is bound to " ++
              "another key (a key replacement is being completed): ") err "")
          else
            return .error (notOrdering domain err)

/-- `have && time.Until(notAfter) > m.renewBefore`. -/
def stillFresh (cfg : Settings) (notAfter : Option Nat) : M Bool :=
  match notAfter with
  | none => return false
  | some notAfter => do
      let t ← now
      return outlivesRenewal cfg t notAfter

/-- The part of `renewIfNeeded` under the domain's lock. -/
def renewIfNeededLocked (cfg : Settings) (ctx : Time) (domain : Name) : M (Option Err) := do
  let notAfter ← CertCache.leafNotAfter domain
  let fresh ← stillFresh cfg notAfter
  if fresh then
    return none
  else
    match ← Dane.gateIssuance cfg ctx domain with
    | .error err => return some err
    | .ok () =>
        match ← KeyStore.loadOrCreateCertKey cfg ctx domain with
        | .error err => return some err
        | .ok certKey =>
            let r ← issueWithKey cfg ctx domain certKey false
            return r.2

def renewIfNeeded (cfg : Settings) (ctx : Time) (domain : Name) : M (Option Err) := do
  match ← renewalBase cfg ctx domain with
  | .error err => return some err
  | .ok notAfter =>
      let fresh ← stillFresh cfg notAfter
      if fresh then
        return none
      else
        let free ← onMem (.tryLock domain)
        if !free then
          return none
        else
          let r ← renewIfNeededLocked cfg ctx domain
          onMem (.unlock domain)
          return r

/-! ## The ceremony -/

/-- Records the outgoing digest of an MX host; nothing to do for another. -/
def markOutgoing (cfg : Settings) (ctx : Time) (domain : Name) : M (Except Err Unit) :=
  match cfg.dane with
  | some d => if d.mxHosts.contains domain then Dane.markRetiring cfg d.soak ctx domain
      else return .ok ()
  | none => return .ok ()

def reconcileCeremony (cfg : Settings) (ctx : Time) (domain : Name) : M Unit := do
  match ← KeyStore.loadNextCertKey cfg ctx domain with
  | .error _ => return ()
  | .ok nextKey =>
      match ← CertCache.storedLeafSPKI ctx domain with
      | .error _ => return ()
      | .ok leafSPKI =>
          match ← KeyStore.loadCertKey cfg ctx domain with
          | .error _ => return ()
          | .ok liveKey =>
              let nextSPKI := nextKey.public.spkiSHA256
              let liveSPKI := liveKey.public.spkiSHA256
              if leafSPKI = nextSPKI ∧ liveSPKI ≠ nextSPKI then
                match ← markOutgoing cfg ctx domain with
                | .error _ => return ()
                | .ok () =>
                    match ← KeyStore.promoteNextCertKey cfg ctx domain with
                    | .error _ => return ()
                    | .ok () =>
                        let _ ← CertCache.refresh cfg ctx domain
                        return ()
              else
                return ()

def replaceCertificateKey (cfg : Settings) (domain : Name) : M (Except Err (List TLSARecord)) := do
  let leader ← isLeader
  if !leader then
    return .error (.new "key replacement must be performed on the cluster leader node")
  else if !cfg.domains.contains domain then
    return .error (notConfigured domain)
  else
    let t ← now
    let ctx := t + 30 * second
    match ← KeyStore.generateNextCertKey cfg ctx domain with
    | .error err => return .error (.wrap ("stage next key for " ++ domain ++ ": ") err "")
    | .ok _ =>
        match cfg.dane with
        | some d => Dane.recordsForHost cfg d ctx domain
        | none =>
            match ← KeyStore.loadNextCertKey cfg ctx domain with
            | .error err => return .error err
            | .ok next => return .ok [⟨domain, next.public.spkiSHA256, 3600, .plain⟩]

/-- The activation gate: an MX host's staged digest must be visible in DNS, unless forced. -/
def activationGate (cfg : Settings) (ctx : Time) (domain : Name) (nextKey : Key) (force : Bool) :
    M (Except Err Unit) :=
  match cfg.dane with
  | none => return .ok ()
  | some d =>
      if !d.mxHosts.contains domain || !d.lookup then
        return .ok ()
      else do
        let published ← onEnv (.lookupTLSA ctx domain)
        if force then
          return .ok ()
        else
          match published with
          | .error reason =>
              return .error (.new ("cannot verify the staged key's TLSA record is published for " ++
                domain ++ " (lookup failed: " ++ reason ++ ") — retry, or force activation"))
          | .ok published =>
              if !published.containsSPKIDigest nextKey.public.spkiSHA256 then
                return .error (.new ("staged key's TLSA record is not visible in DNS for " ++ domain ++
                  " — publish it, wait for TTL propagation, then retry (or force activation)"))
              else
                return .ok ()

/-- A new order for the staged key. -/
def orderForActivation (cfg : Settings) (ctx : Time) (domain : Name) (nextKey : Key) :
    M (Except Err ChainPEM) := do
  match ← ensureIssuer cfg ctx with
  | .error err => return .error err
  | .ok () =>
      match ← onEnv (.issue ctx domain nextKey) with
      | .error f =>
          return .error (.wrap ("issue cert with next key for " ++ domain ++ ": ")
            (.new f.reason) "")
      | .ok chainPEM => return .ok chainPEM

/-- The chain to activate: one held from an earlier attempt, or a new order. -/
def chainForActivation (cfg : Settings) (ctx : Time) (domain : Name) (nextKey : Key) :
    M (Except Err ChainPEM) := do
  match ← CertCache.heldChainFor domain nextKey with
  | some (chainPEM, _) => return .ok chainPEM
  | none => orderForActivation cfg ctx domain nextKey

/-- From the stored chain to the promoted key. -/
def promoteStored (cfg : Settings) (ctx : Time) (domain : Name) : M (Option Err) := do
  match ← markOutgoing cfg ctx domain with
  | .error err =>
      return some (.wrap ("record retiring DANE digest for " ++ domain ++
        " (the replacement key stays staged): ") err "")
  | .ok () =>
      let leader ← isLeader
      if !leader then
        return some (.new ("lost leadership before promoting next key for " ++ domain ++
          "; will be completed by the leader"))
      else
        match ← KeyStore.promoteNextCertKey cfg ctx domain with
        | .error err => return some (.wrap ("promote next key for " ++ domain ++ ": ") err "")
        | .ok () => return none

/-- What `ActivateCertificateKey` does while it holds the lease. -/
def activateLeased (cfg : Settings) (ctx : Time) (domain : Name) (force : Bool) :
    M (Option Err) := do
  match ← KeyStore.loadNextCertKey cfg ctx domain with
  | .error err =>
      return some (.wrap ("no staged replacement key for " ++ domain ++
        " (run ReplaceCertificateKey first): ") err "")
  | .ok nextKey =>
      match ← activationGate cfg ctx domain nextKey force with
      | .error err => return some err
      | .ok () =>
          match ← chainForActivation cfg ctx domain nextKey with
          | .error err => return some err
          | .ok chainPEM =>
              match ← CertCache.store cfg ctx domain chainPEM nextKey with
              | .unusable err => return some (.wrap ("store cert for " ++ domain ++ ": ") err "")
              | .unstored cert err =>
                  if !err.is .persistFailed then
                    return some (.wrap ("store cert for " ++ domain ++ ": ") err "")
                  else
                    CertCache.hold domain cert chainPEM
                    return some (.wrap "" (.of .orderNotPersisted) (" for " ++ domain ++
                      ": the replacement key stays staged and the ceremony completes once " ++
                      "storage accepts the chain: " ++ err.text))
              | .stored _ => promoteStored cfg ctx domain

def activateLocked (cfg : Settings) (ctx : Time) (domain : Name) (force : Bool) :
    M (Option Err) := do
  let ok ← acquireIssueLease ctx domain
  if !ok then
    return some (.new ("cannot activate " ++ domain ++
      ": issuance lease held by another node — retry shortly"))
  else
    let r ← activateLeased cfg ctx domain force
    releaseIssueLease domain
    return r

def activateCertificateKey (cfg : Settings) (domain : Name) (force : Bool) : M (Option Err) := do
  let leader ← isLeader
  if !leader then
    return some (.new "key activation must be performed on the cluster leader node")
  else if !cfg.domains.contains domain then
    return some (notConfigured domain)
  else
    let t ← now
    onMem (.lock domain)
    let r ← activateLocked cfg (t + issueTimeout) domain force
    onMem (.unlock domain)
    return r

end Manager
end CertsManager
