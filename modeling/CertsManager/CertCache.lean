import CertsManager.KeyStore

/-!
# CertCache — served certificates, stored chains and held ones

`cert_cache.go`.  A chain the CA issued is written to storage and served from memory; one that
storage would not take is held (`pending`) and served meanwhile.
-/

namespace CertsManager
namespace CertCache

open Interleave

def persistAttempts : Nat := 3
def persistBackoff : Time := second

/-! ## Memory -/

def get (domain : Name) : M (Option Certificate) :=
  onMem (.memGet domain)

def set (domain : Name) (cert : Certificate) : M Unit :=
  onMem (.memSet domain cert)

def leafNotAfter (domain : Name) : M (Option Nat) := do
  let cert ← get domain
  return cert.map fun c => c.leaf.notAfter

/-- `keepsLocalCopy`: the configured domains and their companions. -/
def keepsLocalCopy (cfg : Settings) (name : Name) : Bool :=
  if Layout.isCompanion name then
    cfg.rsaCompanion && cfg.domains.contains (Layout.certDomain name)
  else
    cfg.domains.contains name

/-- Storage holds `cert` for `domain`: the local copy takes it. -/
def confirmed (cfg : Settings) (domain : Name) (cert : Certificate) : M Unit := do
  onMem (.fromLocalDelete domain)
  if cfg.localDir && keepsLocalCopy cfg domain then
    let _ ← onMem (.localSave domain cert)
    return ()
  else
    return ()

def hold (domain : Name) (cert : Certificate) (chainPEM : ChainPEM) : M Unit := do
  set domain cert
  onMem (.pendingSet domain ⟨chainPEM, cert.leaf.notAfter⟩)

def dropPending (domain : Name) : M Unit :=
  onMem (.pendingDelete domain)

def isPending (domain : Name) : M Bool := do
  let p ← onMem (.pendingGet domain)
  return p.isSome

def pendingSnapshot : M (List (Name × PendingPersist)) :=
  onMem .pendingSnapshot

/-- A held chain bound to `key`, if there is one. -/
def heldChainFor (domain : Name) (key : Key) : M (Option (ChainPEM × Certificate)) := do
  match ← onMem (.pendingGet domain) with
  | none => return none
  | some p =>
      match buildCertificate p.chainPEM key with
      | .error _ => return none
      | .ok cert => return some (p.chainPEM, cert)

/-! ## Storage -/

def loadChain (ctx : Time) (domain : Name) : M (Except Err ChainPEM) := do
  match ← onStorage ctx (.getChain domain) with
  | .error f => return .error (readFailure f)
  | .ok chainPEM => return .ok chainPEM

/-- The error of a chain that built and could not be written. -/
def persistError (domain : Name) (reason : String) : Err :=
  .wrap ("persist chain for " ++ domain ++ ": ") (.of .persistFailed) (": " ++ reason)

/-- Attempt number `attempt`, with `left` more after it. -/
def persistFrom (ctx : Time) (domain : Name) (chainPEM : ChainPEM) :
    (left attempt : Nat) → M (Except Err Unit)
  | 0, _ => do
      match ← onStorage ctx (.putChain domain chainPEM) with
      | .ok () => return .ok ()
      | .error f => return .error (persistError domain f.err.text)
  | left + 1, attempt => do
      match ← onStorage ctx (.putChain domain chainPEM) with
      | .ok () => return .ok ()
      | .error _ =>
          let slept ← onEnv (.sleep ctx (attempt * persistBackoff))
          if slept then
            persistFrom ctx domain chainPEM left (attempt + 1)
          else
            return .error (persistError domain "context deadline exceeded")

def persist (ctx : Time) (domain : Name) (chainPEM : ChainPEM) (attempts : Nat) :
    M (Except Err Unit) :=
  persistFrom ctx domain chainPEM (attempts - 1) 1

/-- What `Store` returns: nothing, the certificate alone, or the certificate with the error that
kept its chain out of storage. -/
inductive StoreResult where
  | unusable (err : Err)
  | unstored (cert : Certificate) (err : Err)
  | stored (cert : Certificate)

def store (cfg : Settings) (ctx : Time) (domain : Name) (chainPEM : ChainPEM) (key : Key) :
    M StoreResult := do
  match buildCertificate chainPEM key with
  | .error err => return .unusable err
  | .ok cert =>
      match ← persist ctx domain chainPEM persistAttempts with
      | .error err => return .unstored cert err
      | .ok () =>
          set domain cert
          dropPending domain
          confirmed cfg domain cert
          return .stored cert

/-- The expiry of the stored leaf.  An object that does not parse is an error of its own. -/
def storedNotAfter (ctx : Time) (domain : Name) : M (Except Err Nat) := do
  match ← loadChain ctx domain with
  | .error err => return .error err
  | .ok chainPEM =>
      match leafNotAfterPEM chainPEM with
      | .error err =>
          return .error (.wrap "" (.of .storedChainUnparseable)
            (" for " ++ domain ++ ": " ++ err.text))
      | .ok notAfter => return .ok notAfter

def storedLeafSPKI (ctx : Time) (domain : Name) : M (Except Err Digest) := do
  match ← loadChain ctx domain with
  | .error err => return .error err
  | .ok (.chain leaf) => return .ok leaf.pub.spkiSHA256
  | .ok .garbage => return .error (.new "no CERTIFICATE block in stored chain")

/-- The chain, then the key; what is served changes only if they match. -/
def refresh (cfg : Settings) (ctx : Time) (domain : Name) : M (Except Err Certificate) := do
  match ← loadChain ctx domain with
  | .error err => return .error err
  | .ok chainPEM =>
      match ← KeyStore.loadCertKey cfg ctx domain with
      | .error err => return .error (.wrap ("load key for " ++ domain ++ ": ") err "")
      | .ok key =>
          match buildCertificate chainPEM key with
          | .error err => return .error err
          | .ok cert =>
              set domain cert
              confirmed cfg domain cert
              return .ok cert

/-- The only answer that justifies an order. -/
def absentFromStorage (err : Err) : Bool :=
  err.is .notExist

end CertCache
end CertsManager
