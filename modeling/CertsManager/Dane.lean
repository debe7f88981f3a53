import CertsManager.CertCache

/-!
# Dane — the TLSA records of MX hosts and the soak of retiring digests

`dane_controller.go`.  The digests of the live and the staged key, and of keys replaced recently:
before a promotion the outgoing digest is recorded with the time until which it stays published.
-/

namespace CertsManager
namespace Dane

open Interleave

/-- The markers of a host, expired ones included; an object that does not parse says nothing. -/
def retiring (ctx : Time) (host : Name) : M (Except Err (List RetiringRecord)) := do
  match ← onStorage ctx (.getRetiring host) with
  | .error .notExist => return .ok []
  | .error (.failed _ reason) =>
      return .error (.new ("dane: read retiring markers for " ++ host ++ ": " ++ reason))
  | .ok .garbage => return .ok []
  | .ok (.records rs) => return .ok rs

def writeRetiring (ctx : Time) (host : Name) (records : List RetiringRecord) :
    M (Except PutFault Unit) :=
  if records.isEmpty then onStorage ctx (.removeRetiring host)
  else onStorage ctx (.putRetiring host records)

/-- The markers that are still to be published at `now`. -/
def unexpired (now : Time) (records : List RetiringRecord) : List RetiringRecord :=
  records.filter fun r => !r.expired now

/-- The part of `markRetiring` under `retiringMu`. -/
def addRetiring (soak : Time) (ctx : Time) (host : Name) (digest : Digest) : M (Except Err Unit) := do
  match ← retiring ctx host with
  | .error err => return .error err
  | .ok existing =>
      let now ← onEnv .now
      let kept := unexpired now existing
      if kept.any fun r => decide (r.digest = digest) then
        return .ok ()
      else
        match ← writeRetiring ctx host (kept ++ [⟨digest, unix (now + soak)⟩]) with
        | .error f => return .error f.err
        | .ok () => return .ok ()

/-- Records the live key's digest, unless it is recorded already: then its deadline stands. -/
def markRetiring (cfg : Settings) (soak : Time) (ctx : Time) (host : Name) : M (Except Err Unit) := do
  match ← KeyStore.loadCertKey cfg ctx host with
  | .error err => return .error (.wrap "load live key for retiring marker: " err "")
  | .ok liveKey =>
      onMem .retiringLock
      let r ← addRetiring soak ctx host liveKey.public.spkiSHA256
      onMem .retiringUnlock
      return r

/-- One host of `cleanupExpiredRetiring`, judged at the time the pass began. -/
def cleanupHost (ctx : Time) (now : Time) (host : Name) : M Unit := do
  match ← retiring ctx host with
  | .error _ => return ()
  | .ok records =>
      let kept := unexpired now records
      if kept.length = records.length then
        return ()
      else
        let _ ← writeRetiring ctx host kept
        return ()

def cleanupHosts (ctx : Time) (now : Time) : List Name → M Unit
  | [] => return ()
  | host :: hosts => do
      cleanupHost ctx now host
      cleanupHosts ctx now hosts

def cleanupExpiredRetiring (d : DaneSettings) (ctx : Time) : M Unit := do
  onMem .retiringLock
  let now ← onEnv .now
  cleanupHosts ctx now d.mxHosts
  onMem .retiringUnlock

def liveRecord (d : DaneSettings) (host : Name) (digest : Digest) : TLSARecord :=
  ⟨host, digest, d.ttl, .plain⟩

/-- The staged key's record, unless it is the live key's. -/
def nextRecords (d : DaneSettings) (host : Name) (live next : Digest) : List TLSARecord :=
  if next = live then [] else [⟨host, next, d.ttl, .next⟩]

def retiringRecords (d : DaneSettings) (host : Name) (now : Time) (live : Digest)
    (next : Option Digest) (records : List RetiringRecord) : List TLSARecord :=
  (records.filter fun r => !(r.expired now || r.digest = live || next = some r.digest)).map
    fun r => ⟨host, r.digest, d.ttl, .retiring r.retireAfter⟩

/-- The records of a host whose live key is known, from the staged key on. -/
def recordsFrom (cfg : Settings) (d : DaneSettings) (ctx : Time) (host : Name) (live : Digest) :
    M (Except Err (List TLSARecord)) := do
  match ← KeyStore.loadNextCertKey cfg ctx host with
  | .ok nextKey =>
      let next := nextKey.public.spkiSHA256
      finish (nextRecords d host live next) (some next)
  | .error err =>
      if !err.is .notExist then
        return .error (.wrap ("dane: load next key for " ++ host ++ ": ") err "")
      else
        finish [] none
where
  finish (staged : List TLSARecord) (next : Option Digest) : M (Except Err (List TLSARecord)) := do
    let now ← onEnv .now
    match ← retiring ctx host with
    | .error err => return .error err
    | .ok records =>
        return .ok (liveRecord d host live :: (staged ++
          retiringRecords d host now live next records))

def recordsForHost (cfg : Settings) (d : DaneSettings) (ctx : Time) (host : Name) :
    M (Except Err (List TLSARecord)) := do
  match ← KeyStore.loadCertKey cfg ctx host with
  | .error err =>
      if err.is .notExist then
        return .ok []
      else
        return .error (.wrap ("dane: load live key for " ++ host ++ ": ") err "")
  | .ok liveKey => recordsFrom cfg d ctx host liveKey.public.spkiSHA256

/-- `DesiredRecords` over the hosts still to come. -/
def desiredFrom (cfg : Settings) (d : DaneSettings) (ctx : Time) :
    List Name → M (Except Err (List TLSARecord))
  | [] => return .ok []
  | host :: hosts => do
      match ← recordsForHost cfg d ctx host with
      | .error err => return .error err
      | .ok recs =>
          match ← desiredFrom cfg d ctx hosts with
          | .error err => return .error err
          | .ok rest => return .ok (recs ++ rest)

def desiredRecords (cfg : Settings) (d : DaneSettings) (ctx : Time) :
    M (Except Err (List TLSARecord)) :=
  desiredFrom cfg d ctx d.mxHosts

/-- Refuses to mint a key for an MX host whose TLSA records are published. -/
def gateIssuance (cfg : Settings) (ctx : Time) (host : Name) : M (Except Err Unit) :=
  match cfg.dane with
  | none => return .ok ()
  | some d =>
      if !d.lookup || !d.mxHosts.contains host then
        return .ok ()
      else do
        match ← KeyStore.loadCertKey cfg ctx host with
        | .ok _ =>
            -- the answer is only compared to warn about drift
            let _ ← onEnv (.lookupTLSA ctx host)
            return .ok ()
        | .error kerr =>
            if kerr.is .notExist then
              match ← onEnv (.lookupTLSA ctx host) with
              | .error _ => return .ok ()
              | .ok published =>
                  if published.hasDANEEE then
                    return .error (.new ("dane: TLSA records are published for " ++ host ++
                      " but no live key exists in storage — issuing would mint a new key and " ++
                      "hard-fail DANE-validating senders; restore keys/" ++ host ++
                      " (or remove the TLSA records), or use the manual renew-cert override"))
                  else
                    return .ok ()
            else
              return .ok ()

end Dane
end CertsManager
