import CertsManager.Scheduler

/-!
# OnDemand — the dynamic allow-set and its index

`ondemand.go` and `maintainOnDemand`.  The leader publishes each on-demand hostname's expiry in one
index object; a follower refreshes the hostnames whose published expiry differs from the one it
last recorded.
-/

namespace CertsManager
namespace OnDemand

open Interleave

/-! ## The index -/

/-- The full map is written, whatever changed.  Callers hold `indexMu`. -/
def publishIndex (ctx : Time) : M (Except PutFault Unit) := do
  let snapshot ← onMem .indexSnapshot
  match ← onStorage ctx (.putIndex snapshot) with
  | .error f =>
      onMem (.setIndexDirty true)
      return .error f
  | .ok () =>
      onMem (.setIndexDirty false)
      return .ok ()

def noteIssued (ctx : Time) (hostname : Name) (notAfter : Nat) : M (Except PutFault Unit) := do
  onMem .indexLock
  onMem (.indexSet hostname notAfter)
  let r ← publishIndex ctx
  onMem .indexUnlock
  return r

def republishIndexIfDirty (ctx : Time) : M (Except PutFault Unit) := do
  let dirty ← onMem .indexDirty
  if !dirty then
    return .ok ()
  else
    onMem .indexLock
    let dirty ← onMem .indexDirty
    if !dirty then
      onMem .indexUnlock
      return .ok ()
    else
      let r ← publishIndex ctx
      onMem .indexUnlock
      return r

/-- The expiry the index records, where 0 is none. -/
def indexNotAfter (hostname : Name) : M (Option Nat) := do
  let v ← onMem (.indexGet hostname)
  return if v = 0 then none else some v

/-- The hostnames whose published expiry differs from the recorded one; all of them when the index
cannot be read. -/
def changedSince (ctx : Time) (hosts : List Name) : M (List Name) := do
  match ← onStorage ctx .getIndex with
  | .error _ => return hosts
  | .ok .garbage => return hosts
  | .ok (.entries published) =>
      let index ← onMem .indexSnapshot
      return hosts.filter fun h => decide (published h ≠ index h)

/-- Records what the index says now, after a refresh that succeeded. -/
def noteRefreshed (ctx : Time) (hostname : Name) : M Unit := do
  match ← onStorage ctx .getIndex with
  | .error _ => return ()
  | .ok .garbage => return ()
  | .ok (.entries published) => onMem (.indexSet hostname (published hostname))

/-- The index describes storage: a chain still held is never announced. -/
def recordIssued (cfg : Settings) (ctx : Time) (host : Name) : M Unit := do
  if !cfg.onDemand then
    return ()
  else
    let held ← CertCache.isPending host
    if held then
      return ()
    else
      match ← CertCache.leafNotAfter host with
      | none => return ()
      | some notAfter =>
          let _ ← noteIssued ctx host notAfter
          return ()

/-! ## Maintenance -/

/-- A follower's pass over what changed: recorded only if the refresh succeeded. -/
def refreshChanged (cfg : Settings) (ctx : Time) : List Name → M Unit
  | [] => return ()
  | host :: hosts => do
      match ← CertCache.refresh cfg ctx host with
      | .error _ => refreshChanged cfg ctx hosts
      | .ok _ =>
          noteRefreshed ctx host
          refreshChanged cfg ctx hosts

/-- `maintainOnDemand` on a follower. -/
def maintainFollower (cfg : Settings) : M Unit := do
  let hosts ← onMem .hosts
  if hosts.isEmpty then
    return ()
  else
    let t ← Manager.now
    let ctx := t + 2 * minute
    let changed ← changedSince ctx hosts
    refreshChanged cfg ctx changed

/-- The leader loads a hostname the index knows and announces one it does not. -/
def loadHost (cfg : Settings) (ctx : Time) (host : Name) : M Unit := do
  let notAfter ← CertCache.leafNotAfter host
  let known ← indexNotAfter host
  match notAfter, known with
  | some _, none => recordIssued cfg ctx host
  | some _, some _ => return ()
  | none, none => return ()
  | none, some _ =>
      let _ ← CertCache.refresh cfg ctx host
      return ()

def loadHosts (cfg : Settings) (ctx : Time) : List Name → M Unit
  | [] => return ()
  | host :: hosts => do
      loadHost cfg ctx host
      loadHosts cfg ctx hosts

/-- The hostnames to renew and the ones to issue for. -/
structure Plan where
  renewals : List Name
  fresh : List Name

def classify (cfg : Settings) : List Name → M Plan
  | [] => return ⟨[], []⟩
  | host :: hosts => do
      let notAfter ← CertCache.leafNotAfter host
      match notAfter with
      | none =>
          let plan ← classify cfg hosts
          return ⟨plan.renewals, host :: plan.fresh⟩
      | some notAfter =>
          let t ← Manager.now
          let plan ← classify cfg hosts
          if Manager.outlivesRenewal cfg t notAfter then
            return plan
          else
            return ⟨host :: plan.renewals, plan.fresh⟩

/-- `maintainOnDemand` on a leader, up to the goroutines it starts. -/
def planLeader (cfg : Settings) : M Plan := do
  let hosts ← onMem .hosts
  if hosts.isEmpty then
    return ⟨[], []⟩
  else
    let t ← Manager.now
    let ctx := t + 2 * minute
    let _ ← republishIndexIfDirty ctx
    loadHosts cfg ctx hosts
    classify cfg hosts

/-- A guarded renewal or first issuance, and its announcement. -/
def renewAndRecord (cfg : Settings) (ctx : Time) (host : Name) : M Unit := do
  match ← Manager.renewIfNeeded cfg ctx host with
  | some _ => return ()
  | none => recordIssued cfg ctx host

/-- The goroutine a leader starts for a hostname of its plan. -/
def runHost (cfg : Settings) (host : Name) (isRenewal : Bool) : M Unit := do
  let t ← Manager.now
  let ctx := t + issueTimeout
  let ok ← onEnv (.preflight ctx host)
  if !ok then
    return ()
  else if isRenewal then
    renewAndRecord cfg ctx host
  else
    match ← CertCache.refresh cfg ctx host with
    | .ok _ => renewAndRecord cfg ctx host
    | .error err =>
        if !CertCache.absentFromStorage err then
          return ()
        else
          let taken ← onEnv .takeOrder
          if !taken then
            return ()
          else
            renewAndRecord cfg ctx host

end OnDemand
end CertsManager
