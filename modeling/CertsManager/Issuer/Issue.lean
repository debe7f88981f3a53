import CertsManager.CertCache
import CertsManager.Issuer.World

/-!
# Issuer/Issue — one attempt at a certificate

`issuer.go` and `order_journal.go`.  An attempt collects the order an earlier one left outstanding
for the same key, or places a new one and journals it; then it takes the order to a certificate
and forgets the record.
-/

namespace CertsManager
namespace Issuer

open Interleave

def on (o : Op) : M (Res o) :=
  Prog.perform o

/-- A client error as `%w` wraps it. -/
def Fault.wrapped (f : Fault) (before : String) : Err :=
  .wrap before (.new f.text) ""

/-! ## The journal -/

/-- `orderMaxAge`: how long a journaled order is worth resuming. -/
def orderMaxAge : Time := 7 * 24 * hour

namespace Journal

/-- `orderJournal.record`; a failure is logged and nothing more. -/
def record (name : Name) (orderURL : Option URL) (spki : Digest) : M (Except String Unit) := do
  let t ← on .now
  on (.putRecord name ⟨orderURL, spki, unix t⟩)

/-- `orderJournal.load`. -/
def load (name : Name) : M (Except Err OrderRecord) := do
  match ← on (.getRecord name) with
  | .error .notExist => return .error (.of .notExist)
  | .error (.failed _ reason) => return .error (.new reason)
  | .ok (.garbage reason) =>
      return .error (.wrap ("order journal for " ++ name ++ " is unreadable: ") (.new reason) "")
  | .ok (.record rec) => return .ok rec

/-- `orderJournal.clear`, best-effort. -/
def clear (name : Name) : M Unit := do
  let _ ← on (.removeRecord name)
  return ()

end Journal

/-! ## Registration and challenges -/

/-- `ensureRegistered`; that the account exists already counts as success. -/
def ensureRegistered : M (Except Err Unit) := do
  let registered ← on .registered
  if registered then
    return .ok ()
  else
    match ← on .register with
    | .error f => return .error (f.wrapped "acme account registration: ")
    | .ok _ =>
        on .setRegistered
        return .ok ()

/-- `pickChallenge`: the first `tls-alpn-01`, else the last `http-01`. -/
def pickChallenge : List Challenge → Option Challenge → Option Challenge
  | [], httpChal => httpChal
  | c :: cs, httpChal =>
      match c.type with
      | .tlsALPN01 => some c
      | .http01 => pickChallenge cs (some c)
      | .other _ => pickChallenge cs httpChal

/-- The part of `present` the two challenge types share. -/
def presentResponse (domain : Name) (chal : Challenge) (building : String) :
    M (Except Err Unit) := do
  match ← on (.challengeResponse chal domain) with
  | .error reason =>
      return .error (.wrap ("build " ++ chal.type.text ++ building ++ domain ++ ": ") (.new reason) "")
  | .ok _ =>
      match ← on (.putChallenge chal domain) with
      | .error reason =>
          return .error (.wrap ("not accepting the " ++ chal.type.text ++ " challenge for " ++ domain ++
            ": ") (.new reason) "")
      | .ok _ => return .ok ()

def present (domain : Name) (chal : Challenge) : M (Except Err Unit) :=
  match chal.type with
  | .tlsALPN01 => presentResponse domain chal " cert for "
  | .http01 => presentResponse domain chal " response for "
  | .other text => return .error (.new ("unsupported challenge type \"" ++ text ++ "\""))

/-- The calls of `fulfillAuthorization` between presenting a response and taking it down. -/
def acceptAndWait (domain : Name) (authz : Authorization) (chal : Challenge) :
    M (Except Err Unit) := do
  match ← on (.accept chal) with
  | .error f =>
      return .error (f.wrapped ("accept " ++ chal.type.text ++ " challenge for " ++ domain ++ ": "))
  | .ok _ =>
      match ← on (.waitAuthorization authz.uri) with
      | .error f => return .error (f.wrapped ("wait authorization for " ++ domain ++ ": "))
      | .ok _ => return .ok ()

def fulfillAuthorization (domain : Name) (authzURL : URL) : M (Except Err Unit) := do
  match ← on (.getAuthorization authzURL) with
  | .error f => return .error (f.wrapped ("get authorization " ++ toString authzURL ++ ": "))
  | .ok authz =>
      if authz.valid then
        return .ok ()
      else
        match pickChallenge authz.challenges none with
        | none =>
            return .error (.new ("no supported challenge (tls-alpn-01/http-01) for " ++ domain))
        | some chal =>
            match ← present domain chal with
            | .error err => return .error err
            | .ok _ =>
                let r ← acceptAndWait domain authz chal
                on (.deleteChallenge chal domain)
                return r

/-- The loop of `complete` over the order's authorizations. -/
def fulfillAll (domain : Name) : List URL → M (Except Err Unit)
  | [] => return .ok ()
  | authzURL :: rest => do
      match ← fulfillAuthorization domain authzURL with
      | .error err => return .error err
      | .ok _ => fulfillAll domain rest

/-! ## From an order to a certificate -/

def Status.text : Status → String
  | .pending => "pending"
  | .ready => "ready"
  | .processing => "processing"
  | .valid => "valid"
  | .invalid => "invalid"

def fetch (domain : Name) (order : Order) : M (Except Err Leaf) := do
  match order.certURL with
  | none =>
      return .error (.new ("order for " ++ domain ++ " is " ++ order.status.text ++
        " but names no certificate"))
  | some certURL =>
      match ← on (.fetchCert certURL) with
      | .error f => return .error (f.wrapped ("download certificate for " ++ domain ++ ": "))
      | .ok leaf => return .ok leaf

/-- The part of `complete` for an order not finalized yet. -/
def finalize (domain : Name) (order : Order) (certKey : Key) : M (Except Err Leaf) := do
  match ← fulfillAll domain order.authzURLs with
  | .error err => return .error err
  | .ok _ =>
      match ← on (.createCertificateRequest domain certKey) with
      | .error reason =>
          return .error (.wrap ("create CSR for " ++ domain ++ ": ") (.new reason) "")
      | .ok _ =>
          match ← on (.createOrderCert order.finalizeURL certKey.public) with
          | .error f => return .error (f.wrapped ("finalize order for " ++ domain ++ ": "))
          | .ok leaf => return .ok leaf

/-- `complete` takes an order from whatever state it is in to a downloaded chain. -/
def complete (domain : Name) (order : Order) (certKey : Key) : M (Except Err Leaf) := do
  match order.status with
  | .valid => fetch domain order
  | .processing =>
      match ← on (.waitOrder order.uri) with
      | .error f => return .error (f.wrapped ("wait for order " ++ domain ++ ": "))
      | .ok o => fetch domain o
  | _ => finalize domain order certKey

/-! ## The attempt -/

/-- `time.Since(time.Unix(rec.CreatedAt, 0)) > orderMaxAge`. -/
def OrderRecord.tooOld (rec : OrderRecord) (now : Time) : Bool :=
  decide (rec.createdAt * second + orderMaxAge < now)

/-- `!order.Expires.IsZero() && time.Now().After(order.Expires)`. -/
def Order.past (order : Order) (now : Time) : Bool :=
  order.expires.any fun e => decide (e < now)

/-- The part of `resumeOrder` after the CA was asked about the record's order. -/
def judgeOrder (name : Name) : Except Fault Order → M (Except Err (Option Order))
  | .error f => do
      if f.refused then
        Journal.clear name
        return .ok none
      else
        return .error (f.wrapped ("cannot check the outstanding order for " ++ name ++ ": "))
  | .ok order => do
      if order.status = .invalid then
        Journal.clear name
        return .ok none
      else
        let t ← on .now
        if order.past t then
          Journal.clear name
          return .ok none
        else
          return .ok (some order)

/-- The part of `resumeOrder` after the record was read. -/
def judgeRecord (name : Name) (spki : Digest) (rec : OrderRecord) :
    M (Except Err (Option Order)) := do
  match rec.orderURL with
  | none =>
      Journal.clear name
      return .ok none
  | some orderURL =>
      let t ← on .now
      if rec.tooOld t then
        Journal.clear name
        return .ok none
      else if rec.spki ≠ spki then
        -- Somebody else's order, left in place; this attempt orders afresh.
        return .ok none
      else
        let r ← on (.getOrder orderURL)
        judgeOrder name r

/-- `resumeOrder`: the order to collect, `none` when a new one is to be placed. -/
def resumeOrder (name : Name) (spki : Digest) : M (Except Err (Option Order)) := do
  match ← Journal.load name with
  | .ok rec => judgeRecord name spki rec
  | .error err =>
      if CertCache.absentFromStorage err then
        return .ok none
      else
        return .error (.wrap ("cannot tell whether an order is outstanding for " ++ name ++ ": ")
          (.of .storageUnavailable) (": " ++ err.text))

/-- The order an attempt works on: the one it collects, or a new one it journals. -/
def orderFor (name domain : Name) (spki : Digest) : M (Except Err Order) := do
  match ← resumeOrder name spki with
  | .error err => return .error err
  | .ok (some order) => return .ok order
  | .ok none =>
      match ← on (.authorizeOrder domain) with
      | .error f => return .error (f.wrapped ("authorize order for " ++ domain ++ ": "))
      | .ok order =>
          let _ ← Journal.record name order.uri spki
          return .ok order

/-- `Issue`. -/
def issue (name : Name) (certKey : Key) : M (Except Err ChainPEM) := do
  let domain := Layout.certDomain name
  match ← ensureRegistered with
  | .error err => return .error err
  | .ok _ =>
      match ← orderFor name domain certKey.public.spkiSHA256 with
      | .error err => return .error err
      | .ok order =>
          match ← complete domain order certKey with
          | .error err => return .error err
          | .ok leaf =>
              Journal.clear name
              return .ok (.chain leaf)

/-! ## Attempts one after another -/

/-- One call of `Issue`. -/
structure Attempt where
  name : Name
  key : Key
  deriving DecidableEq, Repr

/-- Attempts, one at a time, each of which may stop after any of its calls: they run under the
name's lock and lease. -/
def attempts : Machine Op Res World Unit Attempt (Except Err ChainPEM) Answer where
  exec w _ o a := exec w o a
  body q := issue q.name q.key

abbrev AttemptsConfig : Type := Config Op Res World Unit Attempt (Except Err ChainPEM)
abbrev AttemptsView : Type := View Op Res World Unit Attempt
abbrev AttemptsLabel : Type := Label Op Res Unit Attempt (Except Err ChainPEM)

end Issuer
end CertsManager
