import CertsManager.World

/-!
# Issuer/World — the CA, the order journal and the calls an attempt makes on them

`issuer.go` talks to the CA through an ACME client (RFC 8555) and keeps one journal record per
name in storage.  The CA's side is a list of orders, an order's URL being its place in the list;
an order is changed by the client's calls and, between any two of them, by the CA itself
(`CAEvent`).  Every call may fail, and a call that reports a failure may have had its effect: this
is how deadlines and broken connections look from here.
-/

namespace CertsManager
namespace Issuer

open Interleave

/-! ## The CA -/

abbrev URL : Type := Nat

inductive Status where
  | pending
  | ready
  | processing
  | valid
  | invalid
  deriving DecidableEq, Repr

/-- Where an order stands (RFC 8555, 7.1.6): it has the key of its CSR from finalization on and a
certificate once that is issued. -/
inductive Stage where
  | pending
  | ready
  | processing (csr : PublicKey)
  | valid (leaf : Leaf)
  | invalid
  deriving DecidableEq, Repr

namespace Stage

def status : Stage → Status
  | .pending => .pending
  | .ready => .ready
  | .processing _ => .processing
  | .valid _ => .valid
  | .invalid => .invalid

/-- The key an order was finalized with. -/
def boundTo : Stage → Option PublicKey
  | .processing csr => some csr
  | .valid leaf => some leaf.pub
  | _ => none

end Stage

/-- An order at the CA.  `expires` is the time after which the CA considers it invalid; a
`forgotten` order is one it has no longer. -/
structure CAOrder where
  stage : Stage
  expires : Option Time
  forgotten : Bool := false
  authzs : List URL := []
  deriving DecidableEq, Repr

namespace CAOrder

def expired (o : CAOrder) (now : Time) : Bool :=
  o.expires.any fun e => decide (e < now)

/-- The status the CA reports. -/
def status (o : CAOrder) (now : Time) : Status :=
  if o.expired now then .invalid else o.stage.status

/-- Pending, ready, processing or valid at the CA. -/
def outstanding (o : CAOrder) (now : Time) : Bool :=
  !o.forgotten && decide (o.status now ≠ .invalid)

/-- Its certificate is issued, and it is neither expired nor forgotten. -/
def issued (o : CAOrder) (now : Time) : Bool :=
  !o.forgotten && decide (o.status now = .valid)

end CAOrder

/-- What the CA does to its orders by itself. -/
inductive CAEvent where
  | authorized (url : URL)
  | rejected (url : URL)
  | issued (url : URL) (notAfter : Nat)
  | forgotten (url : URL)
  deriving DecidableEq, Repr

namespace CAEvent

/-- The order an event is about. -/
def url : CAEvent → URL
  | .authorized u => u
  | .rejected u => u
  | .issued u _ => u
  | .forgotten u => u

def changes (o : CAOrder) : CAEvent → CAOrder
  | .authorized _ =>
      match o.stage with
      | .pending => { o with stage := .ready }
      | _ => o
  | .rejected _ =>
      match o.stage with
      | .valid _ => o
      | _ => { o with stage := .invalid }
  | .issued _ notAfter =>
      match o.stage with
      | .processing csr => { o with stage := .valid ⟨csr, notAfter⟩ }
      | _ => o
  | .forgotten _ => { o with forgotten := true }

end CAEvent

/-! ## What the client sees -/

/-- `acme.Order`: `uri` is what the CA's `Location` header said, which only the answer to a new
order must have; the finalize and certificate URLs are taken to be their order's. -/
structure Order where
  uri : Option URL
  status : Status
  expires : Option Time
  authzURLs : List URL
  finalizeURL : URL
  certURL : Option URL
  deriving DecidableEq, Repr

/-- An error of the ACME client: the status code of an `acme.Error`, none for anything else. -/
structure Fault where
  statusCode : Option Nat
  text : String
  deriving DecidableEq, Repr

/-- `ae.StatusCode >= 400 && ae.StatusCode < 500`. -/
def Fault.refused (f : Fault) : Bool :=
  f.statusCode.any fun c => decide (400 ≤ c) && decide (c < 500)

inductive ChallengeType where
  | tlsALPN01
  | http01
  | other (text : String)
  deriving DecidableEq, Repr

def ChallengeType.text : ChallengeType → String
  | .tlsALPN01 => "tls-alpn-01"
  | .http01 => "http-01"
  | .other text => text

structure Challenge where
  type : ChallengeType
  token : String
  deriving DecidableEq, Repr

structure Authorization where
  uri : URL
  valid : Bool
  challenges : List Challenge
  deriving DecidableEq, Repr

/-! ## The journal -/

/-- The object at `orders/<name>`: `orderURL` none is the empty string, `createdAt` is in whole
seconds. -/
structure OrderRecord where
  orderURL : Option URL
  spki : Digest
  createdAt : Nat
  deriving DecidableEq, Repr

inductive JournalObject where
  | record (rec : OrderRecord)
  | garbage (reason : String)
  deriving DecidableEq, Repr

/-! ## State and calls -/

/-- `registered` is the flag in the memory of the process that runs the attempts. -/
structure World where
  clock : Time
  journal : Name → Option JournalObject
  orders : List CAOrder
  registered : Bool

def World.empty : World where
  clock := 0
  journal _ := none
  orders := []
  registered := false

inductive Op where
  | now
  | registered
  | setRegistered
  | register
  | getRecord (name : Name)
  | putRecord (name : Name) (rec : OrderRecord)
  | removeRecord (name : Name)
  | authorizeOrder (domain : Name)
  | getOrder (url : URL)
  | waitOrder (url : Option URL)
  | createCertificateRequest (domain : Name) (certKey : Key)
  | createOrderCert (url : URL) (csr : PublicKey)
  | fetchCert (url : URL)
  | getAuthorization (url : URL)
  | challengeResponse (chal : Challenge) (domain : Name)
  | putChallenge (chal : Challenge) (domain : Name)
  | deleteChallenge (chal : Challenge) (domain : Name)
  | accept (chal : Challenge)
  | waitAuthorization (uri : URL)

@[reducible] def Res : Op → Type
  | .now => Time
  | .registered => Bool
  | .setRegistered => Unit
  | .register => Except Fault Unit
  | .getRecord _ => Except ReadFault JournalObject
  | .putRecord _ _ => Except String Unit
  | .removeRecord _ => Except String Unit
  | .authorizeOrder _ => Except Fault Order
  | .getOrder _ => Except Fault Order
  | .waitOrder _ => Except Fault Order
  | .createCertificateRequest _ _ => Except String Unit
  | .createOrderCert _ _ => Except Fault Leaf
  | .fetchCert _ => Except Fault Leaf
  | .getAuthorization _ => Except Fault Authorization
  | .challengeResponse _ _ => Except String Unit
  | .putChallenge _ _ => Except String Unit
  | .deleteChallenge _ _ => Unit
  | .accept _ => Except Fault Unit
  | .waitAuthorization _ => Except Fault Unit

abbrev M : Type → Type := Prog Op Res

/-- How a call goes, beyond what the state decides: `outcome` as in the cluster's world, `kept`
whether the process is still the one that registered, `events` what the CA did before the call
reached it. -/
structure Answer where
  wait : Time := 0
  events : List CAEvent := []
  outcome : Outcome := .ok
  inBody : Bool := false
  reason : String := ""
  statusCode : Option Nat := none
  kept : Bool := true
  authorized : Bool := false
  location : Bool := false
  expires : Option Time := none
  authzs : List URL := []
  authz : Authorization := ⟨0, true, []⟩
  notAfter : Nat := 0

/-! ## What a call does -/

def CAEvent.apply (orders : List CAOrder) (e : CAEvent) : List CAOrder :=
  orders.modify e.url e.changes

namespace World

/-- The order the CA has under a URL. -/
def order (w : World) (url : URL) : Option CAOrder :=
  w.orders[url]?.filter fun o => !o.forgotten

/-- Time passes, and the CA works on its orders. -/
def pass (w : World) (a : Answer) : World :=
  { w with clock := w.clock + a.wait, orders := a.events.foldl CAEvent.apply w.orders }

/-- What the CA says of an order it has. -/
def report (w : World) (url : URL) (location : Bool) (o : CAOrder) : Order where
  uri := if location then some url else none
  status := o.status w.clock
  expires := o.expires
  authzURLs := o.authzs
  finalizeURL := url
  certURL := if o.status w.clock = .valid then some url else none

def setJournal (w : World) (name : Name) (x : Option JournalObject) : World :=
  { w with journal := Function.update w.journal name x }

def setStage (w : World) (url : URL) (stage : Stage) : World :=
  { w with orders := w.orders.modify url fun o => { o with stage := stage } }

end World

def Answer.fault (a : Answer) : Fault :=
  ⟨a.statusCode, a.reason⟩

/-- A call that only succeeds or fails. -/
def doneOr {ε : Type} (a : Answer) (e : ε) : Except ε Unit :=
  match a.outcome with
  | .ok => .ok ()
  | _ => .error e

/-- A journal write: done, not done, or done and reported as failed. -/
def journalWrite (w : World) (a : Answer) (name : Name) (x : Option JournalObject) :
    Except String Unit × World :=
  match a.outcome with
  | .ok => (.ok (), w.setJournal name x)
  | .lost => (.error a.reason, w.setJournal name x)
  | _ => (.error a.reason, w)

/-- A new order: pending, or ready when the account is authorized for its name already. -/
def newOrder (a : Answer) : CAOrder where
  stage := if a.authorized then .ready else .pending
  expires := a.expires
  authzs := a.authzs

namespace CA

def authorizeOrder (w : World) (a : Answer) : Except Fault Order × World :=
  let w' := { w with orders := w.orders ++ [newOrder a] }
  match a.outcome with
  | .ok => (.ok (w'.report w.orders.length true (newOrder a)), w')
  | .lost => (.error a.fault, w')
  | _ => (.error a.fault, w)

/-- The query of an order and the wait for one: an answer about an order the CA has and that is
`settled`, or an error. -/
def queryOrder (w : World) (a : Answer) (url : URL) (settled : Status → Bool) :
    Option (Except Fault Order × World) :=
  match a.outcome with
  | .ok =>
      ((w.order url).filter fun o => settled (o.status w.clock)).map fun o =>
        (.ok (w.report url a.location o), w)
  | _ => some (.error a.fault, w)

def getOrder (w : World) (a : Answer) (url : URL) : Option (Except Fault Order × World) :=
  queryOrder w a url fun _ => true

/-- `WaitOrder` returns an order that is ready or valid. -/
def waitOrder (w : World) (a : Answer) : Option URL → Option (Except Fault Order × World)
  | some url => queryOrder w a url fun s => decide (s = .ready) || decide (s = .valid)
  | none =>
      match a.outcome with
      | .ok => none
      | _ => some (.error a.fault, w)

/-- The CA finalizes an order that is ready and no other; the reply to that may be lost while the
order is processed. -/
def createOrderCert (w : World) (a : Answer) (url : URL) (csr : PublicKey) :
    Option (Except Fault Leaf × World) :=
  let ready := (w.order url).any fun o => decide (o.status w.clock = .ready)
  let leaf : Leaf := ⟨csr, a.notAfter⟩
  match a.outcome with
  | .ok => if ready then some (.ok leaf, w.setStage url (.valid leaf)) else none
  | .lost => if ready then some (.error a.fault, w.setStage url (.processing csr)) else none
  | _ => some (.error a.fault, w)

def fetchCert (w : World) (a : Answer) (url : URL) : Option (Except Fault Leaf × World) :=
  match a.outcome with
  | .ok =>
      match (w.order url).map CAOrder.stage with
      | some (.valid leaf) => some (.ok leaf, w)
      | _ => none
  | _ => some (.error a.fault, w)

end CA

/-- The effect of a call. -/
def exec (w : World) (o : Op) (a : Answer) : Option (Res o × World) :=
  let w := w.pass a
  match o with
  | .now => some (w.clock, w)
  | .registered => some (w.registered && a.kept, w)
  | .setRegistered => some ((), { w with registered := true })
  | .register => some (doneOr a a.fault, w)
  | .getRecord name =>
      match a.outcome with
      | .ok =>
          match w.journal name with
          | some x => some (.ok x, w)
          | none => some (.error .notExist, w)
      | _ => some (.error (.failed a.inBody a.reason), w)
  | .putRecord name rec => some (journalWrite w a name (some (.record rec)))
  | .removeRecord name => some (journalWrite w a name none)
  | .createCertificateRequest _ _ => some (doneOr a a.reason, w)
  | .getAuthorization _ =>
      match a.outcome with
      | .ok => some (.ok a.authz, w)
      | _ => some (.error a.fault, w)
  | .challengeResponse _ _ => some (doneOr a a.reason, w)
  | .putChallenge _ _ => some (doneOr a a.reason, w)
  | .deleteChallenge _ _ => some ((), w)
  | .accept _ => some (doneOr a a.fault, w)
  | .waitAuthorization _ => some (doneOr a a.fault, w)
  | .authorizeOrder _ => some (CA.authorizeOrder w a)
  | .getOrder url => CA.getOrder w a url
  | .waitOrder url => CA.waitOrder w a url
  | .createOrderCert url csr => CA.createOrderCert w a url csr
  | .fetchCert url => CA.fetchCert w a url

end Issuer
end CertsManager
