import CertsManager.Objects
import CertsManager.RetryBudget
import CertsManager.Interleave.Pool

/-!
# World — what the manager's functions call, and what a call does

The shared storage, the memory of each node, the CA's record of orders, and one `Op` for every call
a function makes on them.  Each call is atomic; everything between two calls may interleave.  A
mutex is an owner in the memory of its node; the issuance lease is granted by the environment, and
which grants are possible is the business of `Lease`.

Contexts are deadlines.  Past its deadline the CA gives no certificate; storage and the lease answer
as they like, since the filesystem backend never looks at a context.
-/

namespace CertsManager

open Interleave

abbrev Name : Type := String

/-! ## State -/

/-- The key objects: `keys/<name>`, `keys/<name>.next` and `acme/account.key`. -/
inductive KeySlot where
  | live (name : Name)
  | next (name : Name)
  | account
  deriving DecidableEq, Repr

/-- The on-demand index object: each hostname's published expiry, 0 for none. -/
inductive IndexObject where
  | entries (m : Name → Nat)
  | garbage

structure Storage where
  chain : Name → Option ChainPEM
  key : KeySlot → Option KeyPEM
  retiring : Name → Option RetiringObject
  index : Option IndexObject

abbrev PendingMap : Type := AList fun _ : Name => PendingPersist

/-- The memory of one process: the certificate cache, its mutexes, the retry budget and the
on-demand index. -/
structure NodeMemory (T : Type) where
  mem : Name → Option Certificate
  pending : PendingMap
  inflight : Name → Option T
  retiringMu : Option T
  issuerMu : Option T
  issuer : Bool
  fromLocal : Name → Bool
  localCopy : Name → Option Certificate
  retries : RetryBudget
  hosts : List Name
  index : Name → Nat
  indexDirty : Bool
  indexMu : Option T

def NodeMemory.empty {T : Type} : NodeMemory T where
  mem _ := none
  pending := ∅
  inflight _ := none
  retiringMu := none
  issuerMu := none
  issuer := false
  fromLocal _ := false
  localCopy _ := none
  retries := .empty
  hosts := []
  index _ := 0
  indexDirty := false
  indexMu := none

/-- `issued` is the CA's record of the certificates it signed for a name, newest first; `nextKey`
is the identity of the next key generated anywhere. -/
structure World (N T : Type) where
  clock : Time
  storage : Storage
  node : N → NodeMemory T
  issued : Name → List Leaf
  nextKey : Nat

def Storage.empty : Storage where
  chain _ := none
  key _ := none
  retiring _ := none
  index := none

/-- Nothing stored, nothing in memory. -/
def World.empty (N T : Type) : World N T where
  clock := 0
  storage := .empty
  node _ := .empty
  issued _ := []
  nextKey := 0

/-! ## Calls -/

/-- A read that did not return the object: there is none, or the read failed when opened or while
the body was read. -/
inductive ReadFault where
  | notExist
  | failed (inBody : Bool) (reason : String)
  deriving DecidableEq, Repr

inductive PutFault where
  | conditional
  | failed (reason : String)
  deriving DecidableEq, Repr

/-- An order that brought no certificate; `rateLimit` is the CA's Retry-After, if it named a limit. -/
structure IssueFault where
  reason : String
  rateLimit : Option Time
  deriving DecidableEq, Repr

inductive StorageOp where
  | getChain (name : Name)
  | putChain (name : Name) (chainPEM : ChainPEM)
  | listChains
  | getKey (slot : KeySlot)
  | putKey (slot : KeySlot) (key : Key) (createOnly : Bool)
  | removeKey (slot : KeySlot)
  | getRetiring (host : Name)
  | putRetiring (host : Name) (records : List RetiringRecord)
  | removeRetiring (host : Name)
  | getIndex
  | putIndex (m : Name → Nat)

@[reducible] def StorageOp.Res : StorageOp → Type
  | .getChain _ => Except ReadFault ChainPEM
  | .putChain _ _ => Except PutFault Unit
  | .listChains => Except ReadFault (Name → Bool)
  | .getKey _ => Except ReadFault KeyPEM
  | .putKey _ _ _ => Except PutFault Unit
  | .removeKey _ => Except PutFault Unit
  | .getRetiring _ => Except ReadFault RetiringObject
  | .putRetiring _ _ => Except PutFault Unit
  | .removeRetiring _ => Except PutFault Unit
  | .getIndex => Except ReadFault IndexObject
  | .putIndex _ => Except PutFault Unit

inductive MemOp where
  | memGet (name : Name)
  | memSet (name : Name) (cert : Certificate)
  | pendingGet (name : Name)
  | pendingSet (name : Name) (p : PendingPersist)
  | pendingDelete (name : Name)
  | pendingSnapshot
  | lock (name : Name)
  | tryLock (name : Name)
  | unlock (name : Name)
  | retiringLock
  | retiringUnlock
  | issuerLock
  | issuerUnlock
  | issuer
  | setIssuer
  | fromLocalDelete (name : Name)
  | localSave (name : Name) (cert : Certificate)
  | retriesAllow (name : Name)
  | retriesRecordFailure (name : Name)
  | retriesBlock (name : Name) (liftsAt : Time)
  | retriesReset (name : Name)
  | hosts
  | indexGet (name : Name)
  | indexSnapshot
  | indexSet (name : Name) (notAfter : Nat)
  | indexLock
  | indexUnlock
  | indexDirty
  | setIndexDirty (dirty : Bool)

@[reducible] def MemOp.Res : MemOp → Type
  | .memGet _ => Option Certificate
  | .pendingGet _ => Option PendingPersist
  | .pendingSnapshot => List (Name × PendingPersist)
  | .tryLock _ => Bool
  | .issuer => Bool
  | .localSave _ _ => Bool
  | .retriesAllow _ => Except Time Unit
  | .hosts => List Name
  | .indexGet _ => Nat
  | .indexSnapshot => Name → Nat
  | .indexDirty => Bool
  | _ => Unit

inductive EnvOp where
  | now
  | isLeader
  | ctxErr (ctx : Time)
  | sleep (ctx : Time) (d : Time)
  | generateSigner
  | acquireLease (ctx : Time) (name : Name)
  | releaseLease (name : Name)
  | issue (ctx : Time) (name : Name) (key : Key)
  | lookupTLSA (ctx : Time) (host : Name)
  | preflight (ctx : Time) (name : Name)
  | takeOrder

@[reducible] def EnvOp.Res : EnvOp → Type
  | .now => Time
  | .isLeader => Bool
  | .ctxErr _ => Bool
  | .sleep _ _ => Bool
  | .generateSigner => Key
  | .acquireLease _ _ => Bool
  | .releaseLease _ => Unit
  | .issue _ _ _ => Except IssueFault ChainPEM
  | .lookupTLSA _ _ => Except String LookupResult
  | .preflight _ _ => Bool
  | .takeOrder => Bool

inductive Op where
  | storage (ctx : Time) (o : StorageOp)
  | mem (o : MemOp)
  | env (o : EnvOp)

@[reducible] def Res : Op → Type
  | .storage _ o => o.Res
  | .mem o => o.Res
  | .env o => o.Res

abbrev M : Type → Type := Prog Op Res

def onStorage (ctx : Time) (o : StorageOp) : M o.Res := Prog.perform (Op.storage ctx o)
def onMem (o : MemOp) : M o.Res := Prog.perform (Op.mem o)
def onEnv (o : EnvOp) : M o.Res := Prog.perform (Op.env o)

/-! ## Settings -/

structure DaneSettings where
  mxHosts : List Name
  ttl : Nat
  soak : Time
  /-- Whether published records can be looked up (`lookup` is not nil). -/
  lookup : Bool

/-- The configuration of a manager, every name in it under its one spelling. -/
structure Settings where
  keyPrefix : String
  keyType : KeyType
  domains : List Name
  renewBefore : Time
  maxRetries : Nat
  dane : Option DaneSettings
  rsaCompanion : Bool
  onDemand : Bool
  localDir : Bool

/-- Everything optional off, renewal 30 days before expiry. -/
def Settings.plain (domains : List Name) : Settings where
  keyPrefix := ""
  keyType := .ecdsaP256
  domains := domains
  renewBefore := 30 * 24 * hour
  maxRetries := 5
  dane := none
  rsaCompanion := false
  onDemand := false
  localDir := false

/-- An on-demand fleet with no static names. -/
def Settings.fleet : Settings :=
  { Settings.plain [] with onDemand := true }

/-- `m.dane != nil && m.dane.isMX(host)`. -/
def Settings.isMX (cfg : Settings) (host : Name) : Bool :=
  match cfg.dane with
  | some d => d.mxHosts.contains host
  | none => false

/-! ## What the environment answers -/

/-- How a call to storage or the CA goes: it succeeds, fails without effect, takes effect and
reports a failure, or meets another conditional write on its way. -/
inductive Outcome where
  | ok
  | fail
  | lost
  | conflict
  deriving DecidableEq, Repr

/-- Everything about a call that the code does not decide.  A field that a call does not look at
says nothing. -/
structure Answer where
  wait : Time := 0
  outcome : Outcome := .ok
  inBody : Bool := false
  reason : String := ""
  yes : Bool := true
  cancelled : Bool := false
  notAfter : Nat := 0
  rateLimit : Option Time := none
  listed : Name → Bool := fun _ => true
  lookup : LookupResult := ⟨[], false⟩

/-! ## What a call does -/

/-- A read: of the object, of its absence, or of nothing. -/
def readReply {α : Type} (a : Answer) (x : Option α) : Except ReadFault α :=
  match a.outcome with
  | .ok =>
      match x with
      | some v => .ok v
      | none => .error .notExist
  | _ => .error (.failed a.inBody a.reason)

/-- A write from `s` to `s'`, unconditional unless it has a precondition. -/
def writeReply {σ : Type} (a : Answer) (precondition : Option Bool) (s s' : σ) :
    Option (Except PutFault Unit × σ) :=
  let met := precondition.getD true
  match a.outcome with
  | .fail => some (.error (.failed a.reason), s)
  | .conflict => if precondition.isSome then some (.error .conditional, s) else none
  | .ok => if met then some (.ok (), s') else some (.error .conditional, s)
  | .lost => some (.error (.failed a.reason), if met then s' else s)

def execStorage (a : Answer) (st : Storage) : (o : StorageOp) → Option (o.Res × Storage)
  | .getChain name => some (readReply a (st.chain name), st)
  | .putChain name c =>
      writeReply a none st { st with chain := Function.update st.chain name (some c) }
  | .listChains =>
      some (readReply a (some fun name => (st.chain name).isSome && a.listed name), st)
  | .getKey slot => some (readReply a (st.key slot), st)
  | .putKey slot key createOnly =>
      writeReply a (if createOnly then some (st.key slot).isNone else none) st
        { st with key := Function.update st.key slot (some (marshalKeyPEM key)) }
  | .removeKey slot => writeReply a none st { st with key := Function.update st.key slot none }
  | .getRetiring host => some (readReply a (st.retiring host), st)
  | .putRetiring host rs =>
      writeReply a none st
        { st with retiring := Function.update st.retiring host (some (.records rs)) }
  | .removeRetiring host =>
      writeReply a none st { st with retiring := Function.update st.retiring host none }
  | .getIndex => some (readReply a st.index, st)
  | .putIndex m => writeReply a none st { st with index := some (.entries m) }

section Memory

variable {T : Type}

/-- `maxRetries` is the retry budget's cap. -/
def execMem (maxRetries : Nat) (t : T) (now : Time) (a : Answer) (m : NodeMemory T) :
    (o : MemOp) → Option (o.Res × NodeMemory T)
  | .memGet name => some (m.mem name, m)
  | .memSet name cert => some ((), { m with mem := Function.update m.mem name (some cert) })
  | .pendingGet name => some (m.pending.lookup name, m)
  | .pendingSet name p => some ((), { m with pending := m.pending.insert name p })
  | .pendingDelete name => some ((), { m with pending := m.pending.erase name })
  | .pendingSnapshot => some (m.pending.entries.map fun e => (e.1, e.2), m)
  | .lock name =>
      if (m.inflight name).isNone then
        some ((), { m with inflight := Function.update m.inflight name (some t) })
      else none
  | .tryLock name =>
      if (m.inflight name).isNone then
        some (true, { m with inflight := Function.update m.inflight name (some t) })
      else some (false, m)
  | .unlock name => some ((), { m with inflight := Function.update m.inflight name none })
  | .retiringLock => if m.retiringMu.isNone then some ((), { m with retiringMu := some t }) else none
  | .retiringUnlock => some ((), { m with retiringMu := none })
  | .issuerLock => if m.issuerMu.isNone then some ((), { m with issuerMu := some t }) else none
  | .issuerUnlock => some ((), { m with issuerMu := none })
  | .issuer => some (m.issuer, m)
  | .setIssuer => some ((), { m with issuer := true })
  | .fromLocalDelete name =>
      some ((), { m with fromLocal := Function.update m.fromLocal name false })
  | .localSave name cert =>
      match a.outcome with
      | .ok => some (true, { m with localCopy := Function.update m.localCopy name (some cert) })
      | .lost => some (false, { m with localCopy := Function.update m.localCopy name (some cert) })
      | _ => some (false, m)
  | .retriesAllow name =>
      let (r, b) := m.retries.allow maxRetries (.once now) name
      some (r, { m with retries := b })
  | .retriesRecordFailure name =>
      some ((), { m with retries := m.retries.recordFailure (.once now) name })
  | .retriesBlock name liftsAt => some ((), { m with retries := m.retries.block name liftsAt })
  | .retriesReset name => some ((), { m with retries := m.retries.reset name })
  | .hosts => some (m.hosts, m)
  | .indexGet name => some (m.index name, m)
  | .indexSnapshot => some (m.index, m)
  | .indexSet name v => some ((), { m with index := Function.update m.index name v })
  | .indexLock => if m.indexMu.isNone then some ((), { m with indexMu := some t }) else none
  | .indexUnlock => some ((), { m with indexMu := none })
  | .indexDirty => some (m.indexDirty, m)
  | .setIndexDirty dirty => some ((), { m with indexDirty := dirty })

end Memory

section Environment

variable {N T : Type}

def World.tick (w : World N T) (d : Time) : World N T :=
  { w with clock := w.clock + d }

def World.record (w : World N T) (name : Name) (leaf : Leaf) : World N T :=
  { w with issued := Function.update w.issued name (leaf :: w.issued name) }

def execEnv (a : Answer) (w : World N T) : (o : EnvOp) → Option (o.Res × World N T)
  | .now => some (w.clock, w)
  | .isLeader => some (a.yes, w)
  | .ctxErr ctx => some (decide (ctx ≤ w.clock) || a.cancelled, w)
  | .sleep ctx d =>
      if a.cancelled || decide (ctx ≤ w.clock) then some (false, w) else some (true, w.tick d)
  | .generateSigner => some (⟨w.nextKey⟩, { w with nextKey := w.nextKey + 1 })
  | .acquireLease _ _ => some (a.yes, w)
  | .releaseLease _ => some ((), w)
  | .issue ctx name key =>
      let leaf : Leaf := ⟨key.public, a.notAfter⟩
      match a.outcome with
      | .ok => if w.clock < ctx then some (.ok (.chain leaf), w.record name leaf) else none
      | .lost => some (.error ⟨a.reason, a.rateLimit⟩, w.record name leaf)
      | _ => some (.error ⟨a.reason, a.rateLimit⟩, w)
  | .lookupTLSA _ _ =>
      match a.outcome with
      | .ok => some (.ok a.lookup, w)
      | _ => some (.error a.reason, w)
  | .preflight _ _ => some (a.yes, w)
  | .takeOrder => some (a.yes, w)

variable [DecidableEq N]

/-- The effect of a call by thread `t`, which runs on `node t`. -/
def exec (maxRetries : Nat) (node : T → N) (w : World N T) (t : T) (o : Op) (a : Answer) :
    Option (Res o × World N T) :=
  let w := w.tick a.wait
  match o with
  | .storage _ o => (execStorage a w.storage o).map fun x => (x.1, { w with storage := x.2 })
  | .mem o =>
      (execMem maxRetries t w.clock a (w.node (node t)) o).map fun x =>
        (x.1, { w with node := Function.update w.node (node t) x.2 })
  | .env o => execEnv a w o

end Environment

end CertsManager
