import CertsManager.Clock
import CertsManager.Layout
import CertsManager.Interleave.Pool

/-!
# Lease — the issuance lease at the level of its storage calls

`lease.go`.  An attempt takes the lease of a hostname with a create-once put; finding one there, it
stats the object, reads the record and, if the record has expired, replaces it with a put
conditional on the ETag it got from the stat.  Release reads the record and deletes the object
unless somebody else owns it.  Each of these is one call to storage, and any number of attempts on
any number of nodes interleave between them.
-/

namespace CertsManager
namespace Lease

open Interleave

/-! ## Records and the storage that keeps them -/

structure LeaseRecord where
  owner : String
  expiresAt : Nat
  deriving DecidableEq, Repr

/-- An ETag: a digest of the content, or of the modification time, which names one write. -/
inductive ETag where
  | content (r : LeaseRecord)
  | write (n : Nat) (r : LeaseRecord)
  deriving DecidableEq, Repr

/-- How storage tags what it keeps, and whether it heeds a context.

`tag r n` is the ETag of record `r` stored as the `n`-th write.  Different records have different
tags; identical ones written twice may share theirs, as they do on a backend that tags by content.
A backend that can still act on a call made past its context's deadline (`late`) gives every write
a tag of its own. -/
structure Backend where
  tag : LeaseRecord → Nat → ETag
  late : Bool
  tag_record : ∀ {r r' n n'}, tag r n = tag r' n' → r = r'
  late_fresh : late = true → ∀ {r r' n n'}, tag r n = tag r' n' → n = n'

/-- `storage/s3_backend.go`: the ETag is a digest of the content, the SDK heeds the context. -/
def s3Backend : Backend where
  tag r _ := .content r
  late := false
  tag_record h := ETag.content.inj h
  late_fresh := by simp

/-- `storage/filesystem.go`: the ETag is a digest of the modification time, which differs from
write to write, and the context is not looked at. -/
def filesystemBackend : Backend where
  tag r n := .write n r
  late := true
  tag_record h := (ETag.write.inj h).2
  late_fresh := fun _ _ _ _ _ h => (ETag.write.inj h).1

structure Object where
  record : LeaseRecord
  version : Nat
  deriving DecidableEq, Repr

structure State where
  clock : Time
  writes : Nat
  object : String → Option Object

/-! ## Calls -/

/-- What `PutObject` answers a conditional put. -/
inductive PutResult where
  | ok
  | conditional
  | failed
  deriving DecidableEq, Repr

/-- What a read answers that did not return the object. -/
inductive ReadError where
  | notExist
  | failed
  deriving DecidableEq, Repr

inductive Op where
  | now
  | create (ctx : Time) (key : String) (data : LeaseRecord)
  | stat (ctx : Time) (key : String)
  | get (ctx : Time) (key : String)
  | replace (ctx : Time) (key : String) (data : LeaseRecord) (etag : ETag)
  | remove (ctx : Time) (key : String)

@[reducible] def Res : Op → Type
  | .now => Time
  | .create _ _ _ => PutResult
  | .stat _ _ => Except ReadError ETag
  | .get _ _ => Except ReadError LeaseRecord
  | .replace _ _ _ _ => PutResult
  | .remove _ _ => Bool

abbrev M : Type → Type := Prog Op Res

def call (o : Op) : M (Res o) := Prog.perform o

/-! ## The leaser -/

structure Leaser where
  hasBackend : Bool
  keyPrefix : String
  nodeID : String
  ttl : Time

namespace Leaser

def key (l : Leaser) (domain : String) : String :=
  l.keyPrefix ++ "locks/issue/" ++ domain

def tryCreate (ctx : Time) (key : String) (data : LeaseRecord) : M Bool := do
  match ← call (.create ctx key data) with
  | .ok => return true
  | .conditional => return false
  | .failed => return false

def takeOver (ctx : Time) (key : String) (data : LeaseRecord) (etag : ETag) : M Bool := do
  match ← call (.replace ctx key data etag) with
  | .ok => return true
  | .conditional => return false
  | .failed => return false

def read (ctx : Time) (key : String) : M (Except ReadError LeaseRecord) :=
  call (.get ctx key)

/-- The ETag is taken before the record is read. -/
def acquire (l : Leaser) (ctx : Time) (domain : String) : M Bool := do
  if !l.hasBackend then
    return true
  else
    let key := l.key domain
    let t ← call .now
    let data : LeaseRecord := ⟨l.nodeID, unix (t + l.ttl)⟩
    if ← tryCreate ctx key data then
      return true
    else
      match ← call (.stat ctx key) with
      | .error _ => return false
      | .ok etag =>
          match ← read ctx key with
          | .error _ => return false
          | .ok existing =>
              let t' ← call .now
              if unix t' < existing.expiresAt then
                return false
              else
                takeOver ctx key data etag

/-- A record somebody else owns is left alone; one that cannot be read is deleted. -/
def release (l : Leaser) (key : String) : M Unit := do
  let t ← call .now
  let ctx := t + 10 * second
  match ← read ctx key with
  | .ok r =>
      if r.owner ≠ l.nodeID then
        return ()
      else
        let _ ← call (.remove ctx key)
  | .error _ =>
      let _ ← call (.remove ctx key)

end Leaser

/-! ## Attempts -/

/-- One attempt on one node, for a name: a hostname or its companion. -/
structure Attempt where
  nodeID : String
  name : String
  deriving DecidableEq, Repr

def Attempt.leaser (keyPrefix : String) (q : Attempt) : Leaser where
  hasBackend := true
  keyPrefix := keyPrefix
  nodeID := q.nodeID
  ttl := issueLeaseTTL

/-- The storage key of the lease an attempt contends for (`acquireIssueLease`: the hostname's). -/
def Attempt.key (keyPrefix : String) (q : Attempt) : String :=
  (q.leaser keyPrefix).key (Layout.certDomain q.name)

@[simp] theorem Attempt.leaser_hasBackend (keyPrefix : String) (q : Attempt) :
    (q.leaser keyPrefix).hasBackend = true := rfl
@[simp] theorem Attempt.leaser_nodeID (keyPrefix : String) (q : Attempt) :
    (q.leaser keyPrefix).nodeID = q.nodeID := rfl
@[simp] theorem Attempt.leaser_ttl (keyPrefix : String) (q : Attempt) :
    (q.leaser keyPrefix).ttl = issueLeaseTTL := rfl
@[simp] theorem Attempt.leaser_key (keyPrefix : String) (q : Attempt) :
    (q.leaser keyPrefix).key (Layout.certDomain q.name) = q.key keyPrefix := rfl

/-- An attempt as every caller of `acquireIssueLease` makes it: under a context of at most
`issueTimeout`, with the release deferred. -/
def attempt (keyPrefix : String) (q : Attempt) : M Unit := do
  let t ← call .now
  let held ← (q.leaser keyPrefix).acquire (t + issueTimeout) (Layout.certDomain q.name)
  if held then
    (q.leaser keyPrefix).release (q.key keyPrefix)
  else
    return ()

/-! ## What storage does with a call -/

/-- The environment's answer to a call: how long passes before it takes effect, and whether it
succeeds, fails without effect, or takes effect and reports a failure.  `conflict` is the answer a
store may give a conditional write that met another one on its way. -/
inductive Outcome where
  | ok
  | fail
  | lost
  | conflict
  deriving DecidableEq, Repr

structure Answer where
  wait : Time
  outcome : Outcome

namespace State

def tick (s : State) (d : Time) : State :=
  { s with clock := s.clock + d }

def write (s : State) (key : String) (r : LeaseRecord) : State :=
  { s with
    writes := s.writes + 1
    object := Function.update s.object key (some ⟨r, s.writes⟩) }

def erase (s : State) (key : String) : State :=
  { s with object := Function.update s.object key none }

@[simp] theorem tick_clock (s : State) (d : Time) : (s.tick d).clock = s.clock + d := rfl
@[simp] theorem tick_writes (s : State) (d : Time) : (s.tick d).writes = s.writes := rfl
@[simp] theorem tick_object (s : State) (d : Time) : (s.tick d).object = s.object := rfl
@[simp] theorem write_clock (s : State) (k : String) (r : LeaseRecord) :
    (s.write k r).clock = s.clock := rfl
@[simp] theorem write_writes (s : State) (k : String) (r : LeaseRecord) :
    (s.write k r).writes = s.writes + 1 := rfl
@[simp] theorem write_object (s : State) (k : String) (r : LeaseRecord) :
    (s.write k r).object = Function.update s.object k (some ⟨r, s.writes⟩) := rfl
@[simp] theorem erase_clock (s : State) (k : String) : (s.erase k).clock = s.clock := rfl
@[simp] theorem erase_writes (s : State) (k : String) : (s.erase k).writes = s.writes := rfl
@[simp] theorem erase_object (s : State) (k : String) :
    (s.erase k).object = Function.update s.object k none := rfl

end State

/-- A conditional put whose precondition is `pre`: storage checks it and writes in one step. -/
def condPut (s : State) (inTime : Bool) (pre : Bool) (key : String) (data : LeaseRecord) :
    Outcome → Option (PutResult × State)
  | .fail => some (.failed, s)
  | .conflict => some (.conditional, s)
  | .ok =>
      if !inTime then none
      else if pre then some (.ok, s.write key data)
      else some (.conditional, s)
  | .lost =>
      if !inTime then none
      else if pre then some (.failed, s.write key data)
      else some (.failed, s)

def readObject {α : Type} (s : State) (inTime : Bool) (key : String) (f : Object → α) :
    Outcome → Option (Except ReadError α × State)
  | .ok =>
      if !inTime then none
      else
        match s.object key with
        | some o => some (.ok (f o), s)
        | none => some (.error .notExist, s)
  | _ => some (.error .failed, s)

def execAt (b : Backend) (s : State) : (o : Op) → Outcome → Option (Res o × State)
  | .now, _ => some (s.clock, s)
  | .create ctx key data, out =>
      condPut s (b.late || s.clock < ctx) (s.object key).isNone key data out
  | .stat ctx key, out =>
      readObject s (b.late || s.clock < ctx) key (fun o => b.tag o.record o.version) out
  | .get ctx key, out => readObject s (b.late || s.clock < ctx) key Object.record out
  | .replace ctx key data etag, out =>
      condPut s (b.late || s.clock < ctx)
        ((s.object key).any fun o => b.tag o.record o.version = etag) key data out
  | .remove ctx key, out =>
      match out with
      | .ok => if b.late || s.clock < ctx then some (true, s.erase key) else none
      | .lost => if b.late || s.clock < ctx then some (false, s.erase key) else none
      | _ => some (false, s)

/-- Any number of threads, each of which makes any number of attempts one after another. -/
def machine (T : Type) (b : Backend) (keyPrefix : String) :
    Machine Op Res State T Attempt Unit Answer where
  exec s _ o a := execAt b (s.tick a.wait) o a.outcome
  body := attempt keyPrefix

end Lease
end CertsManager
