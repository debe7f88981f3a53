import CertsManager.Clock

/-!
# Objects — keys, chains, certificates and errors

What the manager keeps in storage and hands from function to function.  A private key is its
identity; its public half, and the SPKI digest of that, determine it.  A stored object is what its
readers make of it: `garbage` is an object that was read and does not parse.

An error carries its text and the sentinels `errors.Is` finds in it: `%w` keeps the sentinels of
what it wraps, `%v` keeps only the text.
-/

namespace CertsManager

/-! ## Errors -/

/-- The sentinel errors of errors.go and scheduler.go, and `os.ErrNotExist`. -/
inductive Sentinel where
  | notExist
  | notLeader
  | orderNotPersisted
  | persistFailed
  | storageUnavailable
  | keyCertMismatch
  | storedChainUnparseable
  deriving DecidableEq, Repr

def Sentinel.text : Sentinel → String
  | .notExist => "file does not exist"
  | .notLeader => "tls: operation must run on the cluster leader"
  | .orderNotPersisted => "tls: certificate issued but not yet persisted to storage"
  | .persistFailed => "tls: storing the certificate chain failed"
  | .storageUnavailable => "tls: storage could not be read"
  | .keyCertMismatch => "tls: private key does not match certificate leaf public key"
  | .storedChainUnparseable => "tls: stored chain could not be parsed"

structure Err where
  text : String
  sentinels : List Sentinel
  deriving DecidableEq, Repr

namespace Err

/-- `errors.Is`. -/
def is (e : Err) (s : Sentinel) : Bool :=
  e.sentinels.contains s

/-- `errors.New`, and `fmt.Errorf` without `%w`. -/
def new (text : String) : Err :=
  ⟨text, []⟩

def of (s : Sentinel) : Err :=
  ⟨s.text, [s]⟩

/-- `fmt.Errorf` with one `%w`, between two texts. -/
def wrap (before : String) (e : Err) (after : String) : Err :=
  ⟨before ++ e.text ++ after, e.sentinels⟩

@[simp] theorem is_new (text : String) (s : Sentinel) : (new text).is s = false := rfl

@[simp] theorem is_of (s s' : Sentinel) : (of s).is s' = decide (s' = s) := by
  simp [of, is]

@[simp] theorem is_wrap (before : String) (e : Err) (after : String) (s : Sentinel) :
    (wrap before e after).is s = e.is s := rfl

end Err

/-- What succeeds succeeded at every step. -/
theorem bind_eq_ok_iff {ε β γ : Type} {r : Except ε β} {f : β → Except ε γ} {out : γ} :
    r >>= f = .ok out ↔ ∃ b, r = .ok b ∧ f b = .ok out := by
  cases r <;> simp [bind, Except.bind]

/-! ## Keys -/

/-- `KeyType` in configuration; anything else is refused when a key is generated. -/
inductive KeyType where
  | ecdsaP256
  | rsa2048
  | other (text : String)
  deriving DecidableEq, Repr

structure PublicKey where
  id : Nat
  deriving DecidableEq, Repr

/-- A private key (`crypto.Signer`). -/
structure Key where
  id : Nat
  deriving DecidableEq, Repr

def Key.public (k : Key) : PublicKey :=
  ⟨k.id⟩

theorem Key.public_inj {k k' : Key} : k.public = k'.public ↔ k = k' := by
  cases k
  cases k'
  simp [Key.public]

/-- The SPKI SHA-256 digest of a public key (`dane.SPKISHA256`). -/
structure Digest where
  of : PublicKey
  deriving DecidableEq, Repr

def PublicKey.spkiSHA256 (p : PublicKey) : Digest :=
  ⟨p⟩

theorem PublicKey.spkiSHA256_inj {p p' : PublicKey} : p.spkiSHA256 = p'.spkiSHA256 ↔ p = p' :=
  Digest.mk.injEq p p' ▸ Iff.rfl

/-- A key object: `parseKeyPEM` returns the key or an error. -/
inductive KeyPEM where
  | key (k : Key)
  | garbage
  deriving DecidableEq, Repr

def parseKeyPEM : KeyPEM → Except Err Key
  | .key k => .ok k
  | .garbage => .error (.new "no PEM block found in key data")

def marshalKeyPEM (k : Key) : KeyPEM :=
  .key k

/-! ## Chains and certificates -/

/-- The leaf of a chain: the key it is bound to and its expiry, in whole seconds. -/
structure Leaf where
  pub : PublicKey
  notAfter : Nat
  deriving DecidableEq, Repr

/-- A chain object, by its first `CERTIFICATE` block. -/
inductive ChainPEM where
  | chain (leaf : Leaf)
  | garbage
  deriving DecidableEq, Repr

/-- `leafNotAfterPEM`. -/
def leafNotAfterPEM : ChainPEM → Except Err Nat
  | .chain leaf => .ok leaf.notAfter
  | .garbage => .error (.new "no CERTIFICATE block in chain")

/-- A `tls.Certificate` that `buildCertificate` made: its key signs for its leaf. -/
structure Certificate where
  leaf : Leaf
  privateKey : Key
  matching : privateKey.public = leaf.pub
  deriving DecidableEq, Repr

/-- `encodeChainPEM`, of what `buildCertificate` parsed. -/
def encodeChainPEM (cert : Certificate) : ChainPEM :=
  .chain cert.leaf

/-- `buildCertificate` with `verifyKeyMatchesLeaf`. -/
def buildCertificate (chainPEM : ChainPEM) (key : Key) : Except Err Certificate :=
  match chainPEM with
  | .garbage => .error (.new "no CERTIFICATE blocks in chain")
  | .chain leaf =>
      if h : key.public = leaf.pub then .ok ⟨leaf, key, h⟩ else .error (.of .keyCertMismatch)

/-- What `buildCertificate` returns is the pair it was given. -/
theorem buildCertificate_ok {chainPEM : ChainPEM} {key : Key} {cert : Certificate}
    (h : buildCertificate chainPEM key = .ok cert) :
    chainPEM = encodeChainPEM cert ∧ cert.privateKey = key := by
  cases chainPEM with
  | garbage => simp [buildCertificate] at h
  | chain leaf =>
      by_cases hk : key.public = leaf.pub
      · simp only [buildCertificate, hk, dite_true, Except.ok.injEq] at h
        subst h
        exact ⟨rfl, rfl⟩
      · simp [buildCertificate, hk] at h

/-- A chain that could not be stored (`pendingPersist`). -/
structure PendingPersist where
  chainPEM : ChainPEM
  notAfter : Nat
  deriving DecidableEq, Repr

/-! ## DANE records -/

/-- A retiring digest (`dane.RetiringRecord`); `retireAfter` is in whole seconds. -/
structure RetiringRecord where
  digest : Digest
  retireAfter : Nat
  deriving DecidableEq, Repr

def RetiringRecord.expired (r : RetiringRecord) (now : Time) : Bool :=
  decide (r.retireAfter ≤ unix now)

/-- A retiring-marker object. -/
inductive RetiringObject where
  | records (rs : List RetiringRecord)
  | garbage
  deriving DecidableEq, Repr

/-- Why a record is to be published (`Note`). -/
inductive RecordNote where
  | plain
  | next
  | retiring (retireAfter : Nat)
  deriving DecidableEq, Repr

/-- A "3 1 1" record (`dane.NewSPKIRecord`). -/
structure TLSARecord where
  mxHost : String
  cert : Digest
  ttl : Nat
  note : RecordNote
  deriving DecidableEq, Repr

/-- What a TLSA lookup found: the digests of its "3 1 1" records, and whether it holds any other
record of usage 3. -/
structure LookupResult where
  spkiDigests : List Digest
  otherDANEEE : Bool
  deriving DecidableEq, Repr

def LookupResult.hasDANEEE (r : LookupResult) : Bool :=
  r.otherDANEEE || !r.spkiDigests.isEmpty

def LookupResult.containsSPKIDigest (r : LookupResult) (d : Digest) : Bool :=
  r.spkiDigests.contains d

end CertsManager
