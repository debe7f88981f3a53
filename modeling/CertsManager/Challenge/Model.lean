import CertsManager.LocalFile
import CertsManager.Names

/-!
# Challenge.Model — the challenge servers of a cluster

`challenge.go`.  The node that drives an order registers the answer to a challenge in its own memory
and mirrors it to shared storage; the CA may ask any node, and a node that was not told reads
storage.  Every locked section and every storage call is one call of a program, so what a CA sees
may fall between any two of them.

The token certificate of a TLS-ALPN-01 challenge travels through storage as PEM
(`encodeChallengeCert`, `decodeChallengeCert`); `decode_encode` is its round trip.
-/

namespace CertsManager
namespace Challenge

open Interleave Pem ChainReaders LocalFile

/-! ## Tokens -/

def tokenMissTTL : Time := 10 * second
def tokenMissCap : Nat := 4096
def maxTokenLength : Nat := 128

def isTokenChar (c : Char) : Bool :=
  ('A' ≤ c && c ≤ 'Z') || ('a' ≤ c && c ≤ 'z') || ('0' ≤ c && c ≤ '9') || c = '-' || c = '_'

/-- The loop over the bytes of `s` refuses every byte of a character outside ASCII. -/
def validToken (s : String) : Bool :=
  s ≠ "" && s.utf8ByteSize ≤ maxTokenLength && s.toList.all isTokenChar

/-! ## Token certificates -/

/-- The fields of a `tls.Certificate` that make a token certificate. -/
structure TokenCertificate (δ : Type) where
  certificate : List δ
  privateKey : PrivateKey
  deriving DecidableEq, Repr

section

variable {α δ : Type} (c : Codec α δ) (x : KeyCrypto δ)

def encodeChallengeCert (cert : TokenCertificate δ) : Except Err (List α) :=
  match cert.certificate with
  | [] => .error (.new "token certificate has no DER")
  | der :: _ =>
      match cert.privateKey with
      | .other _ => .error (.new "token certificate key is not a crypto.Signer")
      | .signer signer =>
          match x.marshalPKCS8PrivateKey signer with
          | .error err => .error (.new err)
          | .ok keyDER =>
              .ok (c.encode ⟨"CERTIFICATE", [], der⟩ ++ c.encode ⟨"PRIVATE KEY", [], keyDER⟩)

/-- One block: a later one of a type replaces an earlier one. -/
def decodeStep (s : Option δ × Option δ) (block : Block δ) : Option δ × Option δ :=
  if block.type = "CERTIFICATE" then (some block.bytes, s.2)
  else if block.type = "PRIVATE KEY" then (s.1, some block.bytes)
  else s

def decodeChallengeCert (data : List α) : Except Err (TokenCertificate δ) := do
  match ← c.each (fun s b => .ok (decodeStep s b)) (none, none) data with
  | (some certDER, some keyDER) =>
      match x.parsePKCS8PrivateKey keyDER with
      | .error err => throw (.new err)
      | .ok key => return ⟨[certDER], key⟩
  | _ => throw (.new "challenge cert PEM missing certificate or key")

variable {c x}

theorem decodeChallengeCert_eq (data : List α) :
    decodeChallengeCert c x data =
      match (c.blocks data).foldl decodeStep (none, none) with
      | (some certDER, some keyDER) =>
          match x.parsePKCS8PrivateKey keyDER with
          | .error err => .error (.new err)
          | .ok key => .ok ⟨[certDER], key⟩
      | _ => .error (.new "challenge cert PEM missing certificate or key") := by
  rw [decodeChallengeCert, Codec.each_eq_foldlM, Codec.foldlM_ok]
  rfl

/-- What is encoded is a leaf and a key. -/
theorem encodeChallengeCert_ok {cert : TokenCertificate δ} {data : List α}
    (h : encodeChallengeCert c x cert = .ok data) :
    ∃ der ∈ cert.certificate.head?, ∃ signer keyDER, cert.privateKey = .signer signer ∧
      x.marshalPKCS8PrivateKey signer = .ok keyDER ∧
      data = c.encode ⟨"CERTIFICATE", [], der⟩ ++ c.encode ⟨"PRIVATE KEY", [], keyDER⟩ := by
  obtain ⟨ders, key⟩ := cert
  cases ders with
  | nil => simp [encodeChallengeCert] at h
  | cons der ders =>
      cases key with
      | other type => simp [encodeChallengeCert] at h
      | signer signer =>
          cases hkey : x.marshalPKCS8PrivateKey signer with
          | error err => simp [encodeChallengeCert, hkey] at h
          | ok keyDER =>
              refine ⟨der, rfl, signer, keyDER, rfl, hkey, ?_⟩
              simpa [encodeChallengeCert, hkey, eq_comm] using h

/-- The loop keeps the last block of each of the two types. -/
theorem foldl_decodeStep (bs : List (Block δ)) (s : Option δ × Option δ) :
    bs.foldl decodeStep s =
      (((bs.filter isCertificate).getLast?.map Block.bytes).or s.1,
        ((bs.filter isPrivateKey).getLast?.map Block.bytes).or s.2) := by
  induction bs using List.reverseRecOn with
  | nil => simp
  | append_singleton bs b ih =>
      rw [List.foldl_append, ih, List.foldl_cons, List.foldl_nil, decodeStep]
      by_cases hcert : b.type = "CERTIFICATE"
      · simp [hcert, isCertificate, isPrivateKey]
      · by_cases hkey : b.type = "PRIVATE KEY"
        · simp [hkey, isCertificate, isPrivateKey]
        · simp [hcert, hkey, isCertificate, isPrivateKey]

/-- What a node wrote is read back by any other, with the leaf and the key it was registered with
and nothing else. -/
theorem decode_encode (hpem : ∀ type ∈ fileTypes, ∀ bytes, c.RoundTrips ⟨type, [], bytes⟩)
    (hkey : PKCS8RoundTrips x) (cert : TokenCertificate δ) (data : List α) (h : encodeChallengeCert c x cert = .ok data) :
    ∃ der, cert.certificate.head? = some der ∧
      decodeChallengeCert c x data = .ok ⟨[der], cert.privateKey⟩ := by
  obtain ⟨der, hder, signer, keyDER, hsigner, hmarshal, rfl⟩ := encodeChallengeCert_ok h
  refine ⟨der, hder, ?_⟩
  have hblocks : c.blocks (c.encode ⟨"CERTIFICATE", [], der⟩ ++
      c.encode ⟨"PRIVATE KEY", [], keyDER⟩) =
        [⟨"CERTIFICATE", [], der⟩, ⟨"PRIVATE KEY", [], keyDER⟩] := by
    have hround : ∀ b ∈ [⟨"CERTIFICATE", [], der⟩, (⟨"PRIVATE KEY", [], keyDER⟩ : Block δ)],
        c.RoundTrips b := by
      intro b hb
      rcases List.mem_pair.1 hb with rfl | rfl
      · exact hpem "CERTIFICATE" (by decide) der
      · exact hpem "PRIVATE KEY" (by decide) keyDER
    simpa using Codec.blocks_flatMap_encode hround
  rw [decodeChallengeCert_eq, hblocks, hsigner]
  simp [decodeStep, hkey signer keyDER hmarshal]

/-- The form a token certificate has in storage is exact: what was written is read back as its leaf
and its key, and writing that again gives the same text; and whatever text is accepted, the
certificate is the last one in it and the key is what the last key in it parses to. -/
theorem challengeCert_roundTrips
    (hpem : ∀ type ∈ fileTypes, ∀ bytes, c.RoundTrips ⟨type, [], bytes⟩) (hkey : PKCS8RoundTrips x) :
    (∀ cert data, encodeChallengeCert c x cert = .ok data →
      ∃ der, cert.certificate.head? = some der ∧
        decodeChallengeCert c x data = .ok ⟨[der], cert.privateKey⟩ ∧
        encodeChallengeCert c x ⟨[der], cert.privateKey⟩ = .ok data) ∧
    ∀ cert data, decodeChallengeCert c x data = .ok cert →
      ∃ certBlock ∈ ((c.blocks data).filter isCertificate).getLast?,
        ∃ keyBlock ∈ ((c.blocks data).filter isPrivateKey).getLast?,
          cert.certificate = [certBlock.bytes] ∧
            x.parsePKCS8PrivateKey keyBlock.bytes = .ok cert.privateKey := by
  constructor
  · intro cert data hencode
    obtain ⟨der, hder, hdecode⟩ := decode_encode hpem hkey cert data hencode
    refine ⟨der, hder, hdecode, ?_⟩
    obtain ⟨der', hder', signer, keyDER, hsigner, hmarshal, rfl⟩ := encodeChallengeCert_ok hencode
    cases hder.symm.trans hder'
    simp [encodeChallengeCert, hsigner, hmarshal]
  · intro cert data hdecode
    rw [decodeChallengeCert_eq, foldl_decodeStep] at hdecode
    cases hcert : ((c.blocks data).filter isCertificate).getLast? with
    | none => simp [hcert] at hdecode
    | some certBlock =>
        cases hblock : ((c.blocks data).filter isPrivateKey).getLast? with
        | none => simp [hcert, hblock] at hdecode
        | some keyBlock =>
            refine ⟨certBlock, rfl, keyBlock, rfl, ?_⟩
            cases hparse : x.parsePKCS8PrivateKey keyBlock.bytes with
            | error err => simp [hcert, hblock, hparse] at hdecode
            | ok key =>
                simp only [hcert, hblock, Option.map_some, Option.some_or, hparse,
                  Except.ok.injEq] at hdecode
                subst hdecode
                exact ⟨rfl, rfl⟩

end

/-- A token certificate of two, written by one node and read by another. -/
theorem challengeCert_roundTrips_numbered :
    decodeChallengeCert (Codec.ofBlocks Nat) numberedKeys
      [⟨"CERTIFICATE", [], 7⟩, ⟨"PRIVATE KEY", [], 1⟩] = .ok ⟨[7], .signer ⟨1⟩⟩ := by
  have hall := challengeCert_roundTrips (c := Codec.ofBlocks Nat) (x := numberedKeys)
    (Codec.ofBlocks_faithful fileTypes).plain fun key der hder => by cases hder; rfl
  obtain ⟨der, hder, hdecode, -⟩ := hall.1 ⟨[7, 8], .signer ⟨1⟩⟩ _ rfl
  cases hder
  exact hdecode

/-! ## Servers -/

/-- What the servers of a cluster have in common. -/
structure Settings (δ : Type) where
  hasBackend : Bool
  keyPrefix : String
  unicode : Unicode
  pem : Codec Char δ
  crypto : KeyCrypto δ

/-- One node's `ChallengeServer`. -/
structure Server (δ : Type) where
  alpn : String → Option (TokenCertificate δ)
  http : String → Option String
  misses : AList fun _ : String => Time

structure World (N δ : Type) where
  node : N → Server δ
  object : String → Option (List Char)
  clock : Time

inductive Op (δ : Type) where
  | alpnPut (domain : String) (cert : TokenCertificate δ)
  | alpnDelete (domain : String)
  | alpnGet (domain : String)
  | httpPut (token keyAuth : String)
  | httpDelete (token : String)
  | httpGet (token : String)
  | missDelete (token : String)
  | missRecent (token : String)
  | missNote (token : String)
  | putObject (key : String) (data : List Char)
  | getObject (key : String)
  | removeObject (key : String)

@[reducible] def Res {δ : Type} : Op δ → Type
  | .alpnPut _ _ => Unit
  | .alpnDelete _ => Unit
  | .alpnGet _ => Option (TokenCertificate δ)
  | .httpPut _ _ => Unit
  | .httpDelete _ => Unit
  | .httpGet _ => Option String
  | .missDelete _ => Unit
  | .missRecent _ => Bool
  | .missNote _ => Unit
  | .putObject _ _ => Except Err Unit
  | .getObject _ => Except ReadFault (List Char)
  | .removeObject _ => Except Err Unit

abbrev M (δ α : Type) : Type := Prog (Op δ) Res α
abbrev History (δ : Type) : Type := Hist (Op δ) Res

def call {δ : Type} (o : Op δ) : M δ (Res o) := Prog.perform o

/-- What `HTTPHandler` writes: the page for an unknown path, or a text. -/
inductive Response where
  | notFound
  | text (body : String)
  deriving DecidableEq, Repr

def wellKnown : String := "/.well-known/acme-challenge/"

section

variable {δ : Type} (s : Settings δ)

def Settings.alpnKey (domain : String) : String :=
  s.keyPrefix ++ "challenges/alpn/" ++ s.unicode.lower domain

def Settings.httpKey (token : String) : String :=
  s.keyPrefix ++ "challenges/http/" ++ token

def putALPN (domain : String) (cert : TokenCertificate δ) : M δ (Except Err Unit) := do
  let domain := s.unicode.lower domain
  call (.alpnPut domain cert)
  if s.hasBackend then
    match encodeChallengeCert s.pem s.crypto cert with
    | .error err => return .error (.wrap ("encode tls-alpn-01 token for " ++ domain ++ ": ") err "")
    | .ok pemBytes =>
        match ← call (.putObject (s.alpnKey domain) pemBytes) with
        | .ok _ => return .ok ()
        | .error err =>
            call (.alpnDelete domain)
            return .error (.wrap ("mirror tls-alpn-01 token for " ++ domain ++ " to storage: ") err "")
  else return .ok ()

def removeFromStorage (key : String) : M δ Unit := do
  if s.hasBackend then
    let _ ← call (.removeObject key)
    return ()
  else return ()

def deleteALPN (domain : String) : M δ Unit := do
  let domain := s.unicode.lower domain
  call (.alpnDelete domain)
  removeFromStorage s (s.alpnKey domain)

def getALPN (domain : String) : M δ (Option (TokenCertificate δ)) := do
  let domain := s.unicode.lower domain
  match ← call (.alpnGet domain) with
  | some cert => return some cert
  | none =>
      if s.hasBackend then
        match ← call (.getObject (s.alpnKey domain)) with
        | .error _ => return none
        | .ok data =>
            match decodeChallengeCert s.pem s.crypto data with
            | .error _ => return none
            | .ok cert => return some cert
      else return none

def putHTTP (token keyAuth : String) : M δ (Except Err Unit) := do
  call (.httpPut token keyAuth)
  call (.missDelete token)
  if s.hasBackend then
    match ← call (.putObject (s.httpKey token) keyAuth.toList) with
    | .ok _ => return .ok ()
    | .error err =>
        call (.httpDelete token)
        return .error (.wrap "mirror http-01 token to storage: " err "")
  else return .ok ()

def deleteHTTP (token : String) : M δ Unit := do
  call (.httpDelete token)
  removeFromStorage s (s.httpKey token)

/-- `HTTPHandler` for a request with this path; every error of the read is noted as a miss. -/
def serve (path : String) : M δ Response := do
  if ¬ wellKnown.toList <+: path.toList then return .notFound
  else
    let token := String.ofList (path.toList.drop wellKnown.toList.length)
    if ! validToken token then return .notFound
    else
      match ← call (.httpGet token) with
      | some keyAuth => return .text keyAuth
      | none =>
          if s.hasBackend then
            if ← call (.missRecent token) then return .notFound
            else
              match ← call (.getObject (s.httpKey token)) with
              | .ok data => return .text (String.ofList data)
              | .error _ =>
                  call (.missNote token)
                  return .notFound
          else return .notFound

end

/-! ## What the calls do -/

structure Answer where
  elapsed : Time := 0
  outcome : Outcome := .ok
  reason : String := ""

section

variable {N T δ : Type} [DecidableEq N]

def World.setNode (w : World N δ) (i : N) (x : Server δ) : World N δ :=
  { w with node := Function.update w.node i x }

def World.setObject (w : World N δ) (key : String) (data : Option (List Char)) : World N δ :=
  { w with object := Function.update w.object key data }

/-- `noteTokenMiss`: a full table is dropped whole. -/
def noteTokenMiss (misses : AList fun _ : String => Time) (token : String) (now : Time) :
    AList fun _ : String => Time :=
  (if tokenMissCap ≤ misses.entries.length then ∅ else misses).insert token now

/-- `recentTokenMiss`. -/
def recentTokenMiss (misses : AList fun _ : String => Time) (token : String) (now : Time) : Bool :=
  match misses.lookup token with
  | some noted => decide (now < noted + tokenMissTTL)
  | none => false

/-- A write to storage, or the removal of an object. -/
def writeReply (a : Answer) (w w' : World N δ) : Option (Except Err Unit × World N δ) :=
  match a.outcome with
  | .ok => some (.ok (), w')
  | .fail => some (.error (.new a.reason), w)
  | .lost => some (.error (.new a.reason), w')
  | .conflict => none

def execAt (i : N) (w : World N δ) (a : Answer) : (o : Op δ) → Option (Res o × World N δ)
  | .alpnPut domain cert =>
      some ((), w.setNode i { w.node i with
        alpn := Function.update (w.node i).alpn domain (some cert) })
  | .alpnDelete domain =>
      some ((), w.setNode i { w.node i with alpn := Function.update (w.node i).alpn domain none })
  | .alpnGet domain => some ((w.node i).alpn domain, w)
  | .httpPut token keyAuth =>
      some ((), w.setNode i { w.node i with
        http := Function.update (w.node i).http token (some keyAuth) })
  | .httpDelete token =>
      some ((), w.setNode i { w.node i with http := Function.update (w.node i).http token none })
  | .httpGet token => some ((w.node i).http token, w)
  | .missDelete token =>
      some ((), w.setNode i { w.node i with misses := (w.node i).misses.erase token })
  | .missRecent token => some (recentTokenMiss (w.node i).misses token w.clock, w)
  | .missNote token =>
      some ((), w.setNode i { w.node i with
        misses := noteTokenMiss (w.node i).misses token w.clock })
  | .putObject key data => writeReply a w (w.setObject key (some data))
  | .getObject key =>
      match a.outcome, w.object key with
      | .ok, some data => some (.ok data, w)
      | .ok, none => some (.error .notExist, w)
      | _, _ => some (.error (.failed false a.reason), w)
  | .removeObject key => writeReply a w (w.setObject key none)

def World.pass (w : World N δ) (elapsed : Time) : World N δ :=
  { w with clock := w.clock + elapsed }

/-- Time passes, then the call is made. -/
def exec (node : T → N) (w : World N δ) (t : T) (o : Op δ) (a : Answer) :
    Option (Res o × World N δ) :=
  execAt (node t) (w.pass a.elapsed) a o

end

inductive Call (δ : Type) where
  | putALPN (domain : String) (cert : TokenCertificate δ)
  | deleteALPN (domain : String)
  | getALPN (domain : String)
  | putHTTP (token keyAuth : String)
  | deleteHTTP (token : String)
  | serve (path : String)
  deriving DecidableEq

inductive Out (δ : Type) where
  | put (r : Except Err Unit)
  | deleted
  | alpn (cert : Option (TokenCertificate δ))
  | response (r : Response)

def body {δ : Type} (s : Settings δ) : Call δ → M δ (Out δ)
  | .putALPN domain cert => .put <$> putALPN s domain cert
  | .deleteALPN domain => (fun _ => .deleted) <$> deleteALPN s domain
  | .getALPN domain => .alpn <$> getALPN s domain
  | .putHTTP token keyAuth => .put <$> putHTTP s token keyAuth
  | .deleteHTTP token => (fun _ => .deleted) <$> deleteHTTP s token
  | .serve path => .response <$> serve s path

/-- A node that has just been started. -/
def Server.new {δ : Type} : Server δ where
  alpn _ := none
  http _ := none
  misses := ∅

/-- Nodes that have just been started, over an empty storage. -/
def World.new (N δ : Type) : World N δ where
  node _ := .new
  object _ := none
  clock := 0

/-- The servers of a cluster over one storage. -/
def servers {N T δ : Type} [DecidableEq N] (s : Settings δ) (node : T → N) :
    Machine (Op δ) Res (World N δ) T (Call δ) (Out δ) Answer where
  exec := exec node
  body := body s

abbrev ServersView (N T δ : Type) : Type := View (Op δ) Res (World N δ) T (Call δ)
abbrev ServersLabel (T δ : Type) : Type := Label (Op δ) Res T (Call δ) (Out δ)

end Challenge
end CertsManager
