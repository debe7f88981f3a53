import CertsManager.ChainReaders
import CertsManager.KeyStore
import CertsManager.Lexical.Path

/-!
# LocalFile — the local copy as a file

`localCopy.save` and `localCopy.load` (local_copy.go) with `encodeChainPEM` (scheduler.go),
`buildCertificate` (cert_cache.go) and `marshalKeyPEM`, `parseKeyPEM` (keystore.go), over bytes.  A
name's file is its key, then its chain.  Reading it back takes the blocks apart, writes the
certificates once more and reads those.

`Copy` says what a file must hold for a certificate to be loaded from it; `load_ok_iff` is the one
place where the loops of `load` are followed, and both directions of the round trip go through it.
-/

namespace CertsManager
namespace LocalFile

open Pem ChainReaders Lexical Layout

/-! ## Keys and certificates -/

/-- A `crypto.PrivateKey`: a `crypto.Signer`, or a value of another type. -/
inductive PrivateKey where
  | signer (key : Key)
  | other (type : String)
  deriving DecidableEq, Repr

/-- A `tls.Certificate`. -/
structure TLSCertificate (δ : Type) where
  certificate : List δ
  privateKey : PrivateKey
  leaf : X509
  deriving DecidableEq, Repr

/-- The rest of `crypto` that the local copy uses. -/
structure KeyCrypto (δ : Type) extends Crypto δ where
  marshalPKCS8PrivateKey : Key → Except String δ
  parsePKCS8PrivateKey : δ → Except String PrivateKey
  /-- The public key has a method `Equal`. -/
  comparable : PublicKey → Bool
  verifyHostname : X509 → String → Except Err Unit
  rfc3339 : Time → String

section

variable {α δ : Type} (c : Codec α δ) (x : KeyCrypto δ)

def marshalKeyPEM (signer : Key) : Except Err (List α) :=
  match x.marshalPKCS8PrivateKey signer with
  | .error err => .error (.new ("marshal private key: " ++ err))
  | .ok der => .ok (c.encode ⟨"PRIVATE KEY", [], der⟩)

def parseKeyPEM (data : List α) : Except Err Key :=
  match c.decode data with
  | none => .error (.new "no PEM block found in key data")
  | some (block, _) =>
      match x.parsePKCS8PrivateKey block.bytes with
      | .error err => .error (.new ("parse PKCS#8 private key: " ++ err))
      | .ok (.other _) => .error (.new "stored key is not a crypto.Signer")
      | .ok (.signer signer) => .ok signer

def encodeChainPEM (ders : List δ) : List α :=
  ders.foldl (fun buf der => buf ++ c.encode ⟨"CERTIFICATE", [], der⟩) []

def verifyKeyMatchesLeaf (key : Key) (leaf : X509) : Except Err Unit :=
  if x.comparable key.public then
    if key.public = leaf.pub then .ok () else .error (.of .keyCertMismatch)
  else .error (.new "private key type does not support public-key comparison")

def buildCertificate (chainPEM : List α) (key : Key) : Except Err (TLSCertificate δ) :=
  match buildLeaf c x.toCrypto chainPEM with
  | .error err => .error (.new err)
  | .ok (ders, leaf) =>
      match verifyKeyMatchesLeaf x key leaf with
      | .error err => .error err
      | .ok () => .ok ⟨ders, .signer key, leaf⟩

/-! ## The file of a name -/

/-- The files of the machine, by their paths. -/
abbrev Files (α : Type) : Type := String → Option (List α)

def Files.set (files : Files α) (path : String) (data : Option (List α)) : Files α :=
  fun p => if p = path then data else files p

/-- `os.ReadFile`; a `fault` is any error but that there is no such file. -/
def readFile (fault : Option Err) (files : Files α) (path : String) : Except Err (List α) :=
  match fault with
  | some err => .error err
  | none =>
      match files path with
      | some data => .ok data
      | none => .error (.of .notExist)

/-- How the disk answers a `save`: the errors of its steps, the number in the name of the temporary
file, and what a failed save leaves under that name. -/
structure Disk (α : Type) where
  read : Option Err
  createTemp : Except Err Nat
  write : Option Err
  sync : Option Err
  close : Option Err
  rename : Option Err
  leftover : Option (List α)

/-- A directory; `newLocalCopy` refuses the empty path, which cannot be created. -/
structure LocalCopy where
  dir : String
  dir_ne : dir ≠ ""

namespace LocalCopy

variable (l : LocalCopy)

def path (name : String) : Except Err String :=
  if name = "" ∨ name.toList.any (fun ch => ch = '/' ∨ ch = '\\') ∨ ['.'] <+: name.toList then
    .error (.new ("tls: " ++ quoted name ++ " is not a name the local copy can file"))
  else .ok (String.ofList (join l.dir.toList (name ++ ".pem").toList))

/-- The path `os.CreateTemp` makes of the directory, the pattern and a number. -/
def tempPath (name : String) (n : Nat) : String :=
  l.dir ++ "/" ++ ("." ++ name ++ ".tmp-" ++ toString n)

/-- Create, write, sync and close a temporary file, and rename it to `path`. -/
def replace (disk : Disk α) (files : Files α) (name path : String) (data : List α) :
    Except Err Unit × Files α :=
  match disk.createTemp with
  | .error err => (.error err, files)
  | .ok n =>
      let tmp := l.tempPath name n
      -- the deferred removal has no effect once the file is renamed
      match disk.write.or (disk.sync.or (disk.close.or disk.rename)) with
      | some err => (.error err, files.set tmp disk.leftover)
      | none => (.ok (), ((files.set tmp none).set path (some data)).set tmp none)

def save [DecidableEq α] (disk : Disk α) (files : Files α) (name : String) (cert : TLSCertificate δ) :
    Except Err Unit × Files α :=
  match l.path name with
  | .error err => (.error err, files)
  | .ok path =>
      match cert.privateKey with
      | .other type =>
          (.error (.new ("tls: private key for " ++ name ++ " is " ++ type ++
            ", not a crypto.Signer")), files)
      | .signer signer =>
          match marshalKeyPEM c x signer with
          | .error err => (.error err, files)
          | .ok keyPEM =>
              let data := keyPEM ++ encodeChainPEM c cert.certificate
              match readFile disk.read files path with
              | .error _ => l.replace disk files name path data
              | .ok current =>
                  if current = data then (.ok (), files)
                  else l.replace disk files name path data

/-- One block of the file: the key and the chain read so far. -/
def loadStep (s : Option (List α) × List α) (block : Block δ) :
    Except Err (Option (List α) × List α) :=
  if block.type = "PRIVATE KEY" then
    if s.1.isSome then .error (.new "more than one private key in the file")
    else .ok (some (c.encode block), s.2)
  else if block.type = "CERTIFICATE" then .ok (s.1, s.2 ++ c.encode block)
  else .ok s

def loadData (name : String) (now : Time) (data : List α) : Except Err (TLSCertificate δ) := do
  let (keyPEM, chainPEM) ← c.each (loadStep c) (none, []) data
  match keyPEM with
  | none => throw (.new "no private key in the file")
  | some keyPEM =>
      let key ← parseKeyPEM c x keyPEM
      let cert ← buildCertificate c x chainPEM key
      x.verifyHostname cert.leaf (certDomain name)
      if now < cert.leaf.notAfter then return cert
      else throw (.new ("the certificate expired at " ++ x.rfc3339 cert.leaf.notAfter))

def load (fault : Option Err) (files : Files α) (name : String) (now : Time) :
    Except Err (TLSCertificate δ) := do
  let path ← l.path name
  let data ← readFile fault files path
  loadData c x name now data

end LocalCopy

/-! ## What a certificate and a file must be -/

/-- The chain is led by the leaf, and the key signs for it. -/
structure Paired (cert : TLSCertificate δ) (key : Key) : Prop where
  signer : cert.privateKey = .signer key
  leaf : ∃ der ∈ cert.certificate.head?, x.parseCertificate der = .ok cert.leaf
  matching : verifyKeyMatchesLeaf x key cert.leaf = .ok ()

def isPrivateKey (b : Block δ) : Bool :=
  b.type = "PRIVATE KEY"

/-- The file holds one private key and, in the order of the chain, the certificates. -/
structure Copy (data : List α) (cert : TLSCertificate δ) (key : Key) : Prop where
  paired : Paired x cert key
  oneKey : ∃ b, (c.blocks data).filter isPrivateKey = [b] ∧
    x.parsePKCS8PrivateKey b.bytes = .ok (.signer key)
  chain : cert.certificate = ((c.blocks data).filter isCertificate).map Block.bytes

/-- What is marshalled is parsed to the same key. -/
def PKCS8RoundTrips : Prop :=
  ∀ key der, x.marshalPKCS8PrivateKey key = .ok der → x.parsePKCS8PrivateKey der = .ok (.signer key)

/-- The types of the blocks of a file. -/
def fileTypes : List String :=
  ["PRIVATE KEY", "CERTIFICATE"]

end

variable {α δ : Type} {c : Codec α δ} {x : KeyCrypto δ}

/-! ## Building a certificate -/

theorem buildCertificate_ok_iff {chainPEM : List α} {key : Key} {cert : TLSCertificate δ} :
    buildCertificate c x chainPEM key = .ok cert ↔
      Paired x cert key ∧ cert.certificate = chainDERs c chainPEM := by
  constructor
  · intro h
    unfold buildCertificate buildLeaf at h
    cases hders : chainDERs c chainPEM with
    | nil => simp [hders] at h
    | cons der ders =>
        cases hleaf : x.parseCertificate der with
        | error err => simp [hders, hleaf] at h
        | ok leaf =>
            cases hkey : verifyKeyMatchesLeaf x key leaf with
            | error err => simp [hders, hleaf, hkey] at h
            | ok u =>
                simp only [hders, hleaf, hkey, Except.ok.injEq] at h
                subst h
                exact ⟨⟨rfl, ⟨der, rfl, hleaf⟩, hkey⟩, rfl⟩
  · rintro ⟨⟨hkey, ⟨der, hder, hleaf⟩, hmatch⟩, hders⟩
    obtain ⟨ders, privateKey, leaf⟩ := cert
    cases ders with
    | nil => cases hder
    | cons der' ders =>
        cases hder
        cases hkey
        simp only [buildCertificate, buildLeaf, ← hders, hleaf, hmatch]

theorem encodeChainPEM_eq (ders : List δ) :
    encodeChainPEM c ders = (ders.map fun der => ⟨"CERTIFICATE", [], der⟩).flatMap c.encode := by
  have hfold : ∀ (ders : List δ) (buf : List α),
      ders.foldl (fun buf der => buf ++ c.encode ⟨"CERTIFICATE", [], der⟩) buf =
        buf ++ (ders.map fun der => ⟨"CERTIFICATE", [], der⟩).flatMap c.encode := by
    intro ders
    induction ders with
    | nil => simp
    | cons der ders ih => simp [ih]
  exact hfold ders []

/-- The certificate blocks of a text, written out again, hold the same chain. -/
theorem chainDERs_flatMap_encode {bs : List (Block δ)} (hbs : ∀ b ∈ bs, c.RoundTrips b)
    (hcert : ∀ b ∈ bs, isCertificate b = true) :
    chainDERs c (bs.flatMap c.encode) = bs.map Block.bytes := by
  rw [chainDERs_eq, Codec.blocks_flatMap_encode hbs, List.filter_eq_self.2 hcert]

/-- `parseKeyPEM` of a block that is found again. -/
theorem parseKeyPEM_encode {b : Block δ} (hb : c.RoundTrips b) (key : Key) :
    parseKeyPEM c x (c.encode b) = .ok key ↔
      x.parsePKCS8PrivateKey b.bytes = .ok (.signer key) := by
  have hdecode : c.decode (c.encode b) = some (b, []) := by
    simpa using hb []
  rw [parseKeyPEM, hdecode]
  cases hparse : x.parsePKCS8PrivateKey b.bytes with
  | error err => simp [hparse]
  | ok k =>
      cases k with
      | signer key => simp [hparse]
      | other type => simp [hparse]

section

variable (hpem : c.Faithful fileTypes)

include hpem

theorem roundTrips_privateKey {data : List α} {b : Block δ}
    (hb : b ∈ (c.blocks data).filter isPrivateKey) : c.RoundTrips b := by
  obtain ⟨hmem, htype⟩ := List.mem_filter.1 hb
  refine hpem.read data b hmem ?_
  rw [of_decide_eq_true htype]
  decide

theorem roundTrips_certificate {data : List α} {b : Block δ}
    (hb : b ∈ (c.blocks data).filter isCertificate) : c.RoundTrips b := by
  obtain ⟨hmem, htype⟩ := List.mem_filter.1 hb
  refine hpem.read data b hmem ?_
  rw [of_decide_eq_true htype]
  decide

theorem chainDERs_encodeChainPEM (ders : List δ) : chainDERs c (encodeChainPEM c ders) = ders := by
  rw [encodeChainPEM_eq, chainDERs_flatMap_encode]
  · simp [Function.comp_def]
  · intro b hb
    obtain ⟨der, -, rfl⟩ := List.mem_map.1 hb
    exact hpem.plain "CERTIFICATE" (by decide) der
  · intro b hb
    obtain ⟨der, -, rfl⟩ := List.mem_map.1 hb
    rfl

/-- A chain that is written is built again with any key that signs for its leaf. -/
theorem buildCertificate_encodeChainPEM {cert : TLSCertificate δ} {key : Key}
    (hcert : Paired x cert key) :
    buildCertificate c x (encodeChainPEM c cert.certificate) key = .ok cert :=
  buildCertificate_ok_iff.2 ⟨hcert, (chainDERs_encodeChainPEM hpem _).symm⟩

end

/-! ## Reading the file -/

namespace LocalCopy

/-- The loop of `load`: it collects the keys and the certificates, and there is room for one key. -/
theorem foldlM_loadStep {bs : List (Block δ)} {s s' : Option (List α) × List α} :
    bs.foldlM (loadStep c) s = .ok s' ↔
      s'.1.toList = s.1.toList ++ (bs.filter isPrivateKey).map c.encode ∧
        s'.2 = s.2 ++ (bs.filter isCertificate).flatMap c.encode := by
  induction bs generalizing s with
  | nil =>
      obtain ⟨keyPEM, chainPEM⟩ := s
      obtain ⟨keyPEM', chainPEM'⟩ := s'
      cases keyPEM <;> cases keyPEM' <;> simp [pure, Except.pure, eq_comm]
  | cons b bs ih =>
      rw [List.foldlM_cons, loadStep]
      by_cases hkey : b.type = "PRIVATE KEY"
      · have hnot : isCertificate b = false := by simp [isCertificate, hkey]
        have hyes : isPrivateKey b = true := by simp [isPrivateKey, hkey]
        obtain ⟨keyPEM, chainPEM⟩ := s
        cases keyPEM with
        | none => simp [hkey, hnot, hyes, bind, Except.bind, ih]
        | some k =>
            -- a second key is one more than an option holds
            obtain ⟨keyPEM', chainPEM'⟩ := s'
            cases keyPEM' <;> simp [hkey, hnot, hyes, bind, Except.bind]
      · have hkey' : isPrivateKey b = false := by simp [isPrivateKey, hkey]
        by_cases hcert : b.type = "CERTIFICATE"
        · have hyes : isCertificate b = true := by simp [isCertificate, hcert]
          simp [hcert, hyes, hkey', bind, Except.bind, ih]
        · have hnot : isCertificate b = false := by simp [isCertificate, hcert]
          simp [hkey, hcert, hnot, hkey', bind, Except.bind, ih]

/-- What `load` returns of a file's bytes. -/
theorem loadData_ok_iff (hpem : c.Faithful fileTypes) {name : String} {now : Time} {data : List α}
    {cert : TLSCertificate δ} :
    loadData c x name now data = .ok cert ↔
      (∃ key, Copy c x data cert key) ∧
        x.verifyHostname cert.leaf (certDomain name) = .ok () ∧ now < cert.leaf.notAfter := by
  have hchain : chainDERs c (((c.blocks data).filter isCertificate).flatMap c.encode) =
      ((c.blocks data).filter isCertificate).map Block.bytes :=
    chainDERs_flatMap_encode (fun b hb => roundTrips_certificate hpem hb)
      fun b hb => (List.mem_filter.1 hb).2
  rw [loadData, bind_eq_ok_iff, Codec.each_eq_foldlM]
  constructor
  · rintro ⟨⟨keyPEM, chainPEM⟩, hfold, h⟩
    obtain ⟨hkeys, hcerts⟩ := foldlM_loadStep.1 hfold
    cases keyPEM with
    | none => cases h
    | some keyPEM =>
        obtain ⟨key, hkey, h⟩ := bind_eq_ok_iff.1 h
        obtain ⟨built, hbuild, h⟩ := bind_eq_ok_iff.1 h
        obtain ⟨u, hhost, h⟩ := bind_eq_ok_iff.1 h
        by_cases hfresh : now < built.leaf.notAfter
        · rw [if_pos hfresh] at h
          cases h
          -- one key was read, and it is the one block of that type
          obtain ⟨b, hb, rfl⟩ := List.map_eq_singleton_iff.1 (by simpa using hkeys.symm)
          have hparse := (parseKeyPEM_encode
            (roundTrips_privateKey hpem (hb ▸ List.mem_singleton_self b)) key).1 hkey
          obtain ⟨hpaired, hders⟩ := buildCertificate_ok_iff.1 hbuild
          have hcopied : chainDERs c chainPEM = _ := (congrArg (chainDERs c) hcerts).trans hchain
          exact ⟨⟨key, hpaired, ⟨b, hb, hparse⟩, hders.trans hcopied⟩, hhost, hfresh⟩
        · rw [if_neg hfresh] at h
          cases h
  · rintro ⟨⟨key, hpaired, ⟨b, hb, hkey⟩, hders⟩, hhost, hfresh⟩
    refine ⟨(some (c.encode b), ((c.blocks data).filter isCertificate).flatMap c.encode),
      foldlM_loadStep.2 ⟨by simp [hb], by simp⟩, ?_⟩
    have hparse := (parseKeyPEM_encode
      (roundTrips_privateKey hpem (hb ▸ List.mem_singleton_self b)) key).2 hkey
    have hbuild := buildCertificate_ok_iff.2 ⟨hpaired, hders.trans hchain.symm⟩
    refine bind_eq_ok_iff.2 ⟨key, hparse, bind_eq_ok_iff.2 ⟨cert, hbuild, ?_⟩⟩
    refine bind_eq_ok_iff.2 ⟨(), hhost, ?_⟩
    rw [if_pos hfresh]
    rfl

theorem load_ok_iff (hpem : c.Faithful fileTypes) {l : LocalCopy} {fault : Option Err}
    {files : Files α} {name : String} {now : Time} {cert : TLSCertificate δ} :
    l.load c x fault files name now = .ok cert ↔
      ∃ path data, l.path name = .ok path ∧ readFile fault files path = .ok data ∧
        (∃ key, Copy c x data cert key) ∧
          x.verifyHostname cert.leaf (certDomain name) = .ok () ∧ now < cert.leaf.notAfter := by
  simp only [load, bind_eq_ok_iff, loadData_ok_iff hpem]
  constructor
  · rintro ⟨path, hpath, data, hread, hcopy⟩
    exact ⟨path, data, hpath, hread, hcopy⟩
  · rintro ⟨path, data, hpath, hread, hcopy⟩
    exact ⟨path, hpath, data, hread, hcopy⟩

/-! ## Writing the file -/

variable {l : LocalCopy} {name path : String}

theorem path_ok (hpath : l.path name = .ok path) :
    (name ≠ "" ∧ '/' ∉ name.toList ∧ ¬ ['.'] <+: name.toList) ∧
      path = String.ofList (join l.dir.toList (name ++ ".pem").toList) := by
  unfold LocalCopy.path at hpath
  split at hpath
  · cases hpath
  · rename_i hname
    simp only [not_or, List.any_eq_true, decide_eq_true_eq, not_exists, not_and] at hname
    cases hpath
    exact ⟨⟨hname.1, fun h => (hname.2.1 '/' h).1 rfl, hname.2.2⟩, rfl⟩

/-- A temporary file is not the file of the name. -/
theorem path_ne_tempPath (hpath : l.path name = .ok path) (n : Nat) :
    path ≠ l.tempPath name n := by
  obtain ⟨⟨hne, hslash, hdot⟩, rfl⟩ := path_ok hpath
  obtain ⟨ch, rest, hname⟩ := List.exists_cons_of_ne_nil
    (fun h => hne (String.toList_inj.1 h) : name.toList ≠ [])
  have hch : ch ≠ '.' := by
    rintro rfl
    exact hdot (hname ▸ by simp)
  have hfile : Written (name ++ ".pem").toList := by
    refine ⟨by simp [hslash], ?_, ?_, ?_⟩ <;> simp [hname, dotSegment, dotdotSegment, hch]
  -- the last segment of one path starts with a dot, that of the other does not
  intro heq
  have hlast := getLast?_segments_join l.dir.toList hfile
  have htemp : '/' ∉ ("." ++ name ++ ".tmp-" ++ toString n).toList := by
    have hdigits : '/' ∉ (toString n).toList := by
      intro hmem
      have hdigit := Nat.isDigit_of_mem_toDigits (b := 10) (n := n) (by decide) (by decide)
        (c := '/') (by simpa [toString] using hmem)
      exact absurd hdigit (by decide)
    simp only [String.toList_append, List.mem_append, hslash, hdigits, or_false]
    decide
  rw [← String.toList_ofList (l := join _ _), heq, tempPath, String.toList_append,
    String.toList_append, List.append_assoc, show "/".toList = ['/'] from rfl,
    List.singleton_append, segments_append_slash, segments_of_slash_notMem htemp,
    List.getLast?_concat, Option.some.injEq] at hlast
  have hhead := congrArg List.head? hlast
  simp [hname] at hhead
  exact hch hhead.symm

/-- What a save that reports no error leaves in the file of the name. -/
theorem replace_ok (hpath : l.path name = .ok path) {disk : Disk α} {files : Files α}
    {data : List α} (h : (l.replace disk files name path data).1 = .ok ()) :
    (l.replace disk files name path data).2 path = some data := by
  unfold replace at h ⊢
  cases htemp : disk.createTemp with
  | error err => simp [htemp] at h
  | ok n =>
      cases hfault : disk.write.or (disk.sync.or (disk.close.or disk.rename)) with
      | some err => simp [htemp, hfault] at h
      | none => simp [Files.set, path_ne_tempPath hpath n]

/-- A replacement that reports an error leaves the file of the name as it was. -/
theorem replace_error (hpath : l.path name = .ok path) {disk : Disk α} {files : Files α}
    {data : List α} {err : Err} (h : (l.replace disk files name path data).1 = .error err) :
    (l.replace disk files name path data).2 path = files path := by
  unfold replace at h ⊢
  cases htemp : disk.createTemp with
  | error err => rfl
  | ok n =>
      cases hfault : disk.write.or (disk.sync.or (disk.close.or disk.rename)) with
      | some err => simp [Files.set, path_ne_tempPath hpath n]
      | none => simp [htemp, hfault] at h

section

variable [DecidableEq α] {disk : Disk α} {files : Files α} {cert : TLSCertificate δ}

/-- A save that reports no error leaves the key and the chain in the file of the name. -/
theorem save_ok (h : (l.save c x disk files name cert).1 = .ok ()) :
    ∃ path key der, l.path name = .ok path ∧ cert.privateKey = .signer key ∧
      x.marshalPKCS8PrivateKey key = .ok der ∧
      (l.save c x disk files name cert).2 path =
        some (c.encode ⟨"PRIVATE KEY", [], der⟩ ++ encodeChainPEM c cert.certificate) := by
  unfold save at h ⊢
  cases hpath : l.path name with
  | error err => simp [hpath] at h
  | ok path =>
      cases hkey : cert.privateKey with
      | other type => simp [hpath, hkey] at h
      | signer key =>
          cases hder : x.marshalPKCS8PrivateKey key with
          | error err => simp [hpath, hkey, marshalKeyPEM, hder] at h
          | ok der =>
              refine ⟨path, key, der, rfl, rfl, hder, ?_⟩
              simp only [hpath, hkey, marshalKeyPEM, hder] at h ⊢
              cases hread : readFile disk.read files path with
              | error err =>
                  simp only [hread] at h ⊢
                  exact replace_ok hpath h
              | ok current =>
                  simp only [hread] at h ⊢
                  split at h
                  · rename_i hsame
                    rw [if_pos hsame]
                    have hcurrent : files path = some current := by
                      unfold readFile at hread
                      grind
                    exact hcurrent.trans (congrArg some hsame)
                  · rename_i hdiffers
                    rw [if_neg hdiffers]
                    exact replace_ok hpath h

/-- A save that reports an error leaves the file of the name as it was. -/
theorem save_error (hpath : l.path name = .ok path) {err : Err}
    (h : (l.save c x disk files name cert).1 = .error err) :
    (l.save c x disk files name cert).2 path = files path := by
  unfold save at h ⊢
  simp only [hpath] at h ⊢
  cases hkey : cert.privateKey with
  | other type => rfl
  | signer key =>
      cases hder : marshalKeyPEM c x key with
      | error err => simp [hder]
      | ok keyPEM =>
          simp only [hkey, hder] at h ⊢
          split at h
          · exact replace_error hpath h
          · split at h
            · cases h
            · rename_i hdiffers
              rw [if_neg hdiffers]
              exact replace_error hpath h

/-- On a disk that answers, a certificate whose key is marshalled is saved. -/
theorem save_of_disk (hpath : l.path name = .ok path) {key : Key} {der : δ}
    (hkey : cert.privateKey = .signer key) (hder : x.marshalPKCS8PrivateKey key = .ok der)
    {n : Nat} (htemp : disk.createTemp = .ok n)
    (hdisk : disk.write.or (disk.sync.or (disk.close.or disk.rename)) = none) :
    (l.save c x disk files name cert).1 = .ok () := by
  have hreplace : ∀ data, (l.replace disk files name path data).1 = .ok () := by
    intro data
    simp [replace, htemp, hdisk]
  simp only [save, hpath, hkey, marshalKeyPEM, hder]
  cases readFile disk.read files path with
  | error err => exact hreplace _
  | ok current =>
      dsimp only
      split
      · rfl
      · exact hreplace _

omit [DecidableEq α] in
/-- The file of a saved certificate is a copy of it. -/
theorem copy_of_save (hpem : c.Faithful fileTypes) (hpkcs8 : PKCS8RoundTrips x) {key : Key}
    (hcert : Paired x cert key) {der : δ} (hder : x.marshalPKCS8PrivateKey key = .ok der) :
    Copy c x (c.encode ⟨"PRIVATE KEY", [], der⟩ ++ encodeChainPEM c cert.certificate) cert key := by
  have hblocks : c.blocks (c.encode ⟨"PRIVATE KEY", [], der⟩ ++ encodeChainPEM c cert.certificate) =
      ⟨"PRIVATE KEY", [], der⟩ :: cert.certificate.map fun der => ⟨"CERTIFICATE", [], der⟩ := by
    rw [Codec.blocks_encode (hpem.plain "PRIVATE KEY" (by decide) der), encodeChainPEM_eq,
      Codec.blocks_flatMap_encode]
    intro b hb
    obtain ⟨der', -, rfl⟩ := List.mem_map.1 hb
    exact hpem.plain "CERTIFICATE" (by decide) der'
  refine ⟨hcert, ⟨⟨"PRIVATE KEY", [], der⟩, ?_, hpkcs8 key der hder⟩, ?_⟩
  · rw [hblocks, List.filter_cons_of_pos rfl, List.filter_map]
    simp [Function.comp_def, isPrivateKey]
  · rw [hblocks, List.filter_cons_of_neg (by simp [isCertificate]), List.filter_map]
    simp [Function.comp_def, isCertificate]

end

end LocalCopy

/-! ## The round trips -/

/-- A chain that is encoded is built again; a certificate that is saved is loaded again, as it was;
and what is loaded, from any file, has the one private key of the file, which signs for the leaf of
the file's chain, covers the hostname and has not expired.  On a disk that answers a save succeeds. -/
theorem localCopy_roundTrips [DecidableEq α] (c : Codec α δ) (x : KeyCrypto δ)
    (hpem : c.Faithful fileTypes) (hpkcs8 : PKCS8RoundTrips x) :
    (∀ der ders leaf key, x.parseCertificate der = .ok leaf →
      verifyKeyMatchesLeaf x key leaf = .ok () →
      buildCertificate c x (encodeChainPEM c (der :: ders)) key =
        .ok ⟨der :: ders, .signer key, leaf⟩) ∧
    (∀ (l : LocalCopy) name path cert key now disk files, l.path name = .ok path →
      Paired x cert key → x.verifyHostname cert.leaf (certDomain name) = .ok () →
      now < cert.leaf.notAfter →
      ((l.save c x disk files name cert).1 = .ok () →
        l.load c x none (l.save c x disk files name cert).2 name now = .ok cert) ∧
      ((∃ der, x.marshalPKCS8PrivateKey key = .ok der) → (∃ n, disk.createTemp = .ok n) →
        disk.write.or (disk.sync.or (disk.close.or disk.rename)) = none →
          (l.save c x disk files name cert).1 = .ok ())) ∧
    (∀ (l : LocalCopy) fault files name now cert, l.load c x fault files name now = .ok cert →
      ∃ path data key, l.path name = .ok path ∧ readFile fault files path = .ok data ∧
        Copy c x data cert key ∧ x.verifyHostname cert.leaf (certDomain name) = .ok () ∧
          now < cert.leaf.notAfter) := by
  refine ⟨?_, ?_, ?_⟩
  · intro der ders leaf key hleaf hkey
    have hpaired : Paired x ⟨der :: ders, .signer key, leaf⟩ key := ⟨rfl, ⟨der, rfl, hleaf⟩, hkey⟩
    exact buildCertificate_encodeChainPEM hpem hpaired
  · intro l name path cert key now disk files hpath hcert hhost hfresh
    refine ⟨fun hsave => ?_, fun ⟨der, hder⟩ ⟨n, htemp⟩ hdisk =>
      LocalCopy.save_of_disk hpath hcert.signer hder htemp hdisk⟩
    obtain ⟨path', key', der, hpath', hkey', hder, hdata⟩ := LocalCopy.save_ok hsave
    obtain rfl : key' = key := PrivateKey.signer.inj (hkey'.symm.trans hcert.signer)
    refine (LocalCopy.load_ok_iff hpem).2 ⟨path', _, hpath', ?_,
      ⟨key', LocalCopy.copy_of_save hpem hpkcs8 hcert hder⟩, hhost, hfresh⟩
    simp only [readFile, hdata]
  · intro l fault files name now cert hload
    obtain ⟨path, data, hpath, hread, ⟨key, hcopy⟩, hhost, hfresh⟩ :=
      (LocalCopy.load_ok_iff hpem).1 hload
    exact ⟨path, data, key, hpath, hread, hcopy, hhost, hfresh⟩

/-! ## A certificate saved and loaded -/

/-- The numbered certificates, with keys that are written as their numbers. -/
def numberedKeys : KeyCrypto Nat where
  toCrypto := numbered
  marshalPKCS8PrivateKey key := .ok key.id
  parsePKCS8PrivateKey n := .ok (.signer ⟨n⟩)
  comparable _ := true
  verifyHostname leaf host :=
    if host ∈ leaf.dnsNames then .ok () else .error (.new "x509: certificate is for another name")
  rfc3339 _ := ""

def varTLS : LocalCopy := ⟨"/var/tls", by decide⟩

def goodDisk : Disk (Block Nat) := ⟨none, .ok 7, none, none, none, none, none⟩

/-- The certificate with number 1, with two more certificates in its chain. -/
def firstOfThree : TLSCertificate Nat :=
  ⟨[1, 2, 3], .signer ⟨1⟩, ⟨⟨1⟩, "", ["mx.example.com"], "", 0, hour⟩⟩

theorem firstOfThree_paired : Paired numberedKeys firstOfThree ⟨1⟩ :=
  ⟨rfl, ⟨1, rfl, rfl⟩, rfl⟩

theorem localCopy_roundTrips_firstOfThree :
    varTLS.load (Codec.ofBlocks Nat) numberedKeys none
      (varTLS.save (Codec.ofBlocks Nat) numberedKeys goodDisk (fun _ => none) "mx.example.com"
        firstOfThree).2 "mx.example.com" 0 = .ok firstOfThree := by
  have hall := localCopy_roundTrips (Codec.ofBlocks Nat) numberedKeys
    (Codec.ofBlocks_faithful fileTypes) fun key der hder => by cases hder; rfl
  obtain ⟨hload, hsave⟩ := hall.2.1 varTLS "mx.example.com" _ firstOfThree ⟨1⟩ 0 goodDisk
    (fun _ => none) (if_neg (by decide)) firstOfThree_paired (by decide) (by decide)
  exact hload (hsave ⟨1, rfl⟩ ⟨7, rfl⟩ rfl)

end LocalFile
end CertsManager
