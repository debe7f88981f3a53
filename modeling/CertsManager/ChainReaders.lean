import CertsManager.Certstore.Inventory
import CertsManager.Objects
import CertsManager.Pem

/-!
# ChainReaders — the four loops that read a stored chain

`leafNotAfterPEM`, `storedLeafSPKI` and `buildCertificate` (cert_cache.go) and `Inventory.parse`
(certstore/inventory.go) over the bytes of an object.  Each looks for the first `CERTIFICATE` block
in its own way; `storedLeafSPKI` in addition encodes the leaf's public key, which `x509` does for
some types of key only.

The rest of the development has a chain object as what these functions make of it (`ChainPEM`, lists
of `Certstore.Block`); the last section ties the two together.
-/

namespace CertsManager
namespace ChainReaders

open Pem

/-- What is read of a certificate (`x509.Certificate`). -/
structure X509 where
  pub : PublicKey
  algorithm : String
  dnsNames : List String
  issuer : String
  notBefore : Time
  notAfter : Time
  deriving DecidableEq, Repr

/-- `crypto/x509` and `crypto/sha256`, over contents of blocks. -/
structure Crypto (δ : Type) where
  parseCertificate : δ → Except String X509
  marshalPKIXPublicKey : PublicKey → Except String δ
  sha256Hex : δ → String

section

variable {α δ : Type} (c : Codec α δ) (x : Crypto δ)

def isCertificate (b : Block δ) : Bool :=
  b.type = "CERTIFICATE"

/-- The expiry of the first leaf in a PEM chain. -/
def leafNotAfterPEM (chainPEM : List α) : Except String Time :=
  match c.each (fun _ b =>
      if isCertificate b then
        .error (match x.parseCertificate b.bytes with
          | .error err => .error err
          | .ok leaf => .ok leaf.notAfter)
      else .ok ()) () chainPEM with
  | .error result => result
  | .ok () => .error "no CERTIFICATE block in chain"

/-- `dane.SPKISHA256`. -/
def spkiSHA256 (pub : PublicKey) : Except String String :=
  match x.marshalPKIXPublicKey pub with
  | .error err => .error ("marshal public key: " ++ err)
  | .ok der => .ok (x.sha256Hex der)

/-- `storedLeafSPKI`, of the chain that was loaded. -/
def storedLeafSPKI (chainPEM : List α) : Except String String :=
  match c.each (fun _ b =>
      if isCertificate b then
        .error (match x.parseCertificate b.bytes with
          | .error err => .error ("parse stored leaf: " ++ err)
          | .ok cert => spkiSHA256 x cert.pub)
      else .ok ()) () chainPEM with
  | .error result => result
  | .ok () => .error "no CERTIFICATE block in stored chain"

/-- The contents of the `CERTIFICATE` blocks, in order. -/
def chainDERs (chainPEM : List α) : List δ :=
  match c.each (ε := Empty) (fun ders b =>
      .ok (if isCertificate b then ders ++ [b.bytes] else ders)) [] chainPEM with
  | .ok ders => ders

/-- `buildCertificate` up to its key check: the chain and its leaf. -/
def buildLeaf (chainPEM : List α) : Except String (List δ × X509) :=
  match chainDERs c chainPEM with
  | [] => .error "no CERTIFICATE blocks in chain"
  | der :: ders =>
      match x.parseCertificate der with
      | .error err => .error ("parse leaf certificate: " ++ err)
      | .ok leaf => .ok (der :: ders, leaf)

/-- `Inventory.read` of an object's bytes: at most one MiB of them. -/
def readLimited (object : List α) : List α :=
  object.take (2 ^ 20)

/-- What `Inventory.parse` notes of a leaf. -/
def noteLeaf (now : Time) (leaf : X509) (entry : Certstore.Certificate) : Certstore.Certificate :=
  { entry with
    algorithm := leaf.algorithm
    names := leaf.dnsNames
    issuer := leaf.issuer
    notBefore := leaf.notBefore
    notAfter := leaf.notAfter
    expired := decide (leaf.notAfter < now) }

/-- `Inventory.parse`; the clock is read when a leaf has been parsed. -/
def inventoryParse (now : Time) (data : List α) (entry : Certstore.Certificate) :
    Certstore.Certificate :=
  match c.each (fun _ b =>
      if isCertificate b then
        .error (match x.parseCertificate b.bytes with
          | .error err => { entry with invalid := "does not parse: " ++ err }
          | .ok leaf => noteLeaf now leaf entry)
      else .ok ()) () data with
  | .error result => result
  | .ok () => { entry with invalid := "no certificate in the PEM" }

/-! ## The first certificate block -/

/-- The first `CERTIFICATE` block of a text. -/
def firstCertificate (t : List α) : Option (Block δ) :=
  (c.blocks t).find? isCertificate

/-- The leaf all readers should see: that of the first `CERTIFICATE` block, if it parses. -/
def leafOf (t : List α) : Option X509 :=
  (firstCertificate c t).bind fun b => (x.parseCertificate b.bytes).toOption

end

variable {α δ : Type} {c : Codec α δ} {x : Crypto δ}

/-- A reader's loop returns at the first `CERTIFICATE` block. -/
theorem each_first {ε : Type} (result : Block δ → ε) (t : List α) :
    c.each (fun _ b => if isCertificate b then .error (result b) else .ok ()) () t =
      match firstCertificate c t with
      | some b => Except.error (result b)
      | none => .ok () :=
  (Codec.each_eq_foldlM _ _ t).trans (Codec.foldlM_first isCertificate result _)

theorem chainDERs_eq (t : List α) :
    chainDERs c t = ((c.blocks t).filter isCertificate).map Block.bytes := by
  have hfold : ∀ (bs : List (Block δ)) (ders : List δ),
      bs.foldl (fun ders b => if isCertificate b then ders ++ [b.bytes] else ders) ders =
        ders ++ (bs.filter isCertificate).map Block.bytes := by
    intro bs
    induction bs with
    | nil => simp
    | cons b bs ih =>
        intro ders
        rw [List.foldl_cons, ih]
        by_cases hb : isCertificate b = true
        · simp [hb]
        · simp [hb]
  rw [chainDERs, Codec.each_eq_foldlM, Codec.foldlM_ok, hfold]
  rfl

theorem head?_chainDERs (t : List α) :
    (chainDERs c t).head? = (firstCertificate c t).map Block.bytes := by
  rw [chainDERs_eq, List.head?_map, List.head?_filter]
  rfl

theorem readLimited_eq {object : List α} (hsize : object.length ≤ 2 ^ 20) :
    readLimited object = object :=
  List.take_of_length_le hsize

/-! ## A leaf that parses -/

section

variable {t : List α} {leaf : X509} (hleaf : leafOf c x t = some leaf)

include hleaf

theorem firstCertificate_of_leafOf :
    ∃ b, firstCertificate c t = some b ∧ x.parseCertificate b.bytes = .ok leaf := by
  obtain ⟨b, hb, hparse⟩ := Option.bind_eq_some_iff.1 hleaf
  refine ⟨b, hb, ?_⟩
  cases hcert : x.parseCertificate b.bytes with
  | error err => simp [hcert, Except.toOption] at hparse
  | ok leaf' => simpa [hcert, Except.toOption] using hparse

theorem leafNotAfterPEM_of_leaf : leafNotAfterPEM c x t = .ok leaf.notAfter := by
  obtain ⟨b, hb, hparse⟩ := firstCertificate_of_leafOf hleaf
  simp only [leafNotAfterPEM, each_first, hb, hparse]

theorem storedLeafSPKI_of_leaf : storedLeafSPKI c x t = spkiSHA256 x leaf.pub := by
  obtain ⟨b, hb, hparse⟩ := firstCertificate_of_leafOf hleaf
  simp only [storedLeafSPKI, each_first, hb, hparse]

theorem inventoryParse_of_leaf (now : Time) (entry : Certstore.Certificate) :
    inventoryParse c x now t entry = noteLeaf now leaf entry := by
  obtain ⟨b, hb, hparse⟩ := firstCertificate_of_leafOf hleaf
  simp only [inventoryParse, each_first, hb, hparse]

theorem buildLeaf_of_leaf : buildLeaf c x t = .ok (chainDERs c t, leaf) := by
  obtain ⟨b, hb, hparse⟩ := firstCertificate_of_leafOf hleaf
  have hhead := head?_chainDERs (c := c) t
  rw [hb, Option.map_some] at hhead
  cases hders : chainDERs c t with
  | nil =>
      rw [hders] at hhead
      cases hhead
  | cons der ders =>
      rw [hders] at hhead
      cases hhead
      simp only [buildLeaf, hders, hparse]

end

/-! ## No leaf -/

section

variable {t : List α} (hleaf : leafOf c x t = none)

include hleaf

theorem firstCertificate_of_leafOf_none :
    firstCertificate c t = none ∨
      ∃ b err, firstCertificate c t = some b ∧ x.parseCertificate b.bytes = .error err := by
  cases hb : firstCertificate c t with
  | none => exact .inl rfl
  | some b =>
      cases hcert : x.parseCertificate b.bytes with
      | error err => exact .inr ⟨b, err, rfl, hcert⟩
      | ok leaf => simp [leafOf, hb, hcert, Except.toOption] at hleaf

theorem leafNotAfterPEM_of_none : ∃ err, leafNotAfterPEM c x t = .error err := by
  rcases firstCertificate_of_leafOf_none hleaf with hb | ⟨b, err, hb, hparse⟩
  · exact ⟨_, by simp only [leafNotAfterPEM, each_first, hb]; rfl⟩
  · exact ⟨err, by simp only [leafNotAfterPEM, each_first, hb, hparse]⟩

theorem storedLeafSPKI_of_none : ∃ err, storedLeafSPKI c x t = .error err := by
  rcases firstCertificate_of_leafOf_none hleaf with hb | ⟨b, err, hb, hparse⟩
  · exact ⟨_, by simp only [storedLeafSPKI, each_first, hb]; rfl⟩
  · exact ⟨_, by simp only [storedLeafSPKI, each_first, hb, hparse]; rfl⟩

theorem inventoryParse_of_none (now : Time) (entry : Certstore.Certificate) :
    (inventoryParse c x now t entry).invalid ≠ "" := by
  rcases firstCertificate_of_leafOf_none hleaf with hb | ⟨b, err, hb, hparse⟩
  · simp [inventoryParse, each_first, hb]
  · simp [inventoryParse, each_first, hb, hparse]

theorem buildLeaf_of_none : ∃ err, buildLeaf c x t = .error err := by
  have hhead := head?_chainDERs (c := c) t
  rcases firstCertificate_of_leafOf_none hleaf with hb | ⟨b, err, hb, hparse⟩
  · rw [hb, Option.map_none, List.head?_eq_none_iff] at hhead
    exact ⟨_, by simp only [buildLeaf, hhead]; rfl⟩
  · cases hders : chainDERs c t with
    | nil => exact ⟨_, by simp only [buildLeaf, hders]; rfl⟩
    | cons der ders =>
        rw [hb, hders] at hhead
        cases hhead
        exact ⟨_, by simp only [buildLeaf, hders, hparse]; rfl⟩

end

/-- The readers of the expiry and of the digest part ways at a public key that cannot be encoded. -/
theorem differ_iff {t : List α} :
    ((∃ time, leafNotAfterPEM c x t = .ok time) ↔ ∃ d, storedLeafSPKI c x t = .ok d) ↔
      ∀ leaf, leafOf c x t = some leaf → ∃ d, spkiSHA256 x leaf.pub = .ok d := by
  cases hleaf : leafOf c x t with
  | none =>
      obtain ⟨err, htime⟩ := leafNotAfterPEM_of_none hleaf
      obtain ⟨err', hdigest⟩ := storedLeafSPKI_of_none hleaf
      simp [htime, hdigest]
  | some leaf =>
      simp [leafNotAfterPEM_of_leaf hleaf, storedLeafSPKI_of_leaf hleaf]

/-- The four readers of an object of at most one MiB.  If the first `CERTIFICATE` block parses, all
of them read the leaf in it, and the digest is that of its public key; otherwise all of them fail.
So they differ exactly when the leaf's public key is one that cannot be encoded: then the reader of
the digest fails alone. -/
theorem readers_agree (c : Codec α δ) (x : Crypto δ) (object : List α)
    (hsize : object.length ≤ 2 ^ 20) (now : Time) (entry : Certstore.Certificate) :
    (∀ leaf, leafOf c x object = some leaf →
      leafNotAfterPEM c x object = .ok leaf.notAfter ∧
      buildLeaf c x object = .ok (chainDERs c object, leaf) ∧
      inventoryParse c x now (readLimited object) entry = noteLeaf now leaf entry ∧
      storedLeafSPKI c x object = spkiSHA256 x leaf.pub) ∧
    (leafOf c x object = none →
      (∃ err, leafNotAfterPEM c x object = .error err) ∧
      (∃ err, buildLeaf c x object = .error err) ∧
      (inventoryParse c x now (readLimited object) entry).invalid ≠ "" ∧
      ∃ err, storedLeafSPKI c x object = .error err) ∧
    (((∃ t, leafNotAfterPEM c x object = .ok t) ↔ ∃ d, storedLeafSPKI c x object = .ok d) ↔
      ∀ leaf, leafOf c x object = some leaf → ∃ d, spkiSHA256 x leaf.pub = .ok d) := by
  rw [readLimited_eq hsize]
  refine ⟨fun leaf hleaf => ?_, fun hleaf => ?_, differ_iff⟩
  · exact ⟨leafNotAfterPEM_of_leaf hleaf, buildLeaf_of_leaf hleaf,
      inventoryParse_of_leaf hleaf now entry, storedLeafSPKI_of_leaf hleaf⟩
  · exact ⟨leafNotAfterPEM_of_none hleaf, buildLeaf_of_none hleaf,
      inventoryParse_of_none hleaf now entry, storedLeafSPKI_of_none hleaf⟩

/-! ## Two chains -/

/-- Certificates numbered from 1, each for the key of its number; nine is a DSA key. -/
def numbered : Crypto Nat where
  parseCertificate n :=
    if n = 0 then .error "x509: malformed certificate"
    else .ok ⟨⟨n⟩, "", ["mx.example.com"], "", 0, hour⟩
  marshalPKIXPublicKey p :=
    if p.id = 9 then .error "x509: unsupported public key type: *dsa.PublicKey" else .ok p.id
  sha256Hex _ := "00"

def chainOfOne (n : Nat) : List (Block Nat) :=
  [⟨"EC PARAMETERS", [], 0⟩, ⟨"CERTIFICATE", [], n⟩, ⟨"CERTIFICATE", [], 0⟩]

theorem leafOf_chainOfOne {n : Nat} (hn : n ≠ 0) :
    leafOf (Codec.ofBlocks Nat) numbered (chainOfOne n) =
      some ⟨⟨n⟩, "", ["mx.example.com"], "", 0, hour⟩ := by
  simp [leafOf, firstCertificate, Codec.blocks_ofBlocks, chainOfOne, isCertificate, numbered, hn,
    Except.toOption]

theorem readers_agree_plain :
    leafNotAfterPEM (Codec.ofBlocks Nat) numbered (chainOfOne 1) = .ok hour ∧
      storedLeafSPKI (Codec.ofBlocks Nat) numbered (chainOfOne 1) = .ok "00" := by
  have hagree := (readers_agree (Codec.ofBlocks Nat) numbered (chainOfOne 1) (by decide) 0
    ⟨"mx.example.com", "", 0, 0, .orphan, "", [], "", 0, 0, false, "", false, false⟩).1 _
    (leafOf_chainOfOne (by decide))
  exact ⟨hagree.1, hagree.2.2.2⟩

/-- A chain of which every other reader reads the leaf, and whose digest cannot be computed. -/
theorem readers_differ :
    leafNotAfterPEM (Codec.ofBlocks Nat) numbered (chainOfOne 9) = .ok hour ∧
      (buildLeaf (Codec.ofBlocks Nat) numbered (chainOfOne 9)).isOk = true ∧
      storedLeafSPKI (Codec.ofBlocks Nat) numbered (chainOfOne 9) =
        .error "marshal public key: x509: unsupported public key type: *dsa.PublicKey" := by
  have hleaf := leafOf_chainOfOne (n := 9) (by decide)
  refine ⟨leafNotAfterPEM_of_leaf hleaf, ?_, storedLeafSPKI_of_leaf hleaf⟩
  rw [buildLeaf_of_leaf hleaf]
  rfl

/-! ## The objects of the rest of the development -/

section

variable (c : Codec α δ) (x : Crypto δ)

/-- The chain object of an object's bytes. -/
def chainObject (t : List α) : ChainPEM :=
  match leafOf c x t with
  | some leaf => .chain ⟨leaf.pub, leaf.notAfter⟩
  | none => .garbage

def inventoryBlock (b : Block δ) : Certstore.Block :=
  if isCertificate b then
    .certificate ((x.parseCertificate b.bytes).map fun leaf =>
      ⟨leaf.algorithm, leaf.dnsNames, leaf.issuer, leaf.notBefore, leaf.notAfter⟩)
  else .other b.type

/-- A stored object as the inventory has it: the blocks of its bytes, and of those that are read. -/
def inventoryObject (decode : List α → Except String Certstore.OnDemandState)
    (hdecode : ∀ t s s', decode (readLimited t) = .ok s → decode t = .ok s' → s = s')
    (t : List α) (lastModified : Time) : Certstore.Object where
  data := ⟨(c.blocks t).map (inventoryBlock x), decode t⟩
  head := ⟨(c.blocks (readLimited t)).map (inventoryBlock x), decode (readLimited t)⟩
  size := t.length
  lastModified := lastModified
  whole hsize := by rw [readLimited_eq hsize]
  json := hdecode t

variable {c x}

/-- `leafNotAfterPEM` of the bytes is `leafNotAfterPEM` of the chain object, error texts apart. -/
theorem leafNotAfterPEM_chainObject (t : List α) :
    (leafNotAfterPEM c x t).toOption =
      (CertsManager.leafNotAfterPEM (chainObject c x t)).toOption := by
  cases hleaf : leafOf c x t with
  | none =>
      obtain ⟨err, herr⟩ := leafNotAfterPEM_of_none hleaf
      simp only [herr, chainObject, hleaf]
      rfl
  | some leaf =>
      simp only [leafNotAfterPEM_of_leaf hleaf, chainObject, hleaf]
      rfl

/-- `Inventory.parse` of the bytes is its model over blocks, which reads the clock only for a leaf
that parses. -/
theorem parse_inventoryBlock (t : List α) (entry : Certstore.Certificate) :
    Certstore.Inventory.parse ((c.blocks t).map (inventoryBlock x)) entry =
      match leafOf c x t with
      | some _ => Certstore.now >>= fun now => pure (inventoryParse c x now t entry)
      | none => pure (inventoryParse c x 0 t entry) := by
  have hblocks : ∀ bs : List (Block δ),
      Certstore.Inventory.parse (bs.map (inventoryBlock x)) entry =
        match bs.find? isCertificate with
        | none => pure { entry with invalid := "no certificate in the PEM" }
        | some b =>
            match x.parseCertificate b.bytes with
            | .error err => pure { entry with invalid := "does not parse: " ++ err }
            | .ok leaf => Certstore.now >>= fun now => pure (noteLeaf now leaf entry) := by
    intro bs
    induction bs with
    | nil => rfl
    | cons b bs ih =>
        by_cases hb : isCertificate b = true
        · cases hcert : x.parseCertificate b.bytes with
          | error err => simp [inventoryBlock, hb, hcert, Except.map, Certstore.Inventory.parse]
          | ok leaf =>
              simp only [List.map_cons, inventoryBlock, hb, if_true, hcert, Except.map,
                Certstore.Inventory.parse, List.find?_cons]
              rfl
        · simpa [inventoryBlock, hb, Certstore.Inventory.parse] using ih
  rw [hblocks]
  simp only [leafOf, firstCertificate, inventoryParse, each_first]
  cases hb : (c.blocks t).find? isCertificate with
  | none => simp
  | some b =>
      cases hcert : x.parseCertificate b.bytes with
      | error err => simp [hcert, Except.toOption]
      | ok leaf => simp [hcert, Except.toOption]

/-- So of an object the inventory parses the first MiB. -/
theorem parse_inventoryObject {decode : List α → Except String Certstore.OnDemandState}
    (hdecode : ∀ t s s', decode (readLimited t) = .ok s → decode t = .ok s' → s = s') (t : List α)
    (lastModified : Time) (entry : Certstore.Certificate) :
    Certstore.Inventory.parse (inventoryObject c x decode hdecode t lastModified).head.pem entry =
      match leafOf c x (readLimited t) with
      | some _ => Certstore.now >>= fun now => pure (inventoryParse c x now (readLimited t) entry)
      | none => pure (inventoryParse c x 0 (readLimited t) entry) :=
  parse_inventoryBlock (readLimited t) entry

end

end ChainReaders
end CertsManager
