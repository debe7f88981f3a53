import CertsManager.Dane
import CertsManager.Names

/-!
# Drift — the published TLSA records against those that should be published

`recordsForHost` and `verifyPublished` (dane_controller.go) with `NewSPKIRecord` (dane/record.go),
`ContainsSPKIDigest` (dane/lookup.go) and `SPKISHA256` (dane/digest.go), over the texts of digests.

The comparison is made of two loops, one over the desired records and one over the published ones,
among which there may be records of other kinds.  `Wanted` is the set the published digests are to
be; a record is made with its digest in lower case, so it is the lower-case forms of that set that
are compared.
-/

namespace CertsManager
namespace Drift

open Layout

/-! ## Records -/

def usageDANEEE : UInt8 := 3

def selectorSPKI : UInt8 := 1

def matchingSHA256 : UInt8 := 1

def smtpPort : Nat := 25

/-- `dane.TLSARecord`. -/
structure TLSARecord where
  name : String
  mxHost : String
  usage : UInt8
  selector : UInt8
  matchingType : UInt8
  cert : String
  ttl : UInt32
  note : String
  deriving DecidableEq, Repr

/-- `dane.PublishedTLSA`. -/
structure PublishedTLSA where
  usage : UInt8
  selector : UInt8
  matchingType : UInt8
  cert : String
  deriving DecidableEq, Repr

structure LookupResult where
  rrs : List PublishedTLSA
  authenticated : Bool
  deriving DecidableEq, Repr

/-- `dane.RetiringRecord`; `ParseRetiring` drops records without a digest. -/
structure RetiringRecord where
  digest : String
  retireAfter : Int
  named : digest ≠ ""
  deriving DecidableEq, Repr

/-- At `now`, in seconds. -/
def RetiringRecord.expired (r : RetiringRecord) (now : Int) : Bool :=
  decide (r.retireAfter ≤ now)

def PublishedTLSA.isSPKI (rr : PublishedTLSA) : Bool :=
  rr.usage = usageDANEEE && rr.selector = selectorSPKI && rr.matchingType = matchingSHA256

def LookupResult.empty (r : LookupResult) : Bool :=
  r.rrs.length = 0

def LookupResult.containsSPKIDigest (u : Unicode) (r : LookupResult) (digest : String) : Bool :=
  r.rrs.any fun rr => rr.isSPKI && rr.cert = u.lower digest

def ownerName (u : Unicode) (mxHost : String) : String :=
  "_" ++ toString smtpPort ++ "._tcp." ++ trimSuffix (u.lower mxHost) "." ++ "."

def newSPKIRecord (u : Unicode) (mxHost digest : String) (ttl : UInt32) : TLSARecord :=
  { name := ownerName u mxHost
    mxHost := u.lower (trimSuffix mxHost ".")
    usage := usageDANEEE
    selector := selectorSPKI
    matchingType := matchingSHA256
    cert := u.lower digest
    ttl := ttl
    note := "" }

/-- `hex.EncodeToString`. -/
def hexEncode (bytes : List UInt8) : String :=
  String.ofList (bytes.flatMap fun b => [Nat.digitChar (b.toNat / 16), Nat.digitChar (b.toNat % 16)])

/-- `x509.MarshalPKIXPublicKey` and `sha256.Sum256`. -/
structure Hash where
  marshalPKIXPublicKey : PublicKey → Except String (List UInt8)
  sum256 : List UInt8 → List UInt8

def Hash.spkiSHA256 (x : Hash) (pub : PublicKey) : Except Err String :=
  match x.marshalPKIXPublicKey pub with
  | .error err => .error (.new ("marshal public key: " ++ err))
  | .ok der => .ok (hexEncode (x.sum256 der))

/-! ## The controller -/

/-- What storage answers for a host: its live key, its staged key and its markers. -/
structure HostState where
  live : Except Err PublicKey
  next : Except Err PublicKey
  retiring : Except Err (List RetiringRecord)

structure Controller where
  mxHosts : List String
  ttl : UInt32
  lookup : Option (String → Except Err LookupResult)

section

variable (u : Unicode) (x : Hash) (rfc3339 : Int → String) (ttl : UInt32) (now : Int)

/-- The record of the staged key, if there is one, and its digest. -/
def stagedRecords (host : String) (liveDigest : String) (next : Except Err PublicKey) :
    Except Err (List TLSARecord × String) :=
  match next with
  | .ok nextKey => do
      let nextDigest ← x.spkiSHA256 nextKey
      if nextDigest ≠ liveDigest then
        return ([{ newSPKIRecord u host nextDigest ttl with
          note := "staged next key — pre-publish before activation" }], nextDigest)
      else return ([], nextDigest)
  | .error err =>
      if err.is .notExist then return ([], "")
      else throw (.wrap ("dane: load next key for " ++ host ++ ": ") err "")

/-- The records of the digests that are still retiring. -/
def retiringRecords (host liveDigest nextDigest : String) (retiring : List RetiringRecord) :
    List TLSARecord :=
  retiring.filterMap fun rec =>
    if rec.expired now || rec.digest = liveDigest || rec.digest = nextDigest then none
    else some { newSPKIRecord u host rec.digest ttl with
      note := "retiring — keep published until " ++ rfc3339 rec.retireAfter }

def recordsForHost (host : String) (s : HostState) : Except Err (List TLSARecord) :=
  match s.live with
  | .error err =>
      if err.is .notExist then return []
      else throw (.wrap ("dane: load live key for " ++ host ++ ": ") err "")
  | .ok liveKey => do
      let liveDigest ← x.spkiSHA256 liveKey
      let (staged, nextDigest) ← stagedRecords u x ttl host liveDigest s.next
      let retiring ← s.retiring
      return newSPKIRecord u host liveDigest ttl :: (staged ++
        retiringRecords u rfc3339 ttl now host liveDigest nextDigest retiring)

/-- The loop over the desired records: whether all are published, and their digests. -/
def checkDesired (published : LookupResult) (desired : List TLSARecord) : Bool × List String :=
  desired.foldl (fun s rec =>
    (s.1 && published.containsSPKIDigest u rec.cert, rec.cert :: s.2)) (true, [])

/-- The loop over the published records, which may be of other kinds. -/
def checkPublished (desiredDigests : List String) (ok : Bool) (rrs : List PublishedTLSA) : Bool :=
  rrs.foldl (fun ok rr => if rr.isSPKI && !desiredDigests.contains rr.cert then false else ok) ok

/-- What `verifyPublished` reports of one host, if anything. -/
def verifyHost (lookup : String → Except Err LookupResult) (host : String) (s : HostState) :
    Option Bool :=
  match recordsForHost u x rfc3339 ttl now host s with
  | .error _ => none
  | .ok desired =>
      if desired.length = 0 then none
      else
        match lookup host with
        | .error _ => none
        | .ok published =>
            if published.empty then some false
            else
              let (ok, desiredDigests) := checkDesired u published desired
              some (checkPublished desiredDigests ok published.rrs)

end

/-- The statuses of the hosts, a map from hosts. -/
def verifyPublished (u : Unicode) (x : Hash) (rfc3339 : Int → String) (now : Int)
    (d : Option Controller) (state : String → HostState) : String → Option Bool :=
  match d with
  | none => fun _ => none
  | some d =>
      match d.lookup with
      | none => fun _ => none
      | some lookup =>
          d.mxHosts.foldl (fun status host =>
            match verifyHost u x rfc3339 d.ttl now lookup host (state host) with
            | none => status
            | some ok => fun h => if h = host then some ok else status h) fun _ => none

/-! ## What should be published -/

/-- The digests of the live key, of the staged key if there is one, and of the keys that are
retiring and whose deadline has not passed. -/
def Wanted (x : Hash) (now : Int) (s : HostState) : Set String :=
  {digest | (∃ key, s.live = .ok key ∧ x.spkiSHA256 key = .ok digest) ∨
    (∃ key, s.next = .ok key ∧ x.spkiSHA256 key = .ok digest) ∨
      ∃ retiring, s.retiring = .ok retiring ∧
        ∃ r ∈ retiring, now < r.retireAfter ∧ r.digest = digest}

/-- The digests of the published "3 1 1" records. -/
def LookupResult.spkiDigests (r : LookupResult) : Set String :=
  {digest | ∃ rr ∈ r.rrs, rr.isSPKI = true ∧ rr.cert = digest}

/-! ## Digests in lower case -/

section

variable {u : Unicode}

theorem lower_lower (s : String) : u.lower (u.lower s) = u.lower s :=
  Unicode.lower_of_subset (List.Subset.refl _)

theorem lower_hexEncode (bytes : List UInt8) : u.lower (hexEncode bytes) = hexEncode bytes := by
  have hdigit : ∀ n < 16, u.toLower (Nat.digitChar n) = Nat.digitChar n := by
    intro n hn
    have hascii : (Nat.digitChar n).toNat < 128 ∧ (Nat.digitChar n).toLower = Nat.digitChar n := by
      revert n
      decide
    exact (u.toLower_ascii _ hascii.1).trans hascii.2
  refine Unicode.lower_eq_self_iff.2 fun c hc => ?_
  rw [hexEncode, String.toList_ofList] at hc
  obtain ⟨b, -, hb⟩ := List.mem_flatMap.1 hc
  have hbyte := b.toNat_lt
  rcases List.mem_pair.1 hb with rfl | rfl
  · exact hdigit _ (by omega)
  · exact hdigit _ (Nat.mod_lt _ (by decide))

theorem lower_spkiSHA256 {x : Hash} {pub : PublicKey} {digest : String}
    (h : x.spkiSHA256 pub = .ok digest) : u.lower digest = digest := by
  unfold Hash.spkiSHA256 at h
  split at h
  · cases h
  · cases h
    exact lower_hexEncode _

end

/-! ## The desired records -/

section

variable {u : Unicode} {x : Hash} {rfc3339 : Int → String} {ttl : UInt32} {now : Int}
  {host liveDigest nextDigest : String}

theorem stagedRecords_ok {next : Except Err PublicKey} {staged : List TLSARecord}
    (h : stagedRecords u x ttl host liveDigest next = .ok (staged, nextDigest)) :
    (∃ key, next = .ok key ∧ x.spkiSHA256 key = .ok nextDigest ∧
      ∀ c, (∃ r ∈ staged, r.cert = c) ↔ nextDigest ≠ liveDigest ∧ u.lower nextDigest = c) ∨
    (∃ err, next = .error err) ∧ staged = [] ∧ nextDigest = "" := by
  cases next with
  | ok key =>
      obtain ⟨digest, hdigest, h⟩ := bind_eq_ok_iff.1 h
      refine .inl ⟨key, rfl, ?_⟩
      by_cases hlive : digest = liveDigest
      · rw [if_neg (not_not_intro hlive)] at h
        cases h
        exact ⟨hdigest, fun c => by simp [hlive]⟩
      · rw [if_pos hlive] at h
        cases h
        exact ⟨hdigest, fun c => by simp [hlive, newSPKIRecord]⟩
  | error err =>
      by_cases hnone : err.is .notExist = true
      · simp only [stagedRecords, hnone, if_true] at h
        cases h
        exact .inr ⟨⟨err, rfl⟩, rfl, rfl⟩
      · simp only [stagedRecords, hnone] at h
        cases h

theorem cert_mem_retiringRecords (u : Unicode) (rfc3339 : Int → String) (ttl : UInt32)
    (host : String) {retiring : List RetiringRecord} {c : String} :
    (∃ r ∈ retiringRecords u rfc3339 ttl now host liveDigest nextDigest retiring, r.cert = c) ↔
      ∃ r ∈ retiring, now < r.retireAfter ∧ r.digest ≠ liveDigest ∧ r.digest ≠ nextDigest ∧
        u.lower r.digest = c := by
  simp only [retiringRecords, List.mem_filterMap]
  constructor
  · rintro ⟨rec, ⟨r, hr, hrec⟩, rfl⟩
    split at hrec
    · cases hrec
    · rename_i hkept
      cases hrec
      simp only [RetiringRecord.expired, Bool.or_eq_true, decide_eq_true_eq, not_or, not_le] at hkept
      exact ⟨r, hr, hkept.1.1, hkept.1.2, hkept.2, rfl⟩
  · rintro ⟨r, hr, hnow, hlive, hnext, rfl⟩
    refine ⟨_, ⟨r, hr, if_neg ?_⟩, rfl⟩
    simp [RetiringRecord.expired, hnow, hlive, hnext]

/-- The records of a host whose live key was read, and what they were made of. -/
theorem recordsForHost_ok {s : HostState} {desired : List TLSARecord}
    (h : recordsForHost u x rfc3339 ttl now host s = .ok desired) (hne : desired ≠ []) :
    ∃ key liveDigest staged nextDigest retiring, s.live = .ok key ∧
      x.spkiSHA256 key = .ok liveDigest ∧
      stagedRecords u x ttl host liveDigest s.next = .ok (staged, nextDigest) ∧
      s.retiring = .ok retiring ∧
      desired = newSPKIRecord u host liveDigest ttl :: (staged ++
        retiringRecords u rfc3339 ttl now host liveDigest nextDigest retiring) := by
  unfold recordsForHost at h
  cases hlive : s.live with
  | error err =>
      simp only [hlive] at h
      split at h
      · cases h
        exact absurd rfl hne
      · cases h
  | ok key =>
      rw [hlive] at h
      obtain ⟨liveDigest, hdigest, h⟩ := bind_eq_ok_iff.1 h
      obtain ⟨⟨staged, nextDigest⟩, hstaged, h⟩ := bind_eq_ok_iff.1 h
      obtain ⟨retiring, hretiring, h⟩ := bind_eq_ok_iff.1 h
      cases h
      exact ⟨key, liveDigest, staged, nextDigest, retiring, rfl, hdigest, hstaged, hretiring, rfl⟩

/-- The digests of the desired records are the wanted digests in lower case: what is left out as a
duplicate is there already. -/
theorem certs_recordsForHost {s : HostState} {desired : List TLSARecord}
    (h : recordsForHost u x rfc3339 ttl now host s = .ok desired) (hne : desired ≠ []) :
    {c | ∃ r ∈ desired, r.cert = c} = u.lower '' Wanted x now s := by
  obtain ⟨key, live, staged, next, retiring, hlive, hdigest, hstaged, hretiring, rfl⟩ :=
    recordsForHost_ok h hne
  have hwanted : ∀ digest, digest ∈ Wanted x now s ↔ digest = live ∨
      (∃ key, s.next = .ok key ∧ x.spkiSHA256 key = .ok digest) ∨
        ∃ r ∈ retiring, now < r.retireAfter ∧ r.digest = digest := by
    intro digest
    simp only [Wanted, Set.mem_ofPred_eq, hlive, hretiring, Except.ok.injEq, exists_eq_left',
      hdigest, eq_comm]
  have hdesired : ∀ c, (∃ r ∈ newSPKIRecord u host live ttl :: (staged ++
      retiringRecords u rfc3339 ttl now host live next retiring), r.cert = c) ↔
      u.lower live = c ∨ (∃ r ∈ staged, r.cert = c) ∨ ∃ r ∈ retiring, now < r.retireAfter ∧
        r.digest ≠ live ∧ r.digest ≠ next ∧ u.lower r.digest = c := by
    intro c
    rw [← cert_mem_retiringRecords u rfc3339 ttl host]
    simp only [List.mem_cons, List.mem_append, or_and_right, exists_or, exists_eq_left,
      newSPKIRecord]
  ext c
  rw [Set.mem_ofPred_eq, hdesired, Set.mem_image]
  rcases stagedRecords_ok hstaged with ⟨nextKey, hnext, hnextDigest, hcerts⟩ | ⟨⟨err, hnext⟩, rfl, rfl⟩
  · rw [hcerts]
    constructor
    · rintro (rfl | ⟨-, rfl⟩ | ⟨r, hr, hnow, -, -, rfl⟩)
      · exact ⟨live, (hwanted live).2 (.inl rfl), rfl⟩
      · exact ⟨next, (hwanted next).2 (.inr (.inl ⟨nextKey, hnext, hnextDigest⟩)), rfl⟩
      · exact ⟨r.digest, (hwanted _).2 (.inr (.inr ⟨r, hr, hnow, rfl⟩)), rfl⟩
    · rintro ⟨digest, hdig, rfl⟩
      by_cases hsame : digest = live
      · exact .inl (congrArg _ hsame.symm)
      · by_cases hstage : digest = next
        · exact .inr (.inl ⟨hstage ▸ hsame, congrArg _ hstage.symm⟩)
        · rcases (hwanted digest).1 hdig with heq | ⟨key', hkey', hdig'⟩ | ⟨r, hr, hnow, rfl⟩
          · exact absurd heq hsame
          · -- there is one staged key
            cases hkey'.symm.trans hnext
            exact absurd (Except.ok.inj (hdig'.symm.trans hnextDigest)) hstage
          · exact .inr (.inr ⟨r, hr, hnow, hsame, hstage, rfl⟩)
  · constructor
    · rintro (rfl | ⟨r, hr, -⟩ | ⟨r, hr, hnow, -, -, rfl⟩)
      · exact ⟨live, (hwanted live).2 (.inl rfl), rfl⟩
      · cases hr
      · exact ⟨r.digest, (hwanted _).2 (.inr (.inr ⟨r, hr, hnow, rfl⟩)), rfl⟩
    · rintro ⟨digest, hdig, rfl⟩
      rcases (hwanted digest).1 hdig with rfl | ⟨key', hkey', -⟩ | ⟨r, hr, hnow, rfl⟩
      · exact .inl rfl
      · cases hkey'.symm.trans hnext
      · by_cases hsame : r.digest = live
        · exact .inl (congrArg _ hsame.symm)
        · -- no marker has the empty digest, which stands for no staged key
          exact .inr (.inr ⟨r, hr, hnow, hsame, r.named, rfl⟩)

/-- A record is made with its digest in lower case. -/
theorem lower_cert {s : HostState} {desired : List TLSARecord}
    (h : recordsForHost u x rfc3339 ttl now host s = .ok desired) :
    ∀ r ∈ desired, u.lower r.cert = r.cert := by
  intro r hr
  have hcert : r.cert ∈ u.lower '' Wanted x now s := by
    rw [← certs_recordsForHost h (List.ne_nil_of_mem hr)]
    exact ⟨r, hr, rfl⟩
  obtain ⟨digest, -, hlower⟩ := hcert
  rw [← hlower, lower_lower]

end

/-! ## The two loops -/

section

variable {u : Unicode}

theorem checkDesired_eq (published : LookupResult) (desired : List TLSARecord) :
    (checkDesired u published desired).1 =
        desired.all (fun r => published.containsSPKIDigest u r.cert) ∧
      ∀ c, c ∈ (checkDesired u published desired).2 ↔ ∃ r ∈ desired, r.cert = c := by
  -- over the desired records, from any status and list of digests
  have hfold : ∀ (desired : List TLSARecord) (s : Bool × List String),
      (desired.foldl (fun s rec =>
          (s.1 && published.containsSPKIDigest u rec.cert, rec.cert :: s.2)) s).1 =
          (s.1 && desired.all fun r => published.containsSPKIDigest u r.cert) ∧
        ∀ c, c ∈ (desired.foldl (fun s rec =>
          (s.1 && published.containsSPKIDigest u rec.cert, rec.cert :: s.2)) s).2 ↔
            c ∈ s.2 ∨ ∃ r ∈ desired, r.cert = c := by
    intro desired
    induction desired with
    | nil => simp
    | cons r desired ih =>
        intro s
        obtain ⟨hok, hdigests⟩ := ih (s.1 && published.containsSPKIDigest u r.cert, r.cert :: s.2)
        refine ⟨?_, fun c => ?_⟩
        · rw [List.foldl_cons, hok, List.all_cons, Bool.and_assoc]
        · rw [List.foldl_cons, hdigests]
          simp only [List.mem_cons, exists_eq_or_imp, eq_comm (a := c)]
          exact or_assoc.trans (or_left_comm)
  obtain ⟨hok, hdigests⟩ := hfold desired (true, [])
  exact ⟨by simpa [checkDesired] using hok, fun c => by simpa [checkDesired] using hdigests c⟩

theorem checkPublished_eq_true {digests : List String} {ok : Bool} {rrs : List PublishedTLSA} :
    checkPublished digests ok rrs = true ↔
      ok = true ∧ ∀ rr ∈ rrs, rr.isSPKI = true → rr.cert ∈ digests := by
  unfold checkPublished
  induction rrs generalizing ok with
  | nil => simp
  | cons rr rrs ih =>
      rw [List.foldl_cons, ih]
      by_cases hkind : rr.isSPKI = true
      · by_cases hmem : rr.cert ∈ digests
        · simp [hkind, hmem]
        · simp [hkind, hmem]
      · simp [hkind]

theorem containsSPKIDigest_iff {published : LookupResult} {c : String} (hlower : u.lower c = c) :
    published.containsSPKIDigest u c = true ↔ c ∈ published.spkiDigests := by
  simp [LookupResult.containsSPKIDigest, LookupResult.spkiDigests, hlower]

/-- The two loops compare two sets. -/
theorem checks_eq_true {published : LookupResult} {desired : List TLSARecord}
    (hlower : ∀ r ∈ desired, u.lower r.cert = r.cert) :
    checkPublished (checkDesired u published desired).2 (checkDesired u published desired).1
        published.rrs = true ↔
      published.spkiDigests = {c | ∃ r ∈ desired, r.cert = c} := by
  obtain ⟨hok, hdigests⟩ := checkDesired_eq (u := u) published desired
  rw [checkPublished_eq_true, hok, List.all_eq_true]
  constructor
  · rintro ⟨hall, honly⟩
    ext c
    constructor
    · rintro ⟨rr, hrr, hkind, rfl⟩
      exact (hdigests _).1 (honly rr hrr hkind)
    · rintro ⟨r, hr, rfl⟩
      exact (containsSPKIDigest_iff (hlower r hr)).1 (hall r hr)
  · intro hsets
    refine ⟨fun r hr => (containsSPKIDigest_iff (hlower r hr)).2 ?_, fun rr hrr hkind => ?_⟩
    · rw [hsets]
      exact ⟨r, hr, rfl⟩
    · refine (hdigests _).2 ?_
      have hmem : rr.cert ∈ published.spkiDigests := ⟨rr, hrr, hkind, rfl⟩
      rw [hsets] at hmem
      exact hmem

end

/-! ## The report -/

section

variable {u : Unicode} {x : Hash} {rfc3339 : Int → String} {ttl : UInt32} {now : Int}

theorem verifyHost_isSome_iff {lookup : String → Except Err LookupResult} {host : String}
    {s : HostState} :
    (∃ ok, verifyHost u x rfc3339 ttl now lookup host s = some ok) ↔
      (∃ desired, recordsForHost u x rfc3339 ttl now host s = .ok desired ∧ desired ≠ []) ∧
        ∃ published, lookup host = .ok published := by
  unfold verifyHost
  cases hdesired : recordsForHost u x rfc3339 ttl now host s with
  | error err => simp
  | ok desired =>
      cases hlookup : lookup host with
      | error err => by_cases hnil : desired.length = 0 <;> simp [hnil]
      | ok published =>
          cases desired with
          | nil => simp
          | cons r desired =>
              by_cases hempty : published.empty = true <;> simp [hempty]

/-- The status of a host: its published digests are the wanted ones. -/
theorem verifyHost_eq_true {lookup : String → Except Err LookupResult} {host : String}
    {s : HostState} {ok : Bool} (h : verifyHost u x rfc3339 ttl now lookup host s = some ok)
    {published : LookupResult} (hlookup : lookup host = .ok published) :
    ok = true ↔ published.spkiDigests = u.lower '' Wanted x now s := by
  unfold verifyHost at h
  cases hdesired : recordsForHost u x rfc3339 ttl now host s with
  | error err => simp [hdesired] at h
  | ok desired =>
      by_cases hnil : desired = []
      · simp [hdesired, hnil] at h
      · simp only [hdesired, List.length_eq_zero_iff, hnil, if_false, hlookup] at h
        rw [← certs_recordsForHost hdesired hnil]
        by_cases hempty : published.empty = true
        · -- nothing is published, and something is desired
          rw [if_pos hempty] at h
          cases h
          obtain ⟨r, desired', rfl⟩ := List.exists_cons_of_ne_nil hnil
          have hrrs : published.rrs = [] := by simpa [LookupResult.empty] using hempty
          simp only [Bool.false_eq_true, false_iff]
          intro hsets
          have hmem : r.cert ∈ published.spkiDigests := hsets ▸ ⟨r, List.mem_cons_self, rfl⟩
          obtain ⟨rr, hrr, -⟩ := hmem
          rw [hrrs] at hrr
          cases hrr
        · rw [if_neg hempty] at h
          cases h
          exact checks_eq_true (lower_cert hdesired)

/-- The loop over the hosts: a host that is listed, however often, has its own status. -/
theorem verifyPublished_some {d : Controller} {lookup : String → Except Err LookupResult}
    (hlookup : d.lookup = some lookup) (state : String → HostState) (host : String) :
    verifyPublished u x rfc3339 now (some d) state host =
      if host ∈ d.mxHosts then verifyHost u x rfc3339 d.ttl now lookup host (state host)
      else none := by
  have hfold : ∀ (hosts : List String) (status : String → Option Bool),
      (status host = none ∨
        status host = verifyHost u x rfc3339 d.ttl now lookup host (state host)) →
      hosts.foldl (fun status host =>
          match verifyHost u x rfc3339 d.ttl now lookup host (state host) with
          | none => status
          | some ok => fun h => if h = host then some ok else status h) status host =
        if host ∈ hosts then verifyHost u x rfc3339 d.ttl now lookup host (state host)
        else status host := by
    intro hosts
    induction hosts with
    | nil => simp
    | cons h hosts ih =>
        intro status hstatus
        rw [List.foldl_cons, ih]
        · by_cases hmem : host ∈ hosts
          · simp [hmem]
          · by_cases hhead : host = h
            · subst hhead
              cases hv : verifyHost u x rfc3339 d.ttl now lookup host (state host) with
              | none =>
                  rw [hv] at hstatus
                  simp [hstatus.elim id id]
              | some ok => simp
            · cases hv : verifyHost u x rfc3339 d.ttl now lookup h (state h) with
              | none => simp [hmem, hhead]
              | some ok => simp [hmem, hhead]
        · cases hv : verifyHost u x rfc3339 d.ttl now lookup h (state h) with
          | none => exact hstatus
          | some ok =>
              by_cases hhead : host = h
              · subst hhead
                exact .inr (by simp [hv])
              · simpa [hhead] using hstatus
  simp only [verifyPublished, hlookup]
  exact hfold d.mxHosts (fun _ => none) (.inl rfl)

/-- Only markers can have digests that are not in lower case. -/
theorem image_lower_wanted {s : HostState}
    (hretiring : ∀ retiring, s.retiring = .ok retiring → ∀ r ∈ retiring, now < r.retireAfter →
      u.lower r.digest = r.digest) :
    u.lower '' Wanted x now s = Wanted x now s := by
  have hlower : ∀ digest ∈ Wanted x now s, u.lower digest = digest := by
    rintro digest (⟨key, -, hkey⟩ | ⟨key, -, hkey⟩ | ⟨retiring, hs, r, hr, hnow, rfl⟩)
    · exact lower_spkiSHA256 hkey
    · exact lower_spkiSHA256 hkey
    · exact hretiring retiring hs r hr hnow
  exact (Set.image_congr hlower).trans (Set.image_id' _)

end

/-- The report of `verifyPublished`.  A host is in it if it is listed, its desired records were
computed and are not empty and the lookup answered; its status is whether the digests of the
published "3 1 1" records are the lower-case forms of the wanted ones, and these are the wanted ones
themselves where the markers are in lower case. -/
theorem verifyPublished_exact (u : Unicode) (x : Hash) (rfc3339 : Int → String) (now : Int)
    (d : Controller) (state : String → HostState) (host : String) :
    ((∃ ok, verifyPublished u x rfc3339 now (some d) state host = some ok) ↔
      host ∈ d.mxHosts ∧
        (∃ desired, recordsForHost u x rfc3339 d.ttl now host (state host) = .ok desired ∧
          desired ≠ []) ∧
        ∃ lookup published, d.lookup = some lookup ∧ lookup host = .ok published) ∧
    ∀ ok lookup published, verifyPublished u x rfc3339 now (some d) state host = some ok →
      d.lookup = some lookup → lookup host = .ok published →
      (ok = true ↔ published.spkiDigests = u.lower '' Wanted x now (state host)) ∧
      ((∀ retiring, (state host).retiring = .ok retiring → ∀ r ∈ retiring, now < r.retireAfter →
          u.lower r.digest = r.digest) →
        (ok = true ↔ published.spkiDigests = Wanted x now (state host))) := by
  cases hlookup : d.lookup with
  | none => simp [verifyPublished, hlookup]
  | some lookup =>
      rw [verifyPublished_some hlookup]
      by_cases hlisted : host ∈ d.mxHosts
      · simp only [hlisted, if_true, true_and, Option.some.injEq, exists_and_left,
          exists_eq_left']
        refine ⟨verifyHost_isSome_iff, ?_⟩
        rintro ok lookup published hok rfl hpublished
        have hexact := verifyHost_eq_true hok hpublished
        refine ⟨hexact, fun hretiring => ?_⟩
        rwa [image_lower_wanted hretiring] at hexact
      · simp [hlisted]

/-! ## The records of the rest of the development

There a digest is a value, here a text; `text` is how it is written. -/

section

variable {u : Unicode} {x : Hash} {rfc3339 : Int → String} {ttl : UInt32} {text : Digest → String}

/-- A marker, with its digest written out. -/
def marker (text : Digest → String) (hnamed : ∀ digest, text digest ≠ "")
    (r : CertsManager.RetiringRecord) : RetiringRecord :=
  ⟨text r.digest, r.retireAfter, hnamed _⟩

/-- What storage holds for a host with a live key. -/
def stateOf (text : Digest → String) (hnamed : ∀ digest, text digest ≠ "") (live : PublicKey)
    (next : Option PublicKey) (records : List CertsManager.RetiringRecord) : HostState where
  live := .ok live
  next := match next with
    | some key => .ok key
    | none => .error (.of .notExist)
  retiring := .ok (records.map (marker text hnamed))

theorem certs_retiringRecords (u : Unicode) (rfc3339 : Int → String) (ttl : UInt32)
    (hnamed : ∀ digest, text digest ≠ "")
    (hinj : Function.Injective text) (d : DaneSettings) (now : Time) (host : String)
    (live : Digest) (next : Option Digest) (records : List CertsManager.RetiringRecord) :
    (retiringRecords u rfc3339 ttl (unix now) host (text live) ((next.map text).getD "")
        (records.map (marker text hnamed))).map TLSARecord.cert =
      (Dane.retiringRecords d host now live next records).map fun r => u.lower (text r.cert) := by
  have hnext : ∀ digest, text digest = (next.map text).getD "" ↔ next = some digest := by
    intro digest
    cases next with
    | none => simpa using hnamed digest
    | some next => simpa [eq_comm] using hinj.eq_iff
  rw [retiringRecords, List.map_filterMap, List.filterMap_map, Dane.retiringRecords, List.map_map,
    ← List.filterMap_eq_filter, List.map_filterMap]
  refine List.filterMap_congr fun r _ => ?_
  have hexpired : (marker text hnamed r).expired (unix now) = r.expired now := by
    simp [marker, RetiringRecord.expired, CertsManager.RetiringRecord.expired]
  have hskip : ((marker text hnamed r).expired (unix now) ||
      decide ((marker text hnamed r).digest = text live) ||
      decide ((marker text hnamed r).digest = (next.map text).getD "")) =
        (r.expired now || r.digest = live || next = some r.digest) := by
    rw [hexpired]
    simp only [marker, hinj.eq_iff, hnext]
  rw [Function.comp_apply, hskip, Option.guard]
  generalize (r.expired now || decide (r.digest = live) || decide (next = some r.digest)) = skip
  cases skip with
  | true => rfl
  | false => rfl

/-- `recordsForHost` publishes the digests the model of the cluster does. -/
theorem certs_dane (hx : ∀ key : PublicKey, x.spkiSHA256 key = .ok (text key.spkiSHA256))
    (hnamed : ∀ digest, text digest ≠ "") (hinj : Function.Injective text) (d : DaneSettings)
    (now : Time) (host : String) (live : PublicKey) (next : Option PublicKey)
    (records : List CertsManager.RetiringRecord) :
    (recordsForHost u x rfc3339 ttl (unix now) host (stateOf text hnamed live next records)).map
        (List.map TLSARecord.cert) =
      .ok ((Dane.liveRecord d host live.spkiSHA256 ::
        ((next.elim [] fun key => Dane.nextRecords d host live.spkiSHA256 key.spkiSHA256) ++
          Dane.retiringRecords d host now live.spkiSHA256 (next.map PublicKey.spkiSHA256)
            records)).map fun r => u.lower (text r.cert)) := by
  have hretiring := certs_retiringRecords u rfc3339 ttl hnamed hinj d now host live.spkiSHA256
    (next.map PublicKey.spkiSHA256) records
  cases next with
  | none =>
      simp only [recordsForHost, stateOf, stagedRecords, hx, Err.is_of, decide_true, if_true, pure,
        bind, Except.pure, Except.bind, Except.map]
      simpa [newSPKIRecord, Dane.liveRecord] using hretiring
  | some key =>
      simp only [recordsForHost, stateOf, stagedRecords, hx, pure, bind, Except.pure, Except.bind]
      by_cases hsame : key.spkiSHA256 = live.spkiSHA256
      · have htext : text key.spkiSHA256 = text live.spkiSHA256 := congrArg text hsame
        simpa [hsame, htext, Except.map, newSPKIRecord, Dane.liveRecord, Dane.nextRecords]
          using hretiring
      · have htext : text key.spkiSHA256 ≠ text live.spkiSHA256 := fun h => hsame (hinj h)
        simpa [hsame, htext, Except.map, newSPKIRecord, Dane.liveRecord, Dane.nextRecords]
          using hretiring

end

/-! ## A marker in upper case -/

/-- Every key has the digest `00`. -/
def zeroHash : Hash := ⟨fun _ => .ok [], fun _ => [0]⟩

def upperState : HostState where
  live := .ok ⟨1⟩
  next := .error (.of .notExist)
  retiring := .ok [⟨"AB", 100, by decide⟩]

def upperPublished : LookupResult :=
  ⟨[⟨3, 1, 1, "00"⟩, ⟨2, 0, 1, "ff"⟩, ⟨3, 1, 1, "ab"⟩], true⟩

def upperController : Controller :=
  ⟨["mx.example.com"], 3600, some fun _ => .ok upperPublished⟩

/-- The published digests are in lower case and do not hold that of the marker, and the report says
that they match. -/
theorem verifyPublished_upper :
    (∀ rr ∈ upperPublished.rrs, Unicode.ascii.lower rr.cert = rr.cert) ∧
      verifyPublished .ascii zeroHash (fun _ => "") 0 (some upperController) (fun _ => upperState)
        "mx.example.com" = some true ∧
      upperPublished.spkiDigests ≠ Wanted zeroHash 0 upperState := by
  refine ⟨by decide +kernel, by decide +kernel, fun hsets => ?_⟩
  have hwanted : "AB" ∈ Wanted zeroHash 0 upperState :=
    .inr (.inr ⟨_, rfl, _, List.mem_cons_self, by decide, rfl⟩)
  rw [← hsets] at hwanted
  revert hwanted
  simp [LookupResult.spkiDigests, upperPublished]

end Drift
end CertsManager
