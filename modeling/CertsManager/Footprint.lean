import CertsManager.System

/-!
# Footprint — functions that touch nothing an invariant is about

Most calls concern neither the chains and held chains nor the locks, leases, markers and indexes.
They are `quiet`; a function that makes only quiet calls is passed over by every argument about the
others.
-/

namespace CertsManager

open Interleave

abbrev Event : Type := Ev Op Res
abbrev History : Type := Hist Op Res

@[grind =] def Op.Quiet : Op → Prop
  | .storage _ (.getKey _) => True
  | .storage _ (.putKey slot _ createOnly) => slot = .account ∧ createOnly = true
  | .storage _ _ => False
  | .mem .issuerLock => True
  | .mem .issuerUnlock => True
  | .mem .issuer => True
  | .mem .setIssuer => True
  | .mem (.fromLocalDelete _) => True
  | .mem .hosts => True
  | .mem _ => False
  | .env (.acquireLease _ _) => False
  | .env (.releaseLease _) => False
  | .env (.issue _ _ _) => False
  | .env _ => True

theorem load_quiet (cfg : Settings) (ctx : Time) (slot : KeySlot) :
    (KeyStore.load cfg ctx slot).Calls Op.Quiet := by
  intro h
  simp only [KeyStore.load, onStorage, Prog.conforms_bind, Prog.conforms_perform]
  refine ⟨trivial, fun r => ?_⟩
  rcases r with (_ | ⟨inBody, reason⟩) | pem
  · simp
  · cases inBody <;> simp
  · simp

/-- Creating a key once: quiet calls, and one conditional put of a key that was generated.  What is
returned was read back. -/
theorem loadOrCreate_reads {may : History → Op → Prop} {I : History → Prop}
    {K : History → Key → Prop} {h : History} (cfg : Settings) (ctx : Time) (slot : KeySlot)
    (keyType : KeyType) (hquiet : ∀ h o, I h → o.Quiet → may h o ∧ ∀ r, I (⟨o, r⟩ :: h))
    (hput : ∀ h k, I h → (⟨.env .generateSigner, k⟩ : Event) ∈ h →
      may h (.storage ctx (.putKey slot k true)) ∧
        ∀ r, I (⟨.storage ctx (.putKey slot k true), r⟩ :: h))
    (hload : ∀ h, I h → (KeyStore.load cfg ctx slot).Conforms may h fun h' r =>
      I h' ∧ ∀ k, r = .ok k → K h' k) (hI : I h) :
    (KeyStore.loadOrCreate cfg ctx slot keyType).Conforms may h fun h' r =>
      I h' ∧ ∀ k, r = .ok k → K h' k := by
  have hgenerate : ∀ h, I h → (KeyStore.generateSigner keyType).Conforms may h fun h' r =>
      I h' ∧ ∀ k, r = .ok k → (⟨.env .generateSigner, k⟩ : Event) ∈ h' := by
    intro h hI
    obtain ⟨hmay, hnext⟩ := hquiet h (.env .generateSigner) hI trivial
    cases keyType with
    | other text => exact ⟨hI, by simp⟩
    | _ =>
        refine ⟨hmay, fun k => ⟨hnext k, ?_⟩⟩
        rintro _ ⟨⟩
        exact List.mem_cons_self
  refine (hload h hI).bind fun h₁ r _ hloaded => ?_
  cases r with
  | ok k => exact hloaded
  | error err =>
      have hI₁ := hloaded.1
      by_cases hne : err.is .notExist
      · simp only [hne, Bool.not_true, Bool.false_eq_true, if_false, KeyStore.canCreate, isLeader,
          onEnv, Prog.conforms_bind, Prog.conforms_perform]
        obtain ⟨hmay, hnext⟩ := hquiet h₁ (.env .isLeader) hI₁ trivial
        refine ⟨hmay, fun leader => ?_⟩
        cases leader with
        | false => exact ⟨hnext false, by simp⟩
        | true =>
            refine (hgenerate _ (hnext true)).bind fun h₂ r _ hmade => ?_
            obtain ⟨hI₂, hgen⟩ := hmade
            cases r with
            | error err => exact ⟨hI₂, by simp⟩
            | ok signer =>
                simp only [onStorage, Prog.conforms_bind, Prog.conforms_perform]
                obtain ⟨hmayPut, hafter⟩ := hput h₂ signer hI₂ (hgen signer rfl)
                refine ⟨hmayPut, fun r => ?_⟩
                -- whoever loses the race for the object, or wins it, loads what is there
                rcases r with (_ | reason) | _
                · exact hload _ (hafter _)
                · exact ⟨hafter _, by simp⟩
                · refine (hload _ (hafter _)).bind fun h₃ r _ hloaded => ?_
                  cases r with
                  | error err => exact ⟨hloaded.1, by simp⟩
                  | ok stored => exact hloaded
      · simp only [hne, Bool.not_false, if_true]
        exact ⟨hI₁, by simp⟩

theorem loadOrCreate_keeps {may : History → Op → Prop} {I : History → Prop} {h : History}
    (cfg : Settings) (ctx : Time) (slot : KeySlot) (keyType : KeyType)
    (hquiet : ∀ h o, I h → o.Quiet → may h o ∧ ∀ r, I (⟨o, r⟩ :: h))
    (hput : ∀ h k, I h → may h (.storage ctx (.putKey slot k true)) ∧
      ∀ r, I (⟨.storage ctx (.putKey slot k true), r⟩ :: h)) (hI : I h) :
    (KeyStore.loadOrCreate cfg ctx slot keyType).Conforms may h fun h' _ => I h' := by
  refine (loadOrCreate_reads (K := fun _ _ => True) cfg ctx slot keyType hquiet
    (fun h k hI _ => hput h k hI) (fun h hI => ?_) hI).mono fun _ _ hr => hr.1
  exact ((load_quiet cfg ctx slot).keeps hquiet hI).mono fun _ _ hI' => ⟨hI', fun _ _ => trivial⟩

/-- The same for a predicate on calls. -/
theorem loadOrCreate_calls {P : Op → Prop} (cfg : Settings) (ctx : Time) (slot : KeySlot)
    (keyType : KeyType) (hquiet : ∀ o : Op, o.Quiet → P o)
    (hput : ∀ k, P (.storage ctx (.putKey slot k true))) :
    (KeyStore.loadOrCreate cfg ctx slot keyType).Calls P :=
  fun _ => loadOrCreate_keeps (I := fun _ => True) cfg ctx slot keyType
    (fun _ o _ ho => ⟨hquiet o ho, fun _ => trivial⟩) (fun _ k _ => ⟨hput k, fun _ => trivial⟩) trivial

theorem loadOrCreateAccountKey_quiet (cfg : Settings) (ctx : Time) :
    (KeyStore.loadOrCreateAccountKey cfg ctx).Calls Op.Quiet :=
  loadOrCreate_calls cfg ctx .account .ecdsaP256 (fun _ ho => ho) fun _ => ⟨rfl, rfl⟩

theorem ensureIssuer_quiet (cfg : Settings) (ctx : Time) :
    (Manager.ensureIssuer cfg ctx).Calls Op.Quiet := by
  intro h
  simp only [Manager.ensureIssuer, Manager.ensureIssuerLocked, onMem, Prog.conforms_bind,
    Prog.conforms_perform]
  refine ⟨trivial, fun _ => ⟨trivial, fun ready => ?_⟩⟩
  cases ready with
  | true => simp [Op.Quiet]
  | false =>
      refine (loadOrCreateAccountKey_quiet cfg ctx _).bind fun h₁ r _ _ => ?_
      cases r <;> simp [Op.Quiet]

theorem confirmed_calls {P : Op → Prop} {cfg : Settings} {n : Name} {cert : Certificate}
    (hdelete : P (.mem (.fromLocalDelete n))) (hsave : P (.mem (.localSave n cert))) :
    (CertCache.confirmed cfg n cert).Calls P := by
  refine Prog.Calls.bind (.perform hdelete) fun _ => ?_
  split
  · exact Prog.Calls.bind (.perform hsave) fun _ => .pure _
  · exact .pure _

/-- The same for an invariant of the history. -/
theorem confirmed_conforms {may : History → Op → Prop} {I : History → Prop} {h : History}
    {cfg : Settings} {n : Name} {cert : Certificate}
    (hdelete : ∀ h, I h → may h (.mem (.fromLocalDelete n)) ∧
      I (⟨.mem (.fromLocalDelete n), ()⟩ :: h))
    (hsave : ∀ h saved, I h → may h (.mem (.localSave n cert)) ∧
      I (⟨.mem (.localSave n cert), saved⟩ :: h)) (hI : I h) :
    (CertCache.confirmed cfg n cert).Conforms may h fun h' _ => I h' := by
  simp only [CertCache.confirmed, onMem, Prog.conforms_bind, Prog.conforms_perform]
  obtain ⟨hmay, hI₁⟩ := hdelete h hI
  refine ⟨hmay, fun _ => ?_⟩
  split
  · simp only [Prog.conforms_bind, Prog.conforms_perform]
    exact ⟨(hsave _ true hI₁).1, fun saved => (hsave _ saved hI₁).2⟩
  · exact hI₁

theorem gateIssuance_quiet (cfg : Settings) (ctx : Time) (host : Name) :
    (Dane.gateIssuance cfg ctx host).Calls Op.Quiet := by
  intro h
  cases hd : cfg.dane with
  | none => simp [Dane.gateIssuance, hd]
  | some d =>
      simp only [Dane.gateIssuance, hd]
      split
      · simp
      · refine (load_quiet cfg ctx (.live host) h).bind fun h₁ r _ _ => ?_
        cases r with
        | ok k => simp [onEnv, Op.Quiet]
        | error err =>
            by_cases hne : err.is .notExist
            · simp only [hne, if_true, onEnv, Prog.conforms_bind, Prog.conforms_perform]
              refine ⟨trivial, fun r => ?_⟩
              cases r with
              | error _ => simp
              | ok published => by_cases hp : published.hasDANEEE <;> simp [hp]
            · simp [hne]

theorem stillFresh_quiet (cfg : Settings) (notAfter : Option Nat) :
    (Manager.stillFresh cfg notAfter).Calls Op.Quiet := by
  intro h
  cases notAfter <;> simp [Manager.stillFresh, Manager.now, onEnv, Op.Quiet]

theorem servedNames_quiet (cfg : Settings) : (Manager.servedNames cfg).Calls Op.Quiet := by
  intro h
  simp only [Manager.servedNames]
  split <;> simp [onMem, Op.Quiet]

theorem activationGate_quiet (cfg : Settings) (ctx : Time) (n : Name) (k : Key) (force : Bool) :
    (Manager.activationGate cfg ctx n k force).Calls Op.Quiet := by
  intro h
  cases hd : cfg.dane with
  | none => simp [Manager.activationGate, hd]
  | some d =>
      simp only [Manager.activationGate, hd]
      split
      · simp
      · simp only [onEnv, Prog.conforms_bind, Prog.conforms_perform]
        refine ⟨trivial, fun r => ?_⟩
        cases force with
        | true => simp
        | false =>
            cases r with
            | error _ => simp
            | ok p => cases hp : p.containsSPKIDigest k.public.spkiSHA256 <;> simp [hp]

/-! ## Markers and indexes -/

/-- Quiet calls, and those on the retiring markers and the on-demand index. -/
@[grind =] def Op.Aside : Op → Prop
  | .storage _ (.getRetiring _) => True
  | .storage _ (.putRetiring _ _) => True
  | .storage _ (.removeRetiring _) => True
  | .storage _ .getIndex => True
  | .storage _ (.putIndex _) => True
  | .mem .retiringLock => True
  | .mem .retiringUnlock => True
  | .mem (.indexGet _) => True
  | .mem .indexSnapshot => True
  | .mem (.indexSet _ _) => True
  | .mem .indexLock => True
  | .mem .indexUnlock => True
  | .mem .indexDirty => True
  | .mem (.setIndexDirty _) => True
  | o => o.Quiet

theorem Op.Quiet.aside {o : Op} (h : o.Quiet) : o.Aside := by
  cases o with
  | storage ctx o => cases o <;> trivial
  | mem o => cases o <;> trivial
  | env o => cases o <;> trivial

theorem aside_of_quiet {α : Type} {p : M α} (hp : p.Calls Op.Quiet) : p.Calls Op.Aside :=
  hp.mono fun _ ho => ho.aside

/-- Quiet calls, and a look at the retiring markers. -/
def Op.Looking : Op → Prop
  | .storage _ (.getRetiring _) => True
  | o => o.Quiet

theorem Op.Quiet.looking {o : Op} (h : o.Quiet) : o.Looking := by
  cases o with
  | storage ctx o => cases o <;> trivial
  | mem o => cases o <;> trivial
  | env o => cases o <;> trivial

theorem Op.Looking.aside {o : Op} (h : o.Looking) : o.Aside := by
  cases o with
  | storage ctx o => cases o <;> trivial
  | mem o => cases o <;> trivial
  | env o => cases o <;> trivial

theorem looking_of_quiet {α : Type} {p : M α} (hp : p.Calls Op.Quiet) : p.Calls Op.Looking :=
  hp.mono fun _ ho => ho.looking

theorem retiring_looking (ctx : Time) (host : Name) : (Dane.retiring ctx host).Calls Op.Looking := by
  intro h
  simp only [Dane.retiring, onStorage, Prog.conforms_bind, Prog.conforms_perform]
  refine ⟨trivial, fun r => ?_⟩
  rcases r with (_ | ⟨_, _⟩) | (_ | _) <;> simp

theorem retiring_aside (ctx : Time) (host : Name) : (Dane.retiring ctx host).Calls Op.Aside :=
  (retiring_looking ctx host).mono fun _ ho => ho.aside

theorem writeRetiring_aside (ctx : Time) (host : Name) (rs : List RetiringRecord) :
    (Dane.writeRetiring ctx host rs).Calls Op.Aside := by
  intro h
  simp only [Dane.writeRetiring, onStorage]
  split <;> simp [Op.Aside]

theorem addRetiring_aside (soak ctx : Time) (host : Name) (digest : Digest) :
    (Dane.addRetiring soak ctx host digest).Calls Op.Aside := by
  intro h
  refine (retiring_aside ctx host h).bind fun _ r _ _ => ?_
  cases r with
  | error err => simp
  | ok existing =>
      simp only [onEnv, Prog.conforms_bind, Prog.conforms_perform]
      refine ⟨trivial, fun t => ?_⟩
      split
      · simp
      · refine (writeRetiring_aside ctx host _ _).bind fun _ r _ _ => ?_
        cases r <;> simp

theorem markRetiring_aside (cfg : Settings) (soak ctx : Time) (host : Name) :
    (Dane.markRetiring cfg soak ctx host).Calls Op.Aside := by
  intro h
  refine (aside_of_quiet (load_quiet cfg ctx (.live host)) h).bind fun _ r _ _ => ?_
  cases r with
  | error err => simp
  | ok k =>
      simp only [onMem, Prog.conforms_bind, Prog.conforms_perform]
      refine ⟨trivial, fun _ => ?_⟩
      exact (addRetiring_aside soak ctx host _ _).mono fun _ _ _ => by simp [Op.Aside]

theorem markOutgoing_aside (cfg : Settings) (ctx : Time) (n : Name) :
    (Manager.markOutgoing cfg ctx n).Calls Op.Aside := by
  intro h
  cases hd : cfg.dane with
  | none => simp [Manager.markOutgoing, hd]
  | some d =>
      simp only [Manager.markOutgoing, hd]
      split
      · exact markRetiring_aside cfg d.soak ctx n h
      · simp

theorem cleanupHost_aside (ctx t : Time) (host : Name) :
    (Dane.cleanupHost ctx t host).Calls Op.Aside := by
  intro h
  refine (retiring_aside ctx host h).bind fun _ r _ _ => ?_
  cases r with
  | error err => simp
  | ok records =>
      simp only
      split
      · simp
      · exact (writeRetiring_aside ctx host _ _).bind fun _ _ _ _ => trivial

theorem cleanupHosts_aside (ctx t : Time) (hosts : List Name) :
    (Dane.cleanupHosts ctx t hosts).Calls Op.Aside := by
  intro h
  induction hosts generalizing h with
  | nil => simp [Dane.cleanupHosts]
  | cons host hosts ih => exact (cleanupHost_aside ctx t host h).bind fun _ _ _ _ => ih _

theorem cleanupExpiredRetiring_aside (d : DaneSettings) (ctx : Time) :
    (Dane.cleanupExpiredRetiring d ctx).Calls Op.Aside := by
  intro h
  simp only [Dane.cleanupExpiredRetiring, onMem, onEnv, Prog.conforms_bind, Prog.conforms_perform]
  refine ⟨trivial, fun _ => ⟨trivial, fun t => ?_⟩⟩
  exact (cleanupHosts_aside ctx t d.mxHosts _).mono fun _ _ _ => by simp [Op.Aside]

theorem recordsForHost_looking (cfg : Settings) (d : DaneSettings) (ctx : Time) (host : Name) :
    (Dane.recordsForHost cfg d ctx host).Calls Op.Looking := by
  have hfinish : ∀ live staged next h, (Dane.recordsFrom.finish d ctx host live staged next).Conforms
      (fun _ o => Op.Looking o) h fun _ _ => True := by
    intro live staged next h
    simp only [Dane.recordsFrom.finish, onEnv, Prog.conforms_bind, Prog.conforms_perform]
    refine ⟨trivial, fun t => (retiring_looking ctx host _).mono fun _ r _ => ?_⟩
    cases r <;> simp
  intro h
  refine (looking_of_quiet (load_quiet cfg ctx (.live host)) h).bind fun _ r _ _ => ?_
  cases r with
  | error err =>
      simp only
      split <;> simp
  | ok k =>
      refine (looking_of_quiet (load_quiet cfg ctx (.next host)) _).bind fun _ r _ _ => ?_
      cases r with
      | ok k' => exact hfinish _ _ _ _
      | error err =>
          simp only
          split
          · simp
          · exact hfinish _ _ _ _

theorem desiredFrom_looking (cfg : Settings) (d : DaneSettings) (ctx : Time) (hosts : List Name) :
    (Dane.desiredFrom cfg d ctx hosts).Calls Op.Looking := by
  intro h
  induction hosts generalizing h with
  | nil => simp [Dane.desiredFrom]
  | cons host hosts ih =>
      refine (recordsForHost_looking cfg d ctx host h).bind fun _ r _ _ => ?_
      cases r with
      | error err => simp
      | ok recs =>
          refine (ih _).bind fun _ r _ _ => ?_
          cases r <;> simp

theorem desiredFrom_aside (cfg : Settings) (d : DaneSettings) (ctx : Time) (hosts : List Name) :
    (Dane.desiredFrom cfg d ctx hosts).Calls Op.Aside :=
  (desiredFrom_looking cfg d ctx hosts).mono fun _ ho => ho.aside

theorem publishIndex_aside (ctx : Time) : (OnDemand.publishIndex ctx).Calls Op.Aside := by
  intro h
  simp only [OnDemand.publishIndex, onMem, onStorage, Prog.conforms_bind, Prog.conforms_perform]
  refine ⟨trivial, fun m => ⟨trivial, fun r => ?_⟩⟩
  cases r <;> simp [Op.Aside]

theorem noteIssued_aside (ctx : Time) (host : Name) (v : Nat) :
    (OnDemand.noteIssued ctx host v).Calls Op.Aside := by
  intro h
  simp only [OnDemand.noteIssued, onMem, Prog.conforms_bind, Prog.conforms_perform]
  refine ⟨trivial, fun _ => ⟨trivial, fun _ => ?_⟩⟩
  exact (publishIndex_aside ctx _).mono fun _ _ _ => by simp [Op.Aside]

theorem republishIndexIfDirty_aside (ctx : Time) :
    (OnDemand.republishIndexIfDirty ctx).Calls Op.Aside := by
  intro h
  simp only [OnDemand.republishIndexIfDirty, onMem, Prog.conforms_bind, Prog.conforms_perform]
  refine ⟨trivial, fun dirty => ?_⟩
  cases dirty with
  | false => simp
  | true =>
      simp only [Bool.not_true, Bool.false_eq_true, if_false, Prog.conforms_bind,
        Prog.conforms_perform]
      refine ⟨trivial, fun _ => ⟨trivial, fun dirty => ?_⟩⟩
      cases dirty with
      | false => simp [Op.Aside]
      | true => exact (publishIndex_aside ctx _).bind fun _ _ _ _ => by simp [Op.Aside]

theorem changedSince_aside (ctx : Time) (hosts : List Name) :
    (OnDemand.changedSince ctx hosts).Calls Op.Aside := by
  intro h
  simp only [OnDemand.changedSince, onStorage, onMem, Prog.conforms_bind, Prog.conforms_perform]
  refine ⟨trivial, fun r => ?_⟩
  rcases r with _ | (_ | _) <;> simp [Op.Aside]

theorem noteRefreshed_aside (ctx : Time) (host : Name) :
    (OnDemand.noteRefreshed ctx host).Calls Op.Aside := by
  intro h
  simp only [OnDemand.noteRefreshed, onStorage, onMem, Prog.conforms_bind, Prog.conforms_perform]
  refine ⟨trivial, fun r => ?_⟩
  rcases r with _ | (_ | _) <;> simp [Op.Aside]

/-! ## Calls that neither write a chain nor hold one, lock or order -/

@[grind =] def Op.Light : Op → Prop
  | .storage _ (.putChain _ _) => False
  | .storage _ (.removeKey (.live _)) => False
  | .mem (.pendingGet _) => False
  | .mem (.pendingSet _ _) => False
  | .mem (.pendingDelete _) => False
  | .mem .pendingSnapshot => False
  | .mem (.lock _) => False
  | .mem (.tryLock _) => False
  | .mem (.unlock _) => False
  | .mem (.retriesAllow _) => False
  | .mem (.retriesRecordFailure _) => False
  | .mem (.retriesBlock _ _) => False
  | .mem (.retriesReset _) => False
  | .env (.acquireLease _ _) => False
  | .env (.releaseLease _) => False
  | .env (.issue _ _ _) => False
  | _ => True

theorem Op.Aside.light {o : Op} (h : o.Aside) : o.Light := by
  cases o with
  | storage ctx o => cases o <;> trivial
  | mem o => cases o <;> trivial
  | env o => cases o <;> trivial

theorem light_of_aside {α : Type} {p : M α} (hp : p.Calls Op.Aside) : p.Calls Op.Light :=
  hp.mono fun _ ho => ho.light

theorem light_of_quiet {α : Type} {p : M α} (hp : p.Calls Op.Quiet) : p.Calls Op.Light :=
  light_of_aside (aside_of_quiet hp)

/-- Quiet calls, and those that read a chain or put a certificate in memory or on disk. -/
def Op.Serving : Op → Prop
  | .storage _ (.getChain _) => True
  | .mem (.memSet _ _) => True
  | .mem (.localSave _ _) => True
  | o => o.Quiet

theorem Op.Quiet.serving {o : Op} (h : o.Quiet) : o.Serving := by
  cases o with
  | storage ctx o => cases o <;> trivial
  | mem o => cases o <;> trivial
  | env o => cases o <;> trivial

theorem Op.Serving.light {o : Op} (h : o.Serving) : o.Light := by
  cases o with
  | storage ctx o => cases o <;> trivial
  | mem o => cases o <;> trivial
  | env o => cases o <;> trivial

theorem serving_of_quiet {α : Type} {p : M α} (hp : p.Calls Op.Quiet) : p.Calls Op.Serving :=
  hp.mono fun _ ho => ho.serving

theorem confirmed_serving (cfg : Settings) (n : Name) (cert : Certificate) :
    (CertCache.confirmed cfg n cert).Calls Op.Serving :=
  confirmed_calls trivial trivial

theorem refresh_serving (cfg : Settings) (ctx : Time) (n : Name) :
    (CertCache.refresh cfg ctx n).Calls Op.Serving := by
  intro h
  simp only [CertCache.refresh, CertCache.loadChain, onStorage, Prog.conforms_bind,
    Prog.conforms_perform]
  refine ⟨trivial, fun r => ?_⟩
  cases r with
  | error f => simp
  | ok c =>
      refine (serving_of_quiet (load_quiet cfg ctx (.live n)) _).bind fun _ r _ _ => ?_
      cases r with
      | error err => simp
      | ok k =>
          simp only
          cases buildCertificate c k with
          | error err => simp
          | ok cert =>
              simp only [CertCache.set, onMem, Prog.conforms_bind, Prog.conforms_perform]
              refine ⟨trivial, fun _ => ?_⟩
              exact (confirmed_serving cfg n cert _).mono fun _ _ _ => trivial

theorem refresh_light (cfg : Settings) (ctx : Time) (n : Name) :
    (CertCache.refresh cfg ctx n).Calls Op.Light :=
  (refresh_serving cfg ctx n).mono fun _ ho => ho.light

theorem promoteNextCertKey_light (cfg : Settings) (ctx : Time) (n : Name) :
    (KeyStore.promoteNextCertKey cfg ctx n).Calls Op.Light := by
  intro h
  simp only [KeyStore.promoteNextCertKey, KeyStore.canCreate, isLeader, onEnv, Prog.conforms_bind,
    Prog.conforms_perform]
  refine ⟨trivial, fun may => ?_⟩
  cases may with
  | false => simp
  | true =>
      refine (light_of_quiet (load_quiet cfg ctx (.next n)) _).bind fun _ r _ _ => ?_
      cases r with
      | error err => simp
      | ok k =>
          simp only [onStorage, Prog.conforms_bind, Prog.conforms_perform]
          refine ⟨trivial, fun r => ?_⟩
          cases r <;> simp [Op.Light]

theorem reconcileCeremony_light (cfg : Settings) (ctx : Time) (n : Name) :
    (Manager.reconcileCeremony cfg ctx n).Calls Op.Light := by
  intro h
  refine (light_of_quiet (load_quiet cfg ctx (.next n)) h).bind fun _ r _ _ => ?_
  cases r with
  | error err => simp
  | ok next =>
      simp only [CertCache.storedLeafSPKI, CertCache.loadChain, onStorage, Prog.conforms_bind,
        Prog.conforms_perform]
      refine ⟨trivial, fun r => ?_⟩
      rcases r with f | (leaf | _)
      · simp
      · refine (light_of_quiet (load_quiet cfg ctx (.live n)) _).bind fun _ r _ _ => ?_
        cases r with
        | error err => simp
        | ok live =>
            simp only
            split
            · refine (light_of_aside (markOutgoing_aside cfg ctx n) _).bind fun _ r _ _ => ?_
              cases r with
              | error err => simp
              | ok _ =>
                  refine (promoteNextCertKey_light cfg ctx n _).bind fun _ r _ _ => ?_
                  cases r with
                  | error err => simp
                  | ok _ => exact (refresh_light cfg ctx n _).bind fun _ _ _ _ => trivial
            · simp
      · simp

/-- A look around, and the creation of a staged key. -/
def Op.Staging : Op → Prop
  | .storage _ (.putKey (.next _) _ createOnly) => createOnly = true
  | o => o.Looking

theorem Op.Looking.staging {o : Op} (h : o.Looking) : o.Staging := by
  cases o with
  | storage ctx o =>
      cases o with
      | putKey slot k createOnly =>
          cases slot with
          | next n => exact h.2
          | _ => exact h
      | _ => exact h
  | mem o => exact h
  | env o => exact h

theorem Op.Staging.light {o : Op} (h : o.Staging) : o.Light := by
  cases o with
  | storage ctx o => cases o <;> trivial
  | mem o => cases o <;> trivial
  | env o => cases o <;> trivial

theorem staging_of_looking {α : Type} {p : M α} (hp : p.Calls Op.Looking) : p.Calls Op.Staging :=
  hp.mono fun _ ho => ho.staging

theorem staging_of_quiet {α : Type} {p : M α} (hp : p.Calls Op.Quiet) : p.Calls Op.Staging :=
  staging_of_looking (looking_of_quiet hp)

theorem loadOrCreateNext_staging (cfg : Settings) (ctx : Time) (n : Name) (keyType : KeyType) :
    (KeyStore.loadOrCreate cfg ctx (.next n) keyType).Calls Op.Staging :=
  loadOrCreate_calls cfg ctx (.next n) keyType (fun _ ho => ho.looking.staging) fun _ => rfl

theorem replaceCertificateKey_staging (cfg : Settings) (n : Name) :
    (Manager.replaceCertificateKey cfg n).Calls Op.Staging := by
  intro h
  simp only [Manager.replaceCertificateKey, KeyStore.generateNextCertKey, KeyStore.canCreate,
    isLeader, onEnv, Prog.conforms_bind, Prog.conforms_perform]
  refine ⟨trivial, fun leader => ?_⟩
  cases leader with
  | false => simp
  | true =>
      simp only [Bool.not_true, Bool.false_eq_true, if_false]
      split
      · simp
      · simp only [Manager.now, onEnv, Prog.conforms_bind, Prog.conforms_perform]
        refine ⟨trivial, fun t => ⟨trivial, fun may => ?_⟩⟩
        cases may with
        | false => simp
        | true =>
            refine (loadOrCreateNext_staging cfg _ n cfg.keyType _).mono fun _ r _ => ?_
            cases r with
            | error err => simp
            | ok k =>
                simp only
                split
                · exact staging_of_looking (recordsForHost_looking cfg _ _ n) _
                · refine (staging_of_quiet (load_quiet cfg _ (.next n)) _).bind fun _ r _ _ => ?_
                  cases r <;> simp

theorem replaceCertificateKey_light (cfg : Settings) (n : Name) :
    (Manager.replaceCertificateKey cfg n).Calls Op.Light :=
  (replaceCertificateKey_staging cfg n).mono fun _ ho => ho.light

/-! ## Calls that write no key -/

/-- No key object is written but the account's, and that is only created. -/
def Op.Keyless : Op → Prop
  | .storage _ (.putKey slot _ createOnly) => slot = .account ∧ createOnly = true
  | .storage _ (.removeKey _) => False
  | _ => True

theorem Op.Aside.keyless {o : Op} (h : o.Aside) : o.Keyless := by
  cases o with
  | storage ctx o => cases o <;> first | exact h | trivial
  | _ => trivial

theorem Op.Serving.keyless {o : Op} (h : o.Serving) : o.Keyless := by
  cases o with
  | storage ctx o => cases o <;> first | exact h | trivial
  | _ => trivial

theorem keyless_of_aside {α : Type} {p : M α} (hp : p.Calls Op.Aside) : p.Calls Op.Keyless :=
  hp.mono fun _ ho => ho.keyless

theorem keyless_of_quiet {α : Type} {p : M α} (hp : p.Calls Op.Quiet) : p.Calls Op.Keyless :=
  keyless_of_aside (aside_of_quiet hp)

/-- Calls that neither write a key nor order. -/
def Op.Idle : Op → Prop
  | .env (.issue _ _ _) => False
  | o => o.Keyless

theorem Op.Idle.keyless {o : Op} (h : o.Idle) : o.Keyless := by
  cases o with
  | env o => trivial
  | _ => exact h

theorem Op.Aside.idle {o : Op} (h : o.Aside) : o.Idle := by
  cases o with
  | storage ctx o => exact h.keyless
  | mem o => trivial
  | env o => cases o <;> trivial

theorem Op.Serving.idle {o : Op} (h : o.Serving) : o.Idle := by
  cases o with
  | storage ctx o => exact h.keyless
  | mem o => trivial
  | env o => cases o <;> trivial

theorem keyless_of_idle {α : Type} {p : M α} (hp : p.Calls Op.Idle) : p.Calls Op.Keyless :=
  hp.mono fun _ ho => ho.keyless

theorem idle_of_aside {α : Type} {p : M α} (hp : p.Calls Op.Aside) : p.Calls Op.Idle :=
  hp.mono fun _ ho => ho.idle

theorem idle_of_quiet {α : Type} {p : M α} (hp : p.Calls Op.Quiet) : p.Calls Op.Idle :=
  idle_of_aside (aside_of_quiet hp)

/-! ### Writing a chain -/

/-- The calls of `Store`. -/
inductive Storing (n : Name) (c : ChainPEM) : Op → Prop
  | put (ctx : Time) : Storing n c (.storage ctx (.putChain n c))
  | sleep (ctx d : Time) : Storing n c (.env (.sleep ctx d))
  | set (cert : Certificate) : Storing n c (.mem (.memSet n cert))
  | drop : Storing n c (.mem (.pendingDelete n))
  | confirm : Storing n c (.mem (.fromLocalDelete n))
  | save (cert : Certificate) : Storing n c (.mem (.localSave n cert))

theorem Storing.idle {n : Name} {c : ChainPEM} {o : Op} (h : Storing n c o) : o.Idle := by
  cases h <;> trivial

theorem persistFrom_storing (ctx : Time) (n : Name) (c : ChainPEM) (left attempt : Nat) :
    (CertCache.persistFrom ctx n c left attempt).Calls (Storing n c) := by
  induction left generalizing attempt with
  | zero =>
      refine Prog.Calls.bind (.perform (.put ctx)) fun r => ?_
      cases r <;> exact .pure _
  | succ left ih =>
      refine Prog.Calls.bind (.perform (.put ctx)) fun r => ?_
      cases r with
      | ok _ => exact .pure _
      | error f =>
          refine Prog.Calls.bind (.perform (.sleep ctx _)) fun slept => ?_
          cases slept with
          | true => exact ih (attempt + 1)
          | false => exact .pure _

theorem store_storing (cfg : Settings) (ctx : Time) (n : Name) (c : ChainPEM) (key : Key) :
    (CertCache.store cfg ctx n c key).Calls (Storing n c) := by
  unfold CertCache.store
  cases buildCertificate c key with
  | error err => exact .pure _
  | ok cert =>
      refine Prog.Calls.bind (persistFrom_storing ctx n c _ 1) fun r => ?_
      cases r with
      | error err => exact .pure _
      | ok _ =>
          refine Prog.Calls.bind (.perform (.set cert)) fun _ => ?_
          refine Prog.Calls.bind (.perform .drop) fun _ => ?_
          exact Prog.Calls.bind (confirmed_calls .confirm (.save cert)) fun _ => .pure _

section

variable (cfg : Settings) (ctx : Time) (n : Name)

theorem store_idle (c : ChainPEM) (k : Key) : (CertCache.store cfg ctx n c k).Calls Op.Idle :=
  (store_storing cfg ctx n c k).mono fun _ ho => ho.idle

theorem noteRateLimit_idle (f : IssueFault) :
    (Manager.noteRateLimit n f).Calls Op.Idle := by
  unfold Manager.noteRateLimit
  cases f.rateLimit with
  | none => exact Prog.Calls.pure _
  | some wait =>
      exact Prog.Calls.bind (Prog.Calls.perform trivial) fun _ => Prog.Calls.perform trivial

/-! ### One order -/

/-- An order for the name. -/
def Op.OrdersFor (n : Name) : Op → Prop
  | .env (.issue _ m _) => m = n
  | _ => False

theorem Op.OrdersFor.keyless {n : Name} {o : Op} (h : o.OrdersFor n) : o.Keyless := by
  cases o with
  | env o => trivial
  | _ => cases h

theorem placeOrder_once (k : Key) :
    (Manager.placeOrder cfg ctx n k).Once Op.Idle (Op.OrdersFor n) := by
  refine Prog.Calls.bind_once (idle_of_quiet (ensureIssuer_quiet cfg ctx)) fun r => ?_
  cases r with
  | error err =>
      exact (Prog.Calls.bind (Prog.Calls.perform trivial) fun _ => Prog.Calls.pure _).once
  | ok _ =>
      refine Prog.Once.bind (Prog.Once.perform rfl) fun r => ?_
      cases r with
      | error f =>
          refine Prog.Calls.bind (Prog.Calls.perform trivial) fun _ => ?_
          exact Prog.Calls.bind (noteRateLimit_idle n f) fun _ => Prog.Calls.pure _
      | ok c =>
          refine Prog.Calls.bind (store_idle cfg ctx n c k) fun r => ?_
          cases r with
          | unusable err => exact Prog.Calls.bind (Prog.Calls.perform trivial) fun _ => Prog.Calls.pure _
          | stored cert => exact Prog.Calls.bind (Prog.Calls.perform trivial) fun _ => Prog.Calls.pure _
          | unstored cert err =>
              refine Prog.Calls.bind (Prog.Calls.perform trivial) fun _ => ?_
              split
              · exact Prog.Calls.pure _
              · refine Prog.Calls.bind ?_ fun _ => Prog.Calls.pure _
                exact Prog.Calls.bind (Prog.Calls.perform trivial) fun _ => Prog.Calls.perform trivial

theorem refresh_idle : (CertCache.refresh cfg ctx n).Calls Op.Idle :=
  (refresh_serving cfg ctx n).mono fun _ ho => ho.idle

theorem refresh_keyless : (CertCache.refresh cfg ctx n).Calls Op.Keyless :=
  keyless_of_idle (refresh_idle cfg ctx n)

theorem issueUnderLease_once (k : Key) (force : Bool) :
    (Manager.issueUnderLease cfg ctx n k force).Once Op.Idle (Op.OrdersFor n) := by
  refine Prog.Calls.bind_once (refresh_idle cfg ctx n) fun r => ?_
  cases r with
  | error err =>
      dsimp only
      split
      · exact placeOrder_once cfg ctx n k
      · exact (Prog.Calls.pure _).once
  | ok stored =>
      dsimp only
      split
      · exact placeOrder_once cfg ctx n k
      · refine Prog.Calls.bind_once ?_ fun notAfter => ?_
        · exact Prog.Calls.bind (Prog.Calls.perform trivial) fun _ => Prog.Calls.pure _
        · cases notAfter with
          | none => exact placeOrder_once cfg ctx n k
          | some notAfter =>
              refine Prog.Calls.bind_once (Prog.Calls.perform trivial) fun t => ?_
              split
              · exact (Prog.Calls.pure _).once
              · exact placeOrder_once cfg ctx n k

theorem issueWithKey_once (k : Key) (force : Bool) :
    (Manager.issueWithKey cfg ctx n k force).Once Op.Idle (Op.OrdersFor n) := by
  refine Prog.Calls.bind_once (Prog.Calls.perform trivial) fun r => ?_
  cases r with
  | error wait => exact (Prog.Calls.pure _).once
  | ok _ =>
      refine Prog.Calls.bind_once (Prog.Calls.perform trivial) fun ok => ?_
      cases ok with
      | false =>
          refine Prog.Calls.bind_once (refresh_idle cfg ctx n) fun r => ?_
          cases r with
          | error err => exact (Prog.Calls.pure _).once
          | ok cert => cases force <;> exact (Prog.Calls.pure _).once
      | true =>
          refine Prog.Once.bind (issueUnderLease_once cfg ctx n k force) fun _ => ?_
          exact Prog.Calls.bind (Prog.Calls.perform trivial) fun _ => Prog.Calls.pure _

theorem issueWithKey_keyless (k : Key) (force : Bool) :
    (Manager.issueWithKey cfg ctx n k force).Calls Op.Keyless :=
  (issueWithKey_once cfg ctx n k force).calls (fun _ ho => ho.keyless) fun _ ho => ho.keyless

end

/-! ## Requests -/

theorem within_conforms {α : Type} {may : History → Op → Prop} {timeout : Time} {f : Time → M α}
    {Q : History → α → Prop} (hmay : may [] (.env .now))
    (hf : ∀ t, (f (t + timeout)).Conforms may [⟨.env .now, t⟩] Q) :
    (within timeout f).Conforms may [] Q := by
  simp only [within, Manager.now, onEnv, Prog.conforms_bind, Prog.conforms_perform]
  exact ⟨hmay, hf⟩

end CertsManager
