import CertsManager.Discipline.WriteBack
import CertsManager.IssuanceGate

/-!
# DefiniteAbsence — when a name counts as having no certificate

Only the answer "there is none" justifies an order, and `absentFromStorage` is meant to recognise
it in the error of `Refresh`.  `Refresh` reads two objects, the chain and then the live key, and
wraps either's error: with the chain stored and the key object missing the error still says "file
does not exist", and the name counts as having no certificate.  Unless the key object is answered
as not found, the decision is about the chain.
-/

namespace CertsManager

open Interleave

/-! ## What an operation read -/

/-- The last read of the chain, with the first read of the live key after it. -/
def lastLook (d : Name) :
    History → Option (Except ReadFault ChainPEM × Option (Except ReadFault KeyPEM))
  | [] => none
  | e :: h =>
      match chainReply d e, liveKeyReply d e, lastLook d h with
      | some c, _, _ => some (c, none)
      | none, some k, some (c, none) => some (c, some k)
      | none, _, look => look

/-- The chain was there and the key object was answered as not found. -/
def keyGone (d : Name) (h : History) : Bool :=
  match lastLook d h with
  | some (.ok _, some (.error .notExist)) => true
  | _ => false

/-- The last read of the chain was answered as not found. -/
def chainAbsent (d : Name) (h : History) : Bool :=
  decide (lastRead h d = some (.error .notExist))

def memReply (d : Name) : Event → Option (Option Certificate)
  | ⟨.mem (.memGet n), r⟩ => if n = d then some r else none
  | _ => none

/-- The last look at memory found a certificate. -/
def memHeld (d : Name) (h : History) : Bool :=
  match h.findSome? (memReply d) with
  | some (some _) => true
  | _ => false

/-- The operation knows that memory holds a certificate: it found one, or put one there. -/
def memEvidence (d : Name) : Event → Bool
  | ⟨.mem (.memGet n), r⟩ => decide (n = d) && r.isSome
  | ⟨.mem (.memSet n _), _⟩ => decide (n = d)
  | _ => false

/-- A look at memory found nothing where there had been something. -/
def memLost (d : Name) : History → Bool
  | [] => false
  | e :: h => memLost d h || (decide (memReply d e = some none) && h.any (memEvidence d))

/-- What an order or a new key rests on. -/
def Grounded (d : Name) (h : History) : Prop :=
  chainAbsent d h = true ∨ memHeld d h = true ∨ keyGone d h = true ∨ memLost d h = true

/-! ## What later calls leave of it -/

section

variable {d : Name} {h : History} {e : Event}

/-- Neither the chain nor memory was read. -/
def Event.Steady (d : Name) (e : Event) : Prop :=
  chainReply d e = none ∧ memReply d e = none

theorem lastRead_steady (he : chainReply d e = none) : lastRead (e :: h) d = lastRead h d := by
  simp [lastRead, he]

theorem keyGone_steady (he : chainReply d e = none) (hg : keyGone d h = true) :
    keyGone d (e :: h) = true := by
  unfold keyGone at hg ⊢
  split at hg
  · rename_i hlook
    simp [lastLook, he, hlook]
  · cases hg

theorem memHeld_steady (he : memReply d e = none) : memHeld d (e :: h) = memHeld d h := by
  simp [memHeld, he]

theorem memLost_cons (hl : memLost d h = true) : memLost d (e :: h) = true := by
  simp [memLost, hl]

theorem Grounded.cons (hg : Grounded d h) (he : e.Steady d) : Grounded d (e :: h) := by
  rcases hg with hc | hm | hk | hl
  · refine .inl ?_
    simpa [chainAbsent, lastRead_steady he.1] using hc
  · exact .inr (.inl (by rw [memHeld_steady he.2]; exact hm))
  · exact .inr (.inr (.inl (keyGone_steady he.1 hk)))
  · exact .inr (.inr (.inr (memLost_cons hl)))

theorem Op.Quiet.steady {o : Op} {r : Res o} (ho : o.Quiet) : Event.Steady d ⟨o, r⟩ := by
  cases o with
  | storage ctx o => cases o <;> first | exact ⟨rfl, rfl⟩ | cases ho
  | mem o => cases o <;> first | exact ⟨rfl, rfl⟩ | cases ho
  | env o => exact ⟨rfl, rfl⟩

/-! ## The two reads -/

theorem buildCertificate_error {c : ChainPEM} {k : Key} {err : Err}
    (hb : buildCertificate c k = .error err) : CertCache.absentFromStorage err = false := by
  cases c with
  | garbage =>
      cases hb
      rfl
  | chain leaf =>
      by_cases hk : k.public = leaf.pub
      · simp [buildCertificate, hk] at hb
      · simp only [buildCertificate, hk, dite_false, Except.error.injEq] at hb
        subst hb
        rfl

/-- A result of `Refresh` that counts as "there is none". -/
def reportsAbsence : Except Err Certificate → Bool
  | .error err => CertCache.absentFromStorage err
  | .ok _ => false

theorem lastLook_chain (d : Name) (h : History) : (lastLook d h).map Prod.fst = lastRead h d := by
  induction h with
  | nil => rfl
  | cons e h ih =>
      simp only [lastLook, lastRead, List.findSome?_cons] at ih ⊢
      cases chainReply d e with
      | some c => rfl
      | none =>
          dsimp only
          rw [← ih]
          rcases liveKeyReply d e with _ | k <;> rcases lastLook d h with _ | ⟨c, _ | k'⟩ <;> rfl

theorem keyGone_chain (hg : keyGone d h = true) : chainAbsent d h = false := by
  unfold keyGone at hg
  split at hg
  · rename_i hlook
    simp [chainAbsent, ← lastLook_chain, hlook]
  · cases hg

theorem look_cons (hc : chainReply d e = none) (hk : liveKeyReply d e = none) :
    chainAbsent d (e :: h) = chainAbsent d h ∧ keyGone d (e :: h) = keyGone d h := by
  rw [chainAbsent, chainAbsent, lastRead_steady hc, keyGone, keyGone, lastLook, hc, hk]
  exact ⟨rfl, rfl⟩

theorem look_key (ctx : Time) (c : ChainPEM) (r : Except ReadFault KeyPEM) :
    chainAbsent d (⟨.storage ctx (.getKey (.live d)), r⟩ ::
        ⟨.storage ctx (.getChain d), .ok c⟩ :: h) = false ∧
      keyGone d (⟨.storage ctx (.getKey (.live d)), r⟩ ::
        ⟨.storage ctx (.getChain d), .ok c⟩ :: h) = decide (r = .error .notExist) := by
  rcases r with (_ | _) | pem <;>
    simp [chainAbsent, lastRead, List.findSome?_cons, keyGone, lastLook, chainReply, liveKeyReply]

/-- `Refresh` reports absence for exactly two reasons, and leaves a certificate in memory when it
succeeds. -/
theorem refresh_looks (cfg : Settings) (ctx : Time) {may : History → Op → Prop}
    (hmay : ∀ h o, o.Serving → may h o) :
    (CertCache.refresh cfg ctx d).Conforms may h fun h' r =>
      (reportsAbsence r = true ↔ chainAbsent d h' = true ∨ keyGone d h' = true) ∧
      ∀ cert, r = .ok cert → h'.any (memEvidence d) = true := by
  have hfailed {h' : History} (err : Err) (cert : Certificate)
      (hok : (Except.error err : Except Err Certificate) = .ok cert) :
      h'.any (memEvidence d) = true := by cases hok
  simp only [CertCache.refresh, CertCache.loadChain, KeyStore.loadCertKey, KeyStore.load, onStorage,
    Prog.conforms_bind, Prog.conforms_perform]
  refine ⟨hmay _ _ trivial, fun r => ?_⟩
  rcases r with (_ | ⟨inBody, reason⟩) | c
  · -- no chain
    refine ⟨iff_of_true rfl (.inl ?_), hfailed _⟩
    simp [chainAbsent, lastRead, chainReply]
  · refine ⟨iff_of_false Bool.false_ne_true ?_, hfailed _⟩
    simp [chainAbsent, lastRead, keyGone, lastLook, chainReply]
  · simp only [Prog.conforms_pure, Prog.conforms_bind, Prog.conforms_perform]
    refine ⟨hmay _ _ trivial, fun r => ?_⟩
    -- past the chain, only the answer for the key decides, whatever quiet calls follow
    obtain ⟨hthere, hgone⟩ := look_key (d := d) (h := h) ctx c r
    rcases r with (_ | ⟨inBody, reason⟩) | pem
    · -- the chain is there and the key is not
      exact ⟨iff_of_true rfl (.inr hgone), hfailed _⟩
    · cases inBody <;> exact ⟨iff_of_false Bool.false_ne_true (by simp [hthere, hgone]), hfailed _⟩
    · cases pem with
      | garbage => exact ⟨iff_of_false Bool.false_ne_true (by simp [hthere, hgone]), hfailed _⟩
      | key key =>
          simp only [parseKeyPEM, Prog.conforms_pure]
          cases hb : buildCertificate c key with
          | error err =>
              refine ⟨iff_of_false ?_ (by simp [hthere, hgone]), hfailed _⟩
              simp [reportsAbsence, buildCertificate_error hb]
          | ok cert =>
              have hnext : ∀ {e : Event} {h' : History}, chainReply d e = none →
                  liveKeyReply d e = none → (h'.any (memEvidence d) = true ∧
                    chainAbsent d h' = false ∧ keyGone d h' = false) →
                  ((e :: h' : History).any (memEvidence d) = true ∧
                    chainAbsent d (e :: h') = false ∧ keyGone d (e :: h') = false) := by
                intro e h' hc hk hI
                rw [(look_cons hc hk).1, (look_cons hc hk).2]
                exact ⟨by simp [hI.1], hI.2⟩
              simp only [CertCache.set, onMem, Prog.conforms_bind, Prog.conforms_perform]
              refine ⟨hmay _ _ trivial, fun _ => ?_⟩
              refine (confirmed_conforms (I := fun h' => h'.any (memEvidence d) = true ∧
                chainAbsent d h' = false ∧ keyGone d h' = false)
                (fun h' hI => ⟨hmay _ _ trivial, hnext rfl rfl hI⟩)
                (fun h' saved hI => ⟨hmay _ _ trivial, hnext rfl rfl hI⟩) ?_).mono fun h' _ hI => ?_
              · obtain ⟨hthere', hgone'⟩ := look_cons (d := d) (e := ⟨.mem (.memSet d cert), ()⟩)
                  (h := _) rfl rfl
                exact ⟨by simp [memEvidence], hthere'.trans hthere, hgone'.trans hgone⟩
              · exact ⟨iff_of_false Bool.false_ne_true (by simp [hI.2]), fun _ _ => hI.1⟩

/-! ## The protocol -/

/-- The host a maintenance pass attempts to issue for. -/
def Call.renews : Call → Option Name
  | .renewIfNeeded d => some d
  | .runHost host _ => some host
  | _ => none

end

/-- An unforced order, and maintenance's new key, rest on the chain's absence or on a certificate in
hand. -/
def mayAct (q : Call) (h : History) : Op → Prop
  | .env (.issue _ n _) => ∀ d ∈ q.attempts, n = d → Grounded d h
  | .storage _ (.putKey (.live n) _ _) => ∀ d ∈ q.renews, n = d → Grounded d h
  | _ => True

section

variable {cfg : Settings} {q : Call} {d : Name} {h : History}

theorem Op.Idle.act {o : Op} (ho : o.Idle) : mayAct q h o := by
  cases o with
  | storage ctx o =>
      cases o with
      | putKey slot k createOnly =>
          obtain ⟨rfl, -⟩ : slot = .account ∧ createOnly = true := ho
          trivial
      | _ => trivial
  | mem o => trivial
  | env o => cases o <;> trivial

theorem idle_acts {α : Type} {p : M α} (hp : p.Calls Op.Idle) :
    p.Conforms (mayAct q) h fun _ _ => True :=
  (hp.conforms fun _ _ ho => ho.act).mono fun _ _ _ => trivial

/-- Quiet calls leave the ground as it is. -/
theorem quiet_acts {α : Type} {p : M α} (hp : p.Calls Op.Quiet) (hg : Grounded d h) :
    p.Conforms (mayAct q) h fun h' _ => Grounded d h' :=
  hp.keeps (fun _ _ hg ho => ⟨ho.serving.idle.act, fun _ => hg.cons ho.steady⟩) hg

theorem memHeld_evidence (hm : memHeld d h = true) : h.any (memEvidence d) = true := by
  unfold memHeld at hm
  split at hm
  · rename_i cert hfound
    obtain ⟨e, he, hreply⟩ := List.exists_of_findSome?_eq_some hfound
    refine List.any_eq_true.2 ⟨e, he, ?_⟩
    unfold memReply at hreply
    split at hreply
    · split at hreply
      · rename_i hn
        cases hreply
        simp [memEvidence, hn]
      · cases hreply
    · cases hreply
  · cases hm

/-- A look at memory after what is known: a certificate is there, or it has been lost. -/
theorem grounded_memGet (r : Option Certificate)
    (hbase : Grounded d h ∨ h.any (memEvidence d) = true) :
    Grounded d (⟨.mem (.memGet d), r⟩ :: h) := by
  cases r with
  | some cert => exact .inr (.inl (by simp [memHeld, memReply]))
  | none =>
      have hlost : h.any (memEvidence d) = true → Grounded d (⟨.mem (.memGet d), none⟩ :: h) :=
        fun hev => .inr (.inr (.inr (by simp [memLost, memReply, hev])))
      rcases hbase with (hc | hm | hk | hl) | hev
      · exact .inl (by simpa [chainAbsent, lastRead_steady (e := ⟨.mem (.memGet d), none⟩) rfl] using hc)
      · exact hlost (memHeld_evidence hm)
      · exact .inr (.inr (.inl (keyGone_steady rfl hk)))
      · exact .inr (.inr (.inr (memLost_cons hl)))
      · exact hlost hev

/-! ## The functions -/

theorem leafNotAfter_acts (hbase : Grounded d h ∨ h.any (memEvidence d) = true) :
    (CertCache.leafNotAfter d).Conforms (mayAct q) h fun h' r =>
      Grounded d h' ∧ (r.isSome = true → h'.any (memEvidence d) = true) := by
  refine ⟨trivial, fun cert => ⟨grounded_memGet cert hbase, fun hsome => ?_⟩⟩
  cases cert with
  | none => cases hsome
  | some cert => simp [memEvidence]

theorem refresh_acts (cfg : Settings) (ctx : Time) :
    (CertCache.refresh cfg ctx d).Conforms (mayAct q) h fun h' r =>
      (∀ err, r = .error err → CertCache.absentFromStorage err = true → Grounded d h') ∧
      ∀ cert, r = .ok cert → h'.any (memEvidence d) = true := by
  refine (refresh_looks cfg ctx fun _ _ ho => ho.idle.act).mono fun h' r hr => ⟨?_, hr.2⟩
  intro err herr habsent
  subst herr
  rcases hr.1.1 habsent with hc | hk
  · exact .inl hc
  · exact .inr (.inr (.inl hk))

/-- What `renewalBase` found: nothing, for a reason, or a certificate. -/
theorem renewalBase_acts (cfg : Settings) (ctx : Time) :
    (Manager.renewalBase cfg ctx d).Conforms (mayAct q) h fun h' r =>
      ∀ notAfter, r = .ok notAfter → Grounded d h' ∨ h'.any (memEvidence d) = true := by
  simp only [Manager.renewalBase, CertCache.leafNotAfter, CertCache.get, onMem, Prog.conforms_bind,
    Prog.conforms_perform, Prog.conforms_pure]
  refine ⟨trivial, fun cert => ?_⟩
  cases cert with
  | some cert =>
      intro _ _
      exact .inr (by simp [memEvidence])
  | none =>
      refine (refresh_acts cfg ctx).bind fun h₁ r _ hr => ?_
      cases r with
      | ok cert =>
          simp only [Prog.conforms_bind, Prog.conforms_perform, Prog.conforms_pure]
          refine ⟨trivial, fun cert' _ _ => .inl ?_⟩
          exact grounded_memGet cert' (.inr (hr.2 cert rfl))
      | error err =>
          dsimp only
          split
          · rename_i habsent
            exact fun _ _ => .inl (hr.1 err rfl habsent)
          · split <;> rintro _ ⟨⟩

/-- On its ground an order is placed. -/
theorem placeOrder_acts (cfg : Settings) (ctx : Time) (k : Key) (hg : Grounded d h) :
    (Manager.placeOrder cfg ctx d k).Conforms (mayAct q) h fun _ _ => True := by
  refine (quiet_acts (ensureIssuer_quiet cfg ctx) hg).bind fun h₁ r _ hg₁ => ?_
  cases r with
  | error err => exact ⟨trivial, fun _ => trivial⟩
  | ok _ =>
      refine ⟨fun d' hd' hn => hn ▸ hg₁, fun r => ?_⟩
      cases r with
      | error f =>
          refine ⟨trivial, fun _ => ?_⟩
          exact (idle_acts (noteRateLimit_idle d f)).bind fun _ _ _ _ => trivial
      | ok c =>
          refine (idle_acts (store_idle cfg ctx d c k)).bind fun h₂ r _ _ => ?_
          cases r with
          | unusable err => exact ⟨trivial, fun _ => trivial⟩
          | stored cert => exact ⟨trivial, fun _ => trivial⟩
          | unstored cert err =>
              simp only [onMem, Prog.conforms_bind, Prog.conforms_perform]
              refine ⟨trivial, fun _ => ?_⟩
              split
              · trivial
              · exact ⟨trivial, fun _ => ⟨trivial, fun _ => trivial⟩⟩

theorem issueUnderLease_acts (cfg : Settings) (ctx : Time) (k : Key) :
    (Manager.issueUnderLease cfg ctx d k false).Conforms (mayAct q) h fun _ _ => True := by
  refine (refresh_acts cfg ctx).bind fun h₁ r _ hr => ?_
  cases r with
  | error err =>
      simp only [Bool.false_or]
      split
      · rename_i habsent
        exact placeOrder_acts cfg ctx k (hr.1 err rfl habsent)
      · trivial
  | ok stored =>
      simp only [Bool.false_eq_true, if_false]
      refine (leafNotAfter_acts (.inr (hr.2 stored rfl))).bind fun h₂ r _ hg => ?_
      cases r with
      | none => exact placeOrder_acts cfg ctx k hg.1
      | some notAfter =>
          simp only [Manager.now, onEnv, Prog.conforms_bind, Prog.conforms_perform]
          refine ⟨trivial, fun t => ?_⟩
          split
          · trivial
          · exact placeOrder_acts cfg ctx k (hg.1.cons ⟨rfl, rfl⟩)

theorem issueWithKey_acts (cfg : Settings) (ctx : Time) (k : Key) :
    (Manager.issueWithKey cfg ctx d k false).Conforms (mayAct q) h fun _ _ => True := by
  refine ⟨trivial, fun r => ?_⟩
  cases r with
  | error wait => trivial
  | ok _ =>
      refine ⟨trivial, fun ok => ?_⟩
      cases ok with
      | false =>
          refine (idle_acts ((refresh_serving cfg ctx d).mono fun _ ho => ho.idle)).bind
            fun _ r _ _ => ?_
          cases r <;> trivial
      | true =>
          refine (issueUnderLease_acts cfg ctx k).bind fun _ _ _ _ => ?_
          exact ⟨trivial, fun _ => trivial⟩

/-- A new key, if maintenance has the ground for it. -/
theorem loadOrCreateCertKey_acts (cfg : Settings) (ctx : Time)
    (hg : (∃ d', q.renews = some d') → Grounded d h) :
    (KeyStore.loadOrCreateCertKey cfg ctx d).Conforms (mayAct q) h fun _ _ => True := by
  refine (loadOrCreate_keeps (I := fun h => (∃ d', q.renews = some d') → Grounded d h) cfg ctx
    (.live d) _ (fun h o hg ho => ?_) (fun h k hg => ?_) hg).mono fun _ _ _ => trivial
  · exact ⟨ho.serving.idle.act, fun r hq => (hg hq).cons ho.steady⟩
  · refine ⟨fun d' hd' hn => hn ▸ hg ⟨d', hd'⟩, fun r hq => (hg hq).cons ⟨rfl, rfl⟩⟩

theorem passes_acts : Passes (mayAct q) fun _ => True :=
  fun _ _ _ ho => ⟨ho.idle.act, fun _ => trivial⟩

/-- A handshake's new key is created without a look at the chain. -/
theorem issuing_acts (cfg : Settings) (hq : q.renews = none) :
    Issuing cfg (mayAct q) (fun _ => True) (fun _ _ => True) fun _ _ _ => True where
  free := passes_acts
  locked _ := passes_acts
  lock _ _ _ := ⟨trivial, fun _ => trivial⟩
  tryLock _ _ _ := ⟨trivial, trivial, trivial⟩
  unlock _ _ _ := ⟨trivial, fun _ => trivial⟩
  refresh ctx n _ _ := idle_acts (refresh_idle cfg ctx n)
  key ctx n h _ := by
    refine (loadOrCreateCertKey_acts cfg ctx (h := h) (by simp [hq])).mono fun _ _ _ => ?_
    exact ⟨trivial, fun _ _ => trivial⟩
  order ctx _ k _ _ _ := issueWithKey_acts cfg ctx k

theorem renewIfNeededLocked_acts (cfg : Settings) (ctx : Time)
    (hbase : Grounded d h ∨ h.any (memEvidence d) = true) :
    (Manager.renewIfNeededLocked cfg ctx d).Conforms (mayAct q) h fun _ _ => True := by
  refine (leafNotAfter_acts hbase).bind fun h₁ notAfter _ hg => ?_
  refine (quiet_acts (stillFresh_quiet cfg notAfter) hg.1).bind fun h₂ fresh _ hg₂ => ?_
  cases fresh with
  | true => trivial
  | false =>
      refine (quiet_acts (gateIssuance_quiet cfg ctx d) hg₂).bind fun h₃ r _ hg₃ => ?_
      cases r with
      | error err => trivial
      | ok _ =>
          refine (loadOrCreateCertKey_acts cfg ctx fun _ => hg₃).bind fun _ r _ _ => ?_
          cases r with
          | error err => trivial
          | ok k => exact (issueWithKey_acts cfg ctx k).bind fun _ _ _ _ => trivial

theorem base_cons {e : Event} (hbase : Grounded d h ∨ h.any (memEvidence d) = true)
    (he : e.Steady d) : Grounded d (e :: h) ∨ (e :: h : History).any (memEvidence d) = true := by
  rcases hbase with hg | hev
  · exact .inl (hg.cons he)
  · exact .inr (by simp [hev])

theorem renewIfNeeded_acts (cfg : Settings) (ctx : Time) :
    (Manager.renewIfNeeded cfg ctx d).Conforms (mayAct q) h fun _ _ => True := by
  refine (renewalBase_acts cfg ctx).bind fun h₁ r _ hr => ?_
  cases r with
  | error err => trivial
  | ok notAfter =>
      have hbase := hr notAfter rfl
      have hfresh : (Manager.stillFresh cfg notAfter).Conforms (mayAct q) h₁ fun h' _ =>
          Grounded d h' ∨ h'.any (memEvidence d) = true :=
        (stillFresh_quiet cfg notAfter).keeps
          (fun h o hb ho => ⟨ho.serving.idle.act, fun r => base_cons hb ho.steady⟩) hbase
      refine hfresh.bind fun h₂ fresh _ hbase₂ => ?_
      cases fresh with
      | true => trivial
      | false =>
          simp only [Bool.false_eq_true, if_false, onMem, Prog.conforms_bind, Prog.conforms_perform]
          refine ⟨trivial, fun free => ?_⟩
          cases free with
          | false => trivial
          | true =>
              refine (renewIfNeededLocked_acts cfg ctx (base_cons hbase₂ ⟨rfl, rfl⟩)).bind
                fun _ _ _ _ => ?_
              exact ⟨trivial, fun _ => trivial⟩

end

/-! ## Every run -/

def acts : Protocol Op Res Call Out where
  may := mayAct
  done _ _ _ := True

section

variable {N T : Type} [DecidableEq N]

theorem cluster_acts (cfg : Settings) (node : T → N) : (cluster cfg node).Follows acts := by
  have hfree : ∀ q : Call, q.attempts = none → q.renews = none →
      (body cfg q).Conforms (mayAct q) [] fun _ _ => True := by
    intro q hattempts hrenews
    refine Prog.conforms_of_all (fun h o => ?_) fun _ _ => trivial
    cases o with
    | storage ctx o =>
        cases o with
        | putKey slot k createOnly => cases slot <;> simp [mayAct, hrenews]
        | _ => trivial
    | mem o => trivial
    | env o => cases o <;> simp [mayAct, hattempts]
  intro q
  cases q with
  | obtain d =>
      refine Prog.conforms_map.2 (within_conforms trivial fun t => ?_)
      exact (issuing_acts cfg rfl).obtain _ d _ trivial
  | renewIfNeeded d =>
      exact Prog.conforms_map.2 (within_conforms trivial fun t => renewIfNeeded_acts cfg _)
  | requestIssue d onDemandHost =>
      exact Prog.conforms_map.2 ((issuing_acts cfg rfl).requestIssue d onDemandHost [] trivial)
  | runHost host isRenewal =>
      refine Prog.conforms_map.2 (passes_acts.runHost isRenewal ?_ ?_ [] trivial)
      · exact fun ctx _ _ => idle_acts (refresh_idle cfg ctx host)
      · exact fun ctx _ _ => renewIfNeeded_acts cfg ctx
  | _ => exact hfree _ rfl rfl

/-- A certificate in memory stays there, so a look after it finds one. -/
structure MemKept (node : T → N) (d : Name) (v : ClusterView N T) : Prop where
  kept : ∀ t q h, v.task t = some (q, h) → h.any (memEvidence d) = true →
    (v.shared.node (node t)).mem d ≠ none
  notLost : ∀ t q h, v.task t = some (q, h) → memLost d h = false

variable {cfg : Settings} {node : T → N} {d : Name} {w w' : World N T} {t : T} {h : History}
  {o : Op} {a : Answer} {r : Res o}

theorem exec_mem_kept (he : exec cfg.maxRetries node w t o a = some (r, w')) (i : N)
    (hm : (w.node i).mem d ≠ none) : (w'.node i).mem d ≠ none := by
  rcases exec_cert he i d with hsame | ⟨cert, -, -, hset⟩
  · rw [hsame]
    exact hm
  · simp [hset]

/-- What the operation found in memory or put there is there. -/
theorem exec_memEvidence (he : exec cfg.maxRetries node w t o a = some (r, w'))
    (hev : memEvidence d ⟨o, r⟩ = true) : (w'.node (node t)).mem d ≠ none := by
  cases o with
  | storage ctx o => cases hev
  | env o => cases hev
  | mem o =>
      cases o with
      | memGet n =>
          obtain ⟨rfl, hsome⟩ : n = d ∧ r.isSome = true := by simpa [memEvidence] using hev
          refine exec_mem_kept he _ ?_
          rw [← exec_memGet he]
          intro hnone
          simp [hnone] at hsome
      | memSet n cert =>
          obtain rfl : n = d := by simpa [memEvidence] using hev
          simp [exec_memSet he]
      | _ => cases hev

theorem memLost_exec (he : exec cfg.maxRetries node w t o a = some (r, w'))
    (hkept : h.any (memEvidence d) = true → (w.node (node t)).mem d ≠ none)
    (hl : memLost d h = false) : memLost d (⟨o, r⟩ :: h) = false := by
  simp only [memLost, hl, Bool.false_or, Bool.and_eq_false_iff, decide_eq_false_iff_not]
  by_cases hreply : memReply d ⟨o, r⟩ = some none
  · refine .inr ?_
    cases o with
    | storage ctx o => cases hreply
    | env o => cases hreply
    | mem o =>
        cases o with
        | memGet n =>
            obtain ⟨rfl, rfl⟩ : n = d ∧ r = none := by
              simpa [memReply, Option.ite_none_right_eq_some] using hreply
            have hnone := exec_memGet he
            by_contra hany
            exact hkept (by simpa using hany) hnone.symm
        | _ => cases hreply
  · exact .inl hreply

variable [DecidableEq T]

/-- Whatever the programs do. -/
theorem memKept_move {P : Protocol Op Res Call Out} {v v' : ClusterView N T} {l : ClusterLabel T}
    (hI : MemKept node d v) (hmove : Move (cluster cfg node) P v l v') : MemKept node d v' := by
  have htasks : ∀ t q h, v'.task t = some (q, h) →
      (h.any (memEvidence d) = true → (v'.shared.node (node t)).mem d ≠ none) ∧
        memLost d h = false := by
    refine hmove.tasks (J := fun w t _ h =>
      (h.any (memEvidence d) = true → (w.node (node t)).mem d ≠ none) ∧ memLost d h = false)
      (fun t q h ht => ⟨hI.kept t q h ht, hI.notLost t q h ht⟩) (fun _ => ⟨nofun, rfl⟩) ?_ ?_
    · intro t q h o a r w' _ ht _ he
      refine ⟨fun hany => ?_, memLost_exec he (hI.kept t q h ht) (hI.notLost t q h ht)⟩
      rcases (by simpa using hany : memEvidence d ⟨o, r⟩ = true ∨ _) with hev | hev
      · exact exec_memEvidence he hev
      · exact exec_mem_kept he _ (hI.kept t q h ht (by simpa using hev))
    · intro t q h o a r w' _ _ _ he u q' h' _ hu
      exact ⟨fun hany => exec_mem_kept he _ (hI.kept u q' h' hu hany), hI.notLost u q' h' hu⟩
  exact ⟨fun t q h ht => (htasks t q h ht).1, fun t q h ht => (htasks t q h ht).2⟩

/-- The thread that orders for the name (`true`) or writes its live key. -/
def acting (d : Name) : ClusterLabel T → Option (T × Bool)
  | .did t ⟨.env (.issue _ n _), _⟩ => if n = d then some (t, true) else none
  | .did t ⟨.storage _ (.putKey (.live n) _ _), _⟩ => if n = d then some (t, false) else none
  | _ => none

/-- An unforced order for the name, or a key maintenance creates for it, with `P` of what the
attempt has seen, rests on the chain's absence or on a certificate in memory. -/
def ActsOnAbsence (d : Name) (P : History → Bool) (v : ClusterView N T) (l : ClusterLabel T)
    (_ : ClusterView N T) : Prop :=
  ∀ x ∈ acting d l, ∀ k ∈ v.task x.1,
    (if x.2 then k.1.attempts else k.1.renews) = some d → P k.2 = true →
      chainAbsent d k.2 = true ∨ memHeld d k.2 = true

instance (d : Name) (P : History → Bool) (v : ClusterView N T) (l : ClusterLabel T)
    (v' : ClusterView N T) : Decidable (ActsOnAbsence d P v l v') :=
  inferInstanceAs (Decidable (∀ x ∈ acting d l, ∀ k ∈ v.task x.1, _))

theorem actsOnAbsence_move {v v' : ClusterView N T} {l : ClusterLabel T} (hI : MemKept node d v)
    (hmove : Move (cluster cfg node) acts v l v') :
    ActsOnAbsence d (fun h => !keyGone d h) v l v' := by
  rintro ⟨t, order⟩ hx ⟨q, h⟩ hk hq hP
  -- the ground the protocol gives, with the two impossible cases taken out
  have hground : Grounded d h → chainAbsent d h = true ∨ memHeld d h = true := by
    rintro (hc | hm | hg | hl)
    · exact .inl hc
    · exact .inr hm
    · simp [hg] at hP
    · rw [hI.notLost t q h hk] at hl
      cases hl
  cases hmove with
  | start _ => cases hx
  | finish _ _ => cases hx
  | crash => cases hx
  | @did u q' h' o a r s hu hmay he =>
      cases o with
      | mem o => cases hx
      | env o =>
          cases o with
          | issue ctx n k =>
              obtain ⟨rfl, rfl, rfl⟩ : n = d ∧ u = t ∧ true = order := by
                simpa [acting, Option.ite_none_right_eq_some] using hx
              obtain ⟨rfl, rfl⟩ : q' = q ∧ h' = h := by
                simpa using Option.some.inj (hu.symm.trans hk)
              exact hground (hmay n hq rfl)
          | _ => cases hx
      | storage ctx o =>
          cases o with
          | putKey slot k createOnly =>
              cases slot with
              | live n =>
                  obtain ⟨rfl, rfl, rfl⟩ : n = d ∧ u = t ∧ false = order := by
                    simpa [acting, Option.ite_none_right_eq_some] using hx
                  obtain ⟨rfl, rfl⟩ : q' = q ∧ h' = h := by
                    simpa using Option.some.inj (hu.symm.trans hk)
                  exact hground (hmay n hq rfl)
              | _ => cases hx
          | _ => cases hx

/-- Absence means the chain's exactly when the key object was not answered as not found: in what
each `Refresh` reports, and in each handshake of an on-demand host that kicks an issuance or does
not.  Then it does in every order and every new key of a run. -/
theorem definite_absence (cfg : Settings) (node : T → N) (d : Name) (w₀ : World N T)
    (as : List (Action T Call Answer)) :
    (∀ ctx h, (CertCache.refresh cfg ctx d).Conforms (fun _ _ => True) h fun h' r =>
      (reportsAbsence r = true → chainAbsent d h' = true) ↔ keyGone d h' = false) ∧
    (∀ h, (Manager.leaderMiss cfg d true).Conforms (fun _ _ => True) h fun h' r =>
      (r = .kick → chainAbsent d h' = true) ↔ keyGone d h' = false) ∧
    (cluster cfg node).Meets (ActsOnAbsence d fun h => !keyGone d h) (.idle w₀) as := by
  have hrefresh : ∀ ctx h, (CertCache.refresh cfg ctx d).Conforms (fun _ _ => True) h fun h' r =>
      (reportsAbsence r = true → chainAbsent d h' = true) ↔ keyGone d h' = false := by
    intro ctx h
    refine (refresh_looks cfg ctx fun _ _ _ => trivial).mono fun h' r hr => ?_
    cases hgone : keyGone d h' with
    | true =>
        -- reported, and the chain was there
        have hreports := hr.1.2 (.inr hgone)
        simp [hreports, keyGone_chain hgone]
    | false => simpa [hgone] using hr.1.1
  refine ⟨hrefresh, fun h => ?_, ?_⟩
  · simp only [Manager.leaderMiss, if_true, Manager.now, onEnv, Prog.conforms_bind,
      Prog.conforms_perform]
    refine ⟨trivial, fun t => (hrefresh _ _).mono fun h₁ r hr => ?_⟩
    cases r with
    | ok cert => exact (iff_of_true nofun nofun).trans hr
    | error err =>
        dsimp only
        cases habsent : CertCache.absentFromStorage err with
        | false =>
            simp only [reportsAbsence, habsent] at hr
            exact (iff_of_true nofun nofun).trans hr
        | true =>
            simp only [reportsAbsence, habsent] at hr
            simpa using hr
  · have hstart : MemKept node d (Config.idle w₀ : Config Op Res (World N T) T Call Out).view :=
      ⟨nofun, nofun⟩
    have hruns := Machine.run_meets (A := fun _ _ _ => True) (cluster_acts cfg node)
      (fun v l v' hI hmove _ => memKept_move hI hmove) as (.idle w₀) (Machine.onTrack_idle w₀) hstart
      (Machine.meets_of_all fun _ _ _ => trivial)
    exact hruns.mono fun v l v' hm => actsOnAbsence_move hm.2.2.1 hm.1

end

/-! ## A stored chain whose key is missing -/

/-- The chain of "a" is stored, its key object is not. -/
def keylessWorld : World Unit (Fin 1) :=
  { World.empty Unit (Fin 1) with
    storage := { Storage.empty with chain := fun n => if n = "a" then some (.chain ⟨⟨7⟩, 100⟩) else none } }

/-- What the last finished `Refresh` answered about absence. -/
def saysAbsent : Label Op Res (Fin 1) Call Out → Bool
  | .finish _ (.refresh _) (.cert (.error err)) => CertCache.absentFromStorage err
  | _ => false

/-- `Refresh` reports absence of a name whose chain it has read, and maintenance creates a key for
it. -/
theorem stored_taken_for_none :
    (∃ c, (cluster (.plain ["a"]) fun _ : Fin 1 => ()).run (.idle keylessWorld)
        (.start 0 (.refresh "a") :: List.replicate 3 (.step 0 {})) = some c ∧
      ((cluster (.plain ["a"]) fun _ : Fin 1 => ()).step c (.finish 0)).any
        (fun x => saysAbsent x.1) = true) ∧
    ¬ (cluster (.plain ["a"]) fun _ : Fin 1 => ()).Meets (ActsOnAbsence "a" fun _ => true)
        (.idle keylessWorld) (.start 0 (.renewIfNeeded "a") :: List.replicate 10 (.step 0 {})) ∧
    ((cluster (.plain ["a"]) fun _ : Fin 1 => ()).run (.idle keylessWorld)
        (.start 0 (.renewIfNeeded "a") :: List.replicate 10 (.step 0 {}))).map
          (fun c => (c.shared.storage.chain "a", c.shared.storage.key (.live "a"))) =
      some (some (.chain ⟨⟨7⟩, 100⟩), some (.key ⟨0⟩)) := by
  refine ⟨⟨_, rfl, by decide +kernel⟩, by decide +kernel, by decide +kernel⟩

end CertsManager
