import CertsManager.Discipline.Know

/-!
# Operations — every operation keeps to what it knows

One lemma for each function of the manager: from what it needs to know when it is called, every
call it makes is one `mayKeep` permits, and this is what it knows when it returns.
-/

namespace CertsManager

open Interleave

section Keeps

variable {cfg : Settings} {q : Call} {h : History} {n : Name}

/-! ## Keys and stored chains -/

theorem load_keeps (ctx : Time) (n : Name) :
    (KeyStore.load cfg ctx (.live n)).Conforms (mayKeep cfg q) h fun h' r =>
      (know cfg h).Steady (know cfg h') ∧ ((know cfg h).lock = some n →
        (∀ k, r = .ok k → (know cfg h').key = true) ∧
        (∀ err, r = .error err → err.is .notExist = true → (know cfg h).key = true →
          (know cfg h').gone = true)) := by
  simp only [KeyStore.load, onStorage, Prog.conforms_bind, Prog.conforms_perform]
  refine ⟨trivial, fun r => ?_⟩
  have hs := (know cfg h).after_steady cfg (e := ⟨.storage ctx (.getKey (.live n)), r⟩) trivial
  rcases r with (_ | ⟨inBody, reason⟩) | pem
  · refine ⟨hs, fun hn => ⟨by simp, fun err _ _ hk => ?_⟩⟩
    simp [Know.after, hn, Know.readKey, hk]
  · cases inBody <;> exact ⟨hs, fun hn => ⟨by simp, by simp [readFailure, Err.is, Err.wrap]⟩⟩
  · refine ⟨hs, fun hn => ⟨fun k _ => by simp [Know.after, hn, Know.readKey], ?_⟩⟩
    cases pem <;> simp [parseKeyPEM]

/-- The key is the one a read under the lock returned, whoever created it. -/
theorem loadOrCreateCertKey_keeps (ctx : Time) (n : Name) :
    (KeyStore.loadOrCreateCertKey cfg ctx n).Conforms (mayKeep cfg q) h fun h' r =>
      (know cfg h).Steady (know cfg h') ∧ ((know cfg h).lock = some n →
        ∀ k, r = .ok k → (know cfg h').key = true) := by
  refine (loadOrCreate_reads (I := fun h' => (know cfg h).Steady (know cfg h'))
    (K := fun h' _ => (know cfg h).lock = some n → (know cfg h').key = true) cfg ctx (.live n) _
    (fun h₁ o hs ho => ?_) (fun h₁ k hs _ => ⟨trivial, fun _ => hs⟩) (fun h₁ hs => ?_) (.refl _)).mono
    fun _ _ hr => ⟨hr.1, fun hn k hk => hr.2 k hk hn⟩
  · refine ⟨ho.aside.lookup.keep, fun r => ?_⟩
    exact hs.trans ((know cfg h₁).after_steady cfg (e := ⟨o, r⟩) ho.aside)
  · refine (load_keeps ctx n).mono fun _ r hload => ⟨hs.trans hload.1, fun k hk hn => ?_⟩
    exact (hload.2 (hs.lock.trans hn)).1 k hk

/-- Under the lease, with nothing read yet, a refresh tells what storage holds. -/
theorem refresh_keeps (ctx : Time) (hn : (know cfg h).Leased n) (hc : (know cfg h).chain = none) :
    (CertCache.refresh cfg ctx n).Conforms (mayKeep cfg q) h fun h' r =>
      (know cfg h).Grows (know cfg h') ∧
      (∀ cert, r = .ok cert → (know cfg h').chain = some (some (encodeChainPEM cert)) ∧
        (know cfg h').read = some (some (encodeChainPEM cert)) ∧
        (know cfg h').served = some cert) ∧
      (∀ err, r = .error err → CertCache.absentFromStorage err = true → (know cfg h).key = true →
        (know cfg h').Judged) := by
  simp only [CertCache.refresh, CertCache.loadChain, onStorage, Prog.conforms_bind,
    Prog.conforms_perform]
  refine ⟨trivial, fun r => ?_⟩
  have hg := (know cfg h).after_grows cfg (e := ⟨.storage ctx (.getChain n), r⟩) trivial
  rcases r with (_ | ⟨inBody, reason⟩) | c
  · refine ⟨hg, by simp, fun _ _ _ _ => ⟨none, ?_, ?_, Or.inl rfl⟩⟩ <;>
      simp [Know.after, hn, Know.readChain, hc]
  · exact ⟨hg, by simp, by simp [CertCache.absentFromStorage, readFailure, Err.is]⟩
  · have hc₁ : (know cfg (⟨.storage ctx (.getChain n), .ok c⟩ :: h)).chain = some (some c) := by
      simp [Know.after, hn, Know.readChain, hc]
    have hr₁ : (know cfg (⟨.storage ctx (.getChain n), .ok c⟩ :: h)).read = some (some c) := by
      simp [Know.after, hn, Know.readChain, hc]
    refine (load_keeps ctx n).bind fun h₁ r _ hload => ?_
    have hs₁ := hload.1
    have hg₁ := hg.trans hs₁.grows
    have hr := hload.2 (hg.lock.trans hn.1)
    cases r with
    | error err =>
        refine ⟨hg₁, by simp, ?_⟩
        intro err' herr' habs hk
        cases herr'
        refine ⟨some c, hs₁.chain.trans hc₁, hs₁.read.trans hr₁, Or.inr (Or.inl ?_)⟩
        exact hr.2 err rfl (by simpa [CertCache.absentFromStorage] using habs) (hg.key hk)
    | ok k =>
        simp only
        cases hb : buildCertificate c k with
        | error err =>
            refine ⟨hg₁, by simp, ?_⟩
            intro err' herr' habs
            cases herr'
            cases c with
            | garbage =>
                cases hb
                simp [CertCache.absentFromStorage] at habs
            | chain leaf =>
                simp only [buildCertificate] at hb
                split at hb
                · cases hb
                · cases hb
                  simp [CertCache.absentFromStorage] at habs
        | ok cert =>
            obtain ⟨rfl, -⟩ := buildCertificate_ok hb
            simp only [CertCache.set, onMem, Prog.conforms_bind, Prog.conforms_perform]
            refine ⟨trivial, fun _ => ?_⟩
            have hg₂ := (know cfg h₁).after_grows cfg (e := ⟨.mem (.memSet n cert), ()⟩) trivial
            have hserved : (know cfg (⟨.mem (.memSet n cert), ()⟩ :: h₁)).served = some cert := by
              simp [Know.after, hg₁.leased hn]
            have hread : (know cfg (⟨.mem (.memSet n cert), ()⟩ :: h₁)).read =
                (know cfg h₁).read := by
              simp [Know.after, hg₁.leased hn]
            refine (confirmed_keeps n cert).mono fun h₃ _ hs₃ => ?_
            refine ⟨hg₁.trans (hg₂.trans hs₃.grows), ?_, by simp⟩
            rintro cert' ⟨⟩
            exact ⟨hs₃.chain.trans (hg₂.chain _ (hs₁.chain.trans hc₁)),
              hs₃.read.trans (hread.trans (hs₁.read.trans hr₁)), hs₃.served.trans hserved⟩

/-! ## Writing a chain -/

theorem persistFrom_keeps (ctx : Time) (c : ChainPEM) (left attempt : Nat)
    (hn : (know cfg h).Leased n) :
    (CertCache.persistFrom ctx n c left attempt).Conforms (mayKeep cfg q) h fun h' r =>
      (know cfg h).Frame (know cfg h') ∧
      (r = .ok () → (know cfg h').chain = some (some c) ∧ PutOk h' n c) ∧
      (∀ err, r = .error err → (know cfg h').spoiled = true) := by
  have hput : ∀ h r, (know cfg h).Leased n →
      (know cfg h).Frame (know cfg (⟨.storage ctx (.putChain n c), r⟩ :: h)) := by
    intro h r hn
    simp only [know_cons, Know.after, hn, if_true]
    rcases r with _ | _ <;> exact ⟨rfl, rfl, rfl, rfl, id⟩
  have hok : ∀ h, (know cfg h).Leased n →
      (know cfg (⟨.storage ctx (.putChain n c), .ok ()⟩ :: h)).chain = some (some c) := by
    intro h hn
    simp [Know.after, hn, Know.wroteChain]
  have herr : ∀ h f, (know cfg h).Leased n →
      (know cfg (⟨.storage ctx (.putChain n c), .error f⟩ :: h)).spoiled = true := by
    intro h f hn
    simp [Know.after, hn, Know.wroteChain]
  induction left generalizing attempt h with
  | zero =>
      simp only [CertCache.persistFrom, onStorage, Prog.conforms_bind, Prog.conforms_perform]
      refine ⟨hn, fun r => ?_⟩
      cases r with
      | error f =>
          exact ⟨hput h _ hn, by simp, fun _ _ => herr h f hn⟩
      | ok _ =>
          exact ⟨hput h _ hn, fun _ => ⟨hok h hn, ctx, List.mem_cons_self⟩, by simp⟩
  | succ left ih =>
      simp only [CertCache.persistFrom, onStorage, onEnv, Prog.conforms_bind, Prog.conforms_perform]
      refine ⟨hn, fun r => ?_⟩
      cases r with
      | ok _ =>
          exact ⟨hput h _ hn, fun _ => ⟨hok h hn, ctx, List.mem_cons_self⟩, by simp⟩
      | error f =>
          simp only [Prog.conforms_bind, Prog.conforms_perform]
          refine ⟨trivial, fun slept => ?_⟩
          have hf := hput h (.error f) hn
          cases slept with
          | false =>
              exact ⟨hf, by simp, fun _ _ => herr h f hn⟩
          | true =>
              have hn' : (know cfg (⟨.env (.sleep ctx (attempt * CertCache.persistBackoff)), true⟩ ::
                  ⟨.storage ctx (.putChain n c), .error f⟩ :: h)).Leased n := hf.leased hn
              refine (ih (attempt + 1) hn').mono fun h' r hrest => ?_
              exact ⟨hf.trans hrest.1, hrest.2⟩

theorem store_keeps (ctx : Time) (c : ChainPEM) (k : Key) (hn : (know cfg h).Leased n)
    (hc : (know cfg h).InHand c) :
    (CertCache.store cfg ctx n c k).Conforms (mayKeep cfg q) h fun h' r =>
      (know cfg h').Leased n ∧ (know cfg h').order = (know cfg h).order ∧
      (∀ cert, r = .stored cert → (know cfg h').chain = some (some c) ∧ PutOk h' n c) ∧
      (∀ cert err, r = .unstored cert err →
        c = encodeChainPEM cert ∧ (know cfg h').InHand c ∧ (know cfg h').spoiled = true) ∧
      (∀ err, r = .unusable err →
        buildCertificate c k = .error err ∧ (know cfg h').spoiled = (know cfg h).spoiled) := by
  simp only [CertCache.store]
  cases hb : buildCertificate c k with
  | error err =>
      refine ⟨hn, rfl, by simp, by simp, ?_⟩
      rintro _ ⟨⟩
      exact ⟨rfl, rfl⟩
  | ok cert =>
      obtain ⟨rfl, -⟩ := buildCertificate_ok hb
      refine (persistFrom_keeps ctx _ _ _ hn).bind fun h₁ r _ ⟨hf, hok, herr⟩ => ?_
      cases r with
      | error err =>
          refine ⟨hf.leased hn, hf.order, by simp, ?_, by simp⟩
          rintro _ _ ⟨⟩
          exact ⟨rfl, hf.inHand hc, herr err rfl⟩
      | ok _ =>
          obtain ⟨hchain, hput⟩ := hok rfl
          simp only [CertCache.set, CertCache.dropPending, onMem, Prog.conforms_bind,
            Prog.conforms_perform]
          have hset := (know cfg h₁).after_grows cfg (e := ⟨.mem (.memSet n cert), ()⟩) trivial
          have hchain₂ := hset.chain _ hchain
          have hn₂ := hset.leased (hf.leased hn)
          refine ⟨trivial, fun _ => ⟨⟨hn₂, _, hchain₂, Or.inl ?_⟩, fun _ => ?_⟩⟩
          · exact hset.inHand (hf.inHand hc)
          · refine (confirmed_keeps n cert).extends.mono fun h₃ _ ⟨hsuf, hs₃⟩ => ?_
            have hdrop := Know.after_holding cfg (know cfg (⟨.mem (.memSet n cert), ()⟩ :: h₁))
              (o := .pendingDelete n) () ⟨n, Or.inr (Or.inl rfl)⟩
            refine ⟨hs₃.leased (hdrop.leased hn₂), ?_, ?_, by simp, by simp⟩
            · exact hs₃.order.trans (hdrop.order.trans (hset.order.trans hf.order))
            · refine fun _ _ => ⟨hs₃.chain.trans (hdrop.chain.trans hchain₂), hput.extend ?_⟩
              exact ((List.suffix_cons _ _).trans (List.suffix_cons _ _)).trans hsuf

theorem hold_keeps {cert : Certificate} (hn : (know cfg h).Leased n)
    (hc : (know cfg h).InHand (encodeChainPEM cert)) :
    (CertCache.hold n cert (encodeChainPEM cert)).Conforms (mayKeep cfg q) h fun h' _ =>
      (know cfg h').Leased n ∧ (know cfg h').order = (know cfg h).order ∧
        (know cfg h').spoiled = (know cfg h).spoiled ∧
        (know cfg h').held = some (some ⟨encodeChainPEM cert, cert.leaf.notAfter⟩) := by
  simp only [CertCache.hold, CertCache.set, onMem, Prog.conforms_bind, Prog.conforms_perform]
  have hset := (know cfg h).after_grows cfg (e := ⟨.mem (.memSet n cert), ()⟩) trivial
  have hheld := Know.after_holding cfg (know cfg (⟨.mem (.memSet n cert), ()⟩ :: h))
    (o := .pendingSet n ⟨encodeChainPEM cert, cert.leaf.notAfter⟩) () ⟨n, Or.inr (Or.inr ⟨_, rfl⟩)⟩
  have hserved : (know cfg (⟨.mem (.memSet n cert), ()⟩ :: h)).served = some cert := by
    simp [Know.after, hn]
  refine ⟨trivial, fun _ => ⟨⟨hset.leased hn, rfl, hset.inHand hc, cert, hserved, rfl⟩, fun _ => ?_⟩⟩
  refine ⟨hheld.leased (hset.leased hn), hheld.order.trans hset.order,
    hheld.spoiled.trans hset.spoiled, ?_⟩
  have hlock : (know cfg (⟨.mem (.memSet n cert), ()⟩ :: h)).lock = some n := (hset.leased hn).1
  rw [know_cons, Know.after]
  exact congrArg Know.held (if_pos hlock)

/-! ## Placing an order -/

theorem Know.Settled.of_none {κ : Know} (ho : κ.order = none) : κ.Settled :=
  fun hne => absurd ho hne

theorem Know.Settled.of_spoiled {κ : Know} (hs : κ.spoiled = true) : κ.Settled :=
  fun _ => Or.inr hs

theorem noteRateLimit_keeps (n : Name) (f : IssueFault) :
    (Manager.noteRateLimit n f).Conforms (mayKeep cfg q) h fun h' _ =>
      (know cfg h).Steady (know cfg h') := by
  cases hf : f.rateLimit with
  | none =>
      simp only [Manager.noteRateLimit, hf, Prog.conforms_pure]
      exact .refl _
  | some wait =>
      simp only [Manager.noteRateLimit, hf, Manager.now, onEnv, onMem, Prog.conforms_bind,
        Prog.conforms_perform]
      exact ⟨trivial, fun t => ⟨trivial, fun _ => (know cfg h).now_steady cfg t⟩⟩

theorem placeOrder_keeps (ctx : Time) (k : Key) (hn : (know cfg h).Leased n)
    (ho : (know cfg h).order = none) (hsp : (know cfg h).spoiled = false)
    (hj : q.forced = false → (know cfg h).Judged) :
    (Manager.placeOrder cfg ctx n k).Conforms (mayKeep cfg q) h fun h' _ =>
      (know cfg h').Leased n ∧ (know cfg h').Settled := by
  refine (quiet_keeps (ensureIssuer_quiet cfg ctx)).bind fun h₁ r _ hs₁ => ?_
  have hn₁ := hs₁.leased hn
  have ho₁ := hs₁.order.trans ho
  cases r with
  | error err =>
      simp only [onMem, Prog.conforms_bind, Prog.conforms_perform]
      exact ⟨trivial, fun _ => ⟨hn₁, .of_none ho₁⟩⟩
  | ok _ =>
      simp only [onEnv, onMem, Prog.conforms_bind, Prog.conforms_perform]
      refine ⟨⟨hn₁, ho₁, hs₁.spoiled.trans hsp, fun hq => hs₁.judged (hj hq)⟩, fun r => ?_⟩
      cases r with
      | error f =>
          simp only [Prog.conforms_bind, Prog.conforms_perform]
          refine ⟨trivial, fun _ => ?_⟩
          refine (noteRateLimit_keeps n f).mono fun h₂ _ hs₂ => ?_
          exact ⟨hs₂.leased hn₁, .of_none (hs₂.order.trans ho₁)⟩
      | ok c =>
          -- from here on the chain is in hand
          have hissue : know cfg (⟨.env (.issue ctx n k), .ok c⟩ :: h₁) =
              (know cfg h₁).ordered k c := by
            simp only [know_cons, Know.after, hn₁, if_true]
          have hn₂ : (know cfg (⟨.env (.issue ctx n k), .ok c⟩ :: h₁)).Leased n := by
            rw [hissue]
            exact hn₁
          have hhand : (know cfg (⟨.env (.issue ctx n k), .ok c⟩ :: h₁)).InHand c :=
            Or.inl (by rw [hissue]; rfl)
          refine (store_keeps ctx c k hn₂ hhand).bind ?_
          rintro h₃ r - ⟨hn₃, -, hstored, hunstored, hunusable⟩
          cases r with
          | unusable err =>
              obtain ⟨hb, hsame⟩ := hunusable err rfl
              simp only [Prog.conforms_bind, Prog.conforms_perform]
              refine ⟨trivial, fun _ => ⟨hn₃, .of_spoiled (hsame.trans ?_)⟩⟩
              simp [hissue, Know.ordered, hb, Except.toOption]
          | stored cert =>
              simp only [Prog.conforms_bind, Prog.conforms_perform]
              exact ⟨trivial, fun _ => ⟨hn₃, fun _ => Or.inl ⟨c, (hstored cert rfl).1⟩⟩⟩
          | unstored cert err =>
              obtain ⟨rfl, hhand₃, hspoiled⟩ := hunstored cert err rfl
              simp only [Prog.conforms_bind, Prog.conforms_perform]
              refine ⟨trivial, fun u => ?_⟩
              split
              · exact ⟨hn₃, .of_spoiled hspoiled⟩
              · refine (hold_keeps (h := ⟨.mem (.retriesRecordFailure n), u⟩ :: h₃) hn₃
                  hhand₃).bind fun h₄ _ _ hn₄ => ?_
                exact ⟨hn₄.1, .of_spoiled (hn₄.2.2.1.trans hspoiled)⟩

/-- Storage is read first; unless forced, only its answer justifies the order. -/
theorem issueUnderLease_keeps (ctx : Time) (k : Key) (force : Bool)
    (hq : force = true → q.forced = true) (hn : (know cfg h).Leased n)
    (hc : (know cfg h).chain = none) (ho : (know cfg h).order = none)
    (hsp : (know cfg h).spoiled = false) (hk : (know cfg h).key = true) :
    (Manager.issueUnderLease cfg ctx n k force).Conforms (mayKeep cfg q) h fun h' _ =>
      (know cfg h').Leased n ∧ (know cfg h').Settled := by
  refine (refresh_keeps ctx hn hc).bind fun h₁ r _ ⟨hg, hok, herr⟩ => ?_
  have hn₁ := hg.leased hn
  have ho₁ := hg.order.trans ho
  have hsp₁ := hg.spoiled.trans hsp
  cases r with
  | ok stored =>
      obtain ⟨hchain, hread, hserved⟩ := hok stored rfl
      cases force with
      | true => exact placeOrder_keeps ctx k hn₁ ho₁ hsp₁ fun hf => by simp [hq rfl] at hf
      | false =>
          simp only [Bool.false_eq_true, if_false, CertCache.leafNotAfter, CertCache.get, onMem,
            Prog.conforms_bind, Prog.conforms_perform, Prog.conforms_pure]
          refine ⟨trivial, fun r => ?_⟩
          have hget : know cfg (⟨.mem (.memGet n), r⟩ :: h₁) =
              { know cfg h₁ with seen := some r, due := false } := by
            simp only [know_cons, Know.after, hn₁, if_true]
          cases r with
          | none =>
              refine placeOrder_keeps ctx k (by rw [hget]; exact hn₁) (by rw [hget]; exact ho₁)
                (by rw [hget]; exact hsp₁) ?_
              intro _
              rw [hget]
              exact ⟨_, hchain, hread, Or.inr (Or.inr ⟨stored, rfl, hserved, Or.inl rfl⟩)⟩
          | some cert =>
              simp only [Option.map_some, Manager.now, onEnv, Prog.conforms_bind,
                Prog.conforms_perform]
              refine ⟨trivial, fun t => ?_⟩
              have hnow : know cfg (⟨.env .now, t⟩ :: ⟨.mem (.memGet n), some cert⟩ :: h₁) =
                  { know cfg h₁ with
                    seen := some (some cert)
                    due := !Manager.outlivesRenewal cfg t cert.leaf.notAfter } := by
                rw [know_cons, hget]
                simp [Know.after]
              split
              · exact ⟨by rw [hnow]; exact hn₁, .of_none (by rw [hnow]; exact ho₁)⟩
              · rename_i hout
                refine placeOrder_keeps ctx k (by rw [hnow]; exact hn₁) (by rw [hnow]; exact ho₁)
                  (by rw [hnow]; exact hsp₁) ?_
                intro _
                rw [hnow]
                refine ⟨_, hchain, hread, Or.inr (Or.inr ⟨stored, rfl, hserved,
                  Or.inr ⟨⟨cert, rfl⟩, ?_⟩⟩)⟩
                simpa using hout
  | error err =>
      simp only
      split
      · rename_i hor
        refine placeOrder_keeps ctx k hn₁ ho₁ hsp₁ fun hf => ?_
        cases force with
        | true => simp [hq rfl] at hf
        | false => exact herr err rfl (by simpa using hor) hk
      · exact ⟨hn₁, .of_none ho₁⟩

theorem issueWithKey_keeps (ctx : Time) (k : Key) (force : Bool)
    (hq : force = true → q.forced = true) (hq' : ∀ n force, q ≠ .activateCertificateKey n force)
    (hn : (know cfg h).lock = some n) (hl : (know cfg h).lease = false)
    (hk : (know cfg h).key = true) :
    (Manager.issueWithKey cfg ctx n k force).Conforms (mayKeep cfg q) h fun h' _ =>
      (know cfg h').lock = some n ∧ (know cfg h').lease = false := by
  simp only [Manager.issueWithKey, Manager.acquireIssueLease, onMem, onEnv, Prog.conforms_bind,
    Prog.conforms_perform]
  refine ⟨trivial, fun r => ?_⟩
  cases r with
  | error wait => exact ⟨hn, hl⟩
  | ok _ =>
      simp only [Prog.conforms_bind, Prog.conforms_perform]
      refine ⟨⟨hn, hl⟩, fun got => ?_⟩
      cases got with
      | false =>
          refine (light_keeps hq' (refresh_light cfg ctx n)).bind fun h₁ r _ hg => ?_
          have hdone : (know cfg h₁).lock = some n ∧ (know cfg h₁).lease = false :=
            ⟨hg.lock.trans hn, hg.lease.trans hl⟩
          cases r with
          | error err => exact hdone
          | ok cert => cases force <;> exact hdone
      | true =>
          obtain ⟨hchain, horder, -, -, -, -, hspoiled⟩ := (know_sound cfg h).unleased hl
          have hgot : know cfg (⟨.env (.acquireLease ctx n), true⟩ ::
              ⟨.mem (.retriesAllow n), .ok ()⟩ :: h) = { know cfg h with lease := true } := by
            simp [Know.after, hn]
          simp only [Bool.not_true, Bool.false_eq_true, if_false, Manager.releaseIssueLease, onEnv]
          refine (issueUnderLease_keeps ctx k force hq (h := ⟨.env (.acquireLease ctx n), true⟩ ::
              ⟨.mem (.retriesAllow n), .ok ()⟩ :: h) ⟨by rw [hgot]; exact hn, by rw [hgot]⟩
              (by rw [hgot]; exact hchain) (by rw [hgot]; exact horder)
              (by rw [hgot]; exact hspoiled) (by rw [hgot]; exact hk)).bind fun h₁ r _ hissued => ?_
          simp only [Prog.conforms_bind, Prog.conforms_perform]
          exact ⟨hissued, fun _ => ⟨hissued.1.1, rfl⟩⟩

/-! ## Obtaining and renewing -/

/-- What runs under the lock of `n` and gives its lease back. -/
abbrev LockedAt (cfg : Settings) (n : Name) (h : History) : Prop :=
  (know cfg h).lock = some n ∧ (know cfg h).lease = false

theorem passes_keeps (cfg : Settings) (q : Call) :
    Passes (mayKeep cfg q) fun h => (know cfg h).lock = none :=
  fun h _ hh ho => ⟨ho.keep, fun _ => ((know cfg h).after_guard cfg ho.not_guarding).1.trans hh⟩

theorem issuing_keeps (cfg : Settings) (hq : ∀ n force, q ≠ .activateCertificateKey n force) :
    Issuing cfg (mayKeep cfg q) (fun h => (know cfg h).lock = none) (LockedAt cfg)
      fun h _ _ => (know cfg h).key = true where
  free := passes_keeps cfg q
  locked _ h _ hn ho := by
    refine ⟨ho.keep, fun r => ?_⟩
    obtain ⟨hlock, hlease⟩ := (know cfg h).after_guard cfg (e := ⟨_, r⟩) ho.not_guarding
    exact ⟨hlock.trans hn.1, hlease.trans hn.2⟩
  lock _ _ hh := ⟨hh, fun _ => ⟨rfl, rfl⟩⟩
  tryLock _ _ hh := ⟨hh, ⟨rfl, rfl⟩, hh⟩
  unlock _ _ hn := ⟨hn, fun _ => rfl⟩
  refresh ctx n _ hh := (light_keeps hq (refresh_light cfg ctx n)).mono fun _ _ hg => hg.lock.trans hh
  key ctx n _ hn := (loadOrCreateCertKey_keeps ctx n).mono fun _ _ hr =>
    ⟨⟨hr.1.lock.trans hn.1, hr.1.lease.trans hn.2⟩, hr.2 hn.1⟩
  order ctx _ k _ hn hk := issueWithKey_keeps ctx k false (by simp) hq hn.1 hn.2 hk

/-! ## Held and lost chains -/

/-- The entry is one of the flush's snapshot; only a restore brings its own. -/
abbrev MayFlush (q : Call) (h : History) (n : Name) (p : PendingPersist) : Prop :=
  Offered h n p ∨ q = .restoreMissingChains

theorem MayFlush.extend {h' : History} {p : PendingPersist} (hp : MayFlush q h n p)
    (hs : h <:+ h') : MayFlush q h' n p :=
  hp.imp (·.extend hs) id

theorem dropPending_keeps {p : PendingPersist} {c : ChainPEM} (hn : (know cfg h).Leased n)
    (hc : (know cfg h).chain = some (some c)) (hp : MayFlush q h n p) (hcov : Covers c p) :
    (CertCache.dropPending n).Conforms (mayKeep cfg q) h fun h' _ =>
      (know cfg h').Leased n ∧ (know cfg h').order = (know cfg h).order := by
  simp only [CertCache.dropPending, onMem, Prog.conforms_perform]
  have hdrop := Know.after_holding cfg (know cfg h) (o := .pendingDelete n) ()
    ⟨n, Or.inr (Or.inl rfl)⟩
  refine ⟨⟨hn, c, hc, Or.inr ?_⟩, fun _ => ⟨hdrop.leased hn, hdrop.order⟩⟩
  exact hp.imp (fun ho => ⟨p, ho, hcov⟩) id

theorem writeHeld_keeps (ctx : Time) {p : PendingPersist} (hn : (know cfg h).Leased n)
    (ho : (know cfg h).order = none) (hp : MayFlush q h n p) :
    (Manager.writeHeld cfg ctx n p).Conforms (mayKeep cfg q) h fun h' _ =>
      (know cfg h').Leased n ∧ (know cfg h').order = none := by
  refine (persistFrom_keeps ctx p.chainPEM _ _ hn).bind fun h₁ r hs₁ ⟨hf, hok, _⟩ => ?_
  have hn₁ := hf.leased hn
  have ho₁ := hf.order.trans ho
  cases r with
  | error err => exact ⟨hn₁, ho₁⟩
  | ok _ =>
      refine (dropPending_keeps hn₁ (hok rfl).1 (hp.extend hs₁) (Or.inl rfl)).bind ?_
      rintro h₂ _ - ⟨hn₂, ho₂⟩
      simp only [CertCache.get, onMem, Prog.conforms_bind, Prog.conforms_perform]
      refine ⟨trivial, fun r => ?_⟩
      have hg := (know cfg h₂).after_grows cfg (e := ⟨.mem (.memGet n), r⟩) trivial
      cases r with
      | none => exact ⟨hg.leased hn₂, hg.order.trans (ho₂.trans ho₁)⟩
      | some cert =>
          refine (confirmed_keeps n cert).bind fun h₃ _ _ hs₃ => ?_
          exact ⟨hs₃.leased (hg.leased hn₂), hs₃.order.trans (hg.order.trans (ho₂.trans ho₁))⟩

/-- What is read of the stored chain under the lease is known from then on. -/
theorem storedNotAfter_keeps (ctx : Time) (hn : (know cfg h).Leased n)
    (hc : (know cfg h).chain = none) :
    (CertCache.storedNotAfter ctx n).Conforms (mayKeep cfg q) h fun h' r =>
      (know cfg h).Grows (know cfg h') ∧ ∀ notAfter, r = .ok notAfter →
        ∃ leaf, (know cfg h').chain = some (some (.chain leaf)) ∧ leaf.notAfter = notAfter := by
  simp only [CertCache.storedNotAfter, CertCache.loadChain, onStorage, Prog.conforms_bind,
    Prog.conforms_perform]
  refine ⟨trivial, fun r => ?_⟩
  have hg := (know cfg h).after_grows cfg (e := ⟨.storage ctx (.getChain n), r⟩) trivial
  rcases r with f | (leaf | _)
  · exact ⟨hg, by simp⟩
  · refine ⟨hg, ?_⟩
    rintro notAfter ⟨⟩
    exact ⟨leaf, by simp [Know.after, hn, Know.readChain, hc], rfl⟩
  · exact ⟨hg, by simp⟩

theorem flushLeased_keeps (ctx : Time) {p : PendingPersist}
    (hq : ∀ n force, q ≠ .activateCertificateKey n force) (hn : (know cfg h).Leased n)
    (hc : (know cfg h).chain = none) (ho : (know cfg h).order = none) (hp : MayFlush q h n p) :
    (Manager.flushLeased cfg ctx n p).Conforms (mayKeep cfg q) h fun h' _ =>
      (know cfg h').Leased n ∧ (know cfg h').order = none := by
  refine (storedNotAfter_keeps ctx hn hc).bind fun h₁ r hs₁ ⟨hg₁, hread⟩ => ?_
  have hn₁ := hg₁.leased hn
  have ho₁ := hg₁.order.trans ho
  cases r with
  | ok notAfter =>
      obtain ⟨leaf, hchain, rfl⟩ := hread notAfter rfl
      simp only
      split
      · rename_i hle
        refine (light_keeps hq (refresh_light cfg ctx n)).bind fun h₂ r hs₂ hg₂ => ?_
        have hn₂ := hg₂.leased hn₁
        have ho₂ := hg₂.order.trans ho₁
        cases r with
        | error err => exact ⟨hn₂, ho₂⟩
        | ok cert =>
            refine (dropPending_keeps hn₂ (hg₂.chain _ hchain) ((hp.extend hs₁).extend hs₂)
              (Or.inr ⟨leaf, rfl, hle⟩)).bind fun h₃ _ _ ⟨hn₃, ho₃⟩ => ?_
            exact ⟨hn₃, ho₃.trans ho₂⟩
      · exact writeHeld_keeps ctx hn₁ ho₁ (hp.extend hs₁)
  | error err =>
      simp only
      split
      · exact writeHeld_keeps ctx hn₁ ho₁ (hp.extend hs₁)
      · exact ⟨hn₁, ho₁⟩

theorem flushLocked_keeps (ctx : Time) {p : PendingPersist}
    (hq : ∀ n force, q ≠ .activateCertificateKey n force) (hn : LockedAt cfg n h)
    (hp : MayFlush q h n p) :
    (Manager.flushLocked cfg ctx n p).Conforms (mayKeep cfg q) h fun h' _ => LockedAt cfg n h' := by
  simp only [Manager.flushLocked, Manager.acquireIssueLease, Manager.releaseIssueLease, onEnv,
    Prog.conforms_bind, Prog.conforms_perform]
  refine ⟨hn, fun got => ?_⟩
  cases got with
  | false => exact hn
  | true =>
      obtain ⟨hchain, horder, -⟩ := (know_sound cfg h).unleased hn.2
      have hgot : know cfg (⟨.env (.acquireLease ctx n), true⟩ :: h) =
          { know cfg h with lease := true } := by
        simp [Know.after, hn.1]
      simp only [Bool.not_true, Bool.false_eq_true, if_false]
      refine (flushLeased_keeps ctx hq (h := ⟨.env (.acquireLease ctx n), true⟩ :: h)
        ⟨by rw [hgot]; exact hn.1, by rw [hgot]⟩ (by rw [hgot]; exact hchain)
        (by rw [hgot]; exact horder) (hp.extend (List.suffix_cons _ _))).bind ?_
      rintro h₁ r - ⟨hn₁, ho₁⟩
      simp only [Prog.conforms_bind, Prog.conforms_perform]
      exact ⟨⟨hn₁, .of_none ho₁⟩, fun _ => ⟨hn₁.1, rfl⟩⟩

theorem flushOne_keeps (ctx : Time) (n : Name) {p : PendingPersist}
    (hq : ∀ n force, q ≠ .activateCertificateKey n force) (hh : (know cfg h).lock = none)
    (hp : MayFlush q h n p) :
    (Manager.flushOne cfg ctx n p).Conforms (mayKeep cfg q) h fun h' _ =>
      (know cfg h').lock = none := by
  simp only [Manager.flushOne, onMem, Prog.conforms_bind, Prog.conforms_perform]
  refine ⟨hh, fun got => ?_⟩
  cases got with
  | false => exact hh
  | true =>
      simp only [Bool.not_true, Bool.false_eq_true, if_false]
      refine (flushLocked_keeps ctx hq (h := ⟨.mem (.tryLock n), true⟩ :: h) ⟨rfl, rfl⟩
        (hp.extend (List.suffix_cons _ _))).bind fun h₁ r _ hn₁ => ?_
      simp only [Prog.conforms_bind, Prog.conforms_perform]
      exact ⟨hn₁, fun _ => rfl⟩

theorem flushHeldChains_keeps (ctx : Time) (hq : ∀ n force, q ≠ .activateCertificateKey n force) :
    (Manager.flushHeldChains cfg ctx).Keeps (mayKeep cfg q) fun h => (know cfg h).lock = none := by
  refine flushHeldChains_keeps_of (E := MayFlush q) (fun hp hs => hp.extend hs)
    (fun h hh => ⟨trivial, fun _ => hh⟩)
    (fun h hh => ⟨trivial, fun held => ⟨hh, fun e he => Or.inl ?_⟩⟩)
    (fun h n hh => ⟨trivial, fun _ => hh⟩) fun h n p hh hp => flushOne_keeps ctx n hq hh hp
  exact ⟨held, List.mem_cons_self, he⟩

theorem restoreMissingChains_keeps (ctx : Time) (hq : q = .restoreMissingChains) :
    (Manager.restoreMissingChains cfg ctx).Keeps (mayKeep cfg q) fun h => (know cfg h).lock = none := by
  refine (passes_keeps cfg q).restoreMissingChains (K := fun _ _ _ => True) (fun h n hh => ?_)
    fun h n cert k built hh _ _ => flushOne_keeps ctx n (by simp [hq]) hh (Or.inr hq)
  exact (load_keeps ctx n).mono fun _ _ hr => ⟨hr.1.lock.trans hh, fun _ _ => trivial⟩

/-! ## The ceremony -/

theorem chainForActivation_keeps (ctx : Time) (k : Key) (hq : q.forced = true)
    (hn : (know cfg h).Leased n) (ho : (know cfg h).order = none)
    (hsp : (know cfg h).spoiled = false) :
    (Manager.chainForActivation cfg ctx n k).Conforms (mayKeep cfg q) h fun h' r =>
      (know cfg h').Leased n ∧ (∀ err, r = .error err → (know cfg h').order = none) ∧
      (∀ c, r = .ok c → (know cfg h').InHand c ∧ ((know cfg h').order ≠ none →
        ∀ err, buildCertificate c k = .error err → (know cfg h').spoiled = true)) := by
  simp only [Manager.chainForActivation, CertCache.heldChainFor, onMem, Prog.conforms_bind,
    Prog.conforms_perform]
  refine ⟨trivial, fun r => ?_⟩
  have hget : know cfg (⟨.mem (.pendingGet n), r⟩ :: h) = { know cfg h with held := some r } := by
    simp only [know_cons, Know.after, hn.1, if_true]
  have hn₁ : (know cfg (⟨.mem (.pendingGet n), r⟩ :: h)).Leased n := by rw [hget]; exact hn
  have ho₁ : (know cfg (⟨.mem (.pendingGet n), r⟩ :: h)).order = none := by rw [hget]; exact ho
  have hsp₁ : (know cfg (⟨.mem (.pendingGet n), r⟩ :: h)).spoiled = false := by
    rw [hget]
    exact hsp
  -- no chain held for this key: a new order
  have horder : (Manager.orderForActivation cfg ctx n k).Conforms (mayKeep cfg q)
      (⟨.mem (.pendingGet n), r⟩ :: h) fun h' r =>
      (know cfg h').Leased n ∧ (∀ err, r = .error err → (know cfg h').order = none) ∧
      (∀ c, r = .ok c → (know cfg h').InHand c ∧ ((know cfg h').order ≠ none →
        ∀ err, buildCertificate c k = .error err → (know cfg h').spoiled = true)) := by
    refine (quiet_keeps (ensureIssuer_quiet cfg ctx)).bind fun h₂ r _ hs₂ => ?_
    have hn₂ := hs₂.leased hn₁
    have ho₂ := hs₂.order.trans ho₁
    cases r with
    | error err => exact ⟨hn₂, fun _ _ => ho₂, by simp⟩
    | ok _ =>
        simp only [onEnv, Prog.conforms_bind, Prog.conforms_perform]
        refine ⟨⟨hn₂, ho₂, hs₂.spoiled.trans hsp₁, fun hf => by simp [hq] at hf⟩, fun r => ?_⟩
        cases r with
        | error f => exact ⟨hn₂, fun _ _ => ho₂, by simp⟩
        | ok c =>
            have hissue : know cfg (⟨.env (.issue ctx n k), .ok c⟩ :: h₂) =
                (know cfg h₂).ordered k c := by
              simp only [know_cons, Know.after, hn₂, if_true]
            refine ⟨by rw [hissue]; exact hn₂, by simp, ?_⟩
            rintro c' ⟨⟩
            refine ⟨Or.inl (by rw [hissue]; rfl), fun _ err hb => ?_⟩
            simp [hissue, Know.ordered, hb, Except.toOption]
  cases r with
  | none => exact horder
  | some p =>
      simp only
      cases hb : buildCertificate p.chainPEM k with
      | error err => exact horder
      | ok cert =>
          refine ⟨hn₁, by simp, ?_⟩
          rintro c ⟨⟩
          refine ⟨Or.inr ⟨ho₁, p, by rw [hget], rfl⟩, fun hne => absurd ho₁ hne⟩

theorem promoteNextCertKey_keeps (ctx : Time) {c : ChainPEM} (hn : (know cfg h).Leased n)
    (hc : (know cfg h).chain = some (some c)) (hput : PutOk h n c) :
    (KeyStore.promoteNextCertKey cfg ctx n).Conforms (mayKeep cfg q) h fun h' _ =>
      (know cfg h).Steady (know cfg h') := by
  simp only [KeyStore.promoteNextCertKey, KeyStore.canCreate, isLeader, onEnv, Prog.conforms_bind,
    Prog.conforms_perform]
  refine ⟨trivial, fun may => ?_⟩
  cases may with
  | false => exact .refl _
  | true =>
      refine (quiet_keeps (load_quiet cfg ctx (.next n))).bind fun h₁ r hs hs₁ => ?_
      cases r with
      | error err => exact hs₁
      | ok k =>
          simp only [onStorage, Prog.conforms_bind, Prog.conforms_perform]
          refine ⟨fun _ => ⟨hs₁.leased hn, c, hs₁.chain.trans hc, ?_⟩, fun r => ?_⟩
          · exact hput.extend ((List.suffix_cons _ _).trans hs)
          · cases r with
            | error f => exact hs₁
            | ok _ =>
                simp only [Prog.conforms_bind, Prog.conforms_perform]
                exact ⟨trivial, fun _ => hs₁⟩

theorem promoteStored_keeps (ctx : Time) {c : ChainPEM} (hn : (know cfg h).Leased n)
    (hc : (know cfg h).chain = some (some c)) (hput : PutOk h n c) :
    (Manager.promoteStored cfg ctx n).Conforms (mayKeep cfg q) h fun h' _ =>
      (know cfg h).Steady (know cfg h') := by
  refine (aside_keeps (markOutgoing_aside cfg ctx n)).bind fun h₁ r hs₁ hst₁ => ?_
  cases r with
  | error err => exact hst₁
  | ok _ =>
      simp only [isLeader, onEnv, Prog.conforms_bind, Prog.conforms_perform]
      refine ⟨trivial, fun leader => ?_⟩
      cases leader with
      | false => exact hst₁
      | true =>
          refine (promoteNextCertKey_keeps ctx (h := ⟨.env .isLeader, true⟩ :: h₁) (hst₁.leased hn)
            (hst₁.chain.trans hc) (hput.extend (hs₁.trans (List.suffix_cons _ _)))).bind ?_
          intro h₂ r _ hst₂
          cases r <;> exact hst₁.trans hst₂

theorem activateLeased_keeps (ctx : Time) (force : Bool) (hq : q.forced = true)
    (hn : (know cfg h).Leased n) (ho : (know cfg h).order = none)
    (hsp : (know cfg h).spoiled = false) :
    (Manager.activateLeased cfg ctx n force).Conforms (mayKeep cfg q) h fun h' _ =>
      (know cfg h').Leased n ∧ (know cfg h').Settled := by
  refine (quiet_keeps (load_quiet cfg ctx (.next n))).bind fun h₁ r _ hs₁ => ?_
  have hn₁ := hs₁.leased hn
  have ho₁ := hs₁.order.trans ho
  cases r with
  | error err => exact ⟨hn₁, .of_none ho₁⟩
  | ok k =>
      refine (quiet_keeps (activationGate_quiet cfg ctx n k force)).bind fun h₂ r _ hs₂ => ?_
      have hn₂ := hs₂.leased hn₁
      have ho₂ := hs₂.order.trans ho₁
      cases r with
      | error err => exact ⟨hn₂, .of_none ho₂⟩
      | ok _ =>
          have hsp₂ := hs₂.spoiled.trans (hs₁.spoiled.trans hsp)
          refine (chainForActivation_keeps ctx k hq hn₂ ho₂ hsp₂).bind ?_
          rintro h₃ r - ⟨hn₃, herr, hok⟩
          cases r with
          | error err => exact ⟨hn₃, .of_none (herr err rfl)⟩
          | ok c =>
              obtain ⟨hhand, hbad⟩ := hok c rfl
              refine (store_keeps ctx c k hn₃ hhand).bind ?_
              rintro h₄ r - ⟨hn₄, ho₄, hstored, hunstored, hunusable⟩
              cases r with
              | unusable err =>
                  obtain ⟨hb, hsame⟩ := hunusable err rfl
                  exact ⟨hn₄, fun hne => Or.inr (hsame.trans (hbad (ho₄ ▸ hne) err hb))⟩
              | stored cert =>
                  obtain ⟨hchain, hput⟩ := hstored cert rfl
                  refine (promoteStored_keeps ctx hn₄ hchain hput).mono fun h₅ _ hst₅ => ?_
                  exact ⟨hst₅.leased hn₄, fun _ => Or.inl ⟨c, hst₅.chain.trans hchain⟩⟩
              | unstored cert err =>
                  obtain ⟨rfl, hhand₄, hspoiled⟩ := hunstored cert err rfl
                  simp only
                  split
                  · exact ⟨hn₄, .of_spoiled hspoiled⟩
                  · refine (hold_keeps hn₄ hhand₄).bind fun h₅ _ _ hn₅ => ?_
                    exact ⟨hn₅.1, .of_spoiled (hn₅.2.2.1.trans hspoiled)⟩

theorem activateCertificateKey_keeps (n : Name) (force : Bool) (hq : q.forced = true)
    (hh : (know cfg h).lock = none) :
    (Manager.activateCertificateKey cfg n force).Conforms (mayKeep cfg q) h fun h' _ =>
      (know cfg h').lock = none := by
  simp only [Manager.activateCertificateKey, isLeader, onEnv, Prog.conforms_bind,
    Prog.conforms_perform]
  refine ⟨trivial, fun leader => ?_⟩
  cases leader with
  | false => exact hh
  | true =>
      simp only [Bool.not_true, Bool.false_eq_true, if_false]
      split
      · exact hh
      · simp only [Manager.now, Manager.activateLocked, Manager.acquireIssueLease,
          Manager.releaseIssueLease, onEnv, onMem, Prog.conforms_bind, Prog.conforms_perform]
        refine ⟨trivial, fun t => ⟨((know cfg h).now_steady cfg t).lock.trans hh, fun u => ?_⟩⟩
        refine ⟨⟨rfl, rfl⟩, fun got => ?_⟩
        cases got with
        | false => exact ⟨⟨rfl, rfl⟩, fun _ => rfl⟩
        | true =>
            simp only [Bool.not_true, Bool.false_eq_true, if_false]
            refine (activateLeased_keeps _ force hq ?_ ?_ ?_).bind fun h₁ r _ hactivated => ?_
            · simp [Know.after, Know.Leased]
            · simp [Know.after]
            · simp [Know.after]
            · simp only [Prog.conforms_bind, Prog.conforms_perform]
              exact ⟨hactivated, fun _ => ⟨⟨hactivated.1.1, rfl⟩, fun _ => rfl⟩⟩

end Keeps

/-! ## The protocol of all operations -/

def keeps (cfg : Settings) : Protocol Op Res Call Out where
  may := mayKeep cfg
  done _ h _ := (know cfg h).lock = none

theorem cluster_keeps {N T : Type} [DecidableEq N] (cfg : Settings) (node : T → N) :
    (cluster cfg node).Follows (keeps cfg) := by
  intro q
  show (body cfg q).Conforms (mayKeep cfg q) [] fun h _ => (know cfg h).lock = none
  have hnow : ∀ t, (know cfg [⟨.env .now, t⟩]).lock = none := fun t => rfl
  cases q with
  | loadCertKey d =>
      refine Prog.conforms_map.2 (within_conforms trivial fun t => ?_)
      exact (load_keeps _ d).mono fun _ _ hs => hs.1.lock
  | loadOrCreateCertKey d =>
      refine Prog.conforms_map.2 (within_conforms trivial fun t => ?_)
      exact (loadOrCreateCertKey_keeps _ d).mono fun _ _ hs => hs.1.lock
  | refresh d =>
      refine Prog.conforms_map.2 (within_conforms trivial fun t => ?_)
      exact (light_keeps (by simp) (refresh_light cfg _ d)).mono fun _ _ hg => hg.lock
  | obtain d =>
      refine Prog.conforms_map.2 (within_conforms trivial fun t => ?_)
      exact (issuing_keeps cfg (by simp)).obtain _ d _ (hnow t)
  | requestIssue d b =>
      exact Prog.conforms_map.2 ((issuing_keeps cfg (by simp)).requestIssue d b [] rfl)
  | renewIfNeeded d =>
      refine Prog.conforms_map.2 (within_conforms trivial fun t => ?_)
      exact (issuing_keeps cfg (by simp)).renewIfNeeded _ d _ (hnow t)
  | renewCertificate d =>
      refine Prog.conforms_map.2 ((issuing_keeps cfg (by simp)).renewCertificate d ?_ [] rfl)
      exact fun ctx k h hn hk => issueWithKey_keeps ctx k true (fun _ => rfl) (by simp) hn.1 hn.2 hk
  | flushHeldChains =>
      refine Prog.conforms_map.2 (within_conforms trivial fun t => ?_)
      exact flushHeldChains_keeps _ (by simp) _ (hnow t)
  | restoreMissingChains =>
      refine Prog.conforms_map.2 (within_conforms trivial fun t => ?_)
      exact restoreMissingChains_keeps _ rfl _ (hnow t)
  | reconcileCeremony d =>
      refine Prog.conforms_map.2 (within_conforms trivial fun t => ?_)
      exact (light_keeps (by simp) (reconcileCeremony_light cfg _ d)).mono fun _ _ hg => hg.lock
  | replaceCertificateKey d =>
      refine Prog.conforms_map.2 ?_
      exact (light_keeps (by simp) (replaceCertificateKey_light cfg d)).mono fun _ _ hg => hg.lock
  | activateCertificateKey d force =>
      exact Prog.conforms_map.2 (activateCertificateKey_keeps d force rfl rfl)
  | cleanupExpiredRetiring =>
      simp only [body]
      split
      · exact rfl
      · refine Prog.conforms_map.2 (within_conforms trivial fun t => ?_)
        exact (aside_keeps (cleanupExpiredRetiring_aside _ _)).mono fun _ _ hs => hs.lock
  | desiredRecords =>
      simp only [body]
      split
      · exact rfl
      · refine Prog.conforms_map.2 (within_conforms trivial fun t => ?_)
        exact (aside_keeps (desiredFrom_aside cfg _ _ _)).mono fun _ _ hs => hs.lock
  | maintainFollower =>
      have w := issuing_keeps (q := .maintainFollower) cfg (by simp)
      exact Prog.conforms_map.2 (w.free.maintainFollower w.refresh [] rfl)
  | planLeader =>
      have w := issuing_keeps (q := .planLeader) cfg (by simp)
      exact Prog.conforms_map.2 (w.free.planLeader w.refresh [] rfl)
  | runHost n isRenewal =>
      exact Prog.conforms_map.2 ((issuing_keeps cfg (by simp)).runHost n isRenewal [] rfl)

end CertsManager
