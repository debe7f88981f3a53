import CertsManager.Serveable
import CertsManager.DefiniteAbsence

/-!
# CeremonyReads — what a follower serves while a key is replaced

An activation writes two objects, the chain bound to the new key and then the live key; a `Refresh`
reads two, the chain and then the key, and nothing keeps the two sequences apart.  Whatever the
interleaving, the pair that was read is served only if it matches, and it is the old pair or the new
one.  A `Refresh` between the two writes reads the new chain with the old key and changes nothing.

The chain is written first, so once the live key is the new one both objects are, and a `Refresh`
that starts then and gets its answers installs the new pair.
-/

namespace CertsManager

open Interleave

/-! ## What a refresh does with the pair it read -/

/-- The certificate a chain and a key object make. -/
def pairOf (c : ChainPEM) : KeyPEM → Option Certificate
  | .key k => (buildCertificate c k).toOption
  | .garbage => none

/-- The chain of a key, read with the key, is a pair. -/
theorem pairOf_of_bound {c : ChainPEM} {k : Key} (hc : Bound (· = k.public) c) :
    ∃ cert, pairOf c (.key k) = some cert ∧ cert.privateKey = k := by
  cases c with
  | garbage => exact hc.elim
  | chain leaf =>
      replace hc : leaf.pub = k.public := hc
      refine ⟨⟨leaf, k, hc.symm⟩, ?_, rfl⟩
      simp [pairOf, buildCertificate, hc, Except.toOption]

/-- Memory is set to the pair that was read. -/
def mayInstall (d : Name) (h : History) : Op → Prop
  | .mem (.memSet n cert) =>
      n = d ∧ lastLook d h = some (.ok (encodeChainPEM cert), some (.ok (.key cert.privateKey)))
  | o => o.Serving

/-- If the pair matches, it was installed and is returned. -/
def Installed (d : Name) (h : History) (r : Except Err Certificate) : Prop :=
  ∀ c pem cert, lastLook d h = some (.ok c, some (.ok pem)) → pairOf c pem = some cert →
    r = .ok cert ∧ (⟨.mem (.memSet d cert), ()⟩ : Event) ∈ h

section

variable {d : Name} {h : History}

/-- Nothing but another read of the chain changes the pair. -/
theorem lastLook_steady {e : Event} {c : Except ReadFault ChainPEM} {k : Except ReadFault KeyPEM}
    (he : chainReply d e = none) (hlook : lastLook d h = some (c, some k)) :
    lastLook d (e :: h) = some (c, some k) := by
  simp [lastLook, he, hlook]

theorem refresh_installs (cfg : Settings) (ctx : Time) :
    (CertCache.refresh cfg ctx d).Conforms (mayInstall d) h (Installed d) := by
  simp only [CertCache.refresh, CertCache.loadChain, KeyStore.loadCertKey, KeyStore.load, onStorage,
    Prog.conforms_bind, Prog.conforms_perform]
  refine ⟨trivial, fun r => ?_⟩
  cases r with
  | error f =>
      intro c pem cert hlook
      simp [lastLook, chainReply] at hlook
  | ok c =>
      simp only [Prog.conforms_pure, Prog.conforms_bind, Prog.conforms_perform]
      refine ⟨trivial, fun r => ?_⟩
      rcases r with (_ | ⟨inBody, reason⟩) | pem
      · intro c' pem cert hlook
        simp [lastLook, chainReply, liveKeyReply] at hlook
      · have hfailed : ∀ err, Installed d (⟨.storage ctx (.getKey (.live d)), .error (.failed inBody
            reason)⟩ :: ⟨.storage ctx (.getChain d), .ok c⟩ :: h) (.error err) := by
          intro err c' pem cert hlook
          simp [lastLook, chainReply, liveKeyReply] at hlook
        cases inBody <;> exact hfailed _
      · have hlook : lastLook d (⟨.storage ctx (.getKey (.live d)), .ok pem⟩ ::
            ⟨.storage ctx (.getChain d), .ok c⟩ :: h) = some (.ok c, some (.ok pem)) := by
          simp [lastLook, chainReply, liveKeyReply]
        cases pem with
        | garbage =>
            intro c' pem' cert hlook' hpair
            rw [hlook] at hlook'
            cases hlook'
            cases hpair
        | key k =>
            simp only [parseKeyPEM, Prog.conforms_pure]
            cases hb : buildCertificate c k with
            | error err =>
                -- the pair does not match: nothing is installed
                intro c' pem' cert hlook' hpair
                rw [hlook] at hlook'
                cases hlook'
                simp [pairOf, hb, Except.toOption] at hpair
            | ok cert =>
                obtain ⟨rfl, rfl⟩ := buildCertificate_ok hb
                simp only [CertCache.set, onMem, Prog.conforms_bind, Prog.conforms_perform]
                refine ⟨⟨rfl, hlook⟩, fun _ => ?_⟩
                refine (confirmed_conforms
                  (I := fun h' => lastLook d h' = some (.ok (encodeChainPEM cert),
                    some (.ok (.key cert.privateKey))) ∧ (⟨.mem (.memSet d cert), ()⟩ : Event) ∈ h')
                  (fun h' hh => ⟨trivial, lastLook_steady rfl hh.1, List.mem_cons_of_mem _ hh.2⟩)
                  (fun h' saved hh => ⟨trivial, lastLook_steady rfl hh.1,
                    List.mem_cons_of_mem _ hh.2⟩)
                  ⟨lastLook_steady rfl hlook, List.mem_cons_self⟩).mono ?_
                rintro h' _ ⟨hlook', hset⟩ c' pem' cert' hlook'' hpair
                rw [hlook'] at hlook''
                cases hlook''
                obtain rfl : cert' = cert := by simpa [pairOf, hb, Except.toOption] using hpair.symm
                exact ⟨rfl, hset⟩

end

/-- Of the other requests this protocol says nothing. -/
def installs : Protocol Op Res Call Out where
  may q h o := ∀ d, q = .refresh d → mayInstall d h o
  done q h out := ∀ d, q = .refresh d → ∃ r, out = .cert r ∧ Installed d h r

theorem cluster_installs {N T : Type} [DecidableEq N] (cfg : Settings) (node : T → N) :
    (cluster cfg node).Follows installs := by
  intro q
  cases q with
  | refresh d =>
      have hrefresh : (within issueTimeout (CertCache.refresh cfg · d)).Conforms (mayInstall d) []
          (Installed d) := within_conforms trivial fun t => refresh_installs cfg _
      refine Prog.conforms_map.2 ((hrefresh.weaken ?_).mono ?_)
      · rintro h o ho _ ⟨⟩
        exact ho
      · rintro h r hr _ ⟨⟩
        exact ⟨r, rfl, hr⟩
  | _ => exact Prog.conforms_of_all (fun _ _ => nofun) fun _ _ => nofun

/-! ## The rules of a run -/

section

variable {N T : Type}

/-- Activations and refreshes of the domain, on any node. -/
def CeremonyRequests (d : Name) (_ : ClusterView N T) (l : ClusterLabel T) (_ : ClusterView N T) :
    Prop :=
  ∀ q ∈ started l, (q = .activateCertificateKey d true ∨ q = .activateCertificateKey d false) ∨
    q = .refresh d

instance (d : Name) (v : ClusterView N T) (l : ClusterLabel T) (v' : ClusterView N T) :
    Decidable (CeremonyRequests d v l v') :=
  inferInstanceAs (Decidable (∀ q ∈ started l, _))

/-- `k₁` is live and the stored chain is bound to it, `k₂` is staged; what is held or in memory is
bound to one of the two. -/
structure CeremonyStart (d : Name) (k₁ k₂ : Key) (w : World N T) : Prop where
  chain : ∃ c, w.storage.chain d = some c ∧ Bound (· = k₁.public) c
  live : w.storage.key (.live d) = some (.key k₁)
  next : w.storage.key (.next d) = some (.key k₂)
  pending : ∀ i p, (w.node i).pending.lookup d = some p →
    Bound (fun pub => pub = k₁.public ∨ pub = k₂.public) p.chainPEM
  mem : ∀ i cert, (w.node i).mem d = some cert →
    cert.privateKey = k₁ ∨ cert.privateKey = k₂

/-- A call of a refresh changes no certificate in memory, or makes it the pair that was read. -/
def InstallsRead (d : Name) (v : ClusterView N T) (l : ClusterLabel T) (v' : ClusterView N T) :
    Prop :=
  ∀ t e, l = .did t e → ∀ h, v.task t = some (.refresh d, h) → ∀ i n,
    (v'.shared.node i).mem n = (v.shared.node i).mem n ∨
      n = d ∧ ∃ cert, (v'.shared.node i).mem n = some cert ∧
        lastLook d h = some (.ok (encodeChainPEM cert), some (.ok (.key cert.privateKey)))

/-- A refresh that completes, and what it returns. -/
def refreshed (d : Name) : ClusterLabel T → Option (T × Out)
  | .finish t (.refresh n) out => if n = d then some (t, out) else none
  | _ => none

/-- A refresh of the thread whose two reads were answered has installed a pair of `k`: what it set
was in its node's memory after that call. -/
def InstallsKey (node : T → N) (d : Name) (k : Key) (t : T) (v : ClusterView N T)
    (l : ClusterLabel T) (v' : ClusterView N T) : Prop :=
  (∀ cert, l = .did t ⟨.mem (.memSet d cert), ()⟩ → (v'.shared.node (node t)).mem d = some cert) ∧
  ∀ g ∈ refreshed d l, g.1 = t → ∀ x ∈ v.task t, ∀ c pem,
    lastLook d x.2 = some (.ok c, some (.ok pem)) →
      ∃ cert, cert.privateKey = k ∧ g.2 = .cert (.ok cert) ∧
        (⟨.mem (.memSet d cert), ()⟩ : Event) ∈ x.2

/-! ## The invariant -/

/-- The stored chain is bound to the key. -/
def ChainOf (d : Name) (k : Key) (w : World N T) : Prop :=
  ∃ c, w.storage.chain d = some c ∧ Bound (· = k.public) c

/-- The ceremony under way. -/
structure Turning (d : Name) (k₁ k₂ : Key) (v : ClusterView N T) : Prop where
  requests : ∀ t q h, v.task t = some (q, h) →
    (∃ force, q = .activateCertificateKey d force) ∨ q = .refresh d
  carried : Carried d (fun p => p = k₁.public ∨ p = k₂.public) (· = k₂.public) v
  chain : ∃ c, v.shared.storage.chain d = some c
  next : ∀ p, NextIs v.shared d p → p = k₂.public
  live : v.shared.storage.key (.live d) = some (.key k₁) ∨
    v.shared.storage.key (.live d) = some (.key k₂) ∧ ChainOf d k₂ v.shared
  stored : ∀ t q h, v.task t = some (q, h) → q.source = some true → ∀ c, PutOk h d c →
    ChainOf d k₂ v.shared
  mem : ∀ i cert, (v.shared.node i).mem d = some cert →
    cert.privateKey = k₁ ∨ cert.privateKey = k₂

/-- The live key is the new one, and what the thread has read since is of the new pair. -/
structure Turned (d : Name) (k₁ k₂ : Key) (t : T) (v : ClusterView N T) : Prop
    extends Turning d k₁ k₂ v where
  switched : v.shared.storage.key (.live d) = some (.key k₂)
  chainRead : ∀ h, v.task t = some (.refresh d, h) → ∀ c k, lastLook d h = some (.ok c, k) →
    Bound (· = k₂.public) c
  keyRead : ∀ h, v.task t = some (.refresh d, h) → ∀ c pem, lastLook d h = some (c, some (.ok pem)) →
    pem = .key k₂

/-! ## One call -/

theorem Turning.source {d : Name} {k₁ k₂ : Key} {v : ClusterView N T} {t : T} {q : Call} {h : History}
    (hI : Turning d k₁ k₂ v) (ht : v.task t = some (q, h)) :
    q.source = some true ∨ q = .refresh d := by
  rcases hI.requests t q h ht with ⟨force, rfl⟩ | rfl
  · exact .inl rfl
  · exact .inr rfl

theorem Turning.liveIs {d : Name} {k₁ k₂ : Key} {v : ClusterView N T} (hI : Turning d k₁ k₂ v)
    {p : PublicKey} (hp : LiveIs v.shared d p) : p = k₁.public ∨ p = k₂.public := by
  rcases hI.live with hlive | ⟨hlive, -⟩
  · exact .inl (liveIs_unique hlive hp)
  · exact .inr (liveIs_unique hlive hp)

/-- The live key is the new one only where the chain is. -/
theorem Turning.chainOf {d : Name} {k₁ k₂ : Key} {v : ClusterView N T} (hI : Turning d k₁ k₂ v)
    (hswitched : v.shared.storage.key (.live d) = some (.key k₂)) : ChainOf d k₂ v.shared := by
  rcases hI.live with hlive | ⟨-, hnew⟩
  · -- the ceremony replaces a key by itself, so the stored chain is bound to it either way
    obtain rfl : k₁ = k₂ := by simpa using hlive.symm.trans hswitched
    obtain ⟨c, hc⟩ := hI.chain
    exact ⟨c, hc, (hI.carried.chain c hc).mono fun _ hp => hp.elim id id⟩
  · exact hnew

theorem Turned.bound_of_read {d : Name} {k₁ k₂ : Key} {t : T} {v : ClusterView N T} {c : ChainPEM}
    (hI : Turned d k₁ k₂ t v) (hread : v.shared.storage.chain d = some c) :
    Bound (· = k₂.public) c := by
  obtain ⟨c', hc', hbound⟩ := hI.chainOf hI.switched
  obtain rfl : c' = c := Option.some.inj (hc'.symm.trans hread)
  exact hbound

variable [DecidableEq N] [DecidableEq T] {cfg : Settings} {node : T → N} {d : Name} {k₁ k₂ : Key}
  {v v' : ClusterView N T} {l : ClusterLabel T}

section Did

variable {t : T} {q : Call} {h : History} {o : Op} {a : Answer} {r : Res o} {w' : World N T}

omit [DecidableEq N] [DecidableEq T] in
/-- A chain is written by an activation, and bound to the new key. -/
theorem bound_of_putChain (hI : Turning d k₁ k₂ v) (ht : v.task t = some (q, h))
    (hhand : handsOn.may q h o) (hinst : installs.may q h o) {ctx : Time} {c : ChainPEM}
    (ho : o = .storage ctx (.putChain d c)) : q.source = some true ∧ Bound (· = k₂.public) c := by
  subst ho
  rcases hI.source ht with hq | rfl
  · exact ⟨hq, (hI.carried.chainFrom (fun _ => .inr) ht hq ((handsOn_may hq h _).1 hhand)).2 hq⟩
  · exact (hinst d rfl).elim

omit [DecidableEq T] in
theorem chainOf_did (hI : Turning d k₁ k₂ v) (ht : v.task t = some (q, h))
    (hhand : handsOn.may q h o) (hinst : installs.may q h o)
    (he : exec cfg.maxRetries node v.shared t o a = some (r, w')) (hnew : ChainOf d k₂ v.shared) :
    ChainOf d k₂ w' := by
  rcases exec_chain he d with hsame | ⟨ctx, c, ho, hput⟩
  · obtain ⟨c, hc, hbound⟩ := hnew
    exact ⟨c, hsame.trans hc, hbound⟩
  · exact ⟨c, hput, (bound_of_putChain hI ht hhand hinst ho).2⟩

omit [DecidableEq T] in
/-- The live key becomes the new one when the new chain is stored. -/
theorem switch_did (hI : Turning d k₁ k₂ v) (ht : v.task t = some (q, h))
    (hhand : handsOn.may q h o) (hmark : (marks cfg).may q h o) (hinst : installs.may q h o)
    (he : exec cfg.maxRetries node v.shared t o a = some (r, w')) {k : Key}
    (hk : v.shared.storage.key (.live d) = some (.key k)) :
    w'.storage.key (.live d) = some (.key k) ∨
      w'.storage.key (.live d) = some (.key k₂) ∧ ChainOf d k₂ w' := by
  rcases live_of_exec hhand he hk with hsame | ⟨ctx, k', rfl, hput⟩
  · exact .inl hsame
  · right
    obtain ⟨hsource, hfrom⟩ := keyFrom_of_promotion hhand
    obtain rfl : k' = k₂ := Key.public_inj.1 (hfrom _ (hI.carried.staged t q h ht hsource))
    rcases hI.requests t q h ht with ⟨force, rfl⟩ | rfl
    · obtain ⟨⟨-, c, hc⟩, -⟩ := hmark rfl rfl
      exact ⟨hput, chainOf_did hI ht hhand hinst he (hI.stored t _ h ht rfl c hc)⟩
    · exact absurd rfl hsource

omit [DecidableEq T] in
/-- What is put in memory is of the old pair or the new one. -/
theorem mem_did (hI : Turning d k₁ k₂ v) (ht : v.task t = some (q, h))
    (hhand : handsOn.may q h o) (he : exec cfg.maxRetries node v.shared t o a = some (r, w')) (i : N)
    {cert : Certificate} (hcert : (w'.node i).mem d = some cert) :
    cert.privateKey = k₁ ∨ cert.privateKey = k₂ := by
  rcases exec_cert he i d with hsame | ⟨cert', rfl, -, hset⟩
  · exact hI.mem i cert (hsame.symm.trans hcert)
  · obtain rfl : cert' = cert := Option.some.inj (hset.symm.trans hcert)
    have hq : ∃ staged, q.source = some staged := by
      rcases hI.source ht with hq | rfl
      · exact ⟨true, hq⟩
      · exact ⟨false, rfl⟩
    obtain ⟨staged, hq⟩ := hq
    have hbound := (hI.carried.chainFrom (fun _ => .inr) ht hq ((handsOn_may hq h _).1 hhand)).1
    rw [bound_encode, ← cert'.matching] at hbound
    exact hbound.imp Key.public_inj.1 Key.public_inj.1

theorem turning_did (hI : Turning d k₁ k₂ v) (ht : v.task t = some (q, h))
    (hhand : handsOn.may q h o) (hmark : (marks cfg).may q h o) (hinst : installs.may q h o)
    (he : exec cfg.maxRetries node v.shared t o a = some (r, w')) :
    Turning d k₁ k₂ (v.put t w' (some (q, ⟨o, r⟩ :: h))) where
  requests u q' h' hu := by
    rcases View.put_cases hu with ⟨rfl, ⟨⟩⟩ | ⟨-, hu⟩
    · exact hI.requests u q h ht
    · exact hI.requests u q' h' hu
  carried := carried_reads hI.carried (fun _ => .inr) ht hhand he (fun p => hI.liveIs) hI.next
  chain := by
    rcases exec_chain he d with hsame | ⟨ctx, c, -, hput⟩
    · obtain ⟨c, hc⟩ := hI.chain
      exact ⟨c, hsame.trans hc⟩
    · exact ⟨c, hput⟩
  next := by
    rintro p ⟨k, hk, rfl⟩
    have hq : q ≠ .replaceCertificateKey d := by
      rcases hI.requests t q h ht with ⟨force, rfl⟩ | rfl <;> simp
    rcases next_of_exec hhand hq he with hsame | ⟨hnone, -⟩
    · exact hI.next _ ⟨k, hsame.symm.trans hk, rfl⟩
    · exact absurd (hnone.symm.trans hk) (by simp)
  live := by
    rcases hI.live with hlive | ⟨hlive, hnew⟩
    · exact switch_did hI ht hhand hmark hinst he hlive
    · rcases switch_did hI ht hhand hmark hinst he hlive with hsame | hswitched
      · exact .inr ⟨hsame, chainOf_did hI ht hhand hinst he hnew⟩
      · exact .inr hswitched
  stored u q' h' hu hq c hc := by
    have hkeep : ChainOf d k₂ v.shared → ChainOf d k₂ w' := chainOf_did hI ht hhand hinst he
    rcases View.put_cases hu with ⟨rfl, ⟨⟩⟩ | ⟨-, hu⟩
    · obtain ⟨ctx, hmem⟩ := hc
      rcases List.mem_cons.1 hmem with heq | hmem
      · cases heq
        exact ⟨c, exec_putChain_ok he, (bound_of_putChain hI ht hhand hinst rfl).2⟩
      · exact hkeep (hI.stored u q h ht hq c ⟨ctx, hmem⟩)
    · exact hkeep (hI.stored u q' h' hu hq c hc)
  mem i cert := mem_did hI ht hhand he i

omit [DecidableEq N] [DecidableEq T] in
/-- The pair changes by a read of the chain, or by the first read of the key after it. -/
theorem lastLook_cons {e : Event} {c : Except ReadFault ChainPEM}
    {k : Option (Except ReadFault KeyPEM)} (hlook : lastLook d (e :: h) = some (c, k)) :
    (chainReply d e = some c ∧ k = none) ∨
      (∃ key, liveKeyReply d e = some key ∧ lastLook d h = some (c, none) ∧ k = some key) ∨
      lastLook d h = some (c, k) := by
  simp only [lastLook] at hlook
  split at hlook
  · rename_i hchain
    cases hlook
    exact .inl ⟨hchain, rfl⟩
  · rename_i hkey hold
    cases hlook
    exact .inr (.inl ⟨_, hkey, hold, rfl⟩)
  · exact .inr (.inr hlook)

omit [DecidableEq T] in
theorem read_of_chainReply {c : ChainPEM} (hreply : chainReply d ⟨o, r⟩ = some (.ok c))
    (he : exec cfg.maxRetries node v.shared t o a = some (r, w')) :
    v.shared.storage.chain d = some c := by
  unfold chainReply at hreply
  split at hreply
  · rename_i hevent
    cases hevent
    split at hreply
    · rename_i hn
      cases hreply
      exact hn ▸ exec_getChain_ok he
    · cases hreply
  · cases hreply

omit [DecidableEq T] in
theorem read_of_liveKeyReply {pem : KeyPEM} (hreply : liveKeyReply d ⟨o, r⟩ = some (.ok pem))
    (he : exec cfg.maxRetries node v.shared t o a = some (r, w')) :
    v.shared.storage.key (.live d) = some pem := by
  unfold liveKeyReply at hreply
  split at hreply
  · rename_i hevent
    cases hevent
    split at hreply
    · rename_i hn
      cases hreply
      exact hn ▸ exec_getKey_ok he
    · cases hreply
  · cases hreply

/-- Once the live key is the new one, the reads of the thread find the new pair. -/
theorem turned_did {t₀ : T} (hI : Turned d k₁ k₂ t₀ v) (ht : v.task t = some (q, h))
    (hhand : handsOn.may q h o) (hmark : (marks cfg).may q h o) (hinst : installs.may q h o)
    (he : exec cfg.maxRetries node v.shared t o a = some (r, w')) :
    Turned d k₁ k₂ t₀ (v.put t w' (some (q, ⟨o, r⟩ :: h))) where
  toTurning := turning_did hI.toTurning ht hhand hmark hinst he
  switched := by
    rcases switch_did hI.toTurning ht hhand hmark hinst he hI.switched with hsame | ⟨hput, -⟩
    · exact hsame
    · exact hput
  chainRead h' hu c k hlook := by
    rcases View.put_cases hu with ⟨rfl, ⟨⟩⟩ | ⟨-, hu⟩
    · rcases lastLook_cons hlook with ⟨hchain, -⟩ | ⟨-, -, hold, -⟩ | hold
      · exact hI.bound_of_read (read_of_chainReply hchain he)
      · exact hI.chainRead h ht c none hold
      · exact hI.chainRead h ht c k hold
    · exact hI.chainRead h' hu c k hlook
  keyRead h' hu c pem hlook := by
    rcases View.put_cases hu with ⟨rfl, ⟨⟩⟩ | ⟨-, hu⟩
    · rcases lastLook_cons hlook with ⟨-, ⟨⟩⟩ | ⟨key, hkey, -, ⟨⟩⟩ | hold
      · have hread := read_of_liveKeyReply hkey he
        rw [hI.switched] at hread
        exact (Option.some.inj hread).symm
      · exact hI.keyRead h ht c pem hold
    · exact hI.keyRead h' hu c pem hlook

end Did

/-! ## One move -/

omit [DecidableEq N] in
/-- A request that starts, ends or is lost with its process leaves the objects alone. -/
theorem turning_put {t : T} {x : Option (Call × History)} (hI : Turning d k₁ k₂ v)
    (hx : ∀ y, x = some y →
      y.2 = [] ∧ ((∃ force, y.1 = .activateCertificateKey d force) ∨ y.1 = .refresh d)) :
    Turning d k₁ k₂ (v.put t v.shared x) where
  requests u q h hu := by
    rcases View.put_cases hu with ⟨-, hxy⟩ | ⟨-, hu⟩
    · exact (hx _ hxy).2
    · exact hI.requests u q h hu
  carried := carried_put hI.carried fun y hy => (hx y hy).1
  chain := hI.chain
  next := hI.next
  live := hI.live
  stored u q h hu hq c hc := by
    rcases View.put_cases hu with ⟨-, hxy⟩ | ⟨-, hu⟩
    · obtain rfl : h = [] := (hx _ hxy).1
      simp [PutOk] at hc
    · exact hI.stored u q h hu hq c hc
  mem := hI.mem

omit [DecidableEq N] in
theorem turned_put {t t₀ : T} {x : Option (Call × History)} (hI : Turned d k₁ k₂ t₀ v)
    (hx : ∀ y, x = some y →
      y.2 = [] ∧ ((∃ force, y.1 = .activateCertificateKey d force) ∨ y.1 = .refresh d)) :
    Turned d k₁ k₂ t₀ (v.put t v.shared x) where
  toTurning := turning_put hI.toTurning hx
  switched := hI.switched
  chainRead h hu c k hlook := by
    rcases View.put_cases hu with ⟨-, hxy⟩ | ⟨-, hu⟩
    · obtain rfl : h = [] := (hx _ hxy).1
      cases hlook
    · exact hI.chainRead h hu c k hlook
  keyRead h hu c pem hlook := by
    rcases View.put_cases hu with ⟨-, hxy⟩ | ⟨-, hu⟩
    · obtain rfl : h = [] := (hx _ hxy).1
      cases hlook
    · exact hI.keyRead h hu c pem hlook

/-- What is followed: where chains come from, when the live key is put, what a refresh installs. -/
def ceremony (cfg : Settings) : Protocol Op Res Call Out :=
  (handsOn.and (marks cfg)).and installs

omit [DecidableEq T] in
theorem cluster_ceremony (cfg : Settings) (node : T → N) :
    (cluster cfg node).Follows (ceremony cfg) :=
  ((cluster_handsOn cfg node).and (cluster_marks cfg node)).and (cluster_installs cfg node)

omit [DecidableEq N] [DecidableEq T] in
theorem CeremonyRequests.fresh {t : T} {q : Call} (hA : CeremonyRequests d v (.start t q) v') :
    ∀ y : Call × History, some (q, []) = some y →
      y.2 = [] ∧ ((∃ force, y.1 = .activateCertificateKey d force) ∨ y.1 = .refresh d) := by
  rintro _ ⟨⟩
  refine ⟨rfl, ?_⟩
  rcases hA q rfl with (hq | hq) | hq
  · exact .inl ⟨true, hq⟩
  · exact .inl ⟨false, hq⟩
  · exact .inr hq

theorem turning_move (hI : Turning d k₁ k₂ v) (hmove : Move (cluster cfg node) (ceremony cfg) v l v')
    (hA : CeremonyRequests d v l v') : Turning d k₁ k₂ v' := by
  cases hmove with
  | start ht => exact turning_put hI hA.fresh
  | did ht hmay he => exact turning_did hI ht hmay.1.1 hmay.1.2 hmay.2 he
  | finish _ _ | crash => exact turning_put hI (by simp)

theorem turned_move {t₀ : T} (hI : Turned d k₁ k₂ t₀ v)
    (hmove : Move (cluster cfg node) (ceremony cfg) v l v') (hA : CeremonyRequests d v l v') :
    Turned d k₁ k₂ t₀ v' := by
  cases hmove with
  | start ht => exact turned_put hI hA.fresh
  | did ht hmay he => exact turned_did hI ht hmay.1.1 hmay.1.2 hmay.2 he
  | finish _ _ | crash => exact turned_put hI (by simp)

theorem installsRead_of_move (hmove : Move (cluster cfg node) (ceremony cfg) v l v') :
    InstallsRead d v l v' := by
  rintro t e rfl h ht i n
  obtain ⟨o, r⟩ := e
  obtain ⟨q, hist, a, ht', hmay, he⟩ := hmove.did_cases
  obtain ⟨rfl, rfl⟩ : q = .refresh d ∧ hist = h := by simpa using ht'.symm.trans ht
  rcases exec_cert he i n with hsame | ⟨cert, rfl, -, hset⟩
  · exact .inl hsame
  · obtain ⟨rfl, hlook⟩ := hmay.2 d rfl
    exact .inr ⟨rfl, cert, hset, hlook⟩

theorem installsKey_of_move {t₀ : T} (hI : Turned d k₁ k₂ t₀ v)
    (hmove : Move (cluster cfg node) (ceremony cfg) v l v') :
    InstallsKey node d k₂ t₀ v l v' := by
  refine ⟨?_, ?_⟩
  · rintro cert rfl
    obtain ⟨q, h, a, -, -, he⟩ := hmove.did_cases
    replace he : exec cfg.maxRetries node v.shared t₀ (.mem (.memSet d cert)) a =
      some ((), v'.shared) := he
    exact exec_memSet he
  rintro ⟨t, out⟩ hfinish rfl ⟨q, h⟩ ht c pem hlook
  cases hmove with
  | @finish t' q' h' out' ht' hdone =>
      have hn : q' = .refresh d ∧ t' = t ∧ out' = out := by
        cases q' <;> simp_all [refreshed]
      obtain ⟨rfl, rfl, rfl⟩ := hn
      obtain ⟨rfl, rfl⟩ : q = .refresh d ∧ h = h' := by
        simpa using ht.symm.trans ht'
      obtain rfl : pem = .key k₂ := hI.keyRead h ht' _ _ hlook
      obtain ⟨cert, hpair, hkey⟩ := pairOf_of_bound (hI.chainRead h ht' _ _ hlook)
      obtain ⟨r, rfl, hinstalled⟩ := hdone.2 d rfl
      obtain ⟨rfl, hset⟩ := hinstalled c _ cert hlook hpair
      exact ⟨cert, hkey, rfl, hset⟩
  | start _ | did _ _ _ | crash => cases hfinish

/-! ## Every run -/

omit [DecidableEq N] [DecidableEq T] in
theorem CeremonyStart.turning {w : World N T} (hw : CeremonyStart d k₁ k₂ w) :
    Turning d k₁ k₂ (Config.idle w : Config Op Res (World N T) T Call Out).view where
  requests := by simp [Config.view, Config.idle]
  carried := by
    obtain ⟨c, hc, hbound⟩ := hw.chain
    refine ⟨fun c' hc' => ?_, hw.pending, ?_, ?_, ?_⟩
    · obtain rfl : c = c' := Option.some.inj (hc.symm.trans hc')
      exact hbound.mono fun _ hp => .inl hp
    all_goals simp [Config.view, Config.idle]
  chain := by
    obtain ⟨c, hc, -⟩ := hw.chain
    exact ⟨c, hc⟩
  next p hp := nextIs_unique hw.next hp
  live := .inl hw.live
  stored := by simp [Config.view, Config.idle]
  mem := hw.mem

/-- Where `k₁` is live with its chain and `k₂` is staged, along every schedule of activations and
refreshes: what any node has in memory is a matching pair of `k₁` or of `k₂`; a refresh installs the
pair it read and leaves memory as it was where that does not match; and once the live key is `k₂`,
every refresh that starts and whose two reads are answered installs a pair of `k₂`. -/
theorem ceremony_consistent (cfg : Settings) (node : T → N) (d : Name) (k₁ k₂ : Key) (w : World N T)
    (hw : CeremonyStart d k₁ k₂ w) (as : List (Action T Call Answer))
    (c : Config Op Res (World N T) T Call Out)
    (hA : (cluster cfg node).Meets (CeremonyRequests d) (.idle w) as)
    (hrun : (cluster cfg node).run (.idle w) as = some c) :
    (∀ i cert, (c.shared.node i).mem d = some cert →
      cert.privateKey.public = cert.leaf.pub ∧ (cert.privateKey = k₁ ∨ cert.privateKey = k₂)) ∧
    (cluster cfg node).Meets (InstallsRead d) (.idle w) as ∧
    (c.shared.storage.key (.live d) = some (.key k₂) → ∀ t, c.view.task t = none →
      ∀ after, (cluster cfg node).Meets (CeremonyRequests d) c after →
        (cluster cfg node).Meets (InstallsKey node d k₂ t) c after) := by
  have hfollows := cluster_ceremony cfg node
  have hstep : ∀ v l v', Turning d k₁ k₂ v → Move (cluster cfg node) (ceremony cfg) v l v' →
      CeremonyRequests d v l v' → Turning d k₁ k₂ v' := fun _ _ _ => turning_move
  obtain ⟨hI, htrack⟩ := Machine.run_invariant hfollows hstep as _ c (Machine.onTrack_idle w)
    hw.turning hA hrun
  refine ⟨fun i cert hcert => ⟨cert.matching, hI.mem i cert hcert⟩, ?_, ?_⟩
  · have hmoves := Machine.run_meets hfollows hstep as _ (Machine.onTrack_idle w) hw.turning hA
    exact hmoves.mono fun v l v' hm => installsRead_of_move hm.1
  · intro hswitched t hidle after hafter
    -- a thread that is idle has read nothing yet
    have hturned : Turned d k₁ k₂ t c.view :=
      ⟨hI, hswitched, by simp [hidle], by simp [hidle]⟩
    have hmoves := Machine.run_meets hfollows (fun _ _ _ => turned_move) after c htrack hturned hafter
    exact hmoves.mono fun v l v' hm => installsKey_of_move hm.2.2.1 hm.1

end

/-- Node 0 refreshes, and again between the two writes of the activation by node 1. -/
def tornRefresh : List (Action (Fin 2) Call Answer) :=
  ((.start 0 (.refresh "a") ::
      List.replicate 5 (.step 0 {}) : Schedule 2) ++ ([.finish 0] : Schedule 2)) ++
    (.start 1 (.activateCertificateKey "a" false) ::
      List.replicate 17 (.step 1 { notAfter := 20000000 }) : Schedule 2) ++
    ((.start 0 (.refresh "a") ::
      List.replicate 3 (.step 0 {}) : Schedule 2) ++ ([.finish 0] : Schedule 2)) ++
    (List.replicate 7 (.step 1 {}) : Schedule 2)

/-- The activation has put the live key; node 0 refreshes. -/
def wholeRefresh : List (Action (Fin 2) Call Answer) :=
  (.start 0 (.refresh "a") :: List.replicate 5 (.step 0 {}) : Schedule 2) ++
    ([.finish 0] : Schedule 2)

theorem stagedWorld_ceremony (N T : Type) : CeremonyStart "a" ⟨0⟩ ⟨1⟩ (stagedWorld N T) := by
  refine ⟨⟨.chain ⟨⟨0⟩, 10000000⟩, ?_, ?_⟩, ?_, ?_, ?_, ?_⟩ <;>
    simp [stagedWorld, World.empty, NodeMemory.empty, Key.public]

/-- The torn read leaves the old pair in memory, the next refresh installs the new one. -/
theorem ceremony_consistent_torn :
    ∃ c, (cluster (.plain ["a"]) (id : Fin 2 → Fin 2)).run (.idle (stagedWorld _ _)) tornRefresh =
        some c ∧
      ((c.shared.node 0).mem "a").map (·.privateKey) = some ⟨0⟩ ∧
      (cluster (.plain ["a"]) (id : Fin 2 → Fin 2)).Meets (InstallsKey id "a" ⟨1⟩ 0) c
        wholeRefresh ∧
      ∃ c', (cluster (.plain ["a"]) (id : Fin 2 → Fin 2)).run c wholeRefresh = some c' ∧
        ((c'.shared.node 0).mem "a").map (·.privateKey) = some ⟨1⟩ := by
  refine ⟨_, rfl, by decide +kernel, ?_, _, rfl, by decide +kernel⟩
  have hrun := ceremony_consistent (.plain ["a"]) (id : Fin 2 → Fin 2) "a" ⟨0⟩ ⟨1⟩ (stagedWorld _ _)
    (stagedWorld_ceremony _ _) tornRefresh _ (by decide +kernel) rfl
  exact hrun.2.2 rfl 0 rfl wholeRefresh (by decide +kernel)

end CertsManager
