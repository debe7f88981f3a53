import CertsManager.Effects
import CertsManager.Discipline.Walk

/-!
# Provenance — where the chains an operation writes come from

An operation writes, holds and serves only chains bound to a key it has read, or that were held
before.  This is a fact about one operation's calls and replies: whatever is true of every key and
held chain it was handed is true of every chain it hands on.

`staged` selects the key an operation works with: the live one, or the staged one in an activation.
-/

namespace CertsManager

open Interleave

/-! ## Bound chains -/

/-- The chain parses and its leaf key satisfies `G`. -/
def Bound (G : PublicKey → Prop) : ChainPEM → Prop
  | .chain leaf => G leaf.pub
  | .garbage => False

@[simp] theorem bound_chain {G : PublicKey → Prop} {leaf : Leaf} :
    Bound G (.chain leaf) ↔ G leaf.pub := Iff.rfl

@[simp] theorem bound_encode {G : PublicKey → Prop} {cert : Certificate} :
    Bound G (encodeChainPEM cert) ↔ G cert.leaf.pub := Iff.rfl

instance (G : PublicKey → Prop) [DecidablePred G] (c : ChainPEM) : Decidable (Bound G c) :=
  match c with
  | .chain leaf => inferInstanceAs (Decidable (G leaf.pub))
  | .garbage => isFalse id

theorem Bound.mono {G G' : PublicKey → Prop} {c : ChainPEM} (h : Bound G c)
    (hG : ∀ p, G p → G' p) : Bound G' c := by
  cases c with
  | chain leaf => exact hG _ h
  | garbage => exact h

/-! ## Good replies -/

def sourceSlot (staged : Bool) (d : Name) : KeySlot :=
  if staged then .next d else .live d

/-- The reply hands over only keys and held chains of `d` that satisfy `G`, and an order's chain is
bound to the key it was placed for. -/
def GoodEvent (staged : Bool) (d : Name) (G : PublicKey → Prop) : Event → Prop
  | ⟨.storage _ (.getKey slot), r⟩ => slot = sourceSlot staged d → ∀ k, r = .ok (.key k) → G k.public
  | ⟨.mem .pendingSnapshot, r⟩ => ∀ p, (d, p) ∈ r → Bound G p.chainPEM
  | ⟨.env (.issue _ _ k), r⟩ => ∀ c, r = .ok c → Bound (· = k.public) c
  | _ => True

def GoodHistory (staged : Bool) (d : Name) (G : PublicKey → Prop) (h : History) : Prop :=
  ∀ e ∈ h, GoodEvent staged d G e

theorem GoodHistory.of_suffix {staged : Bool} {d : Name} {G : PublicKey → Prop} {h h' : History}
    (hs : h <:+ h') (hh : GoodHistory staged d G h') : GoodHistory staged d G h :=
  fun e he => hh e (hs.subset he)

theorem goodHistory_cons {staged : Bool} {d : Name} {G : PublicKey → Prop} {e : Event}
    {h : History} :
    GoodHistory staged d G (e :: h) ↔ GoodEvent staged d G e ∧ GoodHistory staged d G h :=
  List.forall_mem_cons

theorem GoodEvent.mono {staged : Bool} {d : Name} {G G' : PublicKey → Prop} {e : Event}
    (h : GoodEvent staged d G e) (hG : ∀ p, G p → G' p) : GoodEvent staged d G' e := by
  obtain ⟨o, r⟩ := e
  cases o with
  | storage ctx o =>
      cases o with
      | getKey slot => exact fun hslot k hk => hG _ (h hslot k hk)
      | _ => trivial
  | mem o =>
      cases o with
      | pendingSnapshot => exact fun p hp => (h p hp).mono hG
      | _ => trivial
  | env o =>
      cases o with
      | issue ctx n k => exact h
      | _ => trivial

theorem GoodHistory.mono {staged : Bool} {d : Name} {G G' : PublicKey → Prop} {h : History}
    (hh : GoodHistory staged d G h) (hG : ∀ p, G p → G' p) : GoodHistory staged d G' h :=
  fun e he => (hh e he).mono hG

/-! ## Provenance -/

section Provenance

variable {staged : Bool} {d : Name} {h h' : History}

/-- `k` satisfies everything that what the operation was handed satisfies. -/
def KeyFrom (staged : Bool) (d : Name) (h : History) (k : Key) : Prop :=
  ∀ G, GoodHistory staged d G h → G k.public

def ChainFrom (staged : Bool) (d : Name) (h : History) (c : ChainPEM) : Prop :=
  ∀ G, GoodHistory staged d G h → Bound G c

theorem KeyFrom.extend {k : Key} (hk : KeyFrom staged d h k) (hs : h <:+ h') :
    KeyFrom staged d h' k :=
  fun G hG => hk G (hG.of_suffix hs)

theorem ChainFrom.extend {c : ChainPEM} (hc : ChainFrom staged d h c) (hs : h <:+ h') :
    ChainFrom staged d h' c :=
  fun G hG => hc G (hG.of_suffix hs)

theorem KeyFrom.cons {k : Key} (hk : KeyFrom staged d h k) (e : Event) :
    KeyFrom staged d (e :: h) k :=
  hk.extend (List.suffix_cons e h)

theorem ChainFrom.cons {c : ChainPEM} (hc : ChainFrom staged d h c) (e : Event) :
    ChainFrom staged d (e :: h) c :=
  hc.extend (List.suffix_cons e h)

/-- A chain that builds with a key is from where the key is. -/
theorem ChainFrom.of_build {k : Key} {c : ChainPEM} {cert : Certificate}
    (hk : KeyFrom staged d h k) (hb : buildCertificate c k = .ok cert) :
    ChainFrom staged d h c := by
  obtain ⟨rfl, rfl⟩ := buildCertificate_ok hb
  intro G hG
  rw [bound_encode, ← cert.matching]
  exact hk G hG

/-- The operation has overwritten the live key of `n`. -/
def Promoted (h : History) (n : Name) : Prop :=
  ∃ ctx k, (⟨.storage ctx (.putKey (.live n) k false), .ok ()⟩ : Event) ∈ h

/-- Which key objects an operation may write: outside a ceremony a live key is created once; within
one it is overwritten with the staged key that was read. -/
def mayPutKey (staged : Bool) (h : History) (k : Key) (createOnly : Bool) : KeySlot → Prop
  | .live n => if createOnly then staged = false else staged = true ∧ KeyFrom true n h k
  | .next _ => False
  | .account => createOnly = true

/-- What an operation may do: hand on chains from what it was handed, write the keys it may, and
remove a staged key it has promoted. -/
def mayHandOn (staged : Bool) (h : History) : Op → Prop
  | .storage _ (.putChain n c) => ChainFrom staged n h c
  | .storage _ (.putKey slot k createOnly) => mayPutKey staged h k createOnly slot
  | .storage _ (.removeKey slot) => staged = true ∧ ∃ n, slot = .next n ∧ Promoted h n
  | .mem (.memSet n cert) => ChainFrom staged n h (encodeChainPEM cert)
  | .mem (.pendingSet n p) => ChainFrom staged n h p.chainPEM
  | .mem .pendingSnapshot => staged = false
  | _ => True

/-! ## The functions, one by one -/

theorem load_handsOn (cfg : Settings) (ctx : Time) (slot : KeySlot) :
    (KeyStore.load cfg ctx slot).Conforms (mayHandOn staged) h fun h' r =>
      ∀ d k, slot = sourceSlot staged d → r = .ok k → KeyFrom staged d h' k := by
  simp only [KeyStore.load, onStorage, Prog.conforms_bind, Prog.conforms_perform]
  refine ⟨trivial, fun r => ?_⟩
  cases r with
  | error f =>
      cases f with
      | notExist => simp
      | failed inBody reason => cases inBody <;> simp
  | ok pem =>
      intro d k hslot hk G hG
      cases pem with
      | garbage => simp [parseKeyPEM] at hk
      | key k' =>
          obtain rfl : k' = k := by simpa [parseKeyPEM] using hk
          exact (goodHistory_cons.1 hG).1 hslot k' rfl

/-- Lookups hand nothing on. -/
theorem Op.Lookup.handOn {o : Op} (ho : o.Lookup) : mayHandOn staged h o := by
  cases o with
  | storage ctx o =>
      cases o with
      | putKey slot k createOnly =>
          obtain ⟨rfl, rfl⟩ : slot = .account ∧ createOnly = true := ho
          rfl
      | _ => trivial
  | mem o => cases o <;> trivial
  | env o => trivial

theorem passes_handsOn : Passes (mayHandOn staged) fun _ => True :=
  fun _ _ _ ho => ⟨ho.handOn, fun _ => trivial⟩

theorem aside_handsOn {α : Type} {p : M α} (hp : p.Calls Op.Aside) :
    p.Conforms (mayHandOn staged) h fun _ _ => True :=
  passes_handsOn.aside hp h trivial

theorem quiet_handsOn {α : Type} {p : M α} (hp : p.Calls Op.Quiet) :
    p.Conforms (mayHandOn staged) h fun _ _ => True :=
  aside_handsOn (aside_of_quiet hp)

theorem confirmed_handsOn (cfg : Settings) (n : Name) (cert : Certificate) :
    (CertCache.confirmed cfg n cert).Conforms (mayHandOn staged) h fun _ _ => True :=
  confirmed_conforms (I := fun _ => True) (fun _ _ => ⟨trivial, trivial⟩)
    (fun _ _ _ => ⟨trivial, trivial⟩) trivial

theorem loadCertKey_handsOn (cfg : Settings) (ctx : Time) (n : Name) (h : History) :
    (KeyStore.load cfg ctx (.live n)).Conforms (mayHandOn false) h fun h' r =>
      True ∧ ∀ k, r = .ok k → KeyFrom false n h' k :=
  (load_handsOn cfg ctx (.live n)).mono fun _ _ hr => ⟨trivial, fun k => hr n k rfl⟩

theorem loadOrCreateCertKey_handsOn (cfg : Settings) (ctx : Time) (n : Name) (h : History) :
    (KeyStore.loadOrCreateCertKey cfg ctx n).Conforms (mayHandOn false) h fun h' r =>
      True ∧ ∀ k, r = .ok k → KeyFrom false n h' k :=
  loadOrCreate_reads (I := fun _ => True) cfg ctx (.live n) _
    (fun h o _ ho => passes_handsOn h o trivial ho.aside.lookup)
    (fun _ _ _ _ => ⟨rfl, fun _ => trivial⟩)
    (fun h _ => loadCertKey_handsOn cfg ctx n h) trivial

theorem persistFrom_handsOn (ctx : Time) {n : Name} {c : ChainPEM} (left attempt : Nat)
    (hc : ChainFrom staged n h c) :
    (CertCache.persistFrom ctx n c left attempt).Conforms (mayHandOn staged) h
      fun _ _ => True := by
  induction left generalizing attempt h with
  | zero =>
      simp only [CertCache.persistFrom, onStorage, Prog.conforms_bind, Prog.conforms_perform]
      refine ⟨hc, fun r => ?_⟩
      cases r <;> simp
  | succ left ih =>
      simp only [CertCache.persistFrom, onStorage, onEnv, Prog.conforms_bind, Prog.conforms_perform]
      refine ⟨hc, fun r => ?_⟩
      cases r with
      | ok _ => simp
      | error f =>
          simp only [Prog.conforms_bind, Prog.conforms_perform]
          refine ⟨trivial, fun slept => ?_⟩
          cases slept with
          | false => simp
          | true => exact ih _ ((hc.cons _).cons _)

theorem store_handsOn (cfg : Settings) (ctx : Time) {n : Name} {k : Key} (c : ChainPEM)
    (hk : KeyFrom staged n h k) :
    (CertCache.store cfg ctx n c k).Conforms (mayHandOn staged) h fun _ r =>
      ∀ cert err, r = .unstored cert err → encodeChainPEM cert = c ∧ cert.privateKey = k := by
  simp only [CertCache.store]
  cases hb : buildCertificate c k with
  | error err => simp
  | ok cert =>
      obtain ⟨rfl, hkey⟩ := buildCertificate_ok hb
      refine (persistFrom_handsOn ctx _ _ (ChainFrom.of_build hk hb)).bind fun h₁ r hs _ => ?_
      cases r with
      | error err =>
          intro cert' err' hr
          cases hr
          exact ⟨rfl, hkey⟩
      | ok _ =>
          simp only [CertCache.set, CertCache.dropPending, onMem, Prog.conforms_bind,
            Prog.conforms_perform]
          refine ⟨?_, fun _ => ⟨trivial, fun _ => ?_⟩⟩
          · exact (ChainFrom.of_build hk hb).extend hs
          · exact (confirmed_handsOn cfg n cert).mono fun _ _ _ => by simp

theorem hold_handsOn {n : Name} {cert : Certificate}
    (hc : ChainFrom staged n h (encodeChainPEM cert)) :
    (CertCache.hold n cert (encodeChainPEM cert)).Conforms (mayHandOn staged) h
      fun _ _ => True := by
  simp only [CertCache.hold, CertCache.set, onMem, Prog.conforms_bind, Prog.conforms_perform]
  exact ⟨hc, fun _ => ⟨hc.cons _, fun _ => trivial⟩⟩

/-- With the live key as source, a refresh serves a chain from there. -/
theorem refresh_handsOn (cfg : Settings) (ctx : Time) (n : Name) :
    (CertCache.refresh cfg ctx n).Conforms (mayHandOn false) h fun _ _ => True := by
  simp only [CertCache.refresh, CertCache.loadChain, onStorage, Prog.conforms_bind,
    Prog.conforms_perform]
  refine ⟨trivial, fun r => ?_⟩
  cases r with
  | error f => simp
  | ok c =>
      refine (load_handsOn cfg ctx (.live n)).bind fun h₁ r _ hr => ?_
      cases r with
      | error err => simp
      | ok k =>
          have hk : KeyFrom false n h₁ k := hr n k rfl rfl
          simp only
          cases hb : buildCertificate c k with
          | error err => simp
          | ok cert =>
              obtain ⟨rfl, -⟩ := buildCertificate_ok hb
              simp only [CertCache.set, onMem, Prog.conforms_bind, Prog.conforms_perform]
              refine ⟨ChainFrom.of_build hk hb, fun _ => ?_⟩
              exact (confirmed_handsOn cfg n cert).mono fun _ _ _ => trivial

theorem placeOrder_handsOn (cfg : Settings) (ctx : Time) {n : Name} {k : Key}
    (hk : KeyFrom staged n h k) :
    (Manager.placeOrder cfg ctx n k).Conforms (mayHandOn staged) h fun _ _ => True := by
  refine (quiet_handsOn (ensureIssuer_quiet cfg ctx)).bind fun h₁ r hs₁ _ => ?_
  cases r with
  | error err => simp [onMem, mayHandOn]
  | ok _ =>
      simp only [onEnv, onMem, Prog.conforms_bind, Prog.conforms_perform]
      refine ⟨trivial, fun r => ?_⟩
      cases r with
      | error f =>
          simp only [Prog.conforms_bind, Prog.conforms_perform]
          refine ⟨trivial, fun _ => ?_⟩
          cases hf : f.rateLimit <;> simp [Manager.noteRateLimit, hf, Manager.now, onEnv, onMem, mayHandOn]
      | ok c =>
          have hk₁ := (hk.extend hs₁).cons ⟨.env (.issue ctx n k), .ok c⟩
          refine (store_handsOn cfg ctx c hk₁).bind fun h₂ r hs₂ hr => ?_
          cases r with
          | unusable err => simp [mayHandOn]
          | stored cert => simp [mayHandOn]
          | unstored cert err =>
              obtain ⟨rfl, hkey⟩ := hr cert err rfl
              simp only [Prog.conforms_bind, Prog.conforms_perform]
              refine ⟨trivial, fun _ => ?_⟩
              split
              · simp
              · refine (hold_handsOn ?_).bind fun _ _ _ _ => by simp
                intro G hG
                rw [bound_encode, ← cert.matching, hkey]
                exact (hk₁.extend hs₂).cons _ G hG

theorem issueUnderLease_handsOn (cfg : Settings) (ctx : Time) {n : Name} {k : Key} (force : Bool)
    (hk : KeyFrom false n h k) :
    (Manager.issueUnderLease cfg ctx n k force).Conforms (mayHandOn false) h fun _ _ => True := by
  refine (refresh_handsOn cfg ctx n).bind fun h₁ r hs₁ _ => ?_
  have hk₁ := hk.extend hs₁
  cases r with
  | ok stored =>
      cases force with
      | true => exact placeOrder_handsOn cfg ctx hk₁
      | false =>
          simp only [Bool.false_eq_true, if_false, CertCache.leafNotAfter, CertCache.get, onMem,
            Prog.conforms_bind, Prog.conforms_perform, Prog.conforms_pure]
          refine ⟨trivial, fun r => ?_⟩
          cases r with
          | none => exact placeOrder_handsOn cfg ctx (hk₁.cons _)
          | some cert =>
              simp only [Option.map_some, Manager.now, onEnv, Prog.conforms_bind,
                Prog.conforms_perform]
              refine ⟨trivial, fun t => ?_⟩
              split
              · simp
              · exact placeOrder_handsOn cfg ctx ((hk₁.cons _).cons _)
  | error err =>
      simp only
      split
      · exact placeOrder_handsOn cfg ctx hk₁
      · simp

theorem issueWithKey_handsOn (cfg : Settings) (ctx : Time) {n : Name} {k : Key} (force : Bool)
    (hk : KeyFrom false n h k) :
    (Manager.issueWithKey cfg ctx n k force).Conforms (mayHandOn false) h fun _ _ => True := by
  simp only [Manager.issueWithKey, Manager.acquireIssueLease, Manager.releaseIssueLease, onMem,
    onEnv, Prog.conforms_bind, Prog.conforms_perform]
  refine ⟨trivial, fun r => ?_⟩
  cases r with
  | error wait => simp
  | ok _ =>
      simp only [Prog.conforms_bind, Prog.conforms_perform]
      refine ⟨trivial, fun ok => ?_⟩
      cases ok with
      | false =>
          refine (refresh_handsOn cfg ctx n).bind fun _ r _ _ => ?_
          cases r with
          | error _ => simp
          | ok cert => cases force <;> simp
      | true =>
          refine (issueUnderLease_handsOn cfg ctx force ((hk.cons _).cons _)).bind fun _ _ _ _ => ?_
          simp [mayHandOn]

theorem issuing_handsOn (cfg : Settings) :
    Issuing cfg (mayHandOn false) (fun _ => True) (fun _ _ => True)
      fun h n k => KeyFrom false n h k where
  free := passes_handsOn
  locked _ := passes_handsOn
  lock _ _ _ := ⟨trivial, fun _ => trivial⟩
  tryLock _ _ _ := ⟨trivial, trivial, trivial⟩
  unlock _ _ _ := ⟨trivial, fun _ => trivial⟩
  refresh ctx n _ _ := refresh_handsOn cfg ctx n
  key ctx n h _ := loadOrCreateCertKey_handsOn cfg ctx n h
  order ctx _ _ _ _ hk := issueWithKey_handsOn cfg ctx false hk

/-! ### Held and lost chains -/

theorem writeHeld_handsOn (cfg : Settings) (ctx : Time) {n : Name} {p : PendingPersist}
    (hp : ChainFrom staged n h p.chainPEM) :
    (Manager.writeHeld cfg ctx n p).Conforms (mayHandOn staged) h fun _ _ => True := by
  refine (persistFrom_handsOn ctx _ _ hp).bind fun h₁ r _ _ => ?_
  cases r with
  | error err => simp
  | ok _ =>
      simp only [CertCache.dropPending, CertCache.get, onMem, Prog.conforms_bind,
        Prog.conforms_perform]
      refine ⟨trivial, fun _ => ⟨trivial, fun r => ?_⟩⟩
      cases r with
      | none => simp
      | some cert => exact (confirmed_handsOn cfg n cert).bind fun _ _ _ _ => trivial

theorem flushLeased_handsOn (cfg : Settings) (ctx : Time) {n : Name} {p : PendingPersist}
    (hp : ChainFrom false n h p.chainPEM) :
    (Manager.flushLeased cfg ctx n p).Conforms (mayHandOn false) h fun _ _ => True := by
  simp only [Manager.flushLeased, CertCache.storedNotAfter, CertCache.loadChain, onStorage,
    Prog.conforms_bind, Prog.conforms_perform]
  refine ⟨trivial, fun r => ?_⟩
  cases r with
  | error f =>
      simp only [Prog.conforms_pure]
      split
      · exact writeHeld_handsOn cfg ctx (hp.cons _)
      · simp
  | ok c =>
      cases c with
      | garbage =>
          simp only [Prog.conforms_pure, leafNotAfterPEM]
          split
          · exact writeHeld_handsOn cfg ctx (hp.cons _)
          · simp
      | chain leaf =>
          simp only [Prog.conforms_pure, leafNotAfterPEM]
          split
          · refine (refresh_handsOn cfg ctx n).bind fun _ r _ _ => ?_
            cases r <;> simp [CertCache.dropPending, onMem, mayHandOn]
          · exact writeHeld_handsOn cfg ctx (hp.cons _)

theorem flushOne_handsOn (cfg : Settings) (ctx : Time) {n : Name} {p : PendingPersist}
    (hp : ChainFrom false n h p.chainPEM) :
    (Manager.flushOne cfg ctx n p).Conforms (mayHandOn false) h fun _ _ => True := by
  simp only [Manager.flushOne, Manager.flushLocked, Manager.acquireIssueLease,
    Manager.releaseIssueLease, onMem, onEnv, Prog.conforms_bind, Prog.conforms_perform]
  refine ⟨trivial, fun free => ?_⟩
  cases free with
  | false => simp
  | true =>
      simp only [Bool.not_true, Bool.false_eq_true, if_false, Prog.conforms_bind,
        Prog.conforms_perform]
      refine ⟨trivial, fun ok => ?_⟩
      cases ok with
      | false => simp [mayHandOn]
      | true =>
          refine (flushLeased_handsOn cfg ctx ((hp.cons _).cons _)).bind fun _ _ _ _ => ?_
          simp [mayHandOn]

/-- What a flush writes comes from the snapshot it took. -/
theorem flushHeldChains_handsOn (cfg : Settings) (ctx : Time) :
    (Manager.flushHeldChains cfg ctx).Keeps (mayHandOn false) fun _ => True := by
  refine flushHeldChains_keeps_of (E := fun h n p => ChainFrom false n h p.chainPEM)
    (fun hp hs => hp.extend hs) (fun _ _ => ⟨trivial, fun _ => trivial⟩)
    (fun h _ => ⟨rfl, fun held => ⟨trivial, fun e he G hG => ?_⟩⟩)
    (fun _ _ _ => ⟨trivial, fun _ => trivial⟩) fun _ _ _ _ hp => flushOne_handsOn cfg ctx hp
  exact (goodHistory_cons.1 hG).1 e.2 he

theorem restoreMissingChains_handsOn (cfg : Settings) (ctx : Time) :
    (Manager.restoreMissingChains cfg ctx).Keeps (mayHandOn false) fun _ => True :=
  passes_handsOn.restoreMissingChains (K := fun h n k => KeyFrom false n h k)
    (fun h n _ => loadCertKey_handsOn cfg ctx n h)
    fun _ _ _ _ _ _ hk hb => flushOne_handsOn cfg ctx (ChainFrom.of_build hk hb)

/-! ### The ceremony -/

theorem promoteNextCertKey_handsOn (cfg : Settings) (ctx : Time) (n : Name) :
    (KeyStore.promoteNextCertKey cfg ctx n).Conforms (mayHandOn true) h fun _ _ => True := by
  simp only [KeyStore.promoteNextCertKey, KeyStore.canCreate, isLeader, onEnv, Prog.conforms_bind,
    Prog.conforms_perform]
  refine ⟨trivial, fun may => ?_⟩
  cases may with
  | false => simp
  | true =>
      refine (load_handsOn cfg ctx (.next n)).bind fun _ r _ hr => ?_
      cases r with
      | error err => simp
      | ok k =>
          simp only [onStorage, Prog.conforms_bind, Prog.conforms_perform]
          refine ⟨⟨rfl, hr n k rfl rfl⟩, fun r => ?_⟩
          cases r with
          | error f => simp
          | ok _ => exact ⟨⟨rfl, n, rfl, ctx, k, List.mem_cons_self⟩, fun _ => trivial⟩

/-- Reconciliation writes keys as an activation does. -/
def mayRekey (h : History) : Op → Prop
  | .storage _ (.putKey slot k createOnly) => mayPutKey true h k createOnly slot
  | .storage _ (.removeKey slot) => ∃ n, slot = .next n ∧ Promoted h n
  | _ => True

theorem mayRekey_of_handsOn {o : Op} (ho : mayHandOn true h o) : mayRekey h o := by
  cases o with
  | storage ctx o =>
      cases o with
      | putKey slot k createOnly => exact ho
      | removeKey slot => exact ho.2
      | _ => trivial
  | _ => trivial

theorem keyless_rekeys {α : Type} {p : M α} (hp : p.Calls Op.Keyless) :
    p.Conforms mayRekey h fun _ _ => True := by
  refine (hp.conforms fun h o ho => ?_).mono fun _ _ _ => trivial
  cases o with
  | storage ctx o =>
      cases o with
      | putKey slot k createOnly =>
          obtain ⟨rfl, rfl⟩ : slot = .account ∧ createOnly = true := ho
          rfl
      | removeKey slot => cases ho
      | _ => trivial
  | _ => trivial

theorem reconcileCeremony_rekeys (cfg : Settings) (ctx : Time) (n : Name) :
    (Manager.reconcileCeremony cfg ctx n).Conforms mayRekey h fun _ _ => True := by
  refine (keyless_rekeys (keyless_of_quiet (load_quiet cfg ctx (.next n)))).bind fun _ r _ _ => ?_
  cases r with
  | error err => simp
  | ok next =>
      simp only [CertCache.storedLeafSPKI, CertCache.loadChain, onStorage, Prog.conforms_bind,
        Prog.conforms_perform]
      refine ⟨trivial, fun r => ?_⟩
      rcases r with f | (leaf | _)
      · simp
      · refine (keyless_rekeys (keyless_of_quiet (load_quiet cfg ctx (.live n)))).bind
          fun _ r _ _ => ?_
        cases r with
        | error err => simp
        | ok live =>
            simp only
            split
            · refine (keyless_rekeys (keyless_of_aside (markOutgoing_aside cfg ctx n))).bind
                fun _ r _ _ => ?_
              cases r with
              | error err => simp
              | ok _ =>
                  refine ((promoteNextCertKey_handsOn cfg ctx n).weaken
                    fun _ _ ho => mayRekey_of_handsOn ho).bind fun _ r _ _ => ?_
                  cases r with
                  | error err => simp
                  | ok _ =>
                      have hrefresh := (refresh_serving cfg ctx n).mono fun _ ho => ho.keyless
                      exact (keyless_rekeys hrefresh).bind fun _ _ _ _ => trivial
            · simp
      · simp

/-- The operation generated `k`. -/
def Generated (h : History) (k : Key) : Prop :=
  (⟨.env .generateSigner, k⟩ : Event) ∈ h

/-- The operation read the staged key of `d`. -/
def StagedRead (h : History) (d : Name) (k : Key) : Prop :=
  ∃ ctx, (⟨.storage ctx (.getKey (.next d)), .ok (.key k)⟩ : Event) ∈ h

/-- Staging writes one key object, the staged key of its domain, once, with a key it generated. -/
def mayStage (d : Name) (h : History) : Op → Prop
  | .storage _ (.putKey (.live _) _ _) => False
  | .storage _ (.putKey (.next n) k createOnly) => n = d ∧ createOnly = true ∧ Generated h k
  | .storage _ (.putKey .account _ createOnly) => createOnly = true
  | .storage _ (.removeKey _) => False
  | _ => True

theorem keyless_stages {α : Type} {p : M α} (hp : p.Calls Op.Keyless) :
    p.Conforms (mayStage d) h fun _ _ => True := by
  refine (hp.conforms fun h o ho => ?_).mono fun _ _ _ => trivial
  cases o with
  | storage ctx o =>
      cases o with
      | putKey slot k createOnly =>
          obtain ⟨rfl, rfl⟩ : slot = .account ∧ createOnly = true := ho
          rfl
      | removeKey slot => cases ho
      | _ => trivial
  | _ => trivial

theorem loadNext_stages (cfg : Settings) (ctx : Time) (n : Name) :
    (KeyStore.load cfg ctx (.next n)).Conforms (mayStage d) h fun h' r =>
      ∀ k, r = .ok k → StagedRead h' n k := by
  simp only [KeyStore.load, onStorage, Prog.conforms_bind, Prog.conforms_perform]
  refine ⟨trivial, fun r => ?_⟩
  rcases r with (_ | ⟨inBody, reason⟩) | pem
  · simp
  · cases inBody <;> simp
  · intro k hk
    cases pem with
    | garbage => simp [parseKeyPEM] at hk
    | key k' =>
        obtain rfl : k' = k := by simpa [parseKeyPEM] using hk
        exact ⟨ctx, List.mem_cons_self⟩

/-- A key that was staged was read back. -/
theorem loadOrCreateNext_stages (cfg : Settings) (ctx : Time) (n : Name) (keyType : KeyType) :
    (KeyStore.loadOrCreate cfg ctx (.next n) keyType).Conforms (mayStage n) h fun h' r =>
      ∀ k, r = .ok k → StagedRead h' n k := by
  refine (loadOrCreate_reads (I := fun _ => True) cfg ctx (.next n) keyType (fun h o _ ho => ?_)
    (fun _ _ _ hgen => ⟨⟨rfl, rfl, hgen⟩, fun _ => trivial⟩) (fun _ _ => ?_) trivial).mono
    fun _ _ hr => hr.2
  · exact ⟨(keyless_stages (.perform ho.aside.keyless)).1, fun _ => trivial⟩
  · exact (loadNext_stages cfg ctx n).mono fun _ _ hr => ⟨trivial, hr⟩

theorem StagedRead.extend {h h' : History} {d : Name} {k : Key} (hk : StagedRead h d k)
    (hs : h <:+ h') : StagedRead h' d k := by
  obtain ⟨ctx, hmem⟩ := hk
  exact ⟨ctx, hs.subset hmem⟩

theorem replaceCertificateKey_stages (cfg : Settings) (n : Name) :
    (Manager.replaceCertificateKey cfg n).Conforms (mayStage n) h fun h' r =>
      ∀ recs, r = .ok recs → ∃ k, StagedRead h' n k := by
  simp only [Manager.replaceCertificateKey, KeyStore.generateNextCertKey, KeyStore.canCreate,
    isLeader, onEnv, Prog.conforms_bind, Prog.conforms_perform]
  refine ⟨trivial, fun leader => ?_⟩
  cases leader with
  | false => simp
  | true =>
      simp only [Bool.not_true, Bool.false_eq_true, if_false]
      split
      · simp
      · simp only [Manager.now, onEnv, Prog.conforms_bind, Prog.conforms_perform]
        refine ⟨trivial, fun t => ⟨trivial, fun may => ?_⟩⟩
        cases may with
        | false => simp
        | true =>
            refine (loadOrCreateNext_stages cfg _ n cfg.keyType).mono fun h₁ r hr => ?_
            cases r with
            | error err => simp
            | ok k =>
                have hread := hr k rfl
                simp only
                split
                · refine (keyless_stages ((recordsForHost_looking cfg _ _ n).mono
                    fun _ ho => ho.aside.keyless)).extends.mono ?_
                  exact fun _ _ hs _ _ => ⟨k, hread.extend hs.1⟩
                · refine (loadNext_stages cfg _ n).bind fun h₂ r hs _ => ?_
                  cases r with
                  | error err => simp
                  | ok next => exact fun _ _ => ⟨k, hread.extend hs⟩

theorem chainForActivation_handsOn (cfg : Settings) (ctx : Time) (n : Name) (k : Key) :
    (Manager.chainForActivation cfg ctx n k).Conforms (mayHandOn staged) h fun _ _ => True := by
  have horder : ∀ h', (Manager.orderForActivation cfg ctx n k).Conforms (mayHandOn staged) h'
      fun _ _ => True := by
    intro h'
    refine (quiet_handsOn (ensureIssuer_quiet cfg ctx)).bind fun _ r _ _ => ?_
    cases r with
    | error err => simp
    | ok _ =>
        simp only [onEnv, Prog.conforms_bind, Prog.conforms_perform]
        refine ⟨trivial, fun r => ?_⟩
        cases r <;> simp
  simp only [Manager.chainForActivation, CertCache.heldChainFor, onMem, Prog.conforms_bind,
    Prog.conforms_perform]
  refine ⟨trivial, fun p => ?_⟩
  cases p with
  | none => exact horder _
  | some p =>
      cases hb : buildCertificate p.chainPEM k with
      | error err => simpa [hb] using horder _
      | ok cert => simp [hb]

theorem promoteStored_handsOn (cfg : Settings) (ctx : Time) (n : Name) :
    (Manager.promoteStored cfg ctx n).Conforms (mayHandOn true) h fun _ _ => True := by
  refine (aside_handsOn (markOutgoing_aside cfg ctx n)).bind fun _ r _ _ => ?_
  cases r with
  | error err => simp
  | ok _ =>
      simp only [isLeader, onEnv, Prog.conforms_bind, Prog.conforms_perform]
      refine ⟨trivial, fun leader => ?_⟩
      cases leader with
      | false => simp
      | true =>
          refine (promoteNextCertKey_handsOn cfg ctx n).bind fun _ r _ _ => ?_
          cases r <;> simp

theorem activateLeased_handsOn (cfg : Settings) (ctx : Time) (n : Name) (force : Bool) :
    (Manager.activateLeased cfg ctx n force).Conforms (mayHandOn true) h fun _ _ => True := by
  refine (load_handsOn cfg ctx (.next n)).bind fun h₁ r _ hr => ?_
  cases r with
  | error err => simp
  | ok k =>
      have hk : KeyFrom true n h₁ k := hr n k rfl rfl
      refine (quiet_handsOn (activationGate_quiet cfg ctx n k force)).bind fun h₂ r hs₂ _ => ?_
      cases r with
      | error err => simp
      | ok _ =>
          refine (chainForActivation_handsOn cfg ctx n k).bind fun h₃ r hs₃ _ => ?_
          cases r with
          | error err => simp
          | ok c =>
              have hk₃ := (hk.extend hs₂).extend hs₃
              refine (store_handsOn cfg ctx c hk₃).bind fun h₄ r hs₄ hr => ?_
              cases r with
              | unusable err => simp
              | stored cert => exact promoteStored_handsOn cfg ctx n
              | unstored cert err =>
                  obtain ⟨rfl, hkey⟩ := hr cert err rfl
                  simp only
                  split
                  · simp
                  · refine (hold_handsOn ?_).bind fun _ _ _ _ => trivial
                    intro G hG
                    rw [bound_encode, ← cert.matching, hkey]
                    exact hk₃.extend hs₄ G hG

theorem activateCertificateKey_handsOn (cfg : Settings) (n : Name) (force : Bool) :
    (Manager.activateCertificateKey cfg n force).Conforms (mayHandOn true) h fun _ _ => True := by
  simp only [Manager.activateCertificateKey, Manager.activateLocked, Manager.acquireIssueLease,
    Manager.releaseIssueLease, isLeader, onEnv, Prog.conforms_bind, Prog.conforms_perform]
  refine ⟨trivial, fun leader => ?_⟩
  cases leader with
  | false => simp
  | true =>
      simp only [Bool.not_true, Bool.false_eq_true, if_false]
      split
      · simp
      · simp only [Manager.now, onEnv, onMem, Prog.conforms_bind, Prog.conforms_perform]
        refine ⟨trivial, fun t => ⟨trivial, fun _ => ⟨trivial, fun ok => ?_⟩⟩⟩
        cases ok with
        | false => simp [mayHandOn]
        | true =>
            refine (activateLeased_handsOn cfg _ n force).bind fun _ _ _ _ => ?_
            simp [mayHandOn]

end Provenance

/-! ## The protocol of all operations -/

/-- The key an operation's chains are from; reconciliation and staging write none. -/
def Call.source : Call → Option Bool
  | .activateCertificateKey _ _ => some true
  | .reconcileCeremony _ => none
  | .replaceCertificateKey _ => none
  | _ => some false

def handsOn : Protocol Op Res Call Out where
  may q h o :=
    match q with
    | .reconcileCeremony _ => o.Light ∧ mayRekey h o
    | .replaceCertificateKey d => o.Light ∧ mayStage d h o
    | _ => mayHandOn (q.source.getD false) h o
  done q h out :=
    match q, out with
    | .loadCertKey d, .key (.ok k) => KeyFrom false d h k
    | .loadOrCreateCertKey d, .key (.ok k) => KeyFrom false d h k
    | .replaceCertificateKey d, .records (.ok _) => ∃ k, StagedRead h d k
    | _, _ => True

theorem cluster_handsOn {N T : Type} [DecidableEq N] (cfg : Settings) (node : T → N) :
    (cluster cfg node).Follows handsOn := by
  intro q
  show (body cfg q).Conforms (handsOn.may q) [] (handsOn.done q)
  cases q with
  | loadCertKey d =>
      refine Prog.conforms_map.2 (within_conforms trivial fun t => ?_)
      refine (loadCertKey_handsOn cfg _ d _).mono fun h r hr => ?_
      cases r with
      | error err => trivial
      | ok k => exact hr.2 k rfl
  | loadOrCreateCertKey d =>
      refine Prog.conforms_map.2 (within_conforms trivial fun t => ?_)
      refine (loadOrCreateCertKey_handsOn cfg _ d _).mono fun h r hr => ?_
      cases r with
      | error err => trivial
      | ok k => exact hr.2 k rfl
  | refresh d => exact Prog.conforms_map.2 (within_conforms trivial fun t => refresh_handsOn cfg _ d)
  | obtain d =>
      refine Prog.conforms_map.2 (within_conforms trivial fun t => ?_)
      exact (issuing_handsOn cfg).obtain _ d _ trivial
  | requestIssue d b => exact Prog.conforms_map.2 ((issuing_handsOn cfg).requestIssue d b _ trivial)
  | renewIfNeeded d =>
      refine Prog.conforms_map.2 (within_conforms trivial fun t => ?_)
      exact (issuing_handsOn cfg).renewIfNeeded _ d _ trivial
  | renewCertificate d =>
      refine Prog.conforms_map.2 ((issuing_handsOn cfg).renewCertificate d ?_ _ trivial)
      exact fun ctx k h _ hk => issueWithKey_handsOn cfg ctx true hk
  | flushHeldChains =>
      refine Prog.conforms_map.2 (within_conforms trivial fun t => ?_)
      exact flushHeldChains_handsOn cfg _ _ trivial
  | restoreMissingChains =>
      refine Prog.conforms_map.2 (within_conforms trivial fun t => ?_)
      exact restoreMissingChains_handsOn cfg _ _ trivial
  | reconcileCeremony d =>
      refine Prog.conforms_map.2 (within_conforms ⟨trivial, trivial⟩ fun t => ?_)
      refine ((reconcileCeremony_light cfg _ d _).and (reconcileCeremony_rekeys cfg _ d)).mono ?_
      exact fun _ _ _ => trivial
  | replaceCertificateKey d =>
      refine Prog.conforms_map.2 (((replaceCertificateKey_light cfg d _).and
        (replaceCertificateKey_stages cfg d)).mono fun h r hr => ?_)
      cases r with
      | error err => trivial
      | ok recs => exact hr.2 recs rfl
  | activateCertificateKey d force =>
      exact Prog.conforms_map.2 (activateCertificateKey_handsOn cfg d force)
  | cleanupExpiredRetiring =>
      simp only [body]
      split
      · trivial
      · refine Prog.conforms_map.2 (within_conforms trivial fun t => ?_)
        exact aside_handsOn (cleanupExpiredRetiring_aside _ _)
  | desiredRecords =>
      simp only [body]
      split
      · trivial
      · refine Prog.conforms_map.2 (within_conforms trivial fun t => ?_)
        exact aside_handsOn (desiredFrom_aside cfg _ _ _)
  | maintainFollower =>
      have w := issuing_handsOn cfg
      exact Prog.conforms_map.2 (w.free.maintainFollower w.refresh _ trivial)
  | planLeader =>
      have w := issuing_handsOn cfg
      exact Prog.conforms_map.2 (w.free.planLeader w.refresh _ trivial)
  | runHost n isRenewal =>
      exact Prog.conforms_map.2 ((issuing_handsOn cfg).runHost n isRenewal _ trivial)

/-- A reply is good when what the call reads is. -/
theorem goodEvent_of_exec {N T : Type} [DecidableEq N] {maxRetries : Nat} {node : T → N}
    {w w' : World N T} {t : T} {o : Op} {r : Res o} {a : Answer} {staged : Bool} {d : Name}
    {G : PublicKey → Prop} (he : exec maxRetries node w t o a = some (r, w'))
    (hkey : ∀ k, w.storage.key (sourceSlot staged d) = some (.key k) → G k.public)
    (hpending : o = .mem .pendingSnapshot →
      ∀ p, (w.node (node t)).pending.lookup d = some p → Bound G p.chainPEM) :
    GoodEvent staged d G ⟨o, r⟩ := by
  cases o with
  | storage ctx o =>
      cases o with
      | getKey slot =>
          rintro rfl k rfl
          exact hkey k (exec_getKey_ok he)
      | _ => trivial
  | mem o =>
      cases o with
      | pendingSnapshot => exact fun p hp => hpending rfl p (exec_pendingSnapshot he hp)
      | _ => trivial
  | env o =>
      cases o with
      | issue ctx n k =>
          rintro c rfl
          obtain ⟨notAfter, rfl, -⟩ := exec_issue_ok he
          rfl
      | _ => trivial

end CertsManager
