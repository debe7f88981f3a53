import CertsManager.Discipline.Walk

/-!
# Know — what an operation knows under its lock and lease, and what it does with it

An operation holds at most one domain lock and, under it, that name's lease.  `Know` folds its
calls and replies into what it has learned since: which chain storage holds, which chain is held in
memory, what it ordered, what it serves and whether that was found due.  `mayKeep` says which
calls that knowledge permits:

* a chain is written only under the lock and the lease of its name;
* a held chain is set or dropped only under the lock: set once it is served, and dropped only when
  the stored chain is known and is the one in hand, or covers the entry that was offered;
* an order is placed only under both, one per lease, and unless it is forced only after the read
  under the lease has justified it;
* an activation promotes only over a chain it stored under the lease it still holds;
* a live key is never removed.

Nothing here speaks of state: that the knowledge is true is the subject of `Custody`.
-/

namespace CertsManager

open Interleave

/-! ## Knowledge -/

structure Know where
  /-- The domain lock that is held. -/
  lock : Option Name := none
  /-- Whether the locked name's lease is held. -/
  lease : Bool := false
  /-- The locked name's key object was read; `gone`: a later read found none. -/
  key : Bool := false
  gone : Bool := false
  /-- The chain storage holds for the leased name, once read or written, and what the read of it
  answered. -/
  chain : Option (Option ChainPEM) := none
  read : Option (Option ChainPEM) := none
  /-- The chain held for the locked name, once looked up, set or dropped. -/
  held : Option (Option PendingPersist) := none
  /-- The chain of the order placed under the lease; `spoiled`: a write of a chain failed since the
  lease was taken, or the order's chain is not bound to its key. -/
  order : Option ChainPEM := none
  spoiled : Bool := false
  /-- The certificate put in memory under the lease, what memory answered since, and whether a
  clock reading since found that answer due. -/
  served : Option Certificate := none
  seen : Option (Option Certificate) := none
  due : Bool := false

namespace Know

/-- The lock and the lease of `n` are held. -/
def Leased (κ : Know) (n : Name) : Prop :=
  κ.lock = some n ∧ κ.lease = true

instance (κ : Know) (n : Name) : Decidable (κ.Leased n) :=
  inferInstanceAs (Decidable (_ ∧ _))

/-- What a read of the locked name's key object tells. -/
def readKey (κ : Know) : Except ReadFault KeyPEM → Know
  | .ok _ => { κ with key := true }
  | .error .notExist => { κ with gone := κ.gone || κ.key }
  | .error (.failed _ _) => κ

/-- The first answer stands: under the lease nobody else writes the chain. -/
def readChain (κ : Know) (r : Except ReadFault ChainPEM) : Know :=
  match κ.chain, r with
  | none, .ok c => { κ with chain := some (some c), read := some (some c) }
  | none, .error .notExist => { κ with chain := some none, read := some none }
  | _, _ => κ

/-- A write that reported a failure may have landed. -/
def wroteChain (κ : Know) (c : ChainPEM) : Except PutFault Unit → Know
  | .ok () => { κ with chain := some (some c) }
  | .error _ => { κ with chain := none, spoiled := true }

/-- The chain the CA answered an order for `k` with. -/
def ordered (κ : Know) (k : Key) (c : ChainPEM) : Know :=
  { κ with order := some c, spoiled := κ.spoiled || (buildCertificate c k).toOption.isNone }

def after (cfg : Settings) (κ : Know) : Event → Know
  | ⟨.mem (.lock n), _⟩ => { lock := some n }
  | ⟨.mem (.tryLock n), got⟩ => if got then { lock := some n } else κ
  | ⟨.mem (.unlock _), _⟩ => {}
  | ⟨.env (.acquireLease _ n), got⟩ =>
      if got = true ∧ κ.lock = some n then { κ with lease := true } else κ
  | ⟨.env (.releaseLease _), _⟩ =>
      { κ with lease := false, chain := none, read := none, order := none, spoiled := false,
               served := none, seen := none, due := false }
  | ⟨.storage _ (.getKey (.live n)), r⟩ => if κ.lock = some n then κ.readKey r else κ
  | ⟨.storage _ (.getChain n), r⟩ => if κ.Leased n then κ.readChain r else κ
  | ⟨.storage _ (.putChain n c), r⟩ => if κ.Leased n then κ.wroteChain c r else κ
  | ⟨.mem (.pendingGet n), r⟩ => if κ.lock = some n then { κ with held := some r } else κ
  | ⟨.mem (.pendingSet n p), _⟩ => if κ.lock = some n then { κ with held := some (some p) } else κ
  | ⟨.mem (.pendingDelete n), _⟩ => if κ.lock = some n then { κ with held := some none } else κ
  | ⟨.env (.issue _ n k), .ok c⟩ => if κ.Leased n then κ.ordered k c else κ
  | ⟨.mem (.memSet n cert), _⟩ =>
      if κ.Leased n then { κ with served := some cert, seen := none, due := false } else κ
  | ⟨.mem (.memGet n), r⟩ => if κ.Leased n then { κ with seen := some r, due := false } else κ
  | ⟨.env .now, t⟩ =>
      match κ.seen with
      | some (some cert) =>
          { κ with due := κ.due || !Manager.outlivesRenewal cfg t cert.leaf.notAfter }
      | _ => κ
  | _ => κ

end Know

def know (cfg : Settings) (h : History) : Know :=
  h.foldr (fun e κ => κ.after cfg e) {}

@[simp] theorem know_nil (cfg : Settings) : know cfg [] = {} := rfl

@[simp] theorem know_cons (cfg : Settings) (e : Event) (h : History) :
    know cfg (e :: h) = (know cfg h).after cfg e := rfl

/-! ## What is permitted -/

/-- Orders placed whatever storage holds. -/
def Call.forced : Call → Bool
  | .renewCertificate _ => true
  | .activateCertificateKey _ _ => true
  | _ => false

/-- The chain is the one the operation ordered, or the held one it took up again. -/
def Know.InHand (κ : Know) (c : ChainPEM) : Prop :=
  κ.order = some c ∨ (κ.order = none ∧ ∃ p, κ.held = some (some p) ∧ p.chainPEM = c)

/-- An entry of a snapshot the operation took of the held chains. -/
def Offered (h : History) (n : Name) (p : PendingPersist) : Prop :=
  ∃ r : List (Name × PendingPersist), (⟨.mem .pendingSnapshot, r⟩ : Event) ∈ h ∧ (n, p) ∈ r

/-- The stored chain `c` is the offered entry's, or expires no earlier. -/
def Covers (c : ChainPEM) (p : PendingPersist) : Prop :=
  c = p.chainPEM ∨ ∃ leaf, c = .chain leaf ∧ p.notAfter ≤ leaf.notAfter

/-- What the read under the lease must have answered before an order that is not forced. -/
def Know.Judged (κ : Know) : Prop :=
  ∃ x, κ.chain = some x ∧ κ.read = some x ∧
    (x = none ∨ κ.gone = true ∨ ∃ cert, x = some (encodeChainPEM cert) ∧ κ.served = some cert ∧
      (κ.seen = some none ∨ ((∃ m, κ.seen = some (some m)) ∧ κ.due = true)))

def PutOk (h : History) (n : Name) (c : ChainPEM) : Prop :=
  ∃ ctx, (⟨.storage ctx (.putChain n c), .ok ()⟩ : Event) ∈ h

theorem Offered.extend {h h' : History} {n : Name} {p : PendingPersist} (hp : Offered h n p)
    (hs : h <:+ h') : Offered h' n p := by
  obtain ⟨r, hr, hmem⟩ := hp
  exact ⟨r, hs.subset hr, hmem⟩

theorem PutOk.extend {h h' : History} {n : Name} {c : ChainPEM} (hc : PutOk h n c)
    (hs : h <:+ h') : PutOk h' n c := by
  obtain ⟨ctx, hmem⟩ := hc
  exact ⟨ctx, hs.subset hmem⟩

/-- An order placed under the lease has been stored, unless something spoiled it. -/
def Know.Settled (κ : Know) : Prop :=
  κ.order ≠ none → (∃ c, κ.chain = some (some c)) ∨ κ.spoiled = true

def mayKeep (cfg : Settings) (q : Call) (h : History) : Op → Prop
  | .mem (.lock _) => (know cfg h).lock = none
  | .mem (.tryLock _) => (know cfg h).lock = none
  | .mem (.unlock n) => (know cfg h).lock = some n ∧ (know cfg h).lease = false
  | .env (.acquireLease _ n) => (know cfg h).lock = some n ∧ (know cfg h).lease = false
  | .env (.releaseLease n) => (know cfg h).Leased n ∧ (know cfg h).Settled
  | .storage _ (.putChain n _) => (know cfg h).Leased n
  | .mem (.pendingSet n p) =>
      (know cfg h).Leased n ∧ leafNotAfterPEM p.chainPEM = .ok p.notAfter ∧
        (know cfg h).InHand p.chainPEM ∧
        ∃ cert, (know cfg h).served = some cert ∧ cert.leaf.notAfter = p.notAfter
  | .mem (.pendingDelete n) =>
      (know cfg h).Leased n ∧ ∃ c, (know cfg h).chain = some (some c) ∧
        ((know cfg h).InHand c ∨ (∃ p, Offered h n p ∧ Covers c p) ∨ q = .restoreMissingChains)
  | .env (.issue _ n _) =>
      (know cfg h).Leased n ∧ (know cfg h).order = none ∧ (know cfg h).spoiled = false ∧
        (q.forced = false → (know cfg h).Judged)
  | .storage _ (.putKey (.live n) _ false) =>
      (∃ force, q = .activateCertificateKey n force) →
        (know cfg h).Leased n ∧ ∃ c, (know cfg h).chain = some (some c) ∧ PutOk h n c
  | .storage _ (.removeKey (.live _)) => False
  | _ => True

/-! ## What is known outside a lock or a lease -/

/-- Nothing is known without the lock, and nothing of storage, orders or memory without the lease. -/
structure Know.Sound (κ : Know) : Prop where
  unlocked : κ.lock = none → κ = {}
  unleased : κ.lease = false →
    κ.chain = none ∧ κ.order = none ∧ κ.served = none ∧ κ.seen = none ∧ κ.due = false ∧
      κ.read = none ∧ κ.spoiled = false

theorem Know.Sound.of_locked {κ κ' : Know} (hlock : κ.lock ≠ none) (hlock' : κ'.lock = κ.lock)
    (hlease : κ'.lease = false →
      κ'.chain = none ∧ κ'.order = none ∧ κ'.served = none ∧ κ'.seen = none ∧ κ'.due = false ∧
        κ'.read = none ∧ κ'.spoiled = false) :
    κ'.Sound :=
  ⟨fun hn => absurd (hlock' ▸ hn) hlock, hlease⟩

theorem Know.Sound.of_leased {κ κ' : Know} {n : Name} (hn : κ.Leased n)
    (hlock' : κ'.lock = κ.lock) (hlease' : κ'.lease = κ.lease) : κ'.Sound :=
  .of_locked (by simp [hn.1]) hlock' fun hf => by simp [hlease', hn.2] at hf

theorem Know.Sound.after (cfg : Settings) {κ : Know} (h : κ.Sound) (e : Event) :
    (κ.after cfg e).Sound := by
  obtain ⟨o, r⟩ := e
  cases o with
  | storage ctx o =>
      cases o with
      | getKey slot =>
          cases slot with
          | live n =>
              simp only [Know.after]
              split
              · rename_i hn
                rcases r with (_ | _) | _
                · exact .of_locked (by simp [readKey, hn]) rfl h.unleased
                · exact h
                · exact .of_locked (by simp [readKey, hn]) rfl h.unleased
              · exact h
          | _ => exact h
      | getChain n =>
          simp only [Know.after]
          split
          · rename_i hn
            cases hc : κ.chain with
            | some x => simpa [readChain, hc] using h
            | none =>
                rcases r with (_ | _) | _ <;> simp only [readChain, hc]
                · exact .of_leased hn rfl rfl
                · exact h
                · exact .of_leased hn rfl rfl
          · exact h
      | putChain n c =>
          simp only [Know.after]
          split
          · rename_i hn
            rcases r with _ | _ <;> exact .of_leased hn rfl rfl
          · exact h
      | _ => exact h
  | mem o =>
      cases o with
      | lock n => exact ⟨by simp [Know.after], fun _ => ⟨rfl, rfl, rfl, rfl, rfl, rfl, rfl⟩⟩
      | tryLock n =>
          simp only [Know.after]
          split
          · exact ⟨by simp, fun _ => ⟨rfl, rfl, rfl, rfl, rfl, rfl, rfl⟩⟩
          · exact h
      | unlock n => exact ⟨fun _ => rfl, fun _ => ⟨rfl, rfl, rfl, rfl, rfl, rfl, rfl⟩⟩
      | pendingGet n | pendingSet n p | pendingDelete n =>
          simp only [Know.after]
          split
          · rename_i hn
            exact .of_locked (by simp [hn]) rfl h.unleased
          · exact h
      | memSet n cert | memGet n =>
          simp only [Know.after]
          split
          · rename_i hn
            exact .of_leased hn rfl rfl
          · exact h
      | _ => exact h
  | env o =>
      cases o with
      | acquireLease ctx n =>
          simp only [Know.after]
          split
          · rename_i hn
            exact .of_locked (by simp [hn.2]) rfl (by simp)
          · exact h
      | releaseLease n =>
          refine ⟨fun hn => ?_, fun _ => ⟨rfl, rfl, rfl, rfl, rfl, rfl, rfl⟩⟩
          have hκ := h.unlocked hn
          subst hκ
          rfl
      | issue ctx n k =>
          cases r with
          | error f => exact h
          | ok c =>
              simp only [Know.after]
              split
              · rename_i hn
                exact .of_leased hn rfl rfl
              · exact h
      | now =>
          simp only [Know.after]
          split
          · rename_i hs
            have hlease : κ.lease ≠ false := fun hf => by simp [(h.unleased hf).2.2.2.1] at hs
            have hlock : κ.lock ≠ none := fun hn => by simp [h.unlocked hn] at hs
            exact .of_locked hlock rfl fun hf => absurd hf hlease
          · exact h
      | _ => exact h

theorem know_sound (cfg : Settings) (h : History) : (know cfg h).Sound := by
  induction h with
  | nil => exact ⟨fun _ => rfl, fun _ => ⟨rfl, rfl, rfl, rfl, rfl, rfl, rfl⟩⟩
  | cons e h ih => exact ih.after cfg e

/-! ## Calls that leave knowledge alone -/

/-- The locks, the held chain and the order are as before. -/
structure Know.Frame (κ κ' : Know) : Prop where
  lock : κ'.lock = κ.lock
  lease : κ'.lease = κ.lease
  held : κ'.held = κ.held
  order : κ'.order = κ.order
  key : κ.key = true → κ'.key = true

/-- Knowledge after calls that neither lock, lease, order, hold nor write a chain. -/
structure Know.Grows (κ κ' : Know) : Prop extends Know.Frame κ κ' where
  chain : ∀ x, κ.chain = some x → κ'.chain = some x
  spoiled : κ'.spoiled = κ.spoiled

/-- Knowledge after calls that concern neither chains nor what is served. -/
structure Know.Steady (κ κ' : Know) : Prop extends Know.Frame κ κ' where
  chain : κ'.chain = κ.chain
  spoiled : κ'.spoiled = κ.spoiled
  read : κ'.read = κ.read
  served : κ'.served = κ.served
  seen : κ'.seen = κ.seen
  gone : κ.gone = true → κ'.gone = true
  due : κ.due = true → κ'.due = true

namespace Know

theorem Frame.refl (κ : Know) : κ.Frame κ :=
  ⟨rfl, rfl, rfl, rfl, id⟩

theorem Frame.trans {κ₁ κ₂ κ₃ : Know} (h : κ₁.Frame κ₂) (h' : κ₂.Frame κ₃) : κ₁.Frame κ₃ where
  lock := h'.lock.trans h.lock
  lease := h'.lease.trans h.lease
  held := h'.held.trans h.held
  order := h'.order.trans h.order
  key hk := h'.key (h.key hk)

theorem Grows.refl (κ : Know) : κ.Grows κ :=
  ⟨.refl κ, fun _ h => h, rfl⟩

theorem Grows.trans {κ₁ κ₂ κ₃ : Know} (h : κ₁.Grows κ₂) (h' : κ₂.Grows κ₃) : κ₁.Grows κ₃ :=
  ⟨h.toFrame.trans h'.toFrame, fun x hx => h'.chain x (h.chain x hx), h'.spoiled.trans h.spoiled⟩

theorem Steady.refl (κ : Know) : κ.Steady κ :=
  ⟨.refl κ, rfl, rfl, rfl, rfl, rfl, id, id⟩

theorem Steady.trans {κ₁ κ₂ κ₃ : Know} (h : κ₁.Steady κ₂) (h' : κ₂.Steady κ₃) : κ₁.Steady κ₃ where
  toFrame := h.toFrame.trans h'.toFrame
  chain := h'.chain.trans h.chain
  spoiled := h'.spoiled.trans h.spoiled
  read := h'.read.trans h.read
  served := h'.served.trans h.served
  seen := h'.seen.trans h.seen
  gone hg := h'.gone (h.gone hg)
  due hd := h'.due (h.due hd)

theorem Steady.grows {κ κ' : Know} (h : κ.Steady κ') : κ.Grows κ' :=
  ⟨h.toFrame, fun _ hx => h.chain.trans hx, h.spoiled⟩

theorem Frame.leased {κ κ' : Know} (h : κ.Frame κ') {n : Name} (hn : κ.Leased n) : κ'.Leased n :=
  ⟨h.lock.trans hn.1, h.lease.trans hn.2⟩

theorem Frame.inHand {κ κ' : Know} (h : κ.Frame κ') {c : ChainPEM} (hc : κ.InHand c) :
    κ'.InHand c := by
  rcases hc with ho | ⟨ho, p, hp, rfl⟩
  · exact Or.inl (h.order.trans ho)
  · exact Or.inr ⟨h.order.trans ho, p, h.held.trans hp, rfl⟩

theorem Steady.judged {κ κ' : Know} (h : κ.Steady κ') (hj : κ.Judged) : κ'.Judged := by
  obtain ⟨x, hc, hr, hx⟩ := hj
  refine ⟨x, h.chain.trans hc, h.read.trans hr, ?_⟩
  rcases hx with rfl | hg | ⟨cert, rfl, hs, hseen⟩
  · exact Or.inl rfl
  · exact Or.inr (Or.inl (h.gone hg))
  · refine Or.inr (Or.inr ⟨cert, rfl, h.served.trans hs, ?_⟩)
    rcases hseen with hnone | ⟨⟨m, hm⟩, hdue⟩
    · exact Or.inl (h.seen.trans hnone)
    · exact Or.inr ⟨⟨m, h.seen.trans hm⟩, h.due hdue⟩

theorem readKey_steady (κ : Know) (n : Name) (r : Except ReadFault KeyPEM) :
    κ.Steady (if κ.lock = some n then κ.readKey r else κ) := by
  split
  · rcases r with (_ | _) | _
    · exact ⟨⟨rfl, rfl, rfl, rfl, id⟩, rfl, rfl, rfl, rfl, rfl, fun h => by simp [readKey, h], id⟩
    · exact .refl κ
    · exact ⟨⟨rfl, rfl, rfl, rfl, fun _ => rfl⟩, rfl, rfl, rfl, rfl, rfl, id, id⟩
  · exact .refl κ

theorem now_steady (cfg : Settings) (κ : Know) (t : Time) :
    κ.Steady (κ.after cfg ⟨.env .now, t⟩) := by
  simp only [after]
  split
  · exact ⟨⟨rfl, rfl, rfl, rfl, id⟩, rfl, rfl, rfl, rfl, rfl, id, fun h => by simp [h]⟩
  · exact .refl κ

theorem after_steady (cfg : Settings) (κ : Know) {e : Event} (he : e.op.Aside) :
    κ.Steady (κ.after cfg e) := by
  obtain ⟨o, r⟩ := e
  cases o with
  | storage ctx o =>
      cases o with
      | getKey slot =>
          cases slot with
          | live n => exact κ.readKey_steady n r
          | _ => exact .refl κ
      | getChain n => cases he
      | putChain n c => cases he
      | _ => exact .refl κ
  | mem o => cases o <;> first | exact .refl κ | cases he
  | env o =>
      cases o with
      | now => exact κ.now_steady cfg r
      | acquireLease _ _ | releaseLease _ | issue _ _ _ => cases he
      | _ => exact .refl κ

theorem after_grows (cfg : Settings) (κ : Know) {e : Event} (he : e.op.Light) :
    κ.Grows (κ.after cfg e) := by
  obtain ⟨o, r⟩ := e
  cases o with
  | storage ctx o =>
      cases o with
      | getKey slot =>
          cases slot with
          | live n => exact (κ.readKey_steady n r).grows
          | _ => exact .refl κ
      | getChain n =>
          simp only [after]
          split
          · cases hc : κ.chain with
            | some x => simpa [readChain, hc] using Grows.refl κ
            | none =>
                rcases r with (_ | _) | _ <;> simp only [readChain, hc]
                · exact ⟨⟨rfl, rfl, rfl, rfl, id⟩, by simp [hc], rfl⟩
                · exact .refl κ
                · exact ⟨⟨rfl, rfl, rfl, rfl, id⟩, by simp [hc], rfl⟩
          · exact .refl κ
      | putChain n c => cases he
      | _ => exact .refl κ
  | mem o =>
      cases o with
      | memSet n cert | memGet n =>
          simp only [after]
          split
          · exact ⟨⟨rfl, rfl, rfl, rfl, id⟩, fun _ h => h, rfl⟩
          · exact .refl κ
      | lock _ | tryLock _ | unlock _ | pendingGet _ | pendingSet _ _ | pendingDelete _ => cases he
      | pendingSnapshot => cases he
      | _ => exact .refl κ
  | env o =>
      cases o with
      | now => exact (κ.now_steady cfg r).grows
      | acquireLease _ _ | releaseLease _ | issue _ _ _ => cases he
      | _ => exact .refl κ

/-- Knowledge after a call on the held chains: only `held` can change. -/
structure Holding (κ κ' : Know) : Prop where
  lock : κ'.lock = κ.lock
  lease : κ'.lease = κ.lease
  order : κ'.order = κ.order
  spoiled : κ'.spoiled = κ.spoiled
  chain : κ'.chain = κ.chain
  key : κ'.key = κ.key

theorem after_holding (cfg : Settings) (κ : Know) {o : MemOp} (r : o.Res)
    (ho : ∃ n, o = .pendingGet n ∨ o = .pendingDelete n ∨ ∃ p, o = .pendingSet n p) :
    κ.Holding (κ.after cfg ⟨.mem o, r⟩) := by
  obtain ⟨n, rfl | rfl | ⟨p, rfl⟩⟩ := ho <;>
  · simp only [after]
    split <;> exact ⟨rfl, rfl, rfl, rfl, rfl, rfl⟩

theorem Holding.leased {κ κ' : Know} (h : κ.Holding κ') {n : Name} (hn : κ.Leased n) :
    κ'.Leased n :=
  ⟨h.lock.trans hn.1, h.lease.trans hn.2⟩

end Know

theorem know_append_steady (cfg : Settings) (h l : History) (hl : ∀ e ∈ l, e.op.Aside) :
    (know cfg h).Steady (know cfg (l ++ h)) := by
  induction l with
  | nil => exact .refl _
  | cons e l ih =>
      refine (ih fun e' he' => hl e' (List.mem_cons_of_mem e he')).trans ?_
      exact Know.after_steady cfg _ (hl e List.mem_cons_self)

theorem know_append_grows (cfg : Settings) (h l : History) (hl : ∀ e ∈ l, e.op.Light) :
    (know cfg h).Grows (know cfg (l ++ h)) := by
  induction l with
  | nil => exact .refl _
  | cons e l ih =>
      refine (ih fun e' he' => hl e' (List.mem_cons_of_mem e he')).trans ?_
      exact Know.after_grows cfg _ (hl e List.mem_cons_self)

/-- The calls that take or give up a lock or a lease. -/
def Op.Guarding : Op → Prop
  | .mem (.lock _) => True
  | .mem (.tryLock _) => True
  | .mem (.unlock _) => True
  | .env (.acquireLease _ _) => True
  | .env (.releaseLease _) => True
  | _ => False

/-- No other call changes which lock and lease are known to be held. -/
theorem Know.after_guard (cfg : Settings) (κ : Know) {e : Event} (he : ¬e.op.Guarding) :
    (κ.after cfg e).lock = κ.lock ∧ (κ.after cfg e).lease = κ.lease := by
  by_cases hlight : e.op.Light
  · exact ⟨(κ.after_grows cfg hlight).lock, (κ.after_grows cfg hlight).lease⟩
  · obtain ⟨o, r⟩ := e
    cases o with
    | storage ctx o =>
        cases o with
        | putChain m c =>
            simp only [Know.after]
            split
            · rcases r with _ | _ <;> exact ⟨rfl, rfl⟩
            · exact ⟨rfl, rfl⟩
        | removeKey slot => exact ⟨rfl, rfl⟩
        | _ => exact absurd trivial hlight
    | mem o =>
        cases o with
        | lock m | tryLock m | unlock m => exact absurd trivial he
        | pendingGet m | pendingSet m p | pendingDelete m =>
            simp only [Know.after]
            split <;> exact ⟨rfl, rfl⟩
        | pendingSnapshot | retriesAllow m | retriesRecordFailure m | retriesBlock m t
        | retriesReset m => exact ⟨rfl, rfl⟩
        | _ => exact absurd trivial hlight
    | env o =>
        cases o with
        | acquireLease ctx m | releaseLease m => exact absurd trivial he
        | issue ctx m k =>
            cases r with
            | error f => exact ⟨rfl, rfl⟩
            | ok c =>
                simp only [Know.after]
                split <;> exact ⟨rfl, rfl⟩
        | _ => exact absurd trivial hlight

/-- Only a granted lease makes a holder. -/
theorem leased_after {cfg : Settings} {κ : Know} {e : Event} {n : Name}
    (hn : (κ.after cfg e).Leased n) :
    κ.Leased n ∨ ∃ ctx, e = ⟨.env (.acquireLease ctx n), true⟩ := by
  by_cases hguard : e.op.Guarding
  · obtain ⟨o, r⟩ := e
    cases o with
    | storage ctx o => exact hguard.elim
    | mem o =>
        cases o with
        | lock m | unlock m => simp [Know.after, Know.Leased] at hn
        | tryLock m =>
            simp only [Know.after] at hn
            split at hn
            · simp [Know.Leased] at hn
            · exact Or.inl hn
        | _ => exact hguard.elim
    | env o =>
        cases o with
        | acquireLease ctx m =>
            simp only [Know.after] at hn
            split at hn
            · rename_i hgot
              obtain rfl : m = n := Option.some.inj (hgot.2.symm.trans hn.1)
              exact Or.inr ⟨ctx, by rw [hgot.1]⟩
            · exact Or.inl hn
        | releaseLease m => simp [Know.after, Know.Leased] at hn
        | _ => exact hguard.elim
  · obtain ⟨hlock, hlease⟩ := κ.after_guard cfg hguard
    exact Or.inl ⟨hlock.symm.trans hn.1, hlease.symm.trans hn.2⟩

/-- A lease is held until it is given back. -/
theorem leased_until {cfg : Settings} {q : Call} {h : History} {e : Event} {n : Name}
    (hn : (know cfg h).Leased n) (hmay : mayKeep cfg q h e.op) :
    ((know cfg h).after cfg e).Leased n ∨ e.op = .env (.releaseLease n) := by
  by_cases hguard : e.op.Guarding
  · obtain ⟨o, r⟩ := e
    cases o with
    | storage ctx o => exact hguard.elim
    | mem o =>
        cases o with
        | lock m | tryLock m => exact absurd hn.1 (by simp [show _ = none from hmay])
        | unlock m => exact absurd hn.2 (by simp [hmay.2])
        | _ => exact hguard.elim
    | env o =>
        cases o with
        | acquireLease ctx m => exact absurd hn.2 (by simp [hmay.2])
        | releaseLease m =>
            obtain rfl : m = n := Option.some.inj (hmay.1.1.symm.trans hn.1)
            exact Or.inr rfl
        | _ => exact hguard.elim
  · obtain ⟨hlock, hlease⟩ := (know cfg h).after_guard cfg hguard
    exact Or.inl ⟨hlock.trans hn.1, hlease.trans hn.2⟩

/-- And so is the order that was placed under it in hand. -/
theorem order_until {cfg : Settings} {q : Call} {h : History} {e : Event} {n : Name} {c : ChainPEM}
    (hn : (know cfg h).Leased n) (hc : (know cfg h).order = some c)
    (hmay : mayKeep cfg q h e.op) :
    ((know cfg h).after cfg e).order = some c ∨ e.op = .env (.releaseLease n) := by
  by_cases hlight : e.op.Light
  · exact Or.inl (((know cfg h).after_grows cfg hlight).order.trans hc)
  · obtain ⟨o, r⟩ := e
    cases o with
    | storage ctx o =>
        cases o with
        | putChain m c' =>
            simp only [Know.after]
            split
            · rcases r with _ | _ <;> exact Or.inl hc
            · exact Or.inl hc
        | removeKey slot => exact Or.inl hc
        | _ => exact absurd trivial hlight
    | mem o =>
        cases o with
        | lock m | tryLock m => exact absurd hn.1 (by simp [show _ = none from hmay])
        | unlock m => exact absurd hn.2 (by simp [hmay.2])
        | pendingGet m | pendingSet m p | pendingDelete m =>
            simp only [Know.after]
            split <;> exact Or.inl hc
        | pendingSnapshot | retriesAllow m | retriesRecordFailure m | retriesBlock m t
        | retriesReset m => exact Or.inl hc
        | _ => exact absurd trivial hlight
    | env o =>
        cases o with
        | acquireLease ctx m => exact absurd hn.2 (by simp [hmay.2])
        | releaseLease m =>
            obtain rfl : m = n := Option.some.inj (hmay.1.1.symm.trans hn.1)
            exact Or.inr rfl
        | issue ctx m k => exact absurd (hmay.2.1.symm.trans hc) (by simp)
        | _ => exact absurd trivial hlight

/-- Only an order under the lease puts a chain in hand. -/
theorem order_after {cfg : Settings} {κ : Know} {e : Event} {c : ChainPEM}
    (hc : (κ.after cfg e).order = some c) :
    κ.order = some c ∨ ∃ ctx n k, e = ⟨.env (.issue ctx n k), .ok c⟩ ∧ κ.Leased n := by
  by_cases hlight : e.op.Light
  · exact Or.inl ((κ.after_grows cfg hlight).order.symm.trans hc)
  · obtain ⟨o, r⟩ := e
    cases o with
    | storage ctx o =>
        cases o with
        | putChain m c =>
            simp only [Know.after] at hc
            split at hc
            · rcases r with _ | _ <;> exact Or.inl hc
            · exact Or.inl hc
        | removeKey slot => exact Or.inl hc
        | _ => exact absurd trivial hlight
    | mem o =>
        cases o with
        | lock m | unlock m => simp [Know.after] at hc
        | tryLock m =>
            simp only [Know.after] at hc
            split at hc
            · simp at hc
            · exact Or.inl hc
        | pendingGet m | pendingSet m p | pendingDelete m =>
            simp only [Know.after] at hc
            split at hc <;> exact Or.inl hc
        | pendingSnapshot | retriesAllow m | retriesRecordFailure m | retriesBlock m t
        | retriesReset m => exact Or.inl hc
        | _ => exact absurd trivial hlight
    | env o =>
        cases o with
        | acquireLease ctx m =>
            simp only [Know.after] at hc
            split at hc <;> exact Or.inl hc
        | releaseLease m => simp [Know.after] at hc
        | issue ctx m k =>
            cases r with
            | error f => exact Or.inl hc
            | ok c' =>
                simp only [Know.after] at hc
                split at hc
                · rename_i hm
                  obtain rfl : c' = c := Option.some.inj hc
                  exact Or.inr ⟨ctx, m, k, rfl, hm⟩
                · exact Or.inl hc
        | _ => exact absurd trivial hlight

/-! ## The read under the lease -/

/-- How storage answers a read of the chain that is `x`. -/
def readAnswer : Option ChainPEM → Except ReadFault ChainPEM
  | some c => .ok c
  | none => .error .notExist

/-- The stored chain of `n` was read, and found to be `x`, while the lease now held was held. -/
def ReadUnderLease (cfg : Settings) (h : History) (n : Name) (x : Option ChainPEM) : Prop :=
  ∃ (since : History) (ctx : Time) (before : History),
    h = since ++ ⟨.storage ctx (.getChain n), readAnswer x⟩ :: before ∧
      (know cfg before).Leased n ∧ ∀ e ∈ since, ∀ m, e.op ≠ .env (.releaseLease m)

theorem ReadUnderLease.cons {cfg : Settings} {h : History} {n : Name} {x : Option ChainPEM}
    (hx : ReadUnderLease cfg h n x) {e : Event} (he : ∀ m, e.op ≠ .env (.releaseLease m)) :
    ReadUnderLease cfg (e :: h) n x := by
  obtain ⟨since, ctx, before, rfl, hn, hs⟩ := hx
  refine ⟨e :: since, ctx, before, rfl, hn, ?_⟩
  intro e' he'
  rcases List.mem_cons.1 he' with rfl | he'
  · exact he
  · exact hs e' he'

/-- A call other than a read of the chain leaves `read` alone, or forgets it. -/
theorem read_after {cfg : Settings} {κ : Know} {e : Event} {x : Option ChainPEM}
    (hx : (κ.after cfg e).read = some x) :
    (κ.read = some x ∧ ∀ m, e.op ≠ .env (.releaseLease m)) ∨
      ∃ ctx n, e = ⟨.storage ctx (.getChain n), readAnswer x⟩ ∧ κ.Leased n := by
  obtain ⟨o, r⟩ := e
  cases o with
  | storage ctx o =>
      cases o with
      | getKey slot =>
          cases slot with
          | live n => exact Or.inl ⟨(κ.readKey_steady n r).read.symm.trans hx, by simp⟩
          | _ => exact Or.inl ⟨hx, by simp⟩
      | getChain n =>
          simp only [Know.after] at hx
          split at hx
          · rename_i hn
            cases hc : κ.chain with
            | some y => exact Or.inl ⟨by simpa [Know.readChain, hc] using hx, by simp⟩
            | none =>
                rcases r with (_ | _) | c <;> simp only [Know.readChain, hc] at hx
                · cases hx
                  exact Or.inr ⟨ctx, n, rfl, hn⟩
                · exact Or.inl ⟨hx, by simp⟩
                · cases hx
                  exact Or.inr ⟨ctx, n, rfl, hn⟩
          · exact Or.inl ⟨hx, by simp⟩
      | putChain n c =>
          simp only [Know.after] at hx
          split at hx
          · rcases r with _ | _ <;> exact Or.inl ⟨hx, by simp⟩
          · exact Or.inl ⟨hx, by simp⟩
      | _ => exact Or.inl ⟨hx, by simp⟩
  | mem o =>
      cases o with
      | lock n | unlock n => simp [Know.after] at hx
      | tryLock n =>
          simp only [Know.after] at hx
          split at hx
          · simp at hx
          · exact Or.inl ⟨hx, by simp⟩
      | pendingGet n | pendingSet n p | pendingDelete n | memSet n cert | memGet n =>
          simp only [Know.after] at hx
          split at hx <;> exact Or.inl ⟨hx, by simp⟩
      | _ => exact Or.inl ⟨hx, by simp⟩
  | env o =>
      cases o with
      | releaseLease n => simp [Know.after] at hx
      | acquireLease ctx n =>
          simp only [Know.after] at hx
          split at hx <;> exact Or.inl ⟨hx, by simp⟩
      | issue ctx n k =>
          cases r with
          | error f => exact Or.inl ⟨hx, by simp⟩
          | ok c =>
              simp only [Know.after] at hx
              split at hx <;> exact Or.inl ⟨hx, by simp⟩
      | now => exact Or.inl ⟨(κ.now_steady cfg r).read.symm.trans hx, by simp⟩
      | _ => exact Or.inl ⟨hx, by simp⟩

theorem readUnderLease_of_read {cfg : Settings} {h : History} {n : Name} {x : Option ChainPEM}
    (hn : (know cfg h).Leased n) (hx : (know cfg h).read = some x) : ReadUnderLease cfg h n x := by
  induction h with
  | nil => simp at hx
  | cons e h ih =>
      rw [know_cons] at hn hx
      rcases read_after hx with ⟨hx', he⟩ | ⟨ctx, m, rfl, hm⟩
      · -- a lease granted just now has no read behind it
        have hlease : (know cfg h).lease ≠ false := fun hf => by
          simp [((know_sound cfg h).unleased hf).2.2.2.2.2.1] at hx'
        rcases leased_after hn with hn' | ⟨ctx, rfl⟩
        · exact (ih hn' hx').cons he
        · have hlock : (know cfg h).lock = some n := by
            by_contra hne
            rw [Know.after, if_neg (by simp [hne])] at hn
            exact hne hn.1
          exact (ih ⟨hlock, by simpa using hlease⟩ hx').cons he
      · have hg := (know cfg h).after_grows cfg (e := ⟨.storage ctx (.getChain m), readAnswer x⟩) trivial
        obtain rfl : m = n := Option.some.inj (hm.1.symm.trans (hg.lock.symm.trans hn.1))
        exact ⟨[], ctx, h, rfl, hm, by simp⟩

section Keeps

variable {cfg : Settings} {q : Call} {h : History}

theorem Op.Lookup.keep {o : Op} (ho : o.Lookup) : mayKeep cfg q h o := by
  cases o with
  | storage ctx o =>
      cases o with
      | putKey slot k createOnly =>
          obtain ⟨rfl, rfl⟩ : slot = .account ∧ createOnly = true := ho
          trivial
      | _ => trivial
  | mem o => cases o <;> trivial
  | env o => cases o <;> trivial

theorem Op.Lookup.not_guarding {o : Op} (ho : o.Lookup) : ¬o.Guarding := by
  intro hg
  cases o with
  | storage ctx o => exact hg
  | mem o => cases o <;> first | exact hg | exact ho
  | env o => cases o <;> first | exact hg | exact ho

theorem aside_keeps {α : Type} {p : M α} (hp : p.Calls Op.Aside) :
    p.Conforms (mayKeep cfg q) h fun h' _ => (know cfg h).Steady (know cfg h') := by
  refine (hp.conforms fun _ _ ho => ho.lookup.keep).mono ?_
  rintro _ _ ⟨l, rfl, hl⟩
  exact know_append_steady cfg h l hl

theorem quiet_keeps {α : Type} {p : M α} (hp : p.Calls Op.Quiet) :
    p.Conforms (mayKeep cfg q) h fun h' _ => (know cfg h).Steady (know cfg h') :=
  aside_keeps (aside_of_quiet hp)

theorem confirmed_keeps (n : Name) (cert : Certificate) :
    (CertCache.confirmed cfg n cert).Conforms (mayKeep cfg q) h fun h' _ =>
      (know cfg h).Steady (know cfg h') :=
  confirmed_conforms (I := fun h' => (know cfg h).Steady (know cfg h'))
    (fun _ hs => ⟨trivial, hs⟩) (fun _ _ hs => ⟨trivial, hs⟩) (.refl _)

/-- Only an activation is asked what it promotes over. -/
theorem light_keeps {α : Type} {p : M α} (hq : ∀ n force, q ≠ .activateCertificateKey n force)
    (hp : p.Calls Op.Light) :
    p.Conforms (mayKeep cfg q) h fun h' _ => (know cfg h).Grows (know cfg h') := by
  refine (hp.conforms fun h o ho => ?_).mono ?_
  · cases o with
    | storage ctx o =>
        cases o with
        | putKey slot k createOnly =>
            cases slot with
            | live n =>
                cases createOnly with
                | true => trivial
                | false => exact fun ⟨force, hf⟩ => absurd hf (hq n force)
            | _ => trivial
        | removeKey slot => cases slot <;> trivial
        | _ => trivial
    | mem o => cases o <;> trivial
    | env o => cases o <;> trivial
  · rintro _ _ ⟨l, rfl, hl⟩
    exact know_append_grows cfg h l hl

end Keeps

end CertsManager
