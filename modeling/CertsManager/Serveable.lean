import CertsManager.Custody

/-!
# Serveable — the stored chain and the keys that can serve it

A chain is worth something while the key it is bound to is stored, as the live key or as the staged
one.  A ceremony changes the live key: until then everything an operation may store is bound to the
live or the staged key, from then on everything must be bound to the new live key alone.

What is stored, held or in an operation's hands at the moment of the switch decides whether that is
so.  An activation sees to the stored chain, which it wrote under the lease it holds; nobody sees to
a renewal that has loaded the outgoing key and not stored its chain yet, to a held chain bound to
it, or to the chain reconciliation looked at before it promoted.  `CleanPromotion` is the condition
that the switch meets none of these.
-/

namespace CertsManager

open Interleave

/-! ## Chains that a stored key can serve -/

/-- The key object holds the key the chain is bound to. -/
def ChainPEM.ServedBy (c : ChainPEM) : Option KeyPEM → Prop
  | some (.key k) => Bound (· = k.public) c
  | _ => False

instance (c : ChainPEM) : (x : Option KeyPEM) → Decidable (c.ServedBy x)
  | some (.key k) => inferInstanceAs (Decidable (Bound (· = k.public) c))
  | some .garbage => isFalse id
  | none => isFalse id

section

variable {N T : Type}

/-- The stored chain, if any, is bound to the live or the staged key. -/
def Serveable (d : Name) (w : World N T) : Prop :=
  ∀ c ∈ w.storage.chain d,
    c.ServedBy (w.storage.key (.live d)) ∨ c.ServedBy (w.storage.key (.next d))

instance (d : Name) (w : World N T) : Decidable (Serveable d w) :=
  inferInstanceAs (Decidable (∀ c ∈ w.storage.chain d, _))

/-- The key in the live slot, if there is one and it parses. -/
def World.liveKey (w : World N T) (d : Name) : Option Key :=
  match w.storage.key (.live d) with
  | some (.key k) => some k
  | _ => none

/-- `p` is the public half of the staged key. -/
def NextIs (w : World N T) (d : Name) (p : PublicKey) : Prop :=
  ∃ k, w.storage.key (.next d) = some (.key k) ∧ k.public = p

/-- The live key is `k`, the stored chain is bound to it, and held ones to it or the staged key. -/
structure Aligned (w : World N T) (d : Name) (k : Key) : Prop where
  live : w.storage.key (.live d) = some (.key k)
  chain : ∀ c, w.storage.chain d = some c → Bound (· = k.public) c
  pending : ∀ i p, (w.node i).pending.lookup d = some p →
    Bound (fun p => p = k.public ∨ NextIs w d p) p.chainPEM

/-! ## What an operation was handed -/

def ChainPEM.leafKey : ChainPEM → Option PublicKey
  | .chain leaf => some leaf.pub
  | .garbage => none

/-- The keys of `d` an operation has read from the live slot, or found held chains bound to. -/
def handed (d : Name) (h : History) : List PublicKey :=
  h.flatMap fun
    | ⟨.storage _ (.getKey slot), .ok (.key k)⟩ => if slot = .live d then [k.public] else []
    | ⟨.mem .pendingSnapshot, r⟩ =>
        r.filterMap fun e => if e.1 = d then e.2.chainPEM.leafKey else none
    | _ => []

/-- Only what was handed over needs to satisfy the new condition. -/
theorem GoodHistory.restrict {d : Name} {G G' : PublicKey → Prop} {h : History}
    (hh : GoodHistory false d G h) (hG : ∀ p ∈ handed d h, G p → G' p) :
    GoodHistory false d G' h := by
  intro e he
  have hgood := hh e he
  obtain ⟨o, r⟩ := e
  cases o with
  | storage ctx o =>
      cases o with
      | getKey slot =>
          rintro rfl k rfl
          refine hG _ (List.mem_flatMap.2 ⟨_, he, ?_⟩) (hgood rfl k rfl)
          simp [sourceSlot]
      | _ => trivial
  | mem o =>
      cases o with
      | pendingSnapshot =>
          intro p hp
          have hbound := hgood p hp
          cases hc : p.chainPEM with
          | garbage => simp [hc, Bound] at hbound
          | chain leaf =>
              rw [hc, bound_chain] at hbound
              refine hG _ (List.mem_flatMap.2 ⟨_, he, ?_⟩) hbound
              exact List.mem_filterMap.2 ⟨(d, p), hp, by simp [hc, ChainPEM.leafKey]⟩
      | _ => trivial
  | env o =>
      cases o with
      | issue ctx n k => exact hgood
      | _ => trivial

/-! ## Promotions -/

/-- The thread and the key of an overwrite of the live key of `d`. -/
def promotion (d : Name) : ClusterLabel T → Option (T × Key)
  | .did t ⟨.storage _ (.putKey (.live n) k false), _⟩ => if n = d then some (t, k) else none
  | _ => none

/-- The stored chain is bound to `k'`, unless the promotion is an activation's of `d`. -/
def ChainReady (d : Name) (k' : Key) (q : Call) (w : World N T) : Prop :=
  (∀ force, q ≠ .activateCertificateKey d force) →
    ∀ c ∈ w.storage.chain d, Bound (· = k'.public) c

/-- No operation outside a ceremony has been handed `k`. -/
def NobodyHanded (d : Name) (k : Key) (v : ClusterView N T) : Prop :=
  ∀ u, ∀ x ∈ v.task u, x.1.source = some false → k.public ∉ handed d x.2

/-- No node holds a chain bound to `k`. -/
def NothingHeld (d : Name) (k : Key) (w : World N T) : Prop :=
  ∀ i, ∀ p ∈ (w.node i).pending.lookup d, ¬Bound (· = k.public) p.chainPEM

/-- When the live key of `d` changes from `k`, the stored chain is bound to the new key, and nobody
is about to store one bound to `k`. -/
def CleanPromotion (d : Name) (v : ClusterView N T) (l : ClusterLabel T) (v' : ClusterView N T) :
    Prop :=
  ∀ g ∈ promotion d l, ∀ k ∈ v.shared.liveKey d, v'.shared.liveKey d ≠ some k →
    (∀ x ∈ v.task g.1, ChainReady d g.2 x.1 v.shared) ∧ NobodyHanded d k v ∧
      NothingHeld d k v.shared

instance (d : Name) (k' : Key) (q : Call) (w : World N T) : Decidable (ChainReady d k' q w) :=
  inferInstanceAs (Decidable ((∀ force, q ≠ .activateCertificateKey d force) → _))

instance [Fintype T] (d : Name) (k : Key) (v : ClusterView N T) :
    Decidable (NobodyHanded d k v) :=
  inferInstanceAs (Decidable (∀ u, ∀ x ∈ v.task u, x.1.source = some false → _))

instance [Fintype N] (d : Name) (k : Key) (w : World N T) : Decidable (NothingHeld d k w) :=
  inferInstanceAs (Decidable (∀ i, ∀ p ∈ (w.node i).pending.lookup d, _))

instance [Fintype N] [Fintype T] (d : Name) (v : ClusterView N T) (l : ClusterLabel T)
    (v' : ClusterView N T) : Decidable (CleanPromotion d v l v') :=
  inferInstanceAs (Decidable (∀ g ∈ promotion d l, ∀ k ∈ v.shared.liveKey d,
    v'.shared.liveKey d ≠ some k → _ ∧ _ ∧ _))

def StartsNoReplace (d : Name) (_ : ClusterView N T) (l : ClusterLabel T) (_ : ClusterView N T) :
    Prop :=
  ∀ q ∈ started l, q ≠ .replaceCertificateKey d

instance (d : Name) (v : ClusterView N T) (l : ClusterLabel T) (v' : ClusterView N T) :
    Decidable (StartsNoReplace d v l v') :=
  inferInstanceAs (Decidable (∀ q ∈ started l, _))

/-! ## The invariant -/

/-- What is stored, held or handed for `d` is bound to a key that satisfies `G`; what a ceremony
was handed or has stored, to one that satisfies `S`. -/
structure Carried (d : Name) (G S : PublicKey → Prop) (v : ClusterView N T) : Prop where
  chain : ∀ c, v.shared.storage.chain d = some c → Bound G c
  pending : ∀ i p, (v.shared.node i).pending.lookup d = some p → Bound G p.chainPEM
  handed : ∀ t q h, v.task t = some (q, h) → q.source = some false → GoodHistory false d G h
  staged : ∀ t q h, v.task t = some (q, h) → q.source ≠ some false → GoodHistory true d S h
  stored : ∀ t q h, v.task t = some (q, h) → q.source = some true → ∀ c, PutOk h d c → Bound S c

/-- The live key has not changed: there is a staged key, or there is none. -/
structure Before (d : Name) (k : Key) (v : ClusterView N T) : Prop where
  live : v.shared.storage.key (.live d) = some (.key k)
  carried : Carried d (fun p => p = k.public ∨ NextIs v.shared d p) (NextIs v.shared d) v
  unpromoted : ∀ t q h, v.task t = some (q, h) → ¬Promoted h d

/-- The staged key has become the live one. -/
structure After (d : Name) (k : Key) (v : ClusterView N T) : Prop where
  live : v.shared.storage.key (.live d) = some (.key k)
  next : ∀ p, NextIs v.shared d p → p = k.public
  carried : Carried d (· = k.public) (· = k.public) v

structure ServeInv (cfg : Settings) (node : T → N) (d : Name) (v : ClusterView N T) : Prop where
  custody : Custody cfg node v
  alone : Alone cfg v
  requests : ∀ t q h, v.task t = some (q, h) → q ≠ .replaceCertificateKey d
  phase : ∃ k, Before d k v ∨ After d k v

theorem Carried.mono {d : Name} {G G' S S' : PublicKey → Prop} {v : ClusterView N T}
    (hv : Carried d G S v) (hG : ∀ p, G p → G' p) (hS : ∀ p, S p → S' p) : Carried d G' S' v where
  chain c hc := (hv.chain c hc).mono hG
  pending i p hp := (hv.pending i p hp).mono hG
  handed t q h ht hq := (hv.handed t q h ht hq).mono hG
  staged t q h ht hq := (hv.staged t q h ht hq).mono hS
  stored t q h ht hq c hc := (hv.stored t q h ht hq c hc).mono hS

theorem nextIs_unique {w : World N T} {d : Name} {k : Key} {p : PublicKey}
    (hk : w.storage.key (.next d) = some (.key k)) (hp : NextIs w d p) : p = k.public := by
  obtain ⟨k', hk', rfl⟩ := hp
  rw [hk] at hk'
  cases hk'
  rfl

theorem liveIs_unique {w : World N T} {d : Name} {k : Key} {p : PublicKey}
    (hk : w.storage.key (.live d) = some (.key k)) (hp : LiveIs w d p) : p = k.public := by
  obtain ⟨k', hk', rfl⟩ := hp
  rw [hk] at hk'
  cases hk'
  rfl

/-- A stored chain bound to the live or the staged key is one they can serve. -/
theorem ServeInv.serveable {cfg : Settings} {node : T → N} {d : Name} {v : ClusterView N T}
    (hI : ServeInv cfg node d v) : Serveable d v.shared := by
  intro c hc
  obtain ⟨k, hbefore | hafter⟩ := hI.phase
  · cases c with
    | garbage => exact (hbefore.carried.chain _ hc).elim
    | chain leaf =>
        rcases hbefore.carried.chain _ hc with hlive | ⟨k', hk', hnext⟩
        · left
          rw [hbefore.live]
          exact hlive
        · right
          rw [hk']
          exact hnext.symm
  · left
    rw [hafter.live]
    exact hafter.carried.chain c hc

variable [DecidableEq N] [DecidableEq T] {cfg : Settings} {node : T → N} {d : Name}
  {v : ClusterView N T}

/-! ## One call -/

section Did

variable {t : T} {q : Call} {h : History} {o : Op} {a : Answer} {r : Res o} {w' : World N T}
  {G S : PublicKey → Prop}

omit [DecidableEq N] [DecidableEq T] in
/-- A chain an operation stores or holds is from what it was handed. -/
theorem Carried.chainFrom {staged : Bool} {c : ChainPEM} (hv : Carried d G S v)
    (hSG : ∀ p, S p → G p) (ht : v.task t = some (q, h)) (hq : q.source = some staged)
    (hc : ChainFrom staged d h c) : Bound G c ∧ (q.source = some true → Bound S c) := by
  cases staged with
  | false => exact ⟨hc G (hv.handed t q h ht hq), fun htrue => by simp [hq] at htrue⟩
  | true =>
      have hS : Bound S c := hc S (hv.staged t q h ht (by simp [hq]))
      exact ⟨hS.mono hSG, fun _ => hS⟩

/-- Reconciliation and staging store no chain and hold none. -/
theorem source_of_hands (hmay : handsOn.may q h o)
    (ho : (∃ ctx m c, o = .storage ctx (.putChain m c)) ∨ ∃ m p, o = .mem (.pendingSet m p)) :
    ∃ staged, q.source = some staged := by
  rcases ho with ⟨_, _, _, rfl⟩ | ⟨_, _, rfl⟩ <;>
  · cases q with
    | reconcileCeremony n => exact hmay.1.elim
    | replaceCertificateKey n => exact hmay.1.elim
    | _ => exact ⟨_, rfl⟩

/-- A snapshot of the held chains is taken outside a ceremony only. -/
theorem source_of_snapshot (hmay : handsOn.may q h (.mem .pendingSnapshot)) :
    q.source = some false := by
  cases q with
  | reconcileCeremony n => exact hmay.1.elim
  | replaceCertificateKey n => exact hmay.1.elim
  | activateCertificateKey n force => cases hmay
  | _ => rfl

theorem carried_did (hv : Carried d G S v) (hSG : ∀ p, S p → G p) (ht : v.task t = some (q, h))
    (hmay : handsOn.may q h o) (he : exec cfg.maxRetries node v.shared t o a = some (r, w'))
    (hlive : q.source = some false → GoodEvent false d G ⟨o, r⟩)
    (hnext : q.source ≠ some false → GoodEvent true d S ⟨o, r⟩) :
    Carried d G S (v.put t w' (some (q, ⟨o, r⟩ :: h))) where
  chain c hc := by
    rcases exec_chain he d with hsame | ⟨ctx, c', rfl, hput⟩
    · exact hv.chain c (hsame ▸ hc)
    · obtain rfl : c' = c := Option.some.inj (hput.symm.trans hc)
      obtain ⟨staged, hq⟩ := source_of_hands hmay (Or.inl ⟨ctx, d, c', rfl⟩)
      exact (hv.chainFrom hSG ht hq ((handsOn_may hq h _).1 hmay)).1
  pending i p hp := by
    rcases exec_pending he i d with hsame | ⟨p', rfl, -, hset⟩ | ⟨-, -, hnone⟩
    · exact hv.pending i p (hsame ▸ hp)
    · obtain rfl : p' = p := Option.some.inj (hset.symm.trans hp)
      obtain ⟨staged, hq⟩ := source_of_hands hmay (Or.inr ⟨d, p', rfl⟩)
      exact (hv.chainFrom hSG ht hq ((handsOn_may hq h _).1 hmay)).1
    · exact absurd (hnone.symm.trans hp) (by simp)
  handed u q' h' hu hq := by
    rcases View.put_cases hu with ⟨rfl, ⟨⟩⟩ | ⟨-, hu'⟩
    · exact goodHistory_cons.2 ⟨hlive hq, hv.handed u q h ht hq⟩
    · exact hv.handed u q' h' hu' hq
  staged u q' h' hu hq := by
    rcases View.put_cases hu with ⟨rfl, ⟨⟩⟩ | ⟨-, hu'⟩
    · exact goodHistory_cons.2 ⟨hnext hq, hv.staged u q h ht hq⟩
    · exact hv.staged u q' h' hu' hq
  stored u q' h' hu hq c hc := by
    rcases View.put_cases hu with ⟨rfl, ⟨⟩⟩ | ⟨-, hu'⟩
    · obtain ⟨ctx, hmem⟩ := hc
      rcases List.mem_cons.1 hmem with heq | hmem
      · cases heq
        exact (hv.chainFrom hSG ht hq ((handsOn_may hq h _).1 hmay)).2 hq
      · exact hv.stored u q h ht hq c ⟨ctx, hmem⟩
    · exact hv.stored u q' h' hu' hq c hc

/-- A call that reads the keys and held chains of the invariant hands over what it allows. -/
theorem carried_reads (hv : Carried d G S v) (hSG : ∀ p, S p → G p) (ht : v.task t = some (q, h))
    (hmay : handsOn.may q h o) (he : exec cfg.maxRetries node v.shared t o a = some (r, w'))
    (hlive : ∀ p, LiveIs v.shared d p → G p) (hnext : ∀ p, NextIs v.shared d p → S p) :
    Carried d G S (v.put t w' (some (q, ⟨o, r⟩ :: h))) := by
  refine carried_did hv hSG ht hmay he (fun _ => ?_) (fun hq => ?_)
  · exact goodEvent_of_exec he (fun k hk => hlive _ ⟨k, hk, rfl⟩) fun _ => hv.pending _
  · refine goodEvent_of_exec he (fun k hk => hnext _ ⟨k, hk, rfl⟩) ?_
    rintro rfl
    exact absurd (source_of_snapshot hmay) hq

omit [DecidableEq T] in
/-- The staged key changes only when it is removed after a promotion. -/
theorem next_of_exec (hmay : handsOn.may q h o) (hq : q ≠ .replaceCertificateKey d)
    (he : exec cfg.maxRetries node v.shared t o a = some (r, w')) :
    w'.storage.key (.next d) = v.shared.storage.key (.next d) ∨
      (w'.storage.key (.next d) = none ∧ Promoted h d) := by
  rcases exec_key he (.next d) with hsame | ⟨ctx, k, createOnly, rfl, -⟩ | ⟨ctx, rfl, hnone⟩
  · exact Or.inl hsame
  · cases q with
    | reconcileCeremony n => exact hmay.2.elim
    | replaceCertificateKey n =>
        obtain ⟨rfl, -⟩ := hmay.2
        exact absurd rfl hq
    | _ => exact hmay.elim
  · right
    cases q with
    | reconcileCeremony n =>
        obtain ⟨m, hm, hpromoted⟩ := hmay.2
        cases hm
        exact ⟨hnone, hpromoted⟩
    | replaceCertificateKey n => exact hmay.2.elim
    | _ =>
        obtain ⟨-, m, hm, hpromoted⟩ := hmay
        cases hm
        exact ⟨hnone, hpromoted⟩

omit [DecidableEq T] in
/-- A live key that is there changes only when a ceremony overwrites it with the staged key. -/
theorem live_of_exec {k : Key} (hmay : handsOn.may q h o)
    (he : exec cfg.maxRetries node v.shared t o a = some (r, w'))
    (hk : v.shared.storage.key (.live d) = some (.key k)) :
    w'.storage.key (.live d) = some (.key k) ∨
      ∃ ctx k', o = .storage ctx (.putKey (.live d) k' false) ∧
        w'.storage.key (.live d) = some (.key k') := by
  rcases exec_key he (.live d) with hsame | ⟨ctx, k', createOnly, rfl, hput, hpre⟩ | ⟨ctx, rfl, -⟩
  · exact Or.inl (hsame.trans hk)
  · cases createOnly with
    | true => simp [hpre rfl] at hk
    | false => exact Or.inr ⟨ctx, k', rfl, hput⟩
  · cases q with
    | reconcileCeremony n =>
        obtain ⟨m, hm, -⟩ := hmay.2
        cases hm
    | replaceCertificateKey n => exact hmay.2.elim
    | _ =>
        obtain ⟨-, m, hm, -⟩ := hmay
        cases hm

/-- An overwrite is a ceremony's, with a key from the staged slot. -/
theorem keyFrom_of_promotion {ctx : Time} {k : Key}
    (hmay : handsOn.may q h (.storage ctx (.putKey (.live d) k false))) :
    q.source ≠ some false ∧ KeyFrom true d h k := by
  cases q with
  | reconcileCeremony n => exact ⟨by simp [Call.source], hmay.2.2⟩
  | replaceCertificateKey n => exact hmay.2.elim
  | activateCertificateKey n force => exact ⟨by simp [Call.source], hmay.2⟩
  | _ => cases hmay.1

theorem after_did {k : Key} (hv : After d k v) (ht : v.task t = some (q, h))
    (hmay : handsOn.may q h o) (hq : q ≠ .replaceCertificateKey d)
    (he : exec cfg.maxRetries node v.shared t o a = some (r, w')) :
    After d k (v.put t w' (some (q, ⟨o, r⟩ :: h))) := by
  refine ⟨?_, ?_, ?_⟩
  · -- a second promotion writes the same key
    rcases live_of_exec hmay he hv.live with hsame | ⟨ctx, k', rfl, hput⟩
    · exact hsame
    · obtain ⟨hsource, hfrom⟩ := keyFrom_of_promotion hmay
      have hkey : k'.public = k.public := hfrom _ (hv.carried.staged t q h ht hsource)
      rw [← Key.public_inj.1 hkey]
      exact hput
  · rintro p ⟨k', hk', rfl⟩
    rcases next_of_exec hmay hq he with hsame | ⟨hnone, -⟩
    · exact hv.next _ ⟨k', hsame.symm.trans hk', rfl⟩
    · exact absurd (hnone.symm.trans hk') (by simp)
  · refine carried_reads hv.carried (fun _ hp => hp) ht hmay he ?_ hv.next
    exact fun p hp => liveIs_unique hv.live hp

omit [DecidableEq N] [DecidableEq T] in
/-- Before the switch, what a promotion writes is the staged key. -/
theorem Before.staged_of_promotion {k k' : Key} {ctx : Time} (hv : Before d k v)
    (ht : v.task t = some (q, h))
    (hmay : handsOn.may q h (.storage ctx (.putKey (.live d) k' false))) :
    v.shared.storage.key (.next d) = some (.key k') := by
  obtain ⟨hsource, hfrom⟩ := keyFrom_of_promotion hmay
  obtain ⟨k₂, hk₂, hpub⟩ := hfrom _ (hv.carried.staged t q h ht hsource)
  rw [hk₂, Key.public_inj.1 hpub]

omit [DecidableEq N] in
/-- The switch: a clean promotion leaves nothing bound to the outgoing key. -/
theorem Before.carried_of_clean {k k' : Key} {ctx : Time} {r : Except PutFault Unit}
    (hv : Before d k v) (hcustody : Custody cfg node v) (ht : v.task t = some (q, h))
    (hkeep : mayKeep cfg q h (.storage ctx (.putKey (.live d) k' false)))
    (hnext : v.shared.storage.key (.next d) = some (.key k'))
    (hput : w'.storage.key (.live d) = some (.key k')) (hne : k' ≠ k)
    (hA : CleanPromotion d v (.did t ⟨.storage ctx (.putKey (.live d) k' false), r⟩)
      (v.put t w' (some (q, ⟨.storage ctx (.putKey (.live d) k' false), r⟩ :: h)))) :
    Carried d (· = k'.public) (· = k'.public) v := by
  obtain ⟨hchain, hhanded, hpending⟩ := hA (t, k') (by simp [promotion]) k
    (by simp [World.liveKey, hv.live]) (by simp [World.liveKey, hput, hne])
  have hstaged : ∀ p, NextIs v.shared d p → p = k'.public := fun p hp => nextIs_unique hnext hp
  refine ⟨fun c hc => ?_, fun i p hp => ?_, fun u q' h' hu hq => ?_, fun u q' h' hu hq => ?_,
    fun u q' h' hu hq c hc => ?_⟩
  · by_cases hact : ∃ force, q = .activateCertificateKey d force
    · -- an activation still holds the lease under which it stored the chain
      obtain ⟨hn, c', hc', hputOk⟩ := hkeep hact
      have hstored := (hcustody t q h ht).chain d _ hn hc'
      obtain rfl : c = c' := Option.some.inj (hc.symm.trans hstored)
      obtain ⟨force, rfl⟩ := hact
      exact (hv.carried.stored t _ h ht rfl c hputOk).mono hstaged
    · exact hchain (q, h) ht (fun force hf => hact ⟨force, hf⟩) c hc
  · have hbound := hv.carried.pending i p hp
    have hnot := hpending i p hp
    cases hc : p.chainPEM with
    | garbage => simp [hc, Bound] at hbound
    | chain leaf =>
        rw [hc, bound_chain] at hbound hnot
        exact hbound.elim (fun hk => absurd hk hnot) (hstaged _)
  · refine (hv.carried.handed u q' h' hu hq).restrict fun p hp hG => ?_
    rcases hG with rfl | hp'
    · exact absurd hp (hhanded u (q', h') hu hq)
    · exact hstaged p hp'
  · exact (hv.carried.staged u q' h' hu hq).mono hstaged
  · exact (hv.carried.stored u q' h' hu hq c hc).mono hstaged

/-- Without a promotion that went through, the phase does not change. -/
theorem before_stays {k : Key} (hv : Before d k v) (ht : v.task t = some (q, h))
    (hmay : handsOn.may q h o) (he : exec cfg.maxRetries node v.shared t o a = some (r, w'))
    (hlive : w'.storage.key (.live d) = some (.key k))
    (hnext : w'.storage.key (.next d) = v.shared.storage.key (.next d))
    (hun : ¬Promoted (⟨o, r⟩ :: h) d) : Before d k (v.put t w' (some (q, ⟨o, r⟩ :: h))) := by
  have hstaged : NextIs w' d = NextIs v.shared d := by
    funext p
    simp [NextIs, hnext]
  refine ⟨hlive, ?_, fun u q' h' hu => ?_⟩
  · rw [View.put_shared, hstaged]
    refine carried_reads hv.carried (fun _ hp => Or.inr hp) ht hmay he ?_ fun _ hp => hp
    exact fun p hp => Or.inl (liveIs_unique hv.live hp)
  · rcases View.put_cases hu with ⟨rfl, ⟨⟩⟩ | ⟨-, hu'⟩
    · exact hun
    · exact hv.unpromoted u q' h' hu'

theorem before_did {k : Key} (hv : Before d k v) (hcustody : Custody cfg node v)
    (ht : v.task t = some (q, h)) (hmay : handsOn.may q h o) (hkeep : mayKeep cfg q h o)
    (hq : q ≠ .replaceCertificateKey d)
    (he : exec cfg.maxRetries node v.shared t o a = some (r, w'))
    (hA : CleanPromotion d v (.did t ⟨o, r⟩) (v.put t w' (some (q, ⟨o, r⟩ :: h)))) :
    ∃ k', Before d k' (v.put t w' (some (q, ⟨o, r⟩ :: h))) ∨
      After d k' (v.put t w' (some (q, ⟨o, r⟩ :: h))) := by
  -- nobody has promoted, so the staged key is where it was
  have hnext : w'.storage.key (.next d) = v.shared.storage.key (.next d) := by
    rcases next_of_exec hmay hq he with hsame | ⟨-, hpromoted⟩
    · exact hsame
    · exact absurd hpromoted (hv.unpromoted t q h ht)
  -- when everything is bound to the key that is now live, the switch is complete
  have hafter : ∀ k', w'.storage.key (.live d) = some (.key k') →
      v.shared.storage.key (.next d) = some (.key k') →
      Carried d (· = k'.public) (· = k'.public) (v.put t w' (some (q, ⟨o, r⟩ :: h))) →
      After d k' (v.put t w' (some (q, ⟨o, r⟩ :: h))) := by
    intro k' hlive' hstaged hcarried
    exact ⟨hlive', fun p hp => nextIs_unique (hnext.trans hstaged) hp, hcarried⟩
  by_cases hswitch : w'.storage.key (.live d) = some (.key k)
  · by_cases hpromoted : Promoted (⟨o, r⟩ :: h) d
    · -- the staged key was the live one already
      obtain ⟨ctx, k', hmem⟩ := hpromoted
      rcases List.mem_cons.1 hmem with heq | hmem
      · cases heq
        have hput := exec_putKey_ok he
        rw [hswitch] at hput
        cases hput
        have hstaged := hv.staged_of_promotion ht hmay
        have hcarried : Carried d (· = k.public) (· = k.public) v :=
          hv.carried.mono (fun p hp => hp.elim id (nextIs_unique hstaged))
            fun p hp => nextIs_unique hstaged hp
        refine ⟨k, Or.inr (hafter k hswitch hstaged ?_)⟩
        exact carried_did hcarried (fun _ hp => hp) ht hmay he (fun _ => trivial) fun _ => trivial
      · exact absurd ⟨ctx, k', hmem⟩ (hv.unpromoted t q h ht)
    · exact ⟨k, Or.inl (before_stays hv ht hmay he hswitch hnext hpromoted)⟩
  · rcases live_of_exec hmay he hv.live with hsame | ⟨ctx, k', rfl, hput⟩
    · exact absurd hsame hswitch
    · have hstaged := hv.staged_of_promotion ht hmay
      have hne : k' ≠ k := by
        rintro rfl
        exact hswitch hput
      have hcarried := hv.carried_of_clean hcustody ht hkeep hstaged hput hne hA
      refine ⟨k', Or.inr (hafter k' hput hstaged ?_)⟩
      exact carried_did hcarried (fun _ hp => hp) ht hmay he (fun _ => trivial) fun _ => trivial

end Did

/-! ## Whole runs -/

/-- Leases exclude one another, no other key is staged, and a promotion is clean. -/
def ServeRules (cfg : Settings) (d : Name) (v : ClusterView N T) (l : ClusterLabel T)
    (v' : ClusterView N T) : Prop :=
  LeaseExclusive cfg v l v' ∧ StartsNoReplace d v l v' ∧ CleanPromotion d v l v'

instance [Fintype N] [Fintype T] (v : ClusterView N T) (l : ClusterLabel T)
    (v' : ClusterView N T) : Decidable (ServeRules cfg d v l v') :=
  inferInstanceAs (Decidable (_ ∧ _ ∧ _))

omit [DecidableEq N] in
/-- A thread that starts, ends or dies takes nothing with it and brings nothing. -/
theorem carried_put {G S : PublicKey → Prop} {t : T} {x : Option (Call × History)}
    (hv : Carried d G S v) (hx : ∀ y, x = some y → y.2 = []) :
    Carried d G S (v.put t v.shared x) := by
  have hempty : ∀ u q h, (v.put t v.shared x).task u = some (q, h) → h = [] ∨
      v.task u = some (q, h) := by
    intro u q h hu
    rcases View.put_cases hu with ⟨-, hxy⟩ | ⟨-, hu'⟩
    · exact Or.inl (hx _ hxy)
    · exact Or.inr hu'
  refine ⟨hv.chain, hv.pending, fun u q h hu hq => ?_, fun u q h hu hq => ?_,
    fun u q h hu hq c hc => ?_⟩
  · rcases hempty u q h hu with rfl | hu'
    · simp [GoodHistory]
    · exact hv.handed u q h hu' hq
  · rcases hempty u q h hu with rfl | hu'
    · simp [GoodHistory]
    · exact hv.staged u q h hu' hq
  · rcases hempty u q h hu with rfl | hu'
    · simp [PutOk] at hc
    · exact hv.stored u q h hu' hq c hc

omit [DecidableEq N] in
theorem phase_put {t : T} {x : Option (Call × History)}
    (hv : ∃ k, Before d k v ∨ After d k v) (hx : ∀ y, x = some y → y.2 = []) :
    ∃ k, Before d k (v.put t v.shared x) ∨ After d k (v.put t v.shared x) := by
  obtain ⟨k, hbefore | hafter⟩ := hv
  · refine ⟨k, Or.inl ⟨hbefore.live, carried_put hbefore.carried hx, fun u q h hu => ?_⟩⟩
    rcases View.put_cases hu with ⟨-, hxy⟩ | ⟨-, hu'⟩
    · obtain rfl : h = [] := hx _ hxy
      simp [Promoted]
    · exact hbefore.unpromoted u q h hu'
  · exact ⟨k, Or.inr ⟨hafter.live, hafter.next, carried_put hafter.carried hx⟩⟩

theorem serveInv_move {v' : ClusterView N T} {l : ClusterLabel T} (hI : ServeInv cfg node d v)
    (hmove : Move (cluster cfg node) (handsOn.and (keeps cfg)) v l v')
    (hA : ServeRules cfg d v l v') : ServeInv cfg node d v' := by
  obtain ⟨hlease, hstart, hclean⟩ := hA
  have hcustody := custody_move hI.custody hI.alone hmove.right
  have halone := alone_move hI.alone hmove.right hlease
  cases hmove with
  | @start t q ht =>
      refine ⟨hcustody, halone, fun u q' h' hu => ?_, phase_put hI.phase (by simp)⟩
      rcases View.put_cases hu with ⟨-, ⟨⟩⟩ | ⟨-, hu'⟩
      · exact hstart q rfl
      · exact hI.requests u q' h' hu'
  | @did t q h o a r w' ht hmay he =>
      replace he : exec cfg.maxRetries node v.shared t o a = some (r, w') := he
      have hq := hI.requests t q h ht
      refine ⟨hcustody, halone, fun u q' h' hu => ?_, ?_⟩
      · rcases View.put_cases hu with ⟨-, ⟨⟩⟩ | ⟨-, hu'⟩
        · exact hq
        · exact hI.requests u q' h' hu'
      · obtain ⟨k, hbefore | hafter⟩ := hI.phase
        · exact before_did hbefore hI.custody ht hmay.1 hmay.2 hq he hclean
        · exact ⟨k, Or.inr (after_did hafter ht hmay.1 hq he)⟩
  | finish _ _ | crash =>
      refine ⟨hcustody, halone, fun u q' h' hu => ?_, phase_put hI.phase (by simp)⟩
      rcases View.put_cases hu with ⟨-, ⟨⟩⟩ | ⟨-, hu'⟩
      exact hI.requests u q' h' hu'

/-- From any state where the stored chain is bound to the live key and held ones to it or the
staged key, along every schedule in which leases exclude one another and every promotion is clean:
in every state reached the stored chain is bound to the live or the staged key. -/
theorem chain_serveable (cfg : Settings) (node : T → N) (d : Name) (w : World N T) (k : Key)
    (hw : Aligned w d k) (as : List (Action T Call Answer))
    (c : Config Op Res (World N T) T Call Out)
    (hA : (cluster cfg node).Meets (ServeRules cfg d) (.idle w) as)
    (hrun : (cluster cfg node).run (.idle w) as = some c) : Serveable d c.shared := by
  have hinit : ServeInv cfg node d (Config.idle w : Config Op Res (World N T) T Call Out).view := by
    refine ⟨by simp [Custody, Config.view, Config.idle], by simp [Alone, Config.view, Config.idle],
      by simp [Config.view, Config.idle], k, Or.inl ⟨hw.live, ⟨fun c hc => ?_, hw.pending, ?_, ?_,
        ?_⟩, ?_⟩⟩
    · exact (hw.chain c hc).mono fun _ hp => Or.inl hp
    all_goals simp [Config.view, Config.idle]
  have hfollows := (cluster_handsOn cfg node).and (cluster_keeps cfg node)
  have hend := Machine.run_invariant hfollows (fun _ _ _ hI hmove hA => serveInv_move hI hmove hA)
    as _ c (Machine.onTrack_idle w) hinit hA hrun
  exact hend.1.serveable

end

/-- The domain `a` has a chain bound to its live key 0, and key 1 is staged. -/
def stagedWorld (N T : Type) : World N T :=
  { World.empty N T with
    storage := { Storage.empty with
      chain := Function.update (fun _ => none) "a" (some (.chain ⟨⟨0⟩, 10000000⟩))
      key := Function.update (Function.update (fun _ => none) (.live "a") (some (.key ⟨0⟩)))
        (.next "a") (some (.key ⟨1⟩)) }
    issued := Function.update (fun _ => []) "a" [⟨⟨0⟩, 10000000⟩]
    nextKey := 2 }

theorem stagedWorld_aligned (N T : Type) : Aligned (stagedWorld N T) "a" ⟨0⟩ := by
  refine ⟨?_, ?_, ?_⟩ <;>
    simp [stagedWorld, World.empty, NodeMemory.empty, Bound, Key.public]

/-- Node 1 activates the staged key. -/
def activation : List (Action (Fin 2) Call Answer) :=
  (.start 1 (.activateCertificateKey "a" false) ::
      List.replicate 27 (.step 1 { notAfter := 20000000 }) : Schedule 2) ++
    ([.finish 1] : Schedule 2)

/-- Node 0 begins a renewal, up to the point where it has loaded the live key. -/
def renewalBegun : List (Action (Fin 2) Call Answer) :=
  .start 0 (.renewCertificate "a") :: List.replicate 4 (.step 0 {})

/-- It takes the lease, orders and stores. -/
def renewalEnds : List (Action (Fin 2) Call Answer) :=
  List.replicate 13 (.step 0 { notAfter := 30000000 })

/-- A renewal after the activation finds the new key. -/
theorem chain_serveable_activation :
    ∃ c, (cluster (.plain ["a"]) (id : Fin 2 → Fin 2)).run (.idle (stagedWorld _ _))
      (activation ++ (renewalBegun ++ renewalEnds)) = some c ∧ Serveable "a" c.shared ∧
        c.shared.storage.chain "a" = some (.chain ⟨⟨1⟩, 30000000⟩) ∧
        c.shared.storage.key (.next "a") = none := by
  refine ⟨_, rfl, ?_, rfl, rfl⟩
  exact chain_serveable (.plain ["a"]) id "a" (stagedWorld _ _) ⟨0⟩ (stagedWorld_aligned _ _)
    (activation ++ (renewalBegun ++ renewalEnds)) _ (by decide +kernel) rfl

/-- A renewal that loaded its key before the activation stores a chain for it afterwards: the key
that is live is another, and none is staged. -/
theorem chain_unserveable :
    (cluster (.plain ["a"]) (id : Fin 2 → Fin 2)).Meets
      (fun v l v' => LeaseExclusive (.plain ["a"]) v l v' ∧ StartsNoReplace "a" v l v' ∧
        LaterOrders v l v') (.idle (stagedWorld _ _))
      (renewalBegun ++ (activation ++ renewalEnds)) ∧
    ∃ c ∈ (cluster (.plain ["a"]) (id : Fin 2 → Fin 2)).run (.idle (stagedWorld _ _))
      (renewalBegun ++ (activation ++ renewalEnds)), ¬Serveable "a" c.shared ∧
        c.shared.storage.chain "a" = some (.chain ⟨⟨0⟩, 30000000⟩) ∧
        c.shared.storage.key (.live "a") = some (.key ⟨1⟩) ∧
        c.shared.storage.key (.next "a") = none := by
  decide +kernel

end CertsManager
