import CertsManager.Soak
import CertsManager.Discipline.WriteBack

/-!
# Recovery — an activation cut off anywhere, and the reconciliation after it

An activation writes a chain, a marker and two key objects, one after another, and can be cut off
between any two of them, with the last one landed or not.  From the outside there are three phases:
nothing has happened, the chain is stored and the promotion is not, the promotion is done.
Reconciliation tells them apart by comparing keys, and finishes the second.

What it cannot mend is a marker that is running out: like an activation it takes a marker it finds
as it is.  `MarkerLasts` asks that a marker found by an operation of the ceremony outlasts that
operation's context, and `PromotesInTime` that a promotion lands within it: a filesystem write that
stalls is not called off when its context ends.
-/

namespace CertsManager

open Interleave

/-! ## What a flush writes -/

/-- A flush writes entries of its snapshot, and holds nothing. -/
def mayFlush (h : History) : Op → Prop
  | .storage _ (.putChain n c) => ∃ p, Offered h n p ∧ p.chainPEM = c
  | .mem (.pendingSet _ _) => False
  | _ => True

theorem mayFlush_of_writeBack {cfg : Settings} {h : History} {o : Op}
    (ho : mayWriteBack cfg Offered h o) : mayFlush h o := by
  cases o with
  | storage ctx o =>
      cases o with
      | putChain n c =>
          obtain ⟨p, -, hp, hc, -⟩ := ho
          exact ⟨p, hp, hc⟩
      | _ => trivial
  | mem o =>
      cases o with
      | pendingSet n p => cases ho
      | _ => trivial
  | env o => trivial

/-- Of the other calls this protocol says nothing. -/
def flushes : Protocol Op Res Call Out where
  may q h o := q = .flushHeldChains → mayFlush h o
  done _ _ _ := True

theorem cluster_flushes {N T : Type} [DecidableEq N] (cfg : Settings) (node : T → N) :
    (cluster cfg node).Follows flushes := by
  intro q
  refine ((cluster_writesBack cfg node q).weaken fun h o hmay hq => ?_).mono fun _ _ _ => trivial
  exact mayFlush_of_writeBack (hmay.1 hq)

section

variable {N T : Type}

/-! ## The phases of a ceremony -/

/-- The objects of a ceremony for `d` are the same. -/
structure SameObjects (d : Name) (w w' : World N T) : Prop where
  chain : w'.storage.chain d = w.storage.chain d
  live : w'.storage.key (.live d) = w.storage.key (.live d)
  next : w'.storage.key (.next d) = w.storage.key (.next d)
  retiring : w'.storage.retiring d = w.storage.retiring d

/-- Before the activation: the stored chain is bound to the live key `k₁`, `k₂` is staged, and no
chain is held but for `k₂`. -/
structure Begun (d : Name) (k₁ k₂ : Key) (w : World N T) : Prop where
  chain : ∃ c, w.storage.chain d = some c ∧ Bound (· = k₁.public) c
  live : w.storage.key (.live d) = some (.key k₁)
  next : w.storage.key (.next d) = some (.key k₂)
  pending : ∀ i p, (w.node i).pending.lookup d = some p → Bound (· = k₂.public) p.chainPEM

/-- The chain is stored, the promotion is not done. -/
structure Interrupted (d : Name) (k₁ k₂ : Key) (w : World N T) : Prop where
  chain : ∃ c, w.storage.chain d = some c ∧ Bound (· = k₂.public) c
  live : w.storage.key (.live d) = some (.key k₁)
  next : w.storage.key (.next d) = some (.key k₂)

/-- The promotion is done; the staged object may have been left behind. -/
structure Completed (cfg : Settings) (d : Name) (k₁ k₂ : Key) (w : World N T) : Prop where
  chain : ∃ c, w.storage.chain d = some c ∧ Bound (· = k₂.public) c
  live : w.storage.key (.live d) = some (.key k₂)
  next : w.storage.key (.next d) = some (.key k₂) ∨ w.storage.key (.next d) = none
  marked : cfg.isMX d = true →
    ∃ m ∈ markers (w.storage.retiring d), m.digest = k₁.public.spkiSHA256

inductive Phase (cfg : Settings) (d : Name) (k₁ k₂ : Key) (w₀ w : World N T) : Prop where
  | begun : SameObjects d w₀ w → Phase cfg d k₁ k₂ w₀ w
  | interrupted : Interrupted d k₁ k₂ w → Phase cfg d k₁ k₂ w₀ w
  | completed : Completed cfg d k₁ k₂ w → Phase cfg d k₁ k₂ w₀ w

/-! ## The rules of a run -/

/-- After the activation: flushes and reconciliations, one after another. -/
def RecoveryCalls (d : Name) (v : ClusterView N T) (l : ClusterLabel T) (v' : ClusterView N T) :
    Prop :=
  Sequential v l v' ∧ ∀ q ∈ started l, q = .flushHeldChains ∨ q = .reconcileCeremony d

/-- The thread that reads the clock, and what it reads. -/
def reads : ClusterLabel T → Option (T × Time)
  | .did t ⟨.env .now, x⟩ => some (t, x)
  | _ => none

/-- A marker of `k` that an operation finds in force at a clock reading under its mutex stays in
force for `issueTimeout`. -/
def MarkerLasts (d : Name) (k : Key) (_ : ClusterView N T) (l : ClusterLabel T)
    (v' : ClusterView N T) : Prop :=
  ∀ g ∈ reads l, ∀ x ∈ v'.task g.1, (marking x.2).mu = true → ∀ m ∈ (marking x.2).judged d,
    m.digest = k.public.spkiSHA256 → unix (g.2 + issueTimeout) < m.retireAfter

/-- The context of a write of the domain's live key. -/
def livePut (d : Name) : ClusterLabel T → Option Time
  | .did _ ⟨.storage ctx (.putKey (.live n) _ _), _⟩ => if n = d then some ctx else none
  | _ => none

/-- A write that changes the live key lands within its context. -/
def PromotesInTime (d : Name) (l : ClusterLabel T) (w w' : World N T) : Prop :=
  ∀ ctx ∈ livePut d l, w'.storage.key (.live d) ≠ w.storage.key (.live d) → w'.clock < ctx

/-- The promotion of an MX host's key is made while the digest of the outgoing key `k` is marked, and
its deadline has not passed. -/
def PromotesMarked (cfg : Settings) (d : Name) (k : Key) (v : ClusterView N T) (_ : ClusterLabel T)
    (v' : ClusterView N T) : Prop :=
  cfg.isMX d = true → v.shared.storage.key (.live d) = some (.key k) →
    v'.shared.storage.key (.live d) ≠ some (.key k) →
      ∃ m ∈ markers (v'.shared.storage.retiring d), m.digest = k.public.spkiSHA256 ∧
        unix v'.shared.clock < m.retireAfter

/-- A reconciliation that completes. -/
def reconciled (d : Name) : ClusterLabel T → Option T
  | .finish t (.reconcileCeremony n) _ => if n = d then some t else none
  | _ => none

/-- A reconciliation that completes with storage answering and the leadership kept leaves what was
there before the ceremony if no chain for `k₂` had reached storage, and a completed one if one had. -/
def Recovers (cfg : Settings) (d : Name) (k₁ k₂ : Key) (w₀ : World N T) (v : ClusterView N T)
    (l : ClusterLabel T) (v' : ClusterView N T) : Prop :=
  ∀ t ∈ reconciled d l, ∀ x ∈ v.task t, (∀ e ∈ x.2, refused e = false) →
    (v'.shared.storage.chain d = w₀.storage.chain d → SameObjects d w₀ v'.shared) ∧
    (v'.shared.storage.chain d ≠ w₀.storage.chain d → Completed cfg d k₁ k₂ v'.shared)

instance [Fintype T] (d : Name) (v : ClusterView N T) (l : ClusterLabel T) (v' : ClusterView N T) :
    Decidable (RecoveryCalls d v l v') :=
  inferInstanceAs (Decidable (Sequential v l v' ∧
    ∀ q ∈ started l, q = .flushHeldChains ∨ q = .reconcileCeremony d))

instance (d : Name) (k : Key) (v : ClusterView N T) (l : ClusterLabel T) (v' : ClusterView N T) :
    Decidable (MarkerLasts d k v l v') :=
  inferInstanceAs (Decidable (∀ g ∈ reads l, ∀ x ∈ v'.task g.1, (marking x.2).mu = true →
    ∀ m ∈ (marking x.2).judged d, m.digest = k.public.spkiSHA256 →
      unix (g.2 + issueTimeout) < m.retireAfter))

instance (d : Name) (l : ClusterLabel T) (w w' : World N T) : Decidable (PromotesInTime d l w w') :=
  inferInstanceAs (Decidable (∀ ctx ∈ livePut d l, _))

instance (cfg : Settings) (d : Name) (k : Key) (v : ClusterView N T) (l : ClusterLabel T)
    (v' : ClusterView N T) : Decidable (PromotesMarked cfg d k v l v') :=
  inferInstanceAs (Decidable (cfg.isMX d = true → v.shared.storage.key (.live d) = some (.key k) →
    v'.shared.storage.key (.live d) ≠ some (.key k) →
      ∃ m ∈ markers (v'.shared.storage.retiring d), m.digest = k.public.spkiSHA256 ∧
        unix v'.shared.clock < m.retireAfter))

/-! ## The invariant -/

/-- What an operation of the ceremony has read, judged by the phase that storage is in. -/
structure ReadsPhase (cfg : Settings) (d : Name) (k₁ k₂ : Key) (w₀ : World N T) (q : Call)
    (h : History) (w : World N T) : Prop where
  good : GoodHistory true d (· = k₂.public) h
  begun : SameObjects d w₀ w →
    (∀ c, ChainRead h d c → w₀.storage.chain d = some c) ∧ ∀ c, ¬PutOk h d c
  live : ∀ k, LiveRead h d k → k = k₁ ∨ Completed cfg d k₁ k₂ w
  settled : Completed cfg d k₁ k₂ w → Overwrote h d ∨ ∀ k, LiveRead h d k → k = k₂
  own : (∃ force, q = .activateCertificateKey d force) → Completed cfg d k₁ k₂ w → Overwrote h d
  promoted : Promoted h d → Completed cfg d k₁ k₂ w
  chain : q = .reconcileCeremony d → Interrupted d k₁ k₂ w →
    ∀ c, ChainRead h d c → Bound (· = k₂.public) c
  missing : q = .reconcileCeremony d → Interrupted d k₁ k₂ w →
    ∀ e ∈ h, Missing d e → refused e = true
  lasting : ∀ m ∈ (marking h).judged d, m.digest = k₁.public.spkiSHA256 →
    ∃ x ∈ readings h, unix (x + issueTimeout) < m.retireAfter

structure RecoverInv (cfg : Settings) (node : T → N) (d : Name) (k₁ k₂ : Key) (w₀ : World N T)
    (v : ClusterView N T) : Prop extends MarkerInv cfg node v where
  single : ∀ t u x y, v.task t = some x → v.task u = some y → t = u
  calls : ∀ t q h, v.task t = some (q, h) → (∃ force, q = .activateCertificateKey d force) ∨
    q = .flushHeldChains ∨ q = .reconcileCeremony d
  phase : Phase cfg d k₁ k₂ w₀ v.shared
  pending : ∀ i p, (v.shared.node i).pending.lookup d = some p → Bound (· = k₂.public) p.chainPEM
  tasks : ∀ t q h, v.task t = some (q, h) → ReadsPhase cfg d k₁ k₂ w₀ q h v.shared

/-! ## One call -/

variable {cfg : Settings} {node : T → N} {d : Name} {k₁ k₂ : Key} {w₀ : World N T}
  {v : ClusterView N T}

theorem SameObjects.not_bound {w : World N T} {c : ChainPEM} (hw₀ : Begun d k₁ k₂ w₀)
    (hne : k₁ ≠ k₂) (hsame : SameObjects d w₀ w) (hc : w.storage.chain d = some c) :
    ¬Bound (· = k₂.public) c := by
  intro hbound
  obtain ⟨c₁, hc₁, hbound₁⟩ := hw₀.chain
  obtain rfl : c = c₁ := by simpa [hc, hc₁] using hsame.chain
  cases c with
  | garbage => exact hbound
  | chain leaf => exact hne (Key.public_inj.1 (hbound₁.symm.trans hbound))

theorem Interrupted.not_completed {w : World N T} (hne : k₁ ≠ k₂) (hi : Interrupted d k₁ k₂ w) :
    ¬Completed cfg d k₁ k₂ w := by
  intro hc
  have heq : k₁ = k₂ := by simpa [hi.live] using hc.live
  exact hne heq

theorem SameObjects.not_completed {w : World N T} (hw₀ : Begun d k₁ k₂ w₀) (hne : k₁ ≠ k₂)
    (hsame : SameObjects d w₀ w) : ¬Completed cfg d k₁ k₂ w := by
  intro hc
  obtain ⟨c, hchain, hbound⟩ := hc.chain
  exact hsame.not_bound hw₀ hne hchain hbound

theorem SameObjects.not_interrupted {w : World N T} (hw₀ : Begun d k₁ k₂ w₀) (hne : k₁ ≠ k₂)
    (hsame : SameObjects d w₀ w) : ¬Interrupted d k₁ k₂ w := by
  intro hi
  obtain ⟨c, hchain, hbound⟩ := hi.chain
  exact hsame.not_bound hw₀ hne hchain hbound

/-- The staged key that was read is `k₂`. -/
theorem staged_of_good {h : History} {k : Key} (hgood : GoodHistory true d (· = k₂.public) h)
    (hk : StagedRead h d k) : k = k₂ := by
  obtain ⟨ctx, hmem⟩ := hk
  exact Key.public_inj.1 (hgood _ hmem rfl k rfl)

/-- What is due is due after the chain was stored. -/
theorem not_begun_of_due {q : Call} {h : History} {w : World N T} (hw₀ : Begun d k₁ k₂ w₀)
    (hne : k₁ ≠ k₂) (hr : ReadsPhase cfg d k₁ k₂ w₀ q h w) (hdue : PromotionDue q h d) :
    ¬SameObjects d w₀ w := by
  intro hsame
  cases q with
  | activateCertificateKey n force =>
      obtain ⟨rfl, c, hput⟩ := hdue
      exact (hr.begun hsame).2 c hput
  | reconcileCeremony n =>
      obtain ⟨rfl, k₁', k₂', leaf, -, hstaged, hchain, hpub, -⟩ := hdue
      obtain rfl := staged_of_good hr.good hstaged
      have hstored := hsame.chain.trans ((hr.begun hsame).1 _ hchain)
      exact hsame.not_bound hw₀ hne hstored hpub
  | _ => exact hdue.elim

/-- Once the promotion is done, it is due only to the operation that has done it. -/
theorem overwrote_of_due {q : Call} {h : History} {w : World N T}
    (hr : ReadsPhase cfg d k₁ k₂ w₀ q h w) (hdue : PromotionDue q h d)
    (hc : Completed cfg d k₁ k₂ w) : Overwrote h d := by
  cases q with
  | activateCertificateKey n force =>
      obtain ⟨rfl, -⟩ := hdue
      exact hr.own ⟨force, rfl⟩ hc
  | reconcileCeremony n =>
      obtain ⟨rfl, k₁', k₂', leaf, hlive, hstaged, -, -, hdiffer⟩ := hdue
      rcases hr.settled hc with hover | hread
      · exact hover
      · exact absurd ((hread k₁' hlive).trans (staged_of_good hr.good hstaged).symm) hdiffer
  | _ => exact hdue.elim

/-- Nothing has been read yet. -/
theorem readsPhase_nil {q : Call} {w : World N T}
    (hq : (∃ force, q = .activateCertificateKey d force) → ¬Completed cfg d k₁ k₂ w) :
    ReadsPhase cfg d k₁ k₂ w₀ q [] w := by
  refine ⟨?_, ?_, ?_, ?_, fun hact hc => absurd hc (hq hact), ?_, ?_, ?_, ?_⟩ <;>
    simp [GoodHistory, ChainRead, PutOk, LiveRead, Promoted]

variable [DecidableEq N]

section Did

variable {t : T} {q : Call} {h : History} {o : Op} {a : Answer} {r : Res o} {w' : World N T}

omit [DecidableEq N] in
/-- A chain that is written for the domain is bound to the staged key. -/
theorem bound_of_put (hI : RecoverInv cfg node d k₁ k₂ w₀ v) (ht : v.task t = some (q, h))
    {ctx : Time} {c : ChainPEM} (hhand : handsOn.may q h (.storage ctx (.putChain d c)))
    (hflush : q = .flushHeldChains → mayFlush h (.storage ctx (.putChain d c))) :
    Bound (· = k₂.public) c ∧ q ≠ .reconcileCeremony d := by
  have hgood := (hI.tasks t q h ht).good
  rcases hI.calls t q h ht with ⟨force, rfl⟩ | rfl | rfl
  · exact ⟨hhand _ hgood, by simp⟩
  · obtain ⟨p, ⟨held, hmem, hp⟩, rfl⟩ := hflush rfl
    exact ⟨hgood _ hmem p hp, by simp⟩
  · exact hhand.1.elim

theorem chain_did (hI : RecoverInv cfg node d k₁ k₂ w₀ v) (ht : v.task t = some (q, h))
    (hhand : handsOn.may q h o) (hflush : q = .flushHeldChains → mayFlush h o)
    (he : exec cfg.maxRetries node v.shared t o a = some (r, w')) :
    w'.storage.chain d = v.shared.storage.chain d ∨
      ∃ c, w'.storage.chain d = some c ∧ Bound (· = k₂.public) c ∧ q ≠ .reconcileCeremony d := by
  rcases exec_chain he d with hsame | ⟨ctx, c, rfl, hput⟩
  · exact Or.inl hsame
  · exact Or.inr ⟨c, hput, bound_of_put hI ht hhand hflush⟩

theorem retiring_did (hI : RecoverInv cfg node d k₁ k₂ w₀ v) (ht : v.task t = some (q, h))
    (hmark : mayMark cfg q h o) (he : exec cfg.maxRetries node v.shared t o a = some (r, w')) :
    w'.storage.retiring d = v.shared.storage.retiring d ∨ (PromotionDue q h d ∧ ¬Overwrote h d) := by
  have hrewrite : ∀ rs, mayRewrite cfg q h d rs → PromotionDue q h d ∧ ¬Overwrote h d := by
    rintro rs ⟨-, list, x, -, -, ⟨rfl, -⟩ | ⟨hdue, hfresh, -⟩⟩
    · rcases hI.calls t _ h ht with ⟨force, hq⟩ | hq | hq <;> cases hq
    · exact ⟨hdue, hfresh⟩
  rcases exec_retiring he d with hsame | ⟨ctx, rs, rfl, -⟩ | ⟨ctx, rfl, -⟩
  · exact Or.inl hsame
  · exact Or.inr (hrewrite rs hmark)
  · exact Or.inr (hrewrite [] hmark)

theorem next_did (hI : RecoverInv cfg node d k₁ k₂ w₀ v) (ht : v.task t = some (q, h))
    (hhand : handsOn.may q h o) (he : exec cfg.maxRetries node v.shared t o a = some (r, w')) :
    w'.storage.key (.next d) = v.shared.storage.key (.next d) ∨
      (w'.storage.key (.next d) = none ∧ Promoted h d) := by
  have hq : q ≠ .replaceCertificateKey d := by
    rcases hI.calls t q h ht with ⟨force, rfl⟩ | rfl | rfl <;> simp
  exact next_of_exec hhand hq he

/-- The live key changes in one way only: it becomes the staged key, when that is due. -/
theorem live_did (hI : RecoverInv cfg node d k₁ k₂ w₀ v) (ht : v.task t = some (q, h))
    (hhand : handsOn.may q h o) (hmark : mayMark cfg q h o)
    (he : exec cfg.maxRetries node v.shared t o a = some (r, w')) {k : Key}
    (hlive : v.shared.storage.key (.live d) = some (.key k)) :
    w'.storage.key (.live d) = some (.key k) ∨
      ∃ ctx, o = .storage ctx (.putKey (.live d) k₂ false) ∧
        w'.storage.key (.live d) = some (.key k₂) ∧ PromotionDue q h d ∧ ¬Overwrote h d := by
  rcases live_of_exec hhand he hlive with hsame | ⟨ctx, k', rfl, hput⟩
  · exact Or.inl hsame
  · have hkey := (keyFrom_of_promotion hhand).2 _ (hI.tasks t q h ht).good
    obtain rfl : k' = k₂ := Key.public_inj.1 hkey
    obtain ⟨hdue, hfresh, -⟩ := hmark rfl
    exact Or.inr ⟨ctx, rfl, hput, hdue, hfresh⟩

/-- A marker that the promoting operation has on record outlasts the promotion. -/
theorem marker_at_promotion (hI : RecoverInv cfg node d k₁ k₂ w₀ v) (hne : k₁ ≠ k₂)
    (hsoak : ∀ dane, cfg.dane = some dane → issueTimeout + second ≤ dane.soak)
    (ht : v.task t = some (q, h)) {ctx : Time} {r : Except PutFault Unit}
    (hmark : mayMark cfg q h (.storage ctx (.putKey (.live d) k₂ false)))
    (he : exec cfg.maxRetries node v.shared t (.storage ctx (.putKey (.live d) k₂ false)) a =
      some (r, w'))
    (hland : PromotesInTime d (.did t ⟨.storage ctx (.putKey (.live d) k₂ false), r⟩) v.shared w')
    (hi : Interrupted d k₁ k₂ v.shared) (hput : w'.storage.key (.live d) = some (.key k₂))
    (hmx : cfg.isMX d = true) :
    ∃ m ∈ markers (w'.storage.retiring d), m.digest = k₁.public.spkiSHA256 ∧
      unix w'.clock < m.retireAfter := by
  obtain ⟨-, -, ⟨t₀, hbegan, rfl⟩, hmarked⟩ := hmark rfl
  obtain ⟨k, m, hread, hdigest, hrecord⟩ := hmarked hmx
  have hr := hI.tasks t q h ht
  obtain rfl : k = k₁ := (hr.live k hread).resolve_right (hi.not_completed hne)
  have hin : w'.clock < t₀ + issueTimeout := by
    refine hland _ (if_pos rfl) ?_
    rw [hput, hi.live]
    simpa [eq_comm] using hne
  have hfirst : ∀ x ∈ readings h, t₀ ≤ x := fun x hx =>
    began_le (List.pairwise_cons.1 (hI.clock t q h ht)).2 hbegan hx
  have hdue : unix w'.clock < m.retireAfter := by
    rcases hrecord with hown | hjudged
    · have hq : q ≠ .cleanupExpiredRetiring := by
        rcases hI.calls t q h ht with ⟨force, rfl⟩ | rfl | rfl <;> simp
      obtain ⟨k', dane, x, -, hdane, hx, rfl⟩ := hI.own t q h ht hq d m hown
      exact unix_lt_soak (hsoak dane hdane) hin (hfirst x hx)
    · obtain ⟨x, hx, hlast⟩ := hr.lasting m hjudged hdigest
      have hle : w'.clock ≤ x + issueTimeout :=
        hin.le.trans (Nat.add_le_add_right (hfirst x hx) _)
      exact (unix_mono hle).trans_lt hlast
  have hpersists := persists_did hI.toMarkerInv ht hmark he (hI.recorded t q h ht d m hrecord)
  exact ⟨m, hpersists.resolve_right (by omega), hdigest, hdue⟩

/-- What a call does to the phase: the first leads to the second by a write of the chain, the second
to the third by the promotion, and nothing leads back. -/
theorem phase_did (hI : RecoverInv cfg node d k₁ k₂ w₀ v) (hw₀ : Begun d k₁ k₂ w₀) (hne : k₁ ≠ k₂)
    (hsoak : ∀ dane, cfg.dane = some dane → issueTimeout + second ≤ dane.soak)
    (ht : v.task t = some (q, h)) (hhand : handsOn.may q h o) (hmark : mayMark cfg q h o)
    (hflush : q = .flushHeldChains → mayFlush h o)
    (he : exec cfg.maxRetries node v.shared t o a = some (r, w'))
    (hland : PromotesInTime d (.did t ⟨o, r⟩) v.shared w') :
    (SameObjects d w₀ v.shared ∧ SameObjects d w₀ w') ∨
      (SameObjects d w₀ v.shared ∧ Interrupted d k₁ k₂ w' ∧ q ≠ .reconcileCeremony d) ∨
      (Interrupted d k₁ k₂ v.shared ∧ Interrupted d k₁ k₂ w') ∨
      (Interrupted d k₁ k₂ v.shared ∧ Completed cfg d k₁ k₂ w' ∧ Overwrote (⟨o, r⟩ :: h) d ∧
        (cfg.isMX d = true → ∃ m ∈ markers (w'.storage.retiring d),
          m.digest = k₁.public.spkiSHA256 ∧ unix w'.clock < m.retireAfter)) ∨
      (Completed cfg d k₁ k₂ v.shared ∧ Completed cfg d k₁ k₂ w') := by
  have hr := hI.tasks t q h ht
  have hchain := chain_did hI ht hhand hflush he
  have hnext := next_did hI ht hhand he
  have hretiring := retiring_did hI ht hmark he
  cases hI.phase with
  | begun hsame =>
      have hnotdue : ¬PromotionDue q h d := fun hdue => not_begun_of_due hw₀ hne hr hdue hsame
      have hlive := (live_did hI ht hhand hmark he (hsame.live.trans hw₀.live)).resolve_right
        fun ⟨_, _, _, hdue, _⟩ => hnotdue hdue
      have hstaged := hnext.resolve_right fun hp =>
        hsame.not_completed hw₀ hne (hr.promoted hp.2)
      rcases hchain with hkeep | ⟨c, hput, hbound, hq⟩
      · exact Or.inl ⟨hsame, hkeep.trans hsame.chain, hlive.trans hw₀.live.symm,
          hstaged.trans hsame.next,
          (hretiring.resolve_right fun hdue => hnotdue hdue.1).trans hsame.retiring⟩
      · exact Or.inr (Or.inl ⟨hsame, ⟨⟨c, hput, hbound⟩, hlive,
          hstaged.trans (hsame.next.trans hw₀.next)⟩, hq⟩)
  | interrupted hi =>
      have hstaged := hnext.resolve_right fun hp => hi.not_completed hne (hr.promoted hp.2)
      have hbound : ∃ c, w'.storage.chain d = some c ∧ Bound (· = k₂.public) c := by
        rcases hchain with hkeep | ⟨c, hput, hbound, -⟩
        · obtain ⟨c, hc, hbound⟩ := hi.chain
          exact ⟨c, hkeep.trans hc, hbound⟩
        · exact ⟨c, hput, hbound⟩
      rcases live_did hI ht hhand hmark he hi.live with hlive | ⟨ctx, rfl, hput, -, -⟩
      · exact Or.inr (Or.inr (Or.inl ⟨hi, hbound, hlive, hstaged.trans hi.next⟩))
      · have hmarker := marker_at_promotion hI hne hsoak ht hmark he hland hi hput
        refine Or.inr (Or.inr (Or.inr (Or.inl ⟨hi, ⟨hbound, hput, Or.inl (hstaged.trans hi.next),
          fun hmx => ?_⟩, ⟨ctx, k₂, r, List.mem_cons_self⟩, hmarker⟩)))
        obtain ⟨m, hm, hdigest, -⟩ := hmarker hmx
        exact ⟨m, hm, hdigest⟩
  | completed hc =>
      have hover : PromotionDue q h d → Overwrote h d := fun hdue => overwrote_of_due hr hdue hc
      have hlive := (live_did hI ht hhand hmark he hc.live).resolve_right
        fun ⟨_, _, _, hdue, hfresh⟩ => hfresh (hover hdue)
      have hlist := hretiring.resolve_right fun hdue => hdue.2 (hover hdue.1)
      refine Or.inr (Or.inr (Or.inr (Or.inr ⟨hc, ?_, hlive, ?_, fun hmx => ?_⟩)))
      · rcases hchain with hkeep | ⟨c, hput, hbound, -⟩
        · obtain ⟨c, hc', hbound⟩ := hc.chain
          exact ⟨c, hkeep.trans hc', hbound⟩
        · exact ⟨c, hput, hbound⟩
      · rcases hnext with hkeep | ⟨hnone, -⟩
        · exact hc.next.imp hkeep.trans hkeep.trans
        · exact Or.inr hnone
      · rw [hlist]
        exact hc.marked hmx

omit [DecidableEq N] in
theorem Phase.next {w : World N T} (hw₀ : Begun d k₁ k₂ w₀) (hp : Phase cfg d k₁ k₂ w₀ w) {k : Key}
    (hk : w.storage.key (.next d) = some (.key k)) : k = k₂ := by
  cases hp with
  | begun hsame => simpa [hsame.next, hw₀.next, eq_comm] using hk
  | interrupted hi => simpa [hi.next, eq_comm] using hk
  | completed hc =>
      rcases hc.next with hnext | hnext
      · simpa [hnext, eq_comm] using hk
      · simp [hnext] at hk

omit [DecidableEq N] in
theorem Phase.live {w : World N T} (hw₀ : Begun d k₁ k₂ w₀) (hp : Phase cfg d k₁ k₂ w₀ w) {k : Key}
    (hk : w.storage.key (.live d) = some (.key k)) :
    k = k₁ ∨ k = k₂ ∧ Completed cfg d k₁ k₂ w := by
  cases hp with
  | begun hsame => exact Or.inl (by simpa [hsame.live, hw₀.live, eq_comm] using hk)
  | interrupted hi => exact Or.inl (by simpa [hi.live, eq_comm] using hk)
  | completed hc => exact Or.inr ⟨by simpa [hc.live, eq_comm] using hk, hc⟩

/-- Where a fact about the history comes from: it was one before, or this call's answer shows it. -/
theorem LiveRead.cases_did (he : exec cfg.maxRetries node v.shared t o a = some (r, w')) {k : Key}
    (hk : LiveRead (⟨o, r⟩ :: h) d k) :
    LiveRead h d k ∨ w'.storage.key (.live d) = some (.key k) := by
  obtain ⟨ctx, hmem⟩ := hk
  rcases List.mem_cons.1 hmem with heq | hmem
  · cases heq
    rcases exec_key he (.live d) with hsame | ⟨_, _, _, heq, -⟩ | ⟨_, heq, -⟩
    · exact Or.inr (hsame.trans (exec_getKey_ok he))
    · cases heq
    · cases heq
  · exact Or.inl ⟨ctx, hmem⟩

theorem StagedRead.cases_did (he : exec cfg.maxRetries node v.shared t o a = some (r, w')) {k : Key}
    (hk : StagedRead (⟨o, r⟩ :: h) d k) :
    StagedRead h d k ∨ w'.storage.key (.next d) = some (.key k) := by
  obtain ⟨ctx, hmem⟩ := hk
  rcases List.mem_cons.1 hmem with heq | hmem
  · cases heq
    rcases exec_key he (.next d) with hsame | ⟨_, _, _, heq, -⟩ | ⟨_, heq, -⟩
    · exact Or.inr (hsame.trans (exec_getKey_ok he))
    · cases heq
    · cases heq
  · exact Or.inl ⟨ctx, hmem⟩

theorem ChainRead.cases_did (he : exec cfg.maxRetries node v.shared t o a = some (r, w'))
    {c : ChainPEM} (hc : ChainRead (⟨o, r⟩ :: h) d c) :
    ChainRead h d c ∨ w'.storage.chain d = some c := by
  obtain ⟨ctx, hmem⟩ := hc
  rcases List.mem_cons.1 hmem with heq | hmem
  · cases heq
    rcases exec_chain he d with hsame | ⟨_, _, heq, -⟩
    · exact Or.inr (hsame.trans (exec_getChain_ok he))
    · cases heq
  · exact Or.inl ⟨ctx, hmem⟩

/-- A read that shows nothing was refused, when all three objects are there. -/
theorem refused_of_missing (he : exec cfg.maxRetries node v.shared t o a = some (r, w'))
    (hi : Interrupted d k₁ k₂ v.shared) (hmiss : Missing d ⟨o, r⟩) : refused ⟨o, r⟩ = true := by
  cases o with
  | storage ctx o =>
      cases o with
      | getKey slot =>
          obtain ⟨hslot, hnone⟩ := hmiss
          have hkey : ∃ k, v.shared.storage.key slot = some (.key k) := by
            rcases hslot with rfl | rfl
            · exact ⟨k₂, hi.next⟩
            · exact ⟨k₁, hi.live⟩
          obtain ⟨k, hk⟩ := hkey
          rcases r with (_ | ⟨inBody, reason⟩) | pem
          · rw [exec_getKey_notExist he] at hk
            cases hk
          · rfl
          · rw [exec_getKey_ok he] at hk
            cases hk
            exact absurd rfl (hnone k)
      | getChain n =>
          obtain ⟨rfl, hnone⟩ := hmiss
          obtain ⟨c, hc, hbound⟩ := hi.chain
          rcases r with (_ | ⟨inBody, reason⟩) | c'
          · rw [exec_getChain_notExist he] at hc
            cases hc
          · rfl
          · rw [exec_getChain_ok he] at hc
            cases hc
            cases c with
            | garbage => exact hbound.elim
            | chain leaf => exact absurd rfl (hnone leaf)
      | _ => exact hmiss.elim
  | mem o => exact hmiss.elim
  | env o => exact hmiss.elim

/-- A marker is judged in force at a clock reading, under the mutex. -/
theorem judged_cases {m : RetiringRecord} (hm : m ∈ (marking (⟨o, r⟩ :: h)).judged d) :
    m ∈ (marking h).judged d ∨
      ∃ x, (⟨o, r⟩ : Event) = ⟨.env .now, x⟩ ∧ (marking (⟨o, r⟩ :: h)).mu = true := by
  rw [marking_cons] at hm ⊢
  cases o with
  | storage ctx o => cases o <;> exact Or.inl (by simpa [Marking.after] using hm)
  | mem o => cases o <;> exact Or.inl hm
  | env o =>
      cases o with
      | now =>
          cases hmu : (marking h).mu with
          | false => exact Or.inl (by simpa [Marking.after, Marking.judge, hmu] using hm)
          | true => exact Or.inr ⟨r, rfl, by simpa [Marking.after] using hmu⟩
      | _ => exact Or.inl hm

/-- What the operation has read stays true of the phase it is in. -/
theorem readsPhase_did (hI : RecoverInv cfg node d k₁ k₂ w₀ v) (hw₀ : Begun d k₁ k₂ w₀)
    (hne : k₁ ≠ k₂) (hsoak : ∀ dane, cfg.dane = some dane → issueTimeout + second ≤ dane.soak)
    (ht : v.task t = some (q, h)) (hhand : handsOn.may q h o) (hmark : mayMark cfg q h o)
    (hflush : q = .flushHeldChains → mayFlush h o)
    (he : exec cfg.maxRetries node v.shared t o a = some (r, w'))
    (hland : PromotesInTime d (.did t ⟨o, r⟩) v.shared w')
    (hlasts : ∀ x, (⟨o, r⟩ : Event) = ⟨.env .now, x⟩ → (marking (⟨o, r⟩ :: h)).mu = true →
      ∀ m ∈ (marking (⟨o, r⟩ :: h)).judged d, m.digest = k₁.public.spkiSHA256 →
        unix (x + issueTimeout) < m.retireAfter) :
    ReadsPhase cfg d k₁ k₂ w₀ q (⟨o, r⟩ :: h) w' := by
  have hr := hI.tasks t q h ht
  have hs : h <:+ ⟨o, r⟩ :: h := List.suffix_cons _ h
  have hphase := phase_did hI hw₀ hne hsoak ht hhand hmark hflush he hland
  have hcompleted : Completed cfg d k₁ k₂ v.shared → Completed cfg d k₁ k₂ w' := by
    intro hc
    rcases hphase with ⟨hv, -⟩ | ⟨hv, -⟩ | ⟨hv, -⟩ | ⟨hv, -⟩ | ⟨-, hw⟩
    · exact absurd hc (hv.not_completed hw₀ hne)
    · exact absurd hc (hv.not_completed hw₀ hne)
    · exact absurd hc (hv.not_completed hne)
    · exact absurd hc (hv.not_completed hne)
    · exact hw
  -- the promotion was this call, or had been done before
  have hdone : Completed cfg d k₁ k₂ w' →
      Overwrote (⟨o, r⟩ :: h) d ∨ Completed cfg d k₁ k₂ v.shared := by
    intro hc
    rcases hphase with ⟨-, hw⟩ | ⟨-, hw, -⟩ | ⟨-, hw⟩ | ⟨-, -, hover, -⟩ | ⟨hv, -⟩
    · exact absurd hc (hw.not_completed hw₀ hne)
    · exact absurd hc (hw.not_completed hne)
    · exact absurd hc (hw.not_completed hne)
    · exact Or.inl hover
    · exact Or.inr hv
  have hstill : q = .reconcileCeremony d → Interrupted d k₁ k₂ w' →
      Interrupted d k₁ k₂ v.shared := by
    intro hq hi
    rcases hphase with ⟨-, hw⟩ | ⟨-, -, hnot⟩ | ⟨hv, -⟩ | ⟨hv, -⟩ | ⟨-, hw⟩
    · exact absurd hi (hw.not_interrupted hw₀ hne)
    · exact absurd hq hnot
    · exact hv
    · exact hv
    · exact absurd hw (hi.not_completed hne)
  have hafter : Phase cfg d k₁ k₂ w₀ w' := by
    rcases hphase with ⟨-, hw⟩ | ⟨-, hw, -⟩ | ⟨-, hw⟩ | ⟨-, hw, -⟩ | ⟨-, hw⟩
    · exact .begun hw
    · exact .interrupted hw
    · exact .interrupted hw
    · exact .completed hw
    · exact .completed hw
  have hover : Overwrote h d → Overwrote (⟨o, r⟩ :: h) d := by
    rintro ⟨ctx, k, r', hmem⟩
    exact ⟨ctx, k, r', List.mem_cons_of_mem _ hmem⟩
  refine ⟨?_, ?_, ?_, ?_, ?_, ?_, ?_, ?_, ?_⟩
  · refine goodHistory_cons.2 ⟨goodEvent_of_exec he ?_ fun _ => hI.pending _, hr.good⟩
    intro k hk
    rw [hI.phase.next hw₀ hk]
  · intro hsame
    have hv : SameObjects d w₀ v.shared := by
      rcases hphase with ⟨hv, -⟩ | ⟨hv, -⟩ | ⟨-, hw⟩ | ⟨-, hw, -⟩ | ⟨-, hw⟩
      · exact hv
      · exact hv
      · exact absurd hw (hsame.not_interrupted hw₀ hne)
      · exact absurd hw (hsame.not_completed hw₀ hne)
      · exact absurd hw (hsame.not_completed hw₀ hne)
    refine ⟨fun c hc => ?_, fun c hput => ?_⟩
    · rcases ChainRead.cases_did he hc with hc | hc
      · exact (hr.begun hv).1 c hc
      · exact hsame.chain.symm.trans hc
    · obtain ⟨ctx, hmem⟩ := hput
      rcases List.mem_cons.1 hmem with heq | hmem
      · cases heq
        have hbound := (bound_of_put hI ht hhand hflush).1
        exact hsame.not_bound hw₀ hne (exec_putChain_ok he) hbound
      · exact (hr.begun hv).2 c ⟨ctx, hmem⟩
  · intro k hk
    rcases LiveRead.cases_did he hk with hk | hk
    · exact (hr.live k hk).imp_right hcompleted
    · exact (hafter.live hw₀ hk).imp_right And.right
  · intro hc
    rcases hdone hc with hnew | hv
    · exact Or.inl hnew
    · rcases hr.settled hv with hold | hread
      · exact Or.inl (hover hold)
      · refine Or.inr fun k hk => ?_
        rcases LiveRead.cases_did he hk with hk | hk
        · exact hread k hk
        · simpa [hc.live, eq_comm] using hk
  · intro hq hc
    rcases hdone hc with hnew | hv
    · exact hnew
    · exact hover (hr.own hq hv)
  · rintro ⟨ctx, k, hmem⟩
    rcases List.mem_cons.1 hmem with heq | hmem
    · cases heq
      have hkey : k = k₂ := Key.public_inj.1 ((keyFrom_of_promotion hhand).2 _ hr.good)
      have hput := exec_putKey_ok he
      rw [hkey] at hput
      exact ((hafter.live hw₀ hput).resolve_left hne.symm).2
    · exact hcompleted (hr.promoted ⟨ctx, k, hmem⟩)
  · intro hq hi c hc
    rcases ChainRead.cases_did he hc with hc | hc
    · exact hr.chain hq (hstill hq hi) c hc
    · obtain ⟨c', hc', hbound⟩ := hi.chain
      obtain rfl : c' = c := by simpa [hc'] using hc
      exact hbound
  · intro hq hi e hmem hmiss
    rcases List.mem_cons.1 hmem with rfl | hmem
    · exact refused_of_missing he (hstill hq hi) hmiss
    · exact hr.missing hq (hstill hq hi) e hmem hmiss
  · intro m hm hdigest
    rcases judged_cases hm with hold | ⟨x, hnow, hmu⟩
    · obtain ⟨x, hx, hlast⟩ := hr.lasting m hold hdigest
      exact ⟨x, readings_extend hx hs, hlast⟩
    · refine ⟨x, ?_, hlasts x hnow hmu m hm hdigest⟩
      rw [hnow]
      exact List.mem_cons_self

theorem pending_did (hI : RecoverInv cfg node d k₁ k₂ w₀ v) (ht : v.task t = some (q, h))
    (hhand : handsOn.may q h o) (hflush : q = .flushHeldChains → mayFlush h o)
    (he : exec cfg.maxRetries node v.shared t o a = some (r, w')) (i : N) (p : PendingPersist)
    (hp : (w'.node i).pending.lookup d = some p) : Bound (· = k₂.public) p.chainPEM := by
  rcases exec_pending he i d with hsame | ⟨p', rfl, -, hset⟩ | ⟨-, -, hnone⟩
  · exact hI.pending i p (hsame.symm.trans hp)
  · obtain rfl : p' = p := by simpa [hset] using hp
    rcases hI.calls t q h ht with ⟨force, rfl⟩ | rfl | rfl
    · exact hhand _ (hI.tasks t _ h ht).good
    · exact (hflush rfl).elim
    · exact hhand.1.elim
  · rw [hnone] at hp
    cases hp

end Did

/-! ## Whole runs -/

variable [DecidableEq T] {l : ClusterLabel T} {v' : ClusterView N T}

theorem sectionsApart_of_single (hsingle : ∀ t u x y, v.task t = some x → v.task u = some y → t = u)
    (hI : MarkerInv cfg node v) (hmove : Move (cluster cfg node) (marks cfg) v l v') :
    SectionsApart v l v' := by
  intro t hentering u ⟨⟨q', h'⟩, hu, hmu⟩
  cases hmove with
  | @did t' q h o a r w' ht hmay he =>
      obtain rfl := hsingle u t' _ _ hu ht
      obtain ⟨rfl, rfl⟩ : q = q' ∧ h = h' := by simpa [ht] using hu
      cases o with
      | mem o =>
          cases o with
          | retiringLock =>
              have hfree : (marking h).mu = false := hmay (hI.requests _ _ _ ht)
              rw [hfree] at hmu
              cases hmu
          | _ => cases hentering
      | _ => cases hentering
  | start _ | finish _ _ | crash => cases hentering

theorem recoverInv_move (hI : RecoverInv cfg node d k₁ k₂ w₀ v) (hw₀ : Begun d k₁ k₂ w₀)
    (hne : k₁ ≠ k₂) (hsoak : ∀ dane, cfg.dane = some dane → issueTimeout + second ≤ dane.soak)
    (hmove : Move (cluster cfg node) (((marks cfg).and handsOn).and flushes) v l v')
    (hcalls : RecoveryCalls d v l v') (hlasts : MarkerLasts d k₁ v l v')
    (hland : PromotesInTime d l v.shared v'.shared) :
    RecoverInv cfg node d k₁ k₂ w₀ v' := by
  have hstarts : StartsMarks v l v' := by
    intro q hq
    rcases hcalls.2 q hq with rfl | rfl <;> rfl
  have hapart := sectionsApart_of_single hI.single hI.toMarkerInv hmove.left.left
  have hmarks := markerInv_move hI.toMarkerInv hmove.left.left hstarts hapart
  cases hmove with
  | @start t q ht =>
      have hidle : ∀ u, v.task u = none := fun u => Option.isNone_iff_eq_none.1 (hcalls.1 q rfl u)
      have honly : ∀ {u : T} {x : Call × History},
          (v.put t v.shared (some (q, []))).task u = some x → u = t ∧ x = (q, []) := by
        intro u x hu
        rcases View.put_cases hu with ⟨rfl, ⟨⟩⟩ | ⟨-, hu'⟩
        · exact ⟨rfl, rfl⟩
        · rw [hidle u] at hu'
          cases hu'
      refine ⟨hmarks, ?_, ?_, hI.phase, hI.pending, ?_⟩
      · intro u u' x y hu hu'
        exact (honly hu).1.trans (honly hu').1.symm
      · intro u q' h' hu
        obtain ⟨-, heq⟩ := honly hu
        cases heq
        exact Or.inr (hcalls.2 q rfl)
      · intro u q' h' hu
        obtain ⟨-, heq⟩ := honly hu
        cases heq
        refine readsPhase_nil fun hq => ?_
        obtain ⟨force, rfl⟩ := hq
        rcases hcalls.2 _ rfl with hq | hq <;> cases hq
  | @did t q h o a r w' ht hmay he =>
      replace he : exec cfg.maxRetries node v.shared t o a = some (r, w') := he
      obtain ⟨⟨hmay₁, hhand⟩, hflush⟩ := hmay
      have hmark : mayMark cfg q h o := hmay₁ (hI.requests t q h ht)
      have hphase := phase_did hI hw₀ hne hsoak ht hhand hmark hflush he hland
      have honly : ∀ {u : T} {x : Call × History},
          (v.put t w' (some (q, ⟨o, r⟩ :: h))).task u = some x →
            u = t ∧ x = (q, ⟨o, r⟩ :: h) := by
        intro u x hu
        rcases View.put_cases hu with ⟨rfl, ⟨⟩⟩ | ⟨hut, hu'⟩
        · exact ⟨rfl, rfl⟩
        · exact absurd (hI.single u t _ _ hu' ht) hut
      refine ⟨hmarks, ?_, ?_, ?_, pending_did hI ht hhand hflush he, ?_⟩
      · intro u u' x y hu hu'
        exact (honly hu).1.trans (honly hu').1.symm
      · intro u q' h' hu
        obtain ⟨-, heq⟩ := honly hu
        cases heq
        exact hI.calls t q h ht
      · rcases hphase with ⟨-, hw⟩ | ⟨-, hw, -⟩ | ⟨-, hw⟩ | ⟨-, hw, -⟩ | ⟨-, hw⟩
        · exact .begun hw
        · exact .interrupted hw
        · exact .interrupted hw
        · exact .completed hw
        · exact .completed hw
      · intro u q' h' hu
        obtain ⟨rfl, heq⟩ := honly hu
        cases heq
        refine readsPhase_did hI hw₀ hne hsoak ht hhand hmark hflush he hland fun x hnow hmu => ?_
        cases hnow
        exact hlasts (u, x) rfl _ hu hmu
  | finish _ _ | crash =>
      have hsub : ∀ {t u : T} {x : Call × History}, (v.put t v.shared none).task u = some x →
          v.task u = some x := by
        intro t u x hu
        rcases View.put_cases hu with ⟨-, ⟨⟩⟩ | ⟨-, hu'⟩
        exact hu'
      exact ⟨hmarks, fun u u' x y hu hu' => hI.single u u' x y (hsub hu) (hsub hu'),
        fun u q' h' hu => hI.calls u q' h' (hsub hu), hI.phase, hI.pending,
        fun u q' h' hu => hI.tasks u q' h' (hsub hu)⟩

omit [DecidableEq N] [DecidableEq T] in
/-- What the reconciliation has read leaves it no way to end without a promotion, unless something
was refused. -/
theorem not_interrupted_of_done {h : History} {w : World N T} (hne : k₁ ≠ k₂)
    (hr : ReadsPhase cfg d k₁ k₂ w₀ (.reconcileCeremony d) h w)
    (hdone : Promoted h d ∨ Hindered h d ∨ Unneeded h d) (hno : ∀ e ∈ h, refused e = false) :
    ¬Interrupted d k₁ k₂ w := by
  intro hi
  rcases hdone with hpromoted | ⟨e, hmem, href | hmiss⟩ | ⟨k, k', leaf, hlive, hstaged, hchain, hnot⟩
  · exact hi.not_completed hne (hr.promoted hpromoted)
  · simp [hno e hmem] at href
  · have href := hr.missing rfl hi e hmem hmiss
    simp [hno e hmem] at href
  · have hk : k = k₁ := (hr.live k hlive).resolve_right (hi.not_completed hne)
    have hk' : k' = k₂ := staged_of_good hr.good hstaged
    have hpub : leaf.pub = k₂.public := hr.chain rfl hi _ hchain
    exact hnot ⟨by rw [hpub, hk'], by rwa [hk, hk']⟩

theorem recovers_move (hI : RecoverInv cfg node d k₁ k₂ w₀ v) (hw₀ : Begun d k₁ k₂ w₀)
    (hne : k₁ ≠ k₂) (hmove : Move (cluster cfg node) (marks cfg) v l v') :
    Recovers cfg d k₁ k₂ w₀ v l v' := by
  intro t hrec x hx hno
  cases hmove with
  | @finish t' q h out ht hdone =>
      cases q with
      | reconcileCeremony n =>
          obtain ⟨rfl, rfl⟩ : n = d ∧ t' = t := by simpa [reconciled] using hrec
          rw [ht] at hx
          cases hx
          have hnot := not_interrupted_of_done hne (hI.tasks t' _ h ht) hdone hno
          have hout : (v.put t' v.shared none).shared = v.shared := rfl
          rw [hout]
          cases hI.phase with
          | begun hsame => exact ⟨fun _ => hsame, fun hc => absurd hsame.chain hc⟩
          | interrupted hi => exact absurd hi hnot
          | completed hc =>
              refine ⟨fun hsame => ?_, fun _ => hc⟩
              obtain ⟨c, hchain, hbound⟩ := hc.chain
              obtain ⟨c₁, hc₁, hbound₁⟩ := hw₀.chain
              obtain rfl : c = c₁ := by simpa [hchain, hc₁] using hsame
              cases c with
              | garbage => exact hbound.elim
              | chain leaf => exact absurd (Key.public_inj.1 (hbound₁.symm.trans hbound)) hne
      | _ => cases hrec
  | start _ | did _ _ _ | crash => cases hrec

theorem promotesMarked_move (hI : RecoverInv cfg node d k₁ k₂ w₀ v) (hw₀ : Begun d k₁ k₂ w₀)
    (hne : k₁ ≠ k₂) (hsoak : ∀ dane, cfg.dane = some dane → issueTimeout + second ≤ dane.soak)
    (hmove : Move (cluster cfg node) (((marks cfg).and handsOn).and flushes) v l v')
    (hland : PromotesInTime d l v.shared v'.shared) :
    PromotesMarked cfg d k₁ v l v' := by
  intro hmx hlive hchanged
  cases hmove with
  | @did t q h o a r w' ht hmay he =>
      replace he : exec cfg.maxRetries node v.shared t o a = some (r, w') := he
      obtain ⟨⟨hmay₁, hhand⟩, hflush⟩ := hmay
      have hmark : mayMark cfg q h o := hmay₁ (hI.requests t q h ht)
      rcases phase_did hI hw₀ hne hsoak ht hhand hmark hflush he hland with
        ⟨-, hw⟩ | ⟨-, hw, -⟩ | ⟨-, hw⟩ | ⟨-, -, -, hmarked⟩ | ⟨hv, -⟩
      · exact absurd (hw.live.trans hw₀.live) hchanged
      · exact absurd hw.live hchanged
      · exact absurd hw.live hchanged
      · exact hmarked hmx
      · have heq : k₁ = k₂ := by simpa [hlive] using hv.live
        exact absurd heq hne
  | start _ | finish _ _ | crash => exact absurd hlive hchanged

/-! ## A further reconciliation -/

/-- Only reconciliations of `d` are started. -/
def Reconciles (d : Name) (_ : ClusterView N T) (l : ClusterLabel T) (_ : ClusterView N T) : Prop :=
  ∀ q ∈ started l, q = .reconcileCeremony d

/-- Nothing is left to reconcile: the objects ask for no promotion. -/
def Reconciled (d : Name) (w : World N T) : Prop :=
  ∀ k k' leaf, w.storage.key (.live d) = some (.key k) → w.storage.key (.next d) = some (.key k') →
    w.storage.chain d = some (.chain leaf) → leaf.pub = k'.public → k = k'

/-- The objects are as they were, and so is whatever was read of them. -/
structure UnchangedInv (d : Name) (w : World N T) (v : ClusterView N T) : Prop where
  same : SameObjects d w v.shared
  calls : ∀ t q h, v.task t = some (q, h) → q = .reconcileCeremony d
  live : ∀ t q h, v.task t = some (q, h) → ∀ k, LiveRead h d k →
    w.storage.key (.live d) = some (.key k)
  staged : ∀ t q h, v.task t = some (q, h) → ∀ k, StagedRead h d k →
    w.storage.key (.next d) = some (.key k)
  chain : ∀ t q h, v.task t = some (q, h) → ∀ c, ChainRead h d c → w.storage.chain d = some c

omit [DecidableEq N] [DecidableEq T] in
theorem not_due_of_reconciled {w : World N T} {t : T} {h : History} (hrest : Reconciled d w)
    (hI : UnchangedInv d w v) (ht : v.task t = some (.reconcileCeremony d, h)) :
    ¬PromotionDue (.reconcileCeremony d) h d := by
  rintro ⟨-, k, k', leaf, hlive, hstaged, hchain, hpub, hdiffer⟩
  exact hdiffer (hrest k k' leaf (hI.live t _ h ht k hlive) (hI.staged t _ h ht k' hstaged)
    (hI.chain t _ h ht _ hchain) hpub)

omit [DecidableEq T] in
theorem sameObjects_did {w w' : World N T} {t : T} {h : History} {o : Op} {a : Answer} {r : Res o}
    {k : Key} (hlive : w.storage.key (.live d) = some (.key k)) (hrest : Reconciled d w)
    (hI : UnchangedInv d w v) (ht : v.task t = some (.reconcileCeremony d, h))
    (hhand : handsOn.may (.reconcileCeremony d) h o)
    (hmark : mayMark cfg (.reconcileCeremony d) h o)
    (he : exec cfg.maxRetries node v.shared t o a = some (r, w')) : SameObjects d w w' := by
  have hnot := not_due_of_reconciled hrest hI ht
  refine ⟨?_, ?_, ?_, ?_⟩
  · rcases exec_chain he d with hsame | ⟨ctx, c, rfl, -⟩
    · exact hsame.trans hI.same.chain
    · exact hhand.1.elim
  · rcases live_of_exec hhand he (hI.same.live.trans hlive) with hsame | ⟨ctx, k', rfl, -⟩
    · exact hsame.trans hlive.symm
    · exact absurd (hmark rfl).1 hnot
  · rcases exec_key he (.next d) with hsame | ⟨ctx, k', createOnly, rfl, -⟩ | ⟨ctx, rfl, -⟩
    · exact hsame.trans hI.same.next
    · exact hhand.2.elim
    · obtain ⟨n, hn, hdue⟩ := hmark
      cases hn
      exact absurd hdue hnot
  · have hrewrite : ∀ rs, ¬mayRewrite cfg (.reconcileCeremony d) h d rs := by
      rintro rs ⟨-, list, x, -, -, ⟨hq, -⟩ | ⟨hdue, -⟩⟩
      · cases hq
      · exact hnot hdue
    rcases exec_retiring he d with hsame | ⟨ctx, rs, rfl, -⟩ | ⟨ctx, rfl, -⟩
    · exact hsame.trans hI.same.retiring
    · exact absurd hmark (hrewrite rs)
    · exact absurd hmark (hrewrite [])

theorem unchangedInv_move {w : World N T} {k : Key}
    (hlive : w.storage.key (.live d) = some (.key k)) (hrest : Reconciled d w)
    (hI : UnchangedInv d w v)
    (hmove : Move (cluster cfg node) ((marks cfg).and handsOn) v l v')
    (hcalls : Reconciles d v l v') : UnchangedInv d w v' := by
  cases hmove with
  | @start t q ht =>
      have hnil : ∀ {u : T} {q' : Call} {h' : History},
          (v.put t v.shared (some (q, []))).task u = some (q', h') →
            (q' = .reconcileCeremony d ∧ h' = []) ∨ v.task u = some (q', h') := by
        intro u q' h' hu
        rcases View.put_cases hu with ⟨rfl, ⟨⟩⟩ | ⟨-, hu'⟩
        · exact Or.inl ⟨hcalls q rfl, rfl⟩
        · exact Or.inr hu'
      refine ⟨hI.same, ?_, ?_, ?_, ?_⟩
      · intro u q' h' hu
        rcases hnil hu with ⟨hq, -⟩ | hu'
        · exact hq
        · exact hI.calls u q' h' hu'
      · intro u q' h' hu k hk
        rcases hnil hu with ⟨-, rfl⟩ | hu'
        · simp [LiveRead] at hk
        · exact hI.live u q' h' hu' k hk
      · intro u q' h' hu k hk
        rcases hnil hu with ⟨-, rfl⟩ | hu'
        · simp [StagedRead] at hk
        · exact hI.staged u q' h' hu' k hk
      · intro u q' h' hu c hc
        rcases hnil hu with ⟨-, rfl⟩ | hu'
        · simp [ChainRead] at hc
        · exact hI.chain u q' h' hu' c hc
  | @did t q h o a r w' ht hmay he =>
      replace he : exec cfg.maxRetries node v.shared t o a = some (r, w') := he
      obtain rfl := hI.calls t q h ht
      have hsame := sameObjects_did hlive hrest hI ht hmay.2 (hmay.1 rfl) he
      refine ⟨hsame, ?_, ?_, ?_, ?_⟩
      · intro u q' h' hu
        rcases View.put_cases hu with ⟨rfl, ⟨⟩⟩ | ⟨-, hu'⟩
        · rfl
        · exact hI.calls u q' h' hu'
      · intro u q' h' hu k hk
        rcases View.put_cases hu with ⟨rfl, ⟨⟩⟩ | ⟨-, hu'⟩
        · rcases LiveRead.cases_did he hk with hk | hk
          · exact hI.live u _ h ht k hk
          · exact hsame.live.symm.trans hk
        · exact hI.live u q' h' hu' k hk
      · intro u q' h' hu k hk
        rcases View.put_cases hu with ⟨rfl, ⟨⟩⟩ | ⟨-, hu'⟩
        · rcases StagedRead.cases_did he hk with hk | hk
          · exact hI.staged u _ h ht k hk
          · exact hsame.next.symm.trans hk
        · exact hI.staged u q' h' hu' k hk
      · intro u q' h' hu c hc
        rcases View.put_cases hu with ⟨rfl, ⟨⟩⟩ | ⟨-, hu'⟩
        · rcases ChainRead.cases_did he hc with hc | hc
          · exact hI.chain u _ h ht c hc
          · exact hsame.chain.symm.trans hc
        · exact hI.chain u q' h' hu' c hc
  | finish _ _ | crash =>
      have hsub : ∀ {t u : T} {x : Call × History}, (v.put t v.shared none).task u = some x →
          v.task u = some x := by
        intro t u x hu
        rcases View.put_cases hu with ⟨-, ⟨⟩⟩ | ⟨-, hu'⟩
        exact hu'
      exact ⟨hI.same, fun u q' h' hu => hI.calls u q' h' (hsub hu),
        fun u q' h' hu => hI.live u q' h' (hsub hu),
        fun u q' h' hu => hI.staged u q' h' (hsub hu),
        fun u q' h' hu => hI.chain u q' h' (hsub hu)⟩

omit [DecidableEq N] [DecidableEq T] in
/-- A ceremony that is not interrupted asks for nothing more. -/
theorem Phase.reconciled {w : World N T} (hw₀ : Begun d k₁ k₂ w₀) (hne : k₁ ≠ k₂)
    (hp : Phase cfg d k₁ k₂ w₀ w) (hi : ¬Interrupted d k₁ k₂ w) : Reconciled d w := by
  intro k k' leaf hlive hstaged hchain hpub
  obtain rfl := hp.next hw₀ hstaged
  cases hp with
  | begun hsame => exact absurd hpub (hsame.not_bound hw₀ hne hchain)
  | interrupted hi' => exact absurd hi' hi
  | completed hc => simpa [hlive] using hc.live

omit [DecidableEq N] [DecidableEq T] in
theorem Phase.live_exists {w : World N T} (hw₀ : Begun d k₁ k₂ w₀)
    (hp : Phase cfg d k₁ k₂ w₀ w) : ∃ k, w.storage.key (.live d) = some (.key k) := by
  cases hp with
  | begun hsame => exact ⟨k₁, hsame.live.trans hw₀.live⟩
  | interrupted hi => exact ⟨k₁, hi.live⟩
  | completed hc => exact ⟨k₂, hc.live⟩

/-- An activation that has just begun. -/
theorem recoverInv_begun {t : T} {force : Bool} {c₀ : Config Op Res (World N T) T Call Out}
    (hw₀ : Begun d k₁ k₂ w₀) (hne : k₁ ≠ k₂)
    (h₀ : (cluster cfg node).run (.idle w₀) [.start t (.activateCertificateKey d force)] = some c₀) :
    RecoverInv cfg node d k₁ k₂ w₀ c₀.view ∧
      Machine.OnTrack (((marks cfg).and handsOn).and flushes) c₀ := by
  have hfollows := ((cluster_marks cfg node).and (cluster_handsOn cfg node)).and
    (cluster_flushes cfg node)
  have hstep : (cluster cfg node).step (.idle w₀) (.start t (.activateCertificateKey d force)) =
      some (.start t (.activateCertificateKey d force), c₀) := by
    simpa [Machine.run, Machine.step, Config.idle] using h₀
  obtain ⟨hmove, htrack⟩ := Machine.step_refines hfollows (Machine.onTrack_idle w₀) hstep
  have hmarks := markerInv_move (markerInv_idle cfg node w₀) hmove.left.left
    (fun q hq => by cases hq; rfl) (fun u hu => by cases hu)
  refine ⟨?_, htrack⟩
  have hview := hmove.start_cases
  have honly : ∀ {u : T} {x : Call × History}, c₀.view.task u = some x →
      u = t ∧ x = (.activateCertificateKey d force, []) := by
    intro u x hu
    rw [hview] at hu
    rcases View.put_cases hu with ⟨rfl, ⟨⟩⟩ | ⟨-, hu'⟩
    · exact ⟨rfl, rfl⟩
    · cases hu'
  have hshared : c₀.view.shared = w₀ := by rw [hview]; rfl
  have hsame : SameObjects d w₀ c₀.view.shared := by
    rw [hshared]
    exact ⟨rfl, rfl, rfl, rfl⟩
  refine ⟨hmarks, ?_, ?_, .begun hsame, ?_, ?_⟩
  · intro u u' x y hu hu'
    exact (honly hu).1.trans (honly hu').1.symm
  · intro u q h hu
    cases (honly hu).2
    exact Or.inl ⟨force, rfl⟩
  · rw [hshared]
    exact hw₀.pending
  · intro u q h hu
    cases (honly hu).2
    exact readsPhase_nil fun _ => hsame.not_completed hw₀ hne

/-- An activation that is cut off anywhere, with flushes and reconciliations after it.  If the soak
is longer than an attempt, a marker found outlasts the attempt that finds it and a promotion lands
within its attempt, the promotion is made while the outgoing digest is marked and in force; a
reconciliation that completes leaves what was there before, or a completed ceremony; and a further
one changes nothing. -/
theorem ceremony_recovers (cfg : Settings) (node : T → N) (d : Name) (k₁ k₂ : Key) (hne : k₁ ≠ k₂)
    (hsoak : ∀ dane, cfg.dane = some dane → issueTimeout + second ≤ dane.soak) (w₀ : World N T)
    (hw₀ : Begun d k₁ k₂ w₀) (t : T) (force : Bool) (as : List (Action T Call Answer))
    (c₀ : Config Op Res (World N T) T Call Out)
    (h₀ : (cluster cfg node).run (.idle w₀) [.start t (.activateCertificateKey d force)] = some c₀)
    (hcalls : (cluster cfg node).Meets (RecoveryCalls d) c₀ as)
    (hlasts : (cluster cfg node).Meets (MarkerLasts d k₁) c₀ as)
    (hland : (cluster cfg node).Meets (fun v l v' => PromotesInTime d l v.shared v'.shared) c₀ as) :
    (cluster cfg node).Meets (PromotesMarked cfg d k₁) c₀ as ∧
      (cluster cfg node).Meets (Recovers cfg d k₁ k₂ w₀) c₀ as ∧
      ∀ c₁, (cluster cfg node).run c₀ as = some c₁ → (∀ u, c₁.view.task u = none) →
        ¬Interrupted d k₁ k₂ c₁.shared → ∀ bs c₂, (cluster cfg node).Meets (Reconciles d) c₁ bs →
          (cluster cfg node).run c₁ bs = some c₂ → SameObjects d c₁.shared c₂.shared := by
  have hfollows := ((cluster_marks cfg node).and (cluster_handsOn cfg node)).and
    (cluster_flushes cfg node)
  have hmeets := hcalls.and (hlasts.and hland)
  obtain ⟨hI₀, htrack₀⟩ := recoverInv_begun hw₀ hne h₀
  have hstep : ∀ v l v', RecoverInv cfg node d k₁ k₂ w₀ v →
      Move (cluster cfg node) (((marks cfg).and handsOn).and flushes) v l v' →
        RecoveryCalls d v l v' ∧ MarkerLasts d k₁ v l v' ∧ PromotesInTime d l v.shared v'.shared →
          RecoverInv cfg node d k₁ k₂ w₀ v' :=
    fun v l v' hI hmove hA => recoverInv_move hI hw₀ hne hsoak hmove hA.1 hA.2.1 hA.2.2
  have hrun := Machine.run_meets hfollows hstep as c₀ htrack₀ hI₀ hmeets
  refine ⟨?_, ?_, ?_⟩
  · exact hrun.mono fun v l v' hmove =>
      promotesMarked_move hmove.2.2.1 hw₀ hne hsoak hmove.1 hmove.2.1.2.2
  · exact hrun.mono fun v l v' hmove => recovers_move hmove.2.2.1 hw₀ hne hmove.1.left.left
  · intro c₁ h₁ hidle hnot bs c₂ hrecs h₂
    have hI₁ := (Machine.run_invariant hfollows hstep as c₀ c₁ htrack₀ hI₀ hmeets h₁).1
    obtain ⟨k, hk⟩ := hI₁.phase.live_exists hw₀
    have hrest : Reconciled d c₁.shared := hI₁.phase.reconciled hw₀ hne hnot
    have hbusy : ∀ {u : T} {x : Call × History}, c₁.view.task u ≠ some x := by
      intro u x hu
      rw [hidle u] at hu
      cases hu
    -- nothing is in progress, so nothing has been read
    have hstart : UnchangedInv d c₁.shared c₁.view :=
      ⟨⟨rfl, rfl, rfl, rfl⟩, fun u q h hu => absurd hu hbusy, fun u q h hu => absurd hu hbusy,
        fun u q h hu => absurd hu hbusy, fun u q h hu => absurd hu hbusy⟩
    have htrack₁ : Machine.OnTrack ((marks cfg).and handsOn) c₁ := by
      intro u k hu
      exact absurd (show c₁.view.task u = some (k.req, k.hist) by simp [Config.view, hu]) hbusy
    have hend := Machine.run_invariant ((cluster_marks cfg node).and (cluster_handsOn cfg node))
      (fun v l v' hI hmove hA => unchangedInv_move hk hrest hI hmove hA) bs c₁ c₂ htrack₁ hstart
      hrecs h₂
    exact hend.1.same

end

/-! ## An activation cut off after its marker -/

/-- The activation stores the chain and marks the outgoing digest; its process dies. -/
def cutOff : List (Action (Fin 2) Call Answer) :=
  (List.replicate 26 (.step 0 { notAfter := 20000000 }) : Schedule 2) ++ ([.crash 0] : Schedule 2)

/-- Another process reconciles, `late` after that; its write of the live key takes `wait`. -/
def reconciling (late wait : Time) : List (Action (Fin 2) Call Answer) :=
  (.start 1 (.reconcileCeremony "a") :: .step 1 { wait := late } ::
      List.replicate 10 (.step 1 {}) : Schedule 2) ++
    (.step 1 { wait := wait } :: List.replicate 5 (.step 1 {}) : Schedule 2) ++
    ([.finish 1] : Schedule 2)

theorem begun_mailWorld (t : Time) :
    Begun "a" ⟨0⟩ ⟨1⟩ (mailWorld (Fin 2) (Fin 2) t []) :=
  ⟨⟨_, rfl, rfl⟩, rfl, rfl, fun _ _ hp => by cases hp⟩

/-- Reconciled at once, the ceremony is completed. -/
theorem ceremony_recovers_cut_off :
    ∃ c₀ c₁, (cluster (.mail (1000 * second)) (id : Fin 2 → Fin 2)).run
        (.idle (mailWorld _ _ (100 * second) [])) [.start 0 (.activateCertificateKey "a" false)] =
          some c₀ ∧
      (cluster (.mail (1000 * second)) (id : Fin 2 → Fin 2)).run c₀
        (cutOff ++ reconciling 0 0) = some c₁ ∧
      c₁.shared.storage.key (.live "a") = some (.key ⟨1⟩) ∧
      (cluster (.mail (1000 * second)) (id : Fin 2 → Fin 2)).Meets
        (PromotesMarked (.mail (1000 * second)) "a" ⟨0⟩) c₀ (cutOff ++ reconciling 0 0) := by
  refine ⟨_, _, rfl, rfl, rfl, ?_⟩
  exact (ceremony_recovers (.mail (1000 * second)) id "a" ⟨0⟩ ⟨1⟩ (by decide)
    (fun dane hdane => by cases hdane; decide) _ (begun_mailWorld _) 0 false
    (cutOff ++ reconciling 0 0) _ rfl (by decide +kernel) (by decide +kernel)
    (by decide +kernel)).1

/-- Reconciled as the marker is about to run out, 999 s later: the digest is still marked when the
reconciliation looks, and no longer when the promotion lands. -/
theorem ceremony_promotes_unmarked :
    ∃ c₀, (cluster (.mail (1000 * second)) (id : Fin 2 → Fin 2)).run
        (.idle (mailWorld _ _ (100 * second) [])) [.start 0 (.activateCertificateKey "a" false)] =
          some c₀ ∧
      (cluster (.mail (1000 * second)) (id : Fin 2 → Fin 2)).Meets (RecoveryCalls "a") c₀
        (cutOff ++ reconciling (999 * second) (2 * second)) ∧
      ¬(cluster (.mail (1000 * second)) (id : Fin 2 → Fin 2)).Meets
        (PromotesMarked (.mail (1000 * second)) "a" ⟨0⟩) c₀
        (cutOff ++ reconciling (999 * second) (2 * second)) := by
  refine ⟨_, rfl, ?_, ?_⟩
  · decide +kernel
  · decide +kernel

end CertsManager
