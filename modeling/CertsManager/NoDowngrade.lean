import CertsManager.HeldServed
import CertsManager.Discipline.WriteBack

/-!
# NoDowngrade — storage is not set back by a flush or a restoration

The writer of both reads the object for itself, under the lease, and writes over nothing, over what
is no chain, or over a chain that expires earlier.  While leases exclude one another what it read is
still what is stored when it writes, whoever else flushes, restores, issues or activates meanwhile.
The listing that nominates names for restoration plays no part in this.
-/

namespace CertsManager

open Interleave

section

variable {N T : Type}

/-! ## What is asked of a write -/

/-- The recorded expiry is the chain's. -/
def Dated (p : PendingPersist) : Prop :=
  leafNotAfterPEM p.chainPEM = .ok p.notAfter

/-- A held chain's recorded expiry is the chain's, on every node. -/
def HeldDated (w : World N T) : Prop :=
  ∀ i n p, (w.node i).pending.lookup n = some p → Dated p

/-- The chain expires later than what is stored, if that is a chain; and what is stored was asked
for and told. -/
structure Advances (stored : Option ChainPEM) (h : History) (n : Name) (c : ChainPEM) : Prop where
  later : ∀ old, stored = some (.chain old) → ∃ new, c = .chain new ∧ old.notAfter < new.notAfter
  told : lastRead h n = some (answer stored)

/-- A restored chain is unexpired, one of the node's names', and the read live key's. -/
structure Restores (cfg : Settings) (h : History) (n : Name) (c : ChainPEM) : Prop where
  unexpired : ∃ leaf t, c = .chain leaf ∧ (readings h).head? = some t ∧ t < leaf.notAfter * second
  served : ServedName cfg h n
  bound : ∃ k, LiveRead h n k ∧ Bound (· = k.public) c

/-- Every write of a flush or a restoration advances storage; a restoration's is in addition of a
chain that may be restored. -/
def WritesForward (cfg : Settings) (v : ClusterView N T) (l : ClusterLabel T)
    (_ : ClusterView N T) : Prop :=
  ∀ g ∈ chainPut l, ∀ x ∈ v.task g.1,
    (x.1 = .flushHeldChains ∨ x.1 = .restoreMissingChains →
      Advances (v.shared.storage.chain g.2.1) x.2 g.2.1 g.2.2) ∧
    (x.1 = .restoreMissingChains → Restores cfg x.2 g.2.1 g.2.2)

/-! ## The invariant -/

structure ForwardInv (cfg : Settings) (node : T → N) (v : ClusterView N T) : Prop where
  custody : Custody cfg node v
  alone : Alone cfg v
  held : HeldDated v.shared
  offered : ∀ t q h, v.task t = some (q, h) → ∀ n p, Offered h n p → Dated p

variable [DecidableEq N] [DecidableEq T] {cfg : Settings} {node : T → N}

section Did

variable {v : ClusterView N T} {t : T} {q : Call} {h : History} {o : Op} {a : Answer} {r : Res o}
  {w' : World N T}

omit [DecidableEq T] in
theorem heldDated_did (hheld : HeldDated v.shared) (hmay : mayKeep cfg q h o)
    (he : exec cfg.maxRetries node v.shared t o a = some (r, w')) : HeldDated w' := by
  intro i n p hp
  rcases exec_pending he i n with hsame | ⟨p', rfl, -, hset⟩ | ⟨-, -, hnone⟩
  · exact hheld i n p (hsame ▸ hp)
  · obtain rfl : p' = p := Option.some.inj (hset.symm.trans hp)
    exact hmay.2.1
  · simp [hnone] at hp

omit [DecidableEq T] in
/-- A snapshot offers what is held. -/
theorem offered_did (hheld : HeldDated v.shared) (hoffered : ∀ n p, Offered h n p → Dated p)
    (he : exec cfg.maxRetries node v.shared t o a = some (r, w')) {n : Name} {p : PendingPersist}
    (hp : Offered (⟨o, r⟩ :: h) n p) : Dated p := by
  obtain ⟨entries, hmem, hentry⟩ := hp
  rcases List.mem_cons.1 hmem with heq | hmem
  · cases heq
    exact hheld _ n p (exec_pendingSnapshot he hentry)
  · exact hoffered n p ⟨entries, hmem, hentry⟩

omit [DecidableEq N] [DecidableEq T] in
/-- What was read under the lease is what is stored. -/
theorem WritesOver.advances {n : Name} {p : PendingPersist} {x : Option ChainPEM}
    (hI : ForwardInv cfg node v) (ht : v.task t = some (q, h))
    (hover : WritesOver cfg h n p.notAfter x) (hp : Dated p) :
    Advances (v.shared.storage.chain n) h n p.chainPEM := by
  have hstored := (hI.custody t q h ht).chain n x hover.leased hover.known
  rw [hstored]
  refine ⟨fun old hold => ?_, hover.read⟩
  have hlt := hover.behind old hold
  cases hc : p.chainPEM with
  | garbage => simp [Dated, hc, leafNotAfterPEM] at hp
  | chain new =>
      have hexp : new.notAfter = p.notAfter := by simpa [Dated, hc, leafNotAfterPEM] using hp
      exact ⟨new, rfl, hexp ▸ hlt⟩

omit [DecidableEq N] [DecidableEq T] in
theorem Restorable.dated {n : Name} {p : PendingPersist} (hp : Restorable cfg h n p) : Dated p := by
  obtain ⟨leaf, -, hchain, hexp, -, -⟩ := hp.bound
  simp [Dated, hchain, leafNotAfterPEM, hexp]

omit [DecidableEq N] [DecidableEq T] in
theorem Restorable.restores {n : Name} {p : PendingPersist} (hp : Restorable cfg h n p) :
    Restores cfg h n p.chainPEM := by
  obtain ⟨leaf, k, hchain, hexp, hk, hpub⟩ := hp.bound
  obtain ⟨t, hread, hlt⟩ := hp.unexpired
  rw [hchain]
  exact ⟨⟨leaf, t, rfl, hread, hexp ▸ hlt⟩, hp.served, k, hk, hpub⟩

end Did

/-! ## Whole runs -/

theorem forwardInv_move {v v' : ClusterView N T} {l : ClusterLabel T} (hI : ForwardInv cfg node v)
    (hmove : Move (cluster cfg node) (keeps cfg) v l v') (hA : LeaseExclusive cfg v l v') :
    ForwardInv cfg node v' := by
  have hcustody := custody_move hI.custody hI.alone hmove
  have halone := alone_move hI.alone hmove hA
  cases hmove with
  | start _ =>
      refine ⟨hcustody, halone, hI.held, fun u q' h' hu => ?_⟩
      rcases View.put_cases hu with ⟨-, ⟨⟩⟩ | ⟨-, hu'⟩
      · simp [Offered]
      · exact hI.offered u q' h' hu'
  | @did t q h o a r w' ht hmay he =>
      replace he : exec cfg.maxRetries node v.shared t o a = some (r, w') := he
      refine ⟨hcustody, halone, heldDated_did hI.held hmay he, fun u q' h' hu n p hp => ?_⟩
      rcases View.put_cases hu with ⟨-, ⟨⟩⟩ | ⟨-, hu'⟩
      · exact offered_did hI.held (hI.offered t q h ht) he hp
      · exact hI.offered u q' h' hu' n p hp
  | finish _ _ | crash =>
      refine ⟨hcustody, halone, hI.held, fun u q' h' hu => ?_⟩
      rcases View.put_cases hu with ⟨-, ⟨⟩⟩ | ⟨-, hu'⟩
      exact hI.offered u q' h' hu'

theorem writesForward_move {v v' : ClusterView N T} {l : ClusterLabel T}
    (hI : ForwardInv cfg node v) (hmove : Move (cluster cfg node) (writesBack cfg) v l v') :
    WritesForward cfg v l v' := by
  rintro ⟨t, n, c⟩ hg ⟨q, h⟩ hx
  cases hmove with
  | @did u q₀ h₀ o a r w' hu hmay he =>
      cases o with
      | storage ctx o =>
          cases o with
          | putChain n' c' =>
              cases hg
              cases hu.symm.trans hx
              have hflush : q = .flushHeldChains →
                  Advances (v.shared.storage.chain n) h n c := by
                intro hq
                obtain ⟨p, x, hp, rfl, hover⟩ := hmay.1 hq
                exact hover.advances hI hx (hI.offered t q h hx n p hp)
              have hrestore : q = .restoreMissingChains →
                  Advances (v.shared.storage.chain n) h n c ∧ Restores cfg h n c := by
                intro hq
                obtain ⟨p, x, hp, rfl, hover⟩ := hmay.2 hq
                exact ⟨hover.advances hI hx hp.dated, hp.restores⟩
              exact ⟨fun hq => hq.elim hflush fun hq => (hrestore hq).1, fun hq => (hrestore hq).2⟩
          | _ => simp [chainPut] at hg
      | _ => simp [chainPut] at hg
  | _ => simp [chainPut] at hg

/-- Any calls on any nodes, whatever listings and reads answer.  While leases exclude one another, a
flush or a restoration writes a chain only after its own read of the object has told what is stored,
and over nothing that parses and expires no earlier.  What a restoration writes is in addition
unexpired, of a name the node serves, and of the live key read in that pass. -/
theorem writes_forward (cfg : Settings) (node : T → N) (w : World N T) (hheld : HeldDated w)
    (as : List (Action T Call Answer))
    (hA : (cluster cfg node).Meets (LeaseExclusive cfg) (.idle w) as) :
    (cluster cfg node).Meets (WritesForward cfg) (.idle w) as := by
  have hfollows := Machine.Follows.and (cluster_keeps cfg node) (cluster_writesBack cfg node)
  have hinit : ForwardInv cfg node (Config.idle w : Config Op Res (World N T) T Call Out).view := by
    refine ⟨?_, ?_, hheld, ?_⟩ <;> simp [Custody, Alone, Config.view, Config.idle]
  refine (Machine.run_meets hfollows (fun v l v' hI hmove hA => forwardInv_move hI hmove.left hA) as
    _ (Machine.onTrack_idle w) hinit hA).mono ?_
  rintro _ _ _ ⟨hmove, -, hI, -⟩
  exact writesForward_move hI hmove.right

end

/-! ## One node -/

/-- The domain `a` with its key, and its certificate in memory alone: the stored chain is lost. -/
def lostWorld (N T : Type) : World N T :=
  { World.empty N T with
    storage := { Storage.empty with
      key := Function.update (fun _ => none) (.live "a") (some (.key ⟨0⟩)) }
    node := fun _ => { NodeMemory.empty with
      mem := Function.update (fun _ => none) "a" (some ⟨⟨⟨0⟩, 10000000⟩, ⟨0⟩, rfl⟩) }
    nextKey := 1 }

/-- It is restored; then a renewal is refused by storage, and what it left held is flushed. -/
def restoreThenFlush : List (Action (Fin 1) Call Answer) :=
  (.start 0 .restoreMissingChains :: List.replicate 16 (.step 0 {}) : Schedule 1) ++
    (.finish 0 :: refusedRenewal 0 : Schedule 1) ++
    (.start 0 .flushHeldChains :: List.replicate 13 (.step 0 {}) : Schedule 1) ++
    ([.finish 0] : Schedule 1)

theorem writes_forward_restoreThenFlush :
    (cluster (.plain ["a"]) fun _ : Fin 1 => ()).Meets (WritesForward (.plain ["a"]))
      (.idle (lostWorld _ _)) restoreThenFlush ∧
    ∃ c ∈ (cluster (.plain ["a"]) fun _ : Fin 1 => ()).run (.idle (lostWorld _ _)) restoreThenFlush,
      c.shared.storage.chain "a" = some (.chain ⟨⟨0⟩, 20000000⟩) := by
  refine ⟨?_, by decide +kernel⟩
  exact writes_forward (.plain ["a"]) (fun _ => ()) (lostWorld _ _) (fun _ _ _ hp => (by cases hp))
    restoreThenFlush (by decide +kernel)

end CertsManager
