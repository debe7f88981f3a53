import CertsManager.Orders

/-!
# HeldChains — when a chain storage refused is let go

A chain that could not be stored is held in memory and retried.  It is let go when a later order's
chain takes its place, or when storage holds a chain that expires no earlier: every operation under
the name's lock sees to that from what it knows.

The flush does not always.  It works through a snapshot, and drops whatever is held for a name when
it has dealt with the snapshot's entry for it.  If a later order was held in between, that is what
is dropped, over a stored chain that expires earlier.  The result below is for runs in which the
flush finds what its snapshot says, or nothing.
-/

namespace CertsManager

open Interleave

section

variable {N T : Type}

/-! ## What is held -/

/-- The entry `hold` makes for an issued certificate. -/
def Leaf.held (leaf : Leaf) : PendingPersist :=
  ⟨.chain leaf, leaf.notAfter⟩

/-- Every held chain is a certificate the CA issued for the name. -/
def HeldFromIssued (w : World N T) : Prop :=
  ∀ i n p, (w.node i).pending.lookup n = some p → ∃ leaf ∈ w.issued n, p = leaf.held

/-- An entry whose recorded expiry is its chain's is the one `hold` makes. -/
theorem held_of_leafNotAfter {p : PendingPersist} {leaf : Leaf}
    (hp : leafNotAfterPEM p.chainPEM = .ok p.notAfter) (hc : p.chainPEM = .chain leaf) :
    p = leaf.held := by
  cases p with
  | mk chainPEM notAfter =>
      subst hc
      have hn : leaf.notAfter = notAfter := by simpa [leafNotAfterPEM] using hp
      simp [Leaf.held, hn]

/-- The entries for `n` in the snapshots the operation took. -/
def offered (h : History) (n : Name) : List PendingPersist :=
  h.flatMap fun
    | ⟨.mem .pendingSnapshot, r⟩ => (r.filter fun e => e.1 = n).map Prod.snd
    | _ => []

theorem mem_offered {h : History} {n : Name} {p : PendingPersist} (hp : Offered h n p) :
    p ∈ offered h n := by
  obtain ⟨r, hr, hmem⟩ := hp
  refine List.mem_flatMap.2 ⟨_, hr, ?_⟩
  exact List.mem_map.2 ⟨(n, p), List.mem_filter.2 ⟨hmem, by simp⟩, rfl⟩

/-! ## The rules of a run -/

/-- No chain is written back from what is served. -/
def StartsNoRestore (_ : ClusterView N T) (l : ClusterLabel T) (_ : ClusterView N T) : Prop :=
  ∀ q ∈ started l, q ≠ .restoreMissingChains

/-- The thread and the name of a held chain this move let go. -/
def dropped : ClusterLabel T → Option (T × Name)
  | .did t ⟨.mem (.pendingDelete n), _⟩ => some (t, n)
  | _ => none

/-- When an operation that took a snapshot lets go of a name's held chain, the node holds for it
what the snapshot says, or nothing. -/
def DropsOffered (node : T → N) (v : ClusterView N T) (l : ClusterLabel T)
    (_ : ClusterView N T) : Prop :=
  ∀ g ∈ dropped l, ∀ x ∈ v.task g.1, ∀ p ∈ offered x.2 g.2,
    ∀ p' ∈ (v.shared.node (node g.1)).pending.lookup g.2, p' = p

instance (v : ClusterView N T) (l : ClusterLabel T) (v' : ClusterView N T) :
    Decidable (StartsNoRestore v l v') :=
  inferInstanceAs (Decidable (∀ q ∈ started l, _))

instance (node : T → N) (v : ClusterView N T) (l : ClusterLabel T) (v' : ClusterView N T) :
    Decidable (DropsOffered node v l v') :=
  inferInstanceAs (Decidable (∀ g ∈ dropped l, ∀ x ∈ v.task g.1, ∀ p ∈ offered x.2 g.2,
    ∀ p' ∈ (v.shared.node (node g.1)).pending.lookup g.2, p' = p))

/-- A chain held for `n` is still held, or a later one is, or storage holds one that expires no
earlier. -/
def HeldSafe (n : Name) (v : ClusterView N T) (_ : ClusterLabel T) (v' : ClusterView N T) : Prop :=
  ∀ i, ∀ p ∈ (v.shared.node i).pending.lookup n,
    (v'.shared.node i).pending.lookup n = some p ∨
    (∃ p' ∈ (v'.shared.node i).pending.lookup n, p.notAfter < p'.notAfter) ∨
    ∃ c ∈ v'.shared.storage.chain n, ∃ notAfter ∈ (leafNotAfterPEM c).toOption,
      p.notAfter ≤ notAfter

instance [Fintype N] (n : Name) (v : ClusterView N T) (l : ClusterLabel T) (v' : ClusterView N T) :
    Decidable (HeldSafe n v l v') :=
  inferInstanceAs (Decidable (∀ i, ∀ p ∈ (v.shared.node i).pending.lookup n, _ ∨ _ ∨ _))

/-! ## The invariant -/

/-- The chain in hand is an issued certificate, and what is held beside it is the same or earlier. -/
structure HeldCore (cfg : Settings) (node : T → N) (v : ClusterView N T) : Prop where
  locking : Locking cfg node v
  issued : HeldFromIssued v.shared
  order : ∀ t q h, v.task t = some (q, h) → ∀ n c, (know cfg h).Leased n →
    (know cfg h).order = some c → ∃ leaf ∈ v.shared.issued n, c = .chain leaf ∧
      ∀ p, (v.shared.node (node t)).pending.lookup n = some p →
        p = leaf.held ∨ p.notAfter < leaf.notAfter

structure HeldInv (cfg : Settings) (node : T → N) (v : ClusterView N T) : Prop extends
    HeldCore cfg node v where
  custody : Custody cfg node v
  requests : ∀ t q h, v.task t = some (q, h) → q ≠ .restoreMissingChains

variable [DecidableEq N] [DecidableEq T] {cfg : Settings} {node : T → N}

section Did

variable {v : ClusterView N T} {t : T} {q : Call} {h : History} {o : Op} {a : Answer} {r : Res o}
  {w' : World N T}

omit [DecidableEq N] [DecidableEq T] in
/-- What an operation sets aside is the certificate it ordered, or the entry it found held. -/
theorem held_of_set {n : Name} {p : PendingPersist} (hI : HeldCore cfg node v)
    (ht : v.task t = some (q, h)) (hmay : mayKeep cfg q h (.mem (.pendingSet n p))) :
    ∃ leaf ∈ v.shared.issued n, p = leaf.held ∧
      ∀ p', (v.shared.node (node t)).pending.lookup n = some p' →
        p' = leaf.held ∨ p'.notAfter < leaf.notAfter := by
  obtain ⟨hn, hexp, horder | ⟨-, p₀, hheld, hchain⟩, -⟩ := hmay
  · -- a new order
    obtain ⟨leaf, hleaf, hc, hbelow⟩ := hI.order t q h ht n _ hn horder
    exact ⟨leaf, hleaf, held_of_leafNotAfter hexp hc, hbelow⟩
  · -- the held entry again: under the lock it is still the one that was looked up
    have hpending := (hI.locking t q h ht).held n _ hn.1 hheld
    obtain ⟨leaf, hleaf, rfl⟩ := hI.issued _ n p₀ hpending
    refine ⟨leaf, hleaf, held_of_leafNotAfter hexp hchain.symm, ?_⟩
    intro p' hp'
    have hsame : leaf.held = p' := Option.some.inj (hpending.symm.trans hp')
    exact Or.inl hsame.symm

omit [DecidableEq N] [DecidableEq T] in
/-- What is held when an operation lets go of it expires no later than the stored chain. -/
theorem covered_of_drop {n : Name} {p : PendingPersist} (hI : HeldInv cfg node v)
    (ht : v.task t = some (q, h)) (hmay : mayKeep cfg q h (.mem (.pendingDelete n)))
    (hoffered : ∀ p' ∈ offered h n, p = p')
    (hp : (v.shared.node (node t)).pending.lookup n = some p) :
    ∃ c ∈ v.shared.storage.chain n, ∃ notAfter ∈ (leafNotAfterPEM c).toOption,
      p.notAfter ≤ notAfter := by
  obtain ⟨hn, c, hchain, hwhy⟩ := hmay
  have hstored := (hI.custody t q h ht).chain n _ hn hchain
  have hcovered : ∀ leaf : Leaf, c = .chain leaf → p.notAfter ≤ leaf.notAfter →
      ∃ c ∈ v.shared.storage.chain n, ∃ notAfter ∈ (leafNotAfterPEM c).toOption,
        p.notAfter ≤ notAfter := by
    rintro leaf rfl hle
    exact ⟨_, hstored, leaf.notAfter, rfl, hle⟩
  obtain ⟨leaf, -, rfl⟩ := hI.issued _ n p hp
  rcases hwhy with (horder | ⟨-, p₀, hheld, rfl⟩) | ⟨p₀, hp₀, hcovers⟩ | hrestore
  · -- the ordered chain was stored
    obtain ⟨new, -, rfl, hbelow⟩ := hI.order t q h ht n c hn horder
    rcases hbelow _ hp with hsame | hlt
    · have hle : leaf.notAfter = new.notAfter := congrArg PendingPersist.notAfter hsame
      exact hcovered new rfl hle.le
    · exact hcovered new rfl hlt.le
  · -- the held entry was stored
    have hpending := (hI.custody t q h ht).held n _ hn.1 hheld
    obtain rfl : leaf.held = p₀ := Option.some.inj (hp.symm.trans hpending)
    exact hcovered leaf rfl le_rfl
  · -- the snapshot's entry was stored, or storage covers it; what is held is that entry
    obtain rfl := hoffered p₀ (mem_offered hp₀)
    rcases hcovers with rfl | ⟨stored, rfl, hle⟩
    · exact hcovered leaf rfl le_rfl
    · exact hcovered stored rfl hle
  · exact absurd hrestore (hI.requests t q h ht)

theorem heldSafe_did (hI : HeldInv cfg node v) (ht : v.task t = some (q, h))
    (hmay : mayKeep cfg q h o) (he : exec cfg.maxRetries node v.shared t o a = some (r, w'))
    (hA : DropsOffered node v (.did t ⟨o, r⟩) (v.put t w' (some (q, ⟨o, r⟩ :: h)))) (n : Name) :
    HeldSafe n v (.did t ⟨o, r⟩) (v.put t w' (some (q, ⟨o, r⟩ :: h))) := by
  intro i p hp
  rw [View.put_shared]
  rcases exec_pending he i n with hsame | ⟨p', rfl, rfl, hset⟩ | ⟨rfl, rfl, -⟩
  · exact Or.inl (hsame.trans hp)
  · -- set aside: the same entry again, or a later one
    obtain ⟨leaf, -, rfl, hbelow⟩ := held_of_set hI.toHeldCore ht hmay
    rcases hbelow p hp with rfl | hlt
    · exact Or.inl hset
    · exact Or.inr (Or.inl ⟨_, hset, hlt⟩)
  · -- let go
    have hoffered : ∀ p' ∈ offered h n, p = p' := fun p' hp' => hA (t, n) rfl (q, h) ht p' hp' p hp
    have hstorage : w'.storage = v.shared.storage := by
      rcases exec_storage he with hst | ⟨_, _, hso, -⟩
      · exact hst
      · simp at hso
    rw [hstorage]
    exact Or.inr (Or.inr (covered_of_drop hI ht hmay hoffered hp))

omit [DecidableEq T] in
theorem heldFromIssued_did (hI : HeldCore cfg node v) (ht : v.task t = some (q, h))
    (hmay : mayKeep cfg q h o) (he : exec cfg.maxRetries node v.shared t o a = some (r, w')) :
    HeldFromIssued w' := by
  intro i n p hp
  rcases exec_pending he i n with hsame | ⟨p', rfl, -, hset⟩ | ⟨-, -, hnone⟩
  · obtain ⟨leaf, hleaf, rfl⟩ := hI.issued i n p (hsame ▸ hp)
    exact ⟨leaf, exec_issued_mono he hleaf, rfl⟩
  · obtain rfl : p' = p := Option.some.inj (hset.symm.trans hp)
    obtain ⟨leaf, hleaf, rfl, -⟩ := held_of_set hI ht hmay
    exact ⟨leaf, exec_issued_mono he hleaf, rfl⟩
  · simp [hnone] at hp

/-- The caller's own order: a new one is later than anything held. -/
theorem order_did (hI : HeldCore cfg node v) (ht : v.task t = some (q, h))
    (hmay : mayKeep cfg q h o) (he : exec cfg.maxRetries node v.shared t o a = some (r, w'))
    (hA : LaterOrders v (.did t ⟨o, r⟩) (v.put t w' (some (q, ⟨o, r⟩ :: h)))) {n : Name}
    {c : ChainPEM} (hn : (know cfg (⟨o, r⟩ :: h)).Leased n)
    (hc : (know cfg (⟨o, r⟩ :: h)).order = some c) :
    ∃ leaf ∈ w'.issued n, c = .chain leaf ∧
      ∀ p, (w'.node (node t)).pending.lookup n = some p →
        p = leaf.held ∨ p.notAfter < leaf.notAfter := by
  rw [know_cons] at hn hc
  rcases order_after hc with hc₀ | ⟨ctx, m, k, heq, hm⟩
  · -- an order placed earlier was placed under the same lease
    have hn₀ : (know cfg h).Leased n := by
      rcases leased_after hn with hn₀ | ⟨ctx, heq⟩
      · exact hn₀
      · cases heq
        have hnone := ((know_sound cfg h).unleased hmay.2).2.1
        simp [hnone] at hc₀
    obtain ⟨leaf, hleaf, rfl, hbelow⟩ := hI.order t q h ht n c hn₀ hc₀
    refine ⟨leaf, exec_issued_mono he hleaf, rfl, fun p hp => ?_⟩
    rcases exec_pending he (node t) n with hsame | ⟨p', rfl, -, hset⟩ | ⟨-, -, hnone⟩
    · exact hbelow p (hsame ▸ hp)
    · obtain rfl : p' = p := Option.some.inj (hset.symm.trans hp)
      obtain ⟨-, hexp, horder | ⟨hnone, -⟩, -⟩ := hmay
      · have hchain : p'.chainPEM = .chain leaf := Option.some.inj (horder.symm.trans hc₀)
        exact Or.inl (held_of_leafNotAfter hexp hchain)
      · simp [hnone] at hc₀
    · simp [hnone] at hp
  · cases heq
    -- the lock is the same before and after an order
    have hlock : (know cfg h).lock = some n := by
      have hn' := hn.1
      rw [Know.after, if_pos hm] at hn'
      exact hn'
    obtain rfl : m = n := Option.some.inj (hm.1.symm.trans hlock)
    obtain ⟨notAfter, rfl, hissued⟩ := exec_issue_ok he
    have hlater : (w'.issued m).Pairwise fun later earlier => earlier.notAfter < later.notAfter :=
      hA (t, m) rfl
    rw [hissued] at hlater ⊢
    refine ⟨_, List.mem_cons_self, rfl, fun p hp => ?_⟩
    rw [(exec_still he trivial (node t) m).2.2] at hp
    obtain ⟨leaf, hleaf, rfl⟩ := hI.issued _ m p hp
    exact Or.inr (List.rel_of_pairwise_cons hlater hleaf)

omit [DecidableEq T] in
/-- Another thread's order: what is held for a locked name is its holder's to change. -/
theorem order_other (hI : HeldCore cfg node v) (ht : v.task t = some (q, h))
    (hmay : mayKeep cfg q h o) (he : exec cfg.maxRetries node v.shared t o a = some (r, w')) {u : T}
    {q' : Call} {h' : History} (hut : u ≠ t) (hu : v.task u = some (q', h')) {n : Name}
    {c : ChainPEM} (hn : (know cfg h').Leased n) (hc : (know cfg h').order = some c) :
    ∃ leaf ∈ w'.issued n, c = .chain leaf ∧
      ∀ p, (w'.node (node u)).pending.lookup n = some p →
        p = leaf.held ∨ p.notAfter < leaf.notAfter := by
  obtain ⟨leaf, hleaf, rfl, hbelow⟩ := hI.order u q' h' hu n c hn hc
  refine ⟨leaf, exec_issued_mono he hleaf, rfl, fun p hp => ?_⟩
  rcases exec_pending he (node u) n with hsame | ⟨_, rfl, hnode, -⟩ | ⟨rfl, hnode, -⟩
  · exact hbelow p (hsame ▸ hp)
  all_goals exact absurd (hI.locking.same_of_lock hu ht hnode hn.1 hmay.1.1) hut

end Did

/-! ## Whole runs -/

/-- Orders are ever later, nothing is written back from what is served, and a flush that lets go
finds what its snapshot says. -/
def HeldRules (node : T → N) (v : ClusterView N T) (l : ClusterLabel T) (v' : ClusterView N T) :
    Prop :=
  LaterOrders v l v' ∧ StartsNoRestore v l v' ∧ DropsOffered node v l v'

instance (v : ClusterView N T) (l : ClusterLabel T) (v' : ClusterView N T) :
    Decidable (HeldRules node v l v') :=
  inferInstanceAs (Decidable (_ ∧ _ ∧ _))

theorem heldCore_move {v v' : ClusterView N T} {l : ClusterLabel T} (hI : HeldCore cfg node v)
    (hmove : Move (cluster cfg node) (keeps cfg) v l v') (hA : LaterOrders v l v') :
    HeldCore cfg node v' := by
  have hlocking := locking_move hI.locking hmove
  cases hmove with
  | @start t q ht =>
      refine ⟨hlocking, hI.issued, fun u q' h' hu => ?_⟩
      rcases View.put_cases hu with ⟨-, ⟨⟩⟩ | ⟨-, hu'⟩
      · simp [Know.Leased]
      · exact hI.order u q' h' hu'
  | @did t q h o a r w' ht hmay he =>
      replace he : exec cfg.maxRetries node v.shared t o a = some (r, w') := he
      replace hmay : mayKeep cfg q h o := hmay
      refine ⟨hlocking, heldFromIssued_did hI ht hmay he, fun u q' h' hu n c hn hc => ?_⟩
      rcases View.put_cases hu with ⟨rfl, ⟨⟩⟩ | ⟨hut, hu'⟩
      · exact order_did hI ht hmay he hA hn hc
      · exact order_other hI ht hmay he hut hu' hn hc
  | finish _ _ | crash =>
      refine ⟨hlocking, hI.issued, fun u q' h' hu => ?_⟩
      rcases View.put_cases hu with ⟨-, ⟨⟩⟩ | ⟨-, hu'⟩
      exact hI.order u q' h' hu'

theorem heldInv_move (hone : ∀ t u, node t = node u) {v v' : ClusterView N T} {l : ClusterLabel T}
    (hI : HeldInv cfg node v) (hmove : Move (cluster cfg node) (keeps cfg) v l v')
    (hA : HeldRules node v l v') : HeldInv cfg node v' := by
  -- on one node the lock alone makes the lease exclusive
  have halone : Alone cfg v := fun t u q q' h h' n ht hu hn hn' =>
    hI.custody.same_of_lock ht hu (hone t u) hn.1 hn'.1
  have hcustody := custody_move hI.custody halone hmove
  refine ⟨heldCore_move hI.toHeldCore hmove hA.1, hcustody, fun u q' h' hu => ?_⟩
  cases hmove with
  | @start t q ht =>
      rcases View.put_cases hu with ⟨-, ⟨⟩⟩ | ⟨-, hu'⟩
      · exact hA.2.1 _ rfl
      · exact hI.requests u q' h' hu'
  | did ht hmay he =>
      rcases View.put_cases hu with ⟨-, ⟨⟩⟩ | ⟨-, hu'⟩
      · exact hI.requests _ _ _ ht
      · exact hI.requests u q' h' hu'
  | finish _ _ | crash =>
      rcases View.put_cases hu with ⟨-, ⟨⟩⟩ | ⟨-, hu'⟩
      exact hI.requests u q' h' hu'

omit [DecidableEq N] [DecidableEq T] in
theorem heldCore_idle {w : World N T} (hw : HeldFromIssued w) :
    HeldCore cfg node (Config.idle w : Config Op Res (World N T) T Call Out).view :=
  ⟨by simp [Locking, Config.view, Config.idle], hw, by simp [Config.view, Config.idle]⟩

theorem heldSafe_move {v v' : ClusterView N T} {l : ClusterLabel T} (hI : HeldInv cfg node v)
    (hmove : Move (cluster cfg node) (keeps cfg) v l v') (hA : DropsOffered node v l v')
    (n : Name) : HeldSafe n v l v' := by
  cases hmove with
  | did ht hmay he => exact heldSafe_did hI ht hmay he hA n
  | start _ | finish _ _ | crash => exact fun i p hp => Or.inl hp

/-- On one node, along every schedule in which a flush that lets go of a held chain finds what its
snapshot says, a held chain is let go only for a later one, or over a stored chain that expires no
earlier. -/
theorem heldChain_kept (cfg : Settings) (node : T → N) (hone : ∀ t u, node t = node u)
    (w : World N T) (hw : HeldFromIssued w) (as : List (Action T Call Answer))
    (hA : (cluster cfg node).Meets (HeldRules node) (.idle w) as) (n : Name) :
    (cluster cfg node).Meets (HeldSafe n) (.idle w) as := by
  have hinit : HeldInv cfg node (Config.idle w : Config Op Res (World N T) T Call Out).view :=
    ⟨heldCore_idle hw, by simp [Custody, Config.view, Config.idle],
      by simp [Config.view, Config.idle]⟩
  have hrun := Machine.run_meets (cluster_keeps cfg node)
    (fun _ _ _ hI hmove hA => heldInv_move hone hI hmove hA) as _ (Machine.onTrack_idle w) hinit hA
  refine hrun.mono ?_
  intro v l v' hmeets
  obtain ⟨hmove, hrules, hI, -⟩ := hmeets
  exact heldSafe_move hI hmove hrules.2.2 n

end

/-- A renewal orders a certificate, and storage refuses its chain. -/
def heldRenewal : List (Action (Fin 2) Call Answer) :=
  (.start 0 (.renewCertificate "a") ::
      List.replicate 21 (.step 0 { notAfter := 10000000 }) : Schedule 2) ++
    (List.replicate 10 (.step 0 { outcome := .fail }) : Schedule 2) ++ ([.finish 0] : Schedule 2)

/-- The flush then stores it. -/
def quietFlush : List (Action (Fin 2) Call Answer) :=
  .start 1 .flushHeldChains :: List.replicate 8 (.step 1 {})

theorem heldChain_kept_quietFlush :
    (cluster (.plain ["a"]) fun _ : Fin 2 => ()).Meets (HeldSafe "a") (.idle (.empty _ _))
      (heldRenewal ++ quietFlush) ∧
    ∃ c ∈ (cluster (.plain ["a"]) fun _ : Fin 2 => ()).run (.idle (.empty _ _))
      (heldRenewal ++ quietFlush), (c.shared.node ()).pending.lookup "a" = none ∧
        c.shared.storage.chain "a" = some (.chain ⟨⟨0⟩, 10000000⟩) := by
  refine ⟨heldChain_kept (.plain ["a"]) (fun _ => ()) (fun _ _ => rfl) _ ?_
    (heldRenewal ++ quietFlush) (by decide +kernel) "a", by decide +kernel⟩
  simp [HeldFromIssued, World.empty, NodeMemory.empty]

/-- The flush has taken its snapshot when a second renewal runs; its chain is refused as well. -/
def staleFlush : List (Action (Fin 2) Call Answer) :=
  ([.start 1 .flushHeldChains, .step 1 {}, .step 1 {},
      .start 0 (.renewCertificate "a")] : Schedule 2) ++
    (List.replicate 11 (.step 0 { notAfter := 20000000 }) : Schedule 2) ++
    (List.replicate 10 (.step 0 { outcome := .fail }) : Schedule 2) ++ ([.finish 0] : Schedule 2) ++
    (List.replicate 6 (.step 1 {}) : Schedule 2)

/-- The later chain is dropped, and storage is left with the earlier one. -/
theorem heldChain_lost :
    (cluster (.plain ["a"]) fun _ : Fin 2 => ()).Meets
      (fun v l v' => LaterOrders v l v' ∧ StartsNoRestore v l v') (.idle (.empty _ _))
      (heldRenewal ++ staleFlush) ∧
    ¬(cluster (.plain ["a"]) fun _ : Fin 2 => ()).Meets (HeldSafe "a") (.idle (.empty _ _))
      (heldRenewal ++ staleFlush) ∧
    ∃ c ∈ (cluster (.plain ["a"]) fun _ : Fin 2 => ()).run (.idle (.empty _ _))
      (heldRenewal ++ staleFlush), (c.shared.node ()).pending.lookup "a" = none ∧
        c.shared.storage.chain "a" = some (.chain ⟨⟨0⟩, 10000000⟩) ∧
        c.shared.issued "a" = [⟨⟨0⟩, 20000000⟩, ⟨⟨0⟩, 10000000⟩] := by
  decide +kernel

end CertsManager
