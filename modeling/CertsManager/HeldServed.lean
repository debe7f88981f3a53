import CertsManager.Discipline.Confirm
import CertsManager.HeldChains

/-!
# HeldServed — a held chain, and the certificate that is served

`hold` puts a certificate in memory and sets its chain aside.  Until the chain is stored that
certificate is the only trace of an order that was paid for.  Nothing but `Refresh` takes it out of
memory again: an order's chain, or the held one taken up again, expires no earlier.

`Refresh` installs what storage has and does not look at what is held.  The result below is for runs
in which storage, when it is read while a chain is held for the name, has one that expires no
earlier, and in which no operation has an earlier one read and not yet installed when an order's is
about to be set aside.  Neither can be left out (`held_unserved`).
-/

namespace CertsManager

open Interleave

section

variable {N T : Type}

/-! ## The rules of a run -/

/-- The thread that read a live key. -/
def keyRead : ClusterLabel T → Option T
  | .did t ⟨.storage _ (.getKey (.live _)), _⟩ => some t
  | _ => none

/-- What storage held when its chain was read, and then the key it is bound to: as long as a chain is
held for the name, it expires no earlier than that one. -/
def ReadsCover (node : T → N) (_ : ClusterView N T) (l : ClusterLabel T) (v' : ClusterView N T) :
    Prop :=
  ∀ t ∈ keyRead l, ∀ x ∈ v'.task t, ∀ g ∈ pairRead x.2,
    ∀ p ∈ (v'.shared.node (node t)).pending.lookup g.1, p.notAfter ≤ g.2.notAfter

/-- While an operation is between putting a certificate in memory and setting its chain aside, no
operation on the node has read a chain that expires earlier and made no call since. -/
def NoneOvertaken (node : T → N) (v : ClusterView N T) : Prop :=
  ∀ t u, node t = node u → ∀ x ∈ v.task t, ∀ y ∈ v.task u, ∀ g ∈ pairRead x.2, ∀ s ∈ holding y.2,
    s.1 = g.1 → s.2.leaf.notAfter ≤ g.2.notAfter

instance (node : T → N) (v : ClusterView N T) (l : ClusterLabel T) (v' : ClusterView N T) :
    Decidable (ReadsCover node v l v') :=
  inferInstanceAs (Decidable (∀ t ∈ keyRead l, ∀ x ∈ v'.task t, ∀ g ∈ pairRead x.2,
    ∀ p ∈ (v'.shared.node (node t)).pending.lookup g.1, p.notAfter ≤ g.2.notAfter))

instance [Fintype T] [DecidableEq N] (node : T → N) (v : ClusterView N T) :
    Decidable (NoneOvertaken node v) :=
  inferInstanceAs (Decidable (∀ t u, node t = node u → ∀ x ∈ v.task t, ∀ y ∈ v.task u,
    ∀ g ∈ pairRead x.2, ∀ s ∈ holding y.2, s.1 = g.1 → s.2.leaf.notAfter ≤ g.2.notAfter))

/-- A node that holds a chain for a name serves a certificate that expires no earlier. -/
def HeldServed (w : World N T) : Prop :=
  ∀ i n p, (w.node i).pending.lookup n = some p →
    ∃ cert ∈ (w.node i).mem n, p.notAfter ≤ cert.leaf.notAfter

/-! ## The invariant -/

/-- A chain that was read, and one that is about to be set aside, against what is held and served. -/
structure ServedInv (cfg : Settings) (node : T → N) (v : ClusterView N T) : Prop extends
    HeldCore cfg node v where
  held : HeldServed v.shared
  tried : ∀ t q h, v.task t = some (q, h) → ∀ n,
    triedPut h = some n ∨ (∃ cert, holding h = some (n, cert)) → (know cfg h).Leased n
  serving : ∀ t q h, v.task t = some (q, h) → ∀ n cert, holding h = some (n, cert) →
    ∃ m ∈ (v.shared.node (node t)).mem n, cert.leaf.notAfter ≤ m.leaf.notAfter
  carried : ∀ t q h, v.task t = some (q, h) → ∀ n leaf, pairRead h = some (n, leaf) →
    ∀ p, (v.shared.node (node t)).pending.lookup n = some p → p.notAfter ≤ leaf.notAfter
  apart : NoneOvertaken node v

/-- The chain in hand under the lease is the order's, or the one that was looked up. -/
theorem chainGiven_known {cfg : Settings} {h : History} {n : Name} {c : ChainPEM}
    (hn : (know cfg h).Leased n) (hc : chainGiven h = some (n, c)) :
    (know cfg h).order = some c ∨ ∃ p, (know cfg h).held = some (some p) ∧ p.chainPEM = c := by
  induction h with
  | nil => cases hc
  | cons e h ih =>
      -- none of these calls takes or gives up a lock or a lease
      have hbefore : ¬e.op.Guarding → (know cfg h).Leased n := fun hguard =>
        have hsame := (know cfg h).after_guard cfg hguard
        ⟨hsame.1.symm.trans hn.1, hsame.2.symm.trans hn.2⟩
      unfold chainGiven at hc
      split at hc
      · rename_i ctx m k c' h' heq
        cases heq
        cases hc
        exact .inl (by rw [know_cons, Know.after, if_pos (hbefore id)]; rfl)
      · rename_i m p h' heq
        cases heq
        cases hc
        exact .inr ⟨p, by rw [know_cons, Know.after, if_pos (hbefore id).1], rfl⟩
      · rename_i ctx m c' r h' heq
        cases heq
        have hframe : (know cfg h).Frame (know cfg (⟨.storage ctx (.putChain m c'), r⟩ :: h)) := by
          simp only [know_cons, Know.after]
          split
          · rcases r with _ | _ <;> exact ⟨rfl, rfl, rfl, rfl, id⟩
          · exact .refl _
        rw [hframe.order, hframe.held]
        exact ih (hbefore id) hc
      · rename_i heq
        cases heq
        exact ih (hbefore id) hc
      · rename_i heq
        cases heq
        exact ih (hbefore id) hc
      · cases hc

variable [DecidableEq N] {cfg : Settings} {node : T → N}

section Did

variable {v : ClusterView N T} {t : T} {q : Call} {h : History} {o : Op} {a : Answer} {r : Res o}
  {w' : World N T}

omit [DecidableEq N] in
/-- The chain in hand expires no earlier than the one that is held. -/
theorem chainGiven_covers {n : Name} {cert : Certificate} {p : PendingPersist} (hI : HeldCore cfg node v)
    (ht : v.task t = some (q, h)) (hn : (know cfg h).Leased n)
    (hc : chainGiven h = some (n, encodeChainPEM cert))
    (hp : (v.shared.node (node t)).pending.lookup n = some p) :
    p.notAfter ≤ cert.leaf.notAfter := by
  rcases chainGiven_known hn hc with horder | ⟨p₀, hheld, hchain⟩
  · obtain ⟨leaf, -, hc, hbelow⟩ := hI.order t q h ht n _ hn horder
    have hleaf : cert.leaf = leaf := by simpa [encodeChainPEM] using hc
    rw [hleaf]
    rcases hbelow p hp with rfl | hlt
    · exact le_rfl
    · exact hlt.le
  · -- the held entry itself
    have hpending := (hI.locking t q h ht).held n _ hn.1 hheld
    obtain rfl : p₀ = p := Option.some.inj (hpending.symm.trans hp)
    obtain ⟨leaf, -, rfl⟩ := hI.issued _ n p₀ hp
    have hleaf : leaf = cert.leaf := by simpa [Leaf.held, encodeChainPEM] using hchain
    rw [← hleaf]
    exact le_rfl

omit [DecidableEq N] in
theorem installed_covers {n : Name} {cert : Certificate} {p : PendingPersist}
    (hI : ServedInv cfg node v) (ht : v.task t = some (q, h))
    (hconf : mayConfirm q h (.mem (.memSet n cert)))
    (hp : (v.shared.node (node t)).pending.lookup n = some p) :
    p.notAfter ≤ cert.leaf.notAfter := by
  rcases hconf.2.2 with hpair | ⟨htried, hhanded⟩
  · exact hI.carried t q h ht n _ hpair p hp
  · exact chainGiven_covers hI.toHeldCore ht (hI.tried t q h ht n (.inl htried)) hhanded hp

omit [DecidableEq N] in
/-- What is set aside is what was put in memory by the call before. -/
theorem setAside_holding {n : Name} {p : PendingPersist}
    (hkeep : mayKeep cfg q h (.mem (.pendingSet n p)))
    (hconf : mayConfirm q h (.mem (.pendingSet n p))) :
    ∃ cert, holding h = some (n, cert) ∧ p.notAfter = cert.leaf.notAfter := by
  obtain ⟨cert, hholding, hchain⟩ := hconf
  have hexp := hkeep.2.1
  rw [hchain] at hexp
  exact ⟨cert, hholding, (Except.ok.inj hexp).symm⟩

theorem heldServed_did (hI : ServedInv cfg node v) (ht : v.task t = some (q, h))
    (hkeep : mayKeep cfg q h o) (hconf : mayConfirm q h o)
    (he : exec cfg.maxRetries node v.shared t o a = some (r, w')) : HeldServed w' := by
  intro i n p hp
  rcases exec_pending he i n with hsame | ⟨p', rfl, rfl, hset⟩ | ⟨-, -, hnone⟩
  · rw [hsame] at hp
    rcases exec_cert he i n with hsame | ⟨cert, rfl, rfl, hnew⟩
    · obtain ⟨m, hm, hle⟩ := hI.held i n p hp
      exact ⟨m, hsame.trans hm, hle⟩
    · exact ⟨cert, hnew, installed_covers hI ht hconf hp⟩
  · -- it is set aside once it is served
    obtain rfl : p' = p := Option.some.inj (hset.symm.trans hp)
    obtain ⟨cert, hholding, hexp⟩ := setAside_holding hkeep hconf
    obtain ⟨m, hm, hle⟩ := hI.serving t q h ht n cert hholding
    rcases exec_cert he (node t) n with hsame | ⟨_, heq, -⟩
    · exact ⟨m, hsame.trans hm, hexp ▸ hle⟩
    · cases heq
  · rw [hnone] at hp
    cases hp

omit [DecidableEq N] in
/-- The caller's own: a chain is written, and its failure charged, under the lease. -/
theorem tried_own (hI : ServedInv cfg node v) (ht : v.task t = some (q, h))
    (hkeep : mayKeep cfg q h o) {n : Name}
    (hn : triedPut (⟨o, r⟩ :: h) = some n ∨ ∃ cert, holding (⟨o, r⟩ :: h) = some (n, cert)) :
    (know cfg (⟨o, r⟩ :: h)).Leased n := by
  have hleased : (know cfg h).Leased n ∧ ¬o.Guarding := by
    rcases hn with htried | ⟨cert, hholding⟩
    · rcases triedPut_cons htried with ⟨ctx, c, rfl⟩ | ⟨hfollow, htried₀⟩
      · exact ⟨hkeep, id⟩
      · exact ⟨hI.tried t q h ht n (.inl htried₀), hfollow.unguarded⟩
    · obtain ⟨rfl, htried⟩ := holding_cons hholding
      exact ⟨hI.tried t q h ht n (.inl htried), id⟩
  obtain ⟨hlock, hlease⟩ := (know cfg h).after_guard cfg (e := ⟨o, r⟩) hleased.2
  exact ⟨hlock.trans hleased.1.1, hlease.trans hleased.1.2⟩

variable {u : T} {q' : Call} {h' : History}

/-- Another's certificate that is about to be set aside is not replaced by an earlier one. -/
theorem serving_other (hI : ServedInv cfg node v) (ht : v.task t = some (q, h))
    (hconf : mayConfirm q h o) (he : exec cfg.maxRetries node v.shared t o a = some (r, w'))
    (hut : u ≠ t) (hu : v.task u = some (q', h')) {n : Name} {cert : Certificate}
    (hholding : holding h' = some (n, cert)) :
    ∃ m ∈ (w'.node (node u)).mem n, cert.leaf.notAfter ≤ m.leaf.notAfter := by
  rcases exec_cert he (node u) n with hsame | ⟨new, rfl, hnode, hnew⟩
  · obtain ⟨m, hm, hle⟩ := hI.serving u q' h' hu n cert hholding
    exact ⟨m, hsame.trans hm, hle⟩
  · refine ⟨new, hnew, ?_⟩
    rcases hconf.2.2 with hpair | ⟨htried, -⟩
    · exact hI.apart t u hnode.symm _ ht _ hu _ hpair _ hholding rfl
    · -- both would have the lock
      have hlock := (hI.tried u q' h' hu n (.inr ⟨cert, hholding⟩)).1
      have hlock' := (hI.tried t q h ht n (.inl htried)).1
      exact absurd (hI.locking.same_of_lock hu ht hnode hlock hlock') hut

/-- What another has read still covers what is held. -/
theorem carried_other (hI : ServedInv cfg node v) (ht : v.task t = some (q, h))
    (hkeep : mayKeep cfg q h o) (hconf : mayConfirm q h o)
    (he : exec cfg.maxRetries node v.shared t o a = some (r, w')) (hu : v.task u = some (q', h'))
    {n : Name} {leaf : Leaf} (hpair : pairRead h' = some (n, leaf)) {p : PendingPersist}
    (hp : (w'.node (node u)).pending.lookup n = some p) : p.notAfter ≤ leaf.notAfter := by
  rcases exec_pending he (node u) n with hsame | ⟨p', rfl, hnode, hset⟩ | ⟨-, -, hnone⟩
  · exact hI.carried u q' h' hu n leaf hpair p (hsame.symm.trans hp)
  · obtain rfl : p' = p := Option.some.inj (hset.symm.trans hp)
    obtain ⟨cert, hholding, hexp⟩ := setAside_holding hkeep hconf
    rw [hexp]
    exact hI.apart u t hnode _ hu _ ht _ hpair _ hholding rfl
  · rw [hnone] at hp
    cases hp

end Did

/-! ## Whole runs -/

variable [DecidableEq T]

/-- Orders are ever later, what storage is read to hold covers what is held, and nothing that was
read is overtaken. -/
def ServedRules (node : T → N) (v : ClusterView N T) (l : ClusterLabel T) (v' : ClusterView N T) :
    Prop :=
  LaterOrders v l v' ∧ ReadsCover node v l v' ∧ NoneOvertaken node v'

instance [Fintype T] (v : ClusterView N T) (l : ClusterLabel T) (v' : ClusterView N T) :
    Decidable (ServedRules node v l v') :=
  inferInstanceAs (Decidable (_ ∧ _ ∧ _))

theorem servedInv_move {v v' : ClusterView N T} {l : ClusterLabel T} (hI : ServedInv cfg node v)
    (hmove : Move (cluster cfg node) ((keeps cfg).and confirms) v l v')
    (hA : ServedRules node v l v') : ServedInv cfg node v' := by
  have hcore := heldCore_move hI.toHeldCore hmove.left hA.1
  cases hmove with
  | start _ =>
      refine ⟨hcore, hI.held, fun u q' h' hu => ?_, fun u q' h' hu => ?_, fun u q' h' hu => ?_,
        hA.2.2⟩ <;> rcases View.put_cases hu with ⟨-, ⟨⟩⟩ | ⟨-, hu'⟩
      · simp [triedPut, holding]
      · exact hI.tried u q' h' hu'
      · simp [holding]
      · exact hI.serving u q' h' hu'
      · simp [pairRead]
      · exact hI.carried u q' h' hu'
  | @did t q h o a r w' ht hmay he =>
      replace he : exec cfg.maxRetries node v.shared t o a = some (r, w') := he
      obtain ⟨hkeep, hconf⟩ : mayKeep cfg q h o ∧ mayConfirm q h o := hmay
      refine ⟨hcore, heldServed_did hI ht hkeep hconf he, fun u q' h' hu => ?_,
        fun u q' h' hu n cert hholding => ?_, fun u q' h' hu n leaf hpair p hp => ?_, hA.2.2⟩ <;>
        rcases View.put_cases hu with ⟨rfl, ⟨⟩⟩ | ⟨hut, hu'⟩
      · exact fun n hn => tried_own hI ht hkeep hn
      · exact hI.tried u q' h' hu'
      · obtain ⟨rfl, -⟩ := holding_cons hholding
        exact ⟨cert, exec_memSet he, le_rfl⟩
      · exact serving_other hI ht hconf he hut hu' hholding
      · -- the pair is the caller's own reading
        obtain ⟨ctx, rfl⟩ := pairRead_cons hpair
        exact hA.2.1 u rfl _ hu _ hpair p hp
      · exact carried_other hI ht hkeep hconf he hu' hpair hp
  | finish _ _ | crash =>
      refine ⟨hcore, hI.held, fun u q' h' hu => ?_, fun u q' h' hu => ?_, fun u q' h' hu => ?_,
        hA.2.2⟩ <;> rcases View.put_cases hu with ⟨-, ⟨⟩⟩ | ⟨-, hu'⟩
      · exact hI.tried u q' h' hu'
      · exact hI.serving u q' h' hu'
      · exact hI.carried u q' h' hu'

/-- Any calls on any nodes, whatever storage and the CA answer.  If what storage is read to hold
while a chain is held expires no earlier than that chain, and nothing that was read is overtaken,
then in every state that is reached a node serves what it holds, or what expires no earlier. -/
theorem held_served (cfg : Settings) (node : T → N) (w : World N T) (hissued : HeldFromIssued w)
    (hserved : HeldServed w) (as : List (Action T Call Answer))
    (hA : (cluster cfg node).Meets (ServedRules node) (.idle w) as)
    (c : Config Op Res (World N T) T Call Out)
    (hrun : (cluster cfg node).run (.idle w) as = some c) : HeldServed c.shared := by
  have hinit : ServedInv cfg node (Config.idle w : Config Op Res (World N T) T Call Out).view := by
    refine ⟨heldCore_idle hissued, hserved, ?_, ?_, ?_, ?_⟩
    all_goals simp [NoneOvertaken, Config.view, Config.idle]
  have hfollows := (cluster_keeps cfg node).and (cluster_confirms cfg node)
  have hend := Machine.run_invariant hfollows
    (fun _ _ _ hI hmove hA => servedInv_move hI hmove hA) as _ c (Machine.onTrack_idle w) hinit hA
    hrun
  exact hend.1.held

end

/-! ## One node -/

/-- The domain `a` with a stored chain that expires at 10000000 s, and its key. -/
def storedWorld (N T : Type) : World N T :=
  { World.empty N T with
    storage := { Storage.empty with
      chain := Function.update (fun _ => none) "a" (some (.chain ⟨⟨0⟩, 10000000⟩))
      key := Function.update (fun _ => none) (.live "a") (some (.key ⟨0⟩)) }
    issued := Function.update (fun _ => []) "a" [⟨⟨0⟩, 10000000⟩]
    nextKey := 1 }

/-- A renewal gets a certificate that expires at 20000000 s, and storage refuses its chain. -/
def refusedRenewal (k : Nat) : Schedule (k + 1) :=
  .start 0 (.renewCertificate "a") :: List.replicate 20 (.step 0 { notAfter := 20000000 }) ++
    List.replicate 10 (.step 0 { outcome := .fail }) ++ [.finish 0]

/-- The tick of a follower: what storage has is loaded. -/
def followerTick : Schedule 1 :=
  .start 0 (.refresh "a") :: List.replicate 5 (.step 0 {}) ++ [.finish 0]

/-- The same, when the renewal runs between its reads and what it does with them. -/
def slowTick : Schedule 2 :=
  .start 1 (.refresh "a") :: List.replicate 3 (.step 1 {}) ++ refusedRenewal 1 ++ [.step 1 {}]

theorem nothing_held (N T : Type) : HeldFromIssued (storedWorld N T) ∧ HeldServed (storedWorld N T) :=
  ⟨fun _ _ _ hp => (by cases hp), fun _ _ _ hp => (by cases hp)⟩

theorem held_served_after_refusal :
    ∃ c, (cluster (.plain ["a"]) fun _ : Fin 1 => ()).run (.idle (storedWorld _ _))
        (refusedRenewal 0) = some c ∧
      (c.shared.node ()).pending.lookup "a" = some ⟨.chain ⟨⟨0⟩, 20000000⟩, 20000000⟩ ∧
      HeldServed c.shared := by
  refine ⟨_, rfl, rfl, ?_⟩
  exact held_served (.plain ["a"]) (fun _ => ()) (storedWorld _ _) (nothing_held _ _).1
    (nothing_held _ _).2 (refusedRenewal 0) (by decide +kernel) _ rfl

/-- The chain is held when the node, a follower now, loads the stored one; or it is set aside while
the stored one has been read and is about to be installed. -/
theorem held_unserved :
    ((cluster (.plain ["a"]) fun _ : Fin 1 => ()).Meets
        (fun v l v' => LaterOrders v l v' ∧ NoneOvertaken (fun _ => ()) v') (.idle (storedWorld _ _))
        (refusedRenewal 0 ++ followerTick) ∧
      ∃ c, (cluster (.plain ["a"]) fun _ : Fin 1 => ()).run (.idle (storedWorld _ _))
          (refusedRenewal 0 ++ followerTick) = some c ∧
        ¬HeldServed c.shared) ∧
    (cluster (.plain ["a"]) fun _ : Fin 2 => ()).Meets
        (fun v l v' => LaterOrders v l v' ∧ ReadsCover (fun _ => ()) v l v') (.idle (storedWorld _ _))
        slowTick ∧
      ∃ c, (cluster (.plain ["a"]) fun _ : Fin 2 => ()).run (.idle (storedWorld _ _)) slowTick =
          some c ∧
        ¬HeldServed c.shared := by
  refine ⟨⟨by decide +kernel, _, rfl, fun hserved => ?_⟩, by decide +kernel, _, rfl,
    fun hserved => ?_⟩
  all_goals
    obtain ⟨cert, hcert, hle⟩ := hserved () "a" ⟨.chain ⟨⟨0⟩, 20000000⟩, 20000000⟩ (by decide +kernel)
    cases hcert
    exact absurd hle (by decide +kernel)

end CertsManager
