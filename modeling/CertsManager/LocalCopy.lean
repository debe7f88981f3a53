import CertsManager.Custody
import CertsManager.Discipline.Confirm

/-!
# LocalCopy — the copy on disk, and what storage has held

The local copy is what a process serves when it starts and storage cannot be read, so it is to hold
only what storage confirmed.  What is read from storage or written to it is confirmed by that; the
rest is about memory.  A certificate in memory has a chain storage has held, or its chain is held
here, or its thread is about to set it aside and keeps the name's lock until it has.

A flush writes the chain of the snapshot it took, or the one it found in memory, and copies what is
in memory when it is done.  Between the two another order may have been held for the name.  The
result is for runs in which a flush writes nothing but what is held when it writes.
-/

namespace CertsManager

open Interleave

section

variable {N T : Type}

/-! ## The rules of a run -/

/-- Where a flush or a restoration writes a chain, no other chain is held for the name. -/
def FlushesHeld (node : T → N) (v : ClusterView N T) (l : ClusterLabel T) (_ : ClusterView N T) :
    Prop :=
  ∀ g ∈ chainPut l, ∀ x ∈ v.task g.1, x.1.flushes = true →
    ∀ p ∈ (v.shared.node (node g.1)).pending.lookup g.2.1, p.chainPEM = g.2.2

instance (node : T → N) (v : ClusterView N T) (l : ClusterLabel T) (v' : ClusterView N T) :
    Decidable (FlushesHeld node v l v') :=
  inferInstanceAs (Decidable (∀ g ∈ chainPut l, ∀ x ∈ v.task g.1, x.1.flushes = true →
    ∀ p ∈ (v.shared.node (node g.1)).pending.lookup g.2.1, p.chainPEM = g.2.2))

/-! ## The invariant

`H n c` says that the object of `n` has held the chain `c`. -/

/-- What a thread has just done is true of what storage has held, and of what its node holds. -/
structure Traced (cfg : Settings) (node : T → N) (H : Name → ChainPEM → Prop) (w : World N T) (t : T)
    (q : Call) (h : History) : Prop where
  tried : ∀ n, triedPut h = some n → (know cfg h).lock = some n
  dropped : ∀ n, justDropped h = some n → (know cfg h).lock = some n ∧ (know cfg h).held = some none
  seen : ∀ n c, SeenStored h n c → H n c
  looked : ∀ n cert, lookedUp h = some (n, cert) → H n (encodeChainPEM cert)
  put : q.flushes = true → ∀ n c, justPut h = some (n, c) →
    ∀ p, (w.node (node t)).pending.lookup n = some p → p.chainPEM = c
  set : ∀ n cert, lastSet h = some (n, cert) → (know cfg h).lock = some n →
    ∀ m, (w.node (node t)).mem n = some m → m = cert ∨ H n (encodeChainPEM m)

/-- The lock of the name is taken by a thread that has put the certificate in memory and is about to
set its chain aside, or that was lost before it could. -/
def Unfinished (cfg : Settings) (node : T → N) (v : ClusterView N T) (i : N) (n : Name)
    (m : Certificate) : Prop :=
  ∃ t, node t = i ∧ (v.shared.node i).inflight n = some t ∧ ∀ q h, v.task t = some (q, h) →
    (know cfg h).lock = some n → lastSet h = some (n, m)

structure Backed (cfg : Settings) (node : T → N) (H : Name → ChainPEM → Prop)
    (v : ClusterView N T) : Prop where
  locking : Locking cfg node v
  stored : ∀ n c, v.shared.storage.chain n = some c → H n c
  traced : ∀ t q h, v.task t = some (q, h) → Traced cfg node H v.shared t q h
  mem : ∀ i n m, (v.shared.node i).mem n = some m → H n (encodeChainPEM m) ∨
    (∃ p, (v.shared.node i).pending.lookup n = some p ∧ p.chainPEM = encodeChainPEM m) ∨
      Unfinished cfg node v i n m
  copy : ∀ i n cert, (v.shared.node i).localCopy n = some cert → H n (encodeChainPEM cert)

variable [DecidableEq N] {cfg : Settings} {node : T → N} {H : Name → ChainPEM → Prop}

omit [DecidableEq N] in
theorem Op.Following.lock {o : Op} (ho : o.Following) (cfg : Settings) (h : History) (r : Res o) :
    (know cfg (⟨o, r⟩ :: h)).lock = (know cfg h).lock :=
  ((know cfg h).after_guard cfg (e := ⟨o, r⟩) ho.unguarded).1

section Did

variable {v : ClusterView N T} {t : T} {q : Call} {h : History} {o : Op} {a : Answer} {r : Res o}
  {w' : World N T}

omit [DecidableEq N] in
/-- What a thread has in its lock is not unfinished by another. -/
theorem Unfinished.own {n : Name} {m : Certificate} (hI : Backed cfg node H v)
    (ht : v.task t = some (q, h)) (hlock : (know cfg h).lock = some n)
    (hun : Unfinished cfg node v (node t) n m) : lastSet h = some (n, m) := by
  obtain ⟨u, -, hinflight, hset⟩ := hun
  obtain rfl : u = t :=
    Option.some.inj (hinflight.symm.trans ((hI.locking t q h ht).lock n hlock))
  exact hset q h ht hlock

omit [DecidableEq N] in
/-- Memory right after the held chain was dropped. -/
theorem Backed.looked_up {n : Name} {m : Certificate} (hI : Backed cfg node H v)
    (ht : v.task t = some (q, h)) (hdropped : justDropped h = some n)
    (hm : (v.shared.node (node t)).mem n = some m) : H n (encodeChainPEM m) := by
  obtain ⟨hlock, hheld⟩ := (hI.traced t q h ht).dropped n hdropped
  rcases hI.mem (node t) n m hm with hH | ⟨p, hp, -⟩ | hun
  · exact hH
  · have hnone := (hI.locking t q h ht).held n none hlock hheld
    rw [hnone] at hp
    cases hp
  · -- the last call was the drop, so nothing was put in memory since
    have hset := hun.own hI ht hlock
    unfold justDropped at hdropped
    split at hdropped
    · cases hset
    · cases hdropped

/-- The caller itself, after its call. -/
theorem traced_self (hI : Backed cfg node H v) (ht : v.task t = some (q, h))
    (hkeep : mayKeep cfg q h o) (he : exec cfg.maxRetries node v.shared t o a = some (r, w'))
    (hstored : ∀ n c, w'.storage.chain n = some c → H n c)
    (hA : q.flushes = true → ∀ ctx n c, o = .storage ctx (.putChain n c) →
      ∀ p ∈ (v.shared.node (node t)).pending.lookup n, p.chainPEM = c) :
    Traced cfg node H w' t q (⟨o, r⟩ :: h) where
  tried n hn := by
    rcases triedPut_cons hn with ⟨ctx, c, rfl⟩ | ⟨hfollow, hn₀⟩
    · have hlock := ((know cfg h).after_still cfg r (.inr ⟨ctx, n, c, rfl⟩) (by simp)).1
      exact hlock.trans hkeep.1
    · exact (hfollow.lock cfg h r).trans ((hI.traced t q h ht).tried n hn₀)
  dropped n hn := by
    obtain rfl : o = .mem (.pendingDelete n) := justDropped_cons hn
    rw [know_cons, Know.after, if_pos hkeep.1.1]
    exact ⟨hkeep.1.1, rfl⟩
  seen n c hseen := by
    obtain ⟨ctx, hmem⟩ := hseen
    rcases hmem with hmem | hmem <;> rcases List.mem_cons.1 hmem with heq | hmem
    · cases heq
      exact hI.stored n c (exec_getChain_ok he)
    · exact (hI.traced t q h ht).seen n c ⟨ctx, .inl hmem⟩
    · cases heq
      exact hstored n c (exec_putChain_ok he)
    · exact (hI.traced t q h ht).seen n c ⟨ctx, .inr hmem⟩
  looked n cert hn := by
    rcases lookedUp_cons hn with ⟨heq, hdropped⟩ | hn₀
    · cases heq
      exact hI.looked_up ht hdropped (exec_memGet he).symm
    · exact (hI.traced t q h ht).looked n cert hn₀
  put hq n c hn p hp := by
    obtain ⟨ctx, rfl⟩ := justPut_cons hn
    rcases exec_pending he (node t) n with hsame | ⟨_, heq, -⟩ | ⟨heq, -⟩
    · exact hA hq ctx n c rfl p (hsame.symm.trans hp)
    all_goals cases heq
  set n cert hn hlock m hm := by
    rcases lastSet_cons hn with rfl | ⟨hfollow, hn₀⟩
    · exact .inl (Option.some.inj (hm.symm.trans (exec_memSet he)))
    · have hlock₀ := (hfollow.lock cfg h r).symm.trans hlock
      rcases exec_cert he (node t) n with hsame | ⟨_, rfl, -⟩
      · exact (hI.traced t q h ht).set n cert hn₀ hlock₀ m (hsame.symm.trans hm)
      · cases hfollow

/-- Nobody else's call makes untrue what a thread has just done. -/
theorem traced_other {u : T} {q' : Call} {h' : History} (hI : Backed cfg node H v)
    (ht : v.task t = some (q, h)) (hkeep : mayKeep cfg q h o) (hconf : mayConfirm q h o)
    (he : exec cfg.maxRetries node v.shared t o a = some (r, w')) (hut : u ≠ t)
    (hu : v.task u = some (q', h')) : Traced cfg node H w' u q' h' where
  tried := (hI.traced u q' h' hu).tried
  dropped := (hI.traced u q' h' hu).dropped
  seen := (hI.traced u q' h' hu).seen
  looked := (hI.traced u q' h' hu).looked
  put hq n c hn p hp := by
    have hlock := (hI.traced u q' h' hu).tried n (triedPut_of_justPut hn)
    rcases exec_pending he (node u) n with hsame | ⟨_, rfl, hnode, -⟩ | ⟨rfl, hnode, -⟩
    · exact (hI.traced u q' h' hu).put hq n c hn p (hsame.symm.trans hp)
    all_goals exact absurd (hI.locking.same_of_lock hu ht hnode hlock hkeep.1.1) hut
  set n cert hn hlock m hm := by
    rcases exec_cert he (node u) n with hsame | ⟨m', rfl, hnode, hset⟩
    · exact (hI.traced u q' h' hu).set n cert hn hlock m (hsame.symm.trans hm)
    · obtain rfl : m' = m := Option.some.inj (hset.symm.trans hm)
      rcases hconf.2 with hseen | htried
      · exact .inr ((hI.traced t q h ht).seen n _ hseen)
      · -- a chain to be held is put in memory under the lock
        have hlock' := (hI.traced t q h ht).tried n htried
        exact absurd (hI.locking.same_of_lock hu ht hnode hlock hlock') hut

/-- A certificate its own thread is about to set aside. -/
theorem held_of_lastSet {n : Name} {m : Certificate} (hI : Backed cfg node H v)
    (ht : v.task t = some (q, h)) (hconf : mayConfirm q h o)
    (he : exec cfg.maxRetries node v.shared t o a = some (r, w')) (hset : lastSet h = some (n, m)) :
    H n (encodeChainPEM m) ∨
      ∃ p, (w'.node (node t)).pending.lookup n = some p ∧ p.chainPEM = encodeChainPEM m := by
  rcases mayConfirm_cases hconf with ⟨n', p, cert, rfl, hset', hp⟩ | ⟨hfree, -⟩
  · obtain ⟨rfl, rfl⟩ : n' = n ∧ cert = m := by simpa using hset'.symm.trans hset
    exact .inr ⟨p, exec_pendingSet he, hp⟩
  · exact .inl ((hI.traced t q h ht).seen n _ (hfree n m hset))

/-- A certificate whose chain is held stays accounted for when the held chain changes. -/
theorem accounted_of_held {i : N} {n : Name} {m : Certificate} {p : PendingPersist}
    (hI : Backed cfg node H v) (ht : v.task t = some (q, h)) (hkeep : mayKeep cfg q h o)
    (hconf : mayConfirm q h o) (he : exec cfg.maxRetries node v.shared t o a = some (r, w'))
    (hm : (v.shared.node i).mem n = some m) (hp : (v.shared.node i).pending.lookup n = some p)
    (hchain : p.chainPEM = encodeChainPEM m) :
    H n (encodeChainPEM m) ∨
      ∃ p, (w'.node i).pending.lookup n = some p ∧ p.chainPEM = encodeChainPEM m := by
  have htraced := hI.traced t q h ht
  rcases exec_pending he i n with hsame | ⟨p', rfl, rfl, hset⟩ | ⟨rfl, rfl, -⟩
  · exact .inr ⟨p, hsame.trans hp, hchain⟩
  · obtain ⟨cert, hholding, hchain'⟩ := hconf
    rcases htraced.set n cert (lastSet_of_holding hholding) hkeep.1.1 m hm with rfl | hH
    · exact .inr ⟨p', hset, hchain'⟩
    · exact .inl hH
  · rcases hconf.2 with ⟨cert, hlast⟩ | ⟨hq, c, hput⟩
    · rcases htraced.set n cert hlast hkeep.1.1 m hm with rfl | hH
      · exact .inl (htraced.seen n _ (hconf.1 n _ hlast))
      · exact .inl hH
    · -- the flush has written what is held
      have heq : p.chainPEM = c := htraced.put hq n c hput p hp
      exact .inl (htraced.seen n _ (hchain ▸ heq ▸ seenStored_of_justPut hput))

/-- A lock a thread has after its call was its own before, or was free. -/
theorem lock_taken {n : Name} (he : exec cfg.maxRetries node v.shared t o a = some (r, w'))
    (hlock : (know cfg (⟨o, r⟩ :: h)).lock = some n) :
    (know cfg h).lock = some n ∨ (v.shared.node (node t)).inflight n = none := by
  by_cases hguard : o.Guarding
  · cases o with
    | storage ctx o => cases hguard
    | mem o =>
        cases o with
        | lock m =>
            cases hlock
            exact .inr (exec_lock_free he)
        | tryLock m =>
            cases r with
            | true =>
                cases hlock
                exact .inr (exec_tryLock_free he)
            | false => exact .inl hlock
        | unlock m => cases hlock
        | _ => cases hguard
    | env o =>
        exact .inl (((know cfg h).after_still cfg r (.inl trivial) (by simp)).1.symm.trans hlock)
  · exact .inl (((know cfg h).after_guard cfg (e := ⟨o, r⟩) hguard).1.symm.trans hlock)

omit [DecidableEq N] in
/-- A thread that has put nothing of the name in memory under its lock leaves it unfinished. -/
theorem Unfinished.put [DecidableEq T] {i : N} {n : Name} {m : Certificate}
    {x : Option (Call × History)} (hun : Unfinished cfg node v i n m)
    (hinflight : ∀ u, (v.shared.node i).inflight n = some u → (w'.node i).inflight n = some u)
    (hx : ∀ q h, x = some (q, h) → (v.shared.node i).inflight n = some t →
      (know cfg h).lock = some n → lastSet h = some (n, m)) :
    Unfinished cfg node (v.put t w' x) i n m := by
  obtain ⟨u, hnode, hu, hset⟩ := hun
  refine ⟨u, hnode, hinflight u hu, fun q h htask hlock => ?_⟩
  rcases View.put_cases htask with ⟨rfl, hq⟩ | ⟨-, hq⟩
  · exact hx q h hq hu hlock
  · exact hset q h hq hlock

/-- Whatever is in memory after a call was read or written, is held, or is being held. -/
theorem accounted_did [DecidableEq T] (hI : Backed cfg node H v) (ht : v.task t = some (q, h))
    (hkeep : mayKeep cfg q h o) (hconf : mayConfirm q h o)
    (he : exec cfg.maxRetries node v.shared t o a = some (r, w')) (i : N) (n : Name)
    {m : Certificate} (hm : (w'.node i).mem n = some m) :
    H n (encodeChainPEM m) ∨
      (∃ p, (w'.node i).pending.lookup n = some p ∧ p.chainPEM = encodeChainPEM m) ∨
        Unfinished cfg node (v.put t w' (some (q, ⟨o, r⟩ :: h))) i n m := by
  have hlocks := hI.locking t q h ht
  rcases exec_cert he i n with hsame | ⟨cert, rfl, rfl, hset⟩
  · rcases hI.mem i n m (hsame.symm.trans hm) with hH | ⟨p, hp, hchain⟩ | hun
    · exact .inl hH
    · exact (accounted_of_held hI ht hkeep hconf he (hsame.symm.trans hm) hp hchain).imp_right .inl
    · by_cases hown : i = node t ∧ (know cfg h).lock = some n
      · obtain ⟨rfl, hlock⟩ := hown
        exact (held_of_lastSet hI ht hconf he (hun.own hI ht hlock)).imp_right .inl
      · -- the lock is another thread's, or was left behind by one that was lost
        refine .inr (.inr (hun.put (fun u hu => ?_) ?_))
        · rcases exec_inflight he i n with hkept | ⟨-, -, hnone, -⟩ | ⟨rfl, hnode, -⟩
          · exact hkept.trans hu
          · simp [hu] at hnone
          · exact absurd ⟨hnode, hkeep.1⟩ hown
        · rintro _ _ ⟨⟩ hu hlock
          obtain ⟨u, hnode, hu', -⟩ := hun
          obtain rfl : u = t := Option.some.inj (hu'.symm.trans hu)
          rcases lock_taken he hlock with hlock₀ | hnone
          · exact absurd ⟨hnode.symm, hlock₀⟩ hown
          · rw [hnode, hu] at hnone
            cases hnone
  · obtain rfl : cert = m := Option.some.inj (hset.symm.trans hm)
    rcases hconf.2.1 with hseen | htried
    · exact .inl ((hI.traced t q h ht).seen n _ hseen)
    · have hlock := (hI.traced t q h ht).tried n htried
      refine .inr (.inr ⟨t, rfl, ?_, fun q' h' ht' _ => ?_⟩)
      · rcases exec_inflight he (node t) n with hkept | ⟨hor, -⟩ | ⟨heq, -⟩
        · exact hkept.trans (hlocks.lock n hlock)
        · simp at hor
        · cases heq
      · rcases View.put_cases ht' with ⟨-, ⟨⟩⟩ | ⟨hne, -⟩
        · rfl
        · exact absurd rfl hne

theorem copy_did (hI : Backed cfg node H v) (ht : v.task t = some (q, h))
    (hconf : mayConfirm q h o) (he : exec cfg.maxRetries node v.shared t o a = some (r, w')) (i : N)
    (n : Name) {cert : Certificate} (hcopy : (w'.node i).localCopy n = some cert) :
    H n (encodeChainPEM cert) := by
  rcases exec_localCopy he i n with hsame | ⟨cert', rfl, -, hset⟩
  · exact hI.copy i n cert (hsame.symm.trans hcopy)
  · obtain rfl : cert' = cert := Option.some.inj (hset.symm.trans hcopy)
    rcases hconf.2 with hseen | hlooked
    · exact (hI.traced t q h ht).seen n _ hseen
    · exact (hI.traced t q h ht).looked n _ hlooked

end Did

/-! ## Whole runs -/

variable [DecidableEq T] {v v' : ClusterView N T} {l : ClusterLabel T}

omit [DecidableEq N] in
theorem backed_put {t : T} {x : Option (Call × History)} (hI : Backed cfg node H v)
    (hlocking : Locking cfg node (v.put t v.shared x)) (hx : ∀ q h, x = some (q, h) → h = []) :
    Backed cfg node H (v.put t v.shared x) where
  locking := hlocking
  stored := hI.stored
  traced u q h hu := by
    rcases View.put_cases hu with ⟨-, hq⟩ | ⟨-, hu⟩
    · obtain rfl := hx q h hq
      constructor <;> simp [triedPut, justDropped, SeenStored, lookedUp, justPut, lastSet]
    · exact hI.traced u q h hu
  mem i n m hm := by
    rcases hI.mem i n m hm with hH | hp | hun
    · exact .inl hH
    · exact .inr (.inl hp)
    · refine .inr (.inr (hun.put (fun u hu => hu) fun q h hq _ hlock => ?_))
      obtain rfl := hx q h hq
      cases hlock
  copy := hI.copy

theorem backed_move (hI : Backed cfg node H v)
    (hmove : Move (cluster cfg node) ((keeps cfg).and confirms) v l v')
    (hA : FlushesHeld node v l v') (hstored : ∀ n c, v'.shared.storage.chain n = some c → H n c) :
    Backed cfg node H v' := by
  have hlocking := locking_move hI.locking hmove.left
  cases hmove with
  | start _ => exact backed_put hI hlocking (by simp)
  | @did t q h o a r w' ht hmay he =>
      obtain ⟨hkeep, hconf⟩ := hmay
      replace he : exec cfg.maxRetries node v.shared t o a = some (r, w') := he
      refine ⟨hlocking, hstored, fun u q' h' hu => ?_, fun i n m => ?_, fun i n cert => ?_⟩
      · rcases View.put_cases hu with ⟨rfl, ⟨⟩⟩ | ⟨hut, hu⟩
        · refine traced_self hI ht hkeep he hstored ?_
          rintro hq ctx n c rfl
          exact hA (u, n, c) rfl (q, h) ht hq
        · exact traced_other hI ht hkeep hconf he hut hu
      · exact accounted_did hI ht hkeep hconf he i n
      · exact copy_did hI ht hconf he i n
  | finish _ _ | crash => exact backed_put hI hlocking (by simp)

/-- Storage holds the chain, or `past` says it has. -/
def HeldBefore (past : Name → ChainPEM → Prop) (w : World N T) (n : Name) (c : ChainPEM) : Prop :=
  past n c ∨ w.storage.chain n = some c

/-- A process starts with what storage holds, with what an earlier process left in the copy, or with
chains that are held. -/
structure StartsConfirmed (past : Name → ChainPEM → Prop) (w : World N T) : Prop where
  mem : ∀ i n m, (w.node i).mem n = some m → HeldBefore past w n (encodeChainPEM m) ∨
    ∃ p, (w.node i).pending.lookup n = some p ∧ p.chainPEM = encodeChainPEM m
  copy : ∀ i n cert, (w.node i).localCopy n = some cert → HeldBefore past w n (encodeChainPEM cert)

/-- Any calls on any nodes, whatever storage and the CA answer.  Where a flush or a restoration
writes only what is held, or nothing is held, what is in a local copy is a chain the object of its
name has held by then: in this run, or before it as `past` says. -/
theorem local_copy_confirmed (cfg : Settings) (node : T → N) (past : Name → ChainPEM → Prop)
    (w : World N T) (hw : StartsConfirmed past w) (as : List (Action T Call Answer))
    (hA : (cluster cfg node).Meets (FlushesHeld node) (.idle w) as)
    (c : Config Op Res (World N T) T Call Out)
    (hrun : (cluster cfg node).run (.idle w) as = some c) (i : N) (n : Name) (cert : Certificate)
    (hcopy : (c.shared.node i).localCopy n = some cert) :
    past n (encodeChainPEM cert) ∨ (cluster cfg node).Passes
      (fun w => w.storage.chain n = some (encodeChainPEM cert)) (.idle w) as := by
  let H : Name → ChainPEM → Prop := fun n c =>
    past n c ∨ (cluster cfg node).Passes (fun w => w.storage.chain n = some c) (.idle w) as
  have hnothing : (cluster cfg node).run (.idle w) [] = some (.idle w) := rfl
  have hbefore : ∀ n c, HeldBefore past w n c → H n c := fun n c hc =>
    hc.imp_right fun hstored => Machine.passes_of_run (cluster cfg node) hnothing hstored
  have hinit : Backed cfg node H (Config.idle w : Config Op Res (World N T) T Call Out).view := by
    refine ⟨by simp [Locking, Config.view, Config.idle], fun n c hc => hbefore n c (.inr hc),
      by simp [Config.view, Config.idle], fun i n m hm => ?_, fun i n cert hcert => ?_⟩
    · rcases hw.mem i n m hm with hheld | hpending
      · exact .inl (hbefore n _ hheld)
      · exact .inr (.inl hpending)
    · exact hbefore n _ (hw.copy i n cert hcert)
  -- every state of the run is one it passes through
  have hpasses := Machine.meets_passes (cluster cfg node) as [] (.idle w) rfl
  have hfollows := (cluster_keeps cfg node).and (cluster_confirms cfg node)
  have hend := Machine.run_invariant hfollows (fun v l v' hI hmove hrules =>
    backed_move hI hmove hrules.1 fun n c hc =>
      .inr (hrules.2 (fun w => w.storage.chain n = some c) hc))
    as _ c (Machine.onTrack_idle w) hinit (hA.and hpasses) hrun
  exact hend.1.copy i n cert hcopy

end

/-! ## One node -/

/-- The settings of a node that keeps a copy of its one domain. -/
def copying : Settings :=
  { Settings.plain ["a"] with localDir := true }

/-- A renewal by thread `t` gets a certificate and storage refuses its chain; it is the first, or a
later one, which makes ten calls less. -/
def refusedBy (t : Fin 2) (first : Bool) (notAfter : Nat) : List (Action (Fin 2) Call Answer) :=
  (.start t (.renewCertificate "a") ::
      List.replicate (if first then 21 else 11) (.step t { notAfter := notAfter }) : Schedule 2) ++
    (List.replicate 10 (.step t { outcome := .fail }) : Schedule 2) ++ ([.finish t] : Schedule 2)

/-- A flush has taken its snapshot and gone to the first name of it. -/
def flushBegun : List (Action (Fin 2) Call Answer) :=
  .start 0 .flushHeldChains :: List.replicate 3 (.step 0 {})

/-- It takes the lock and the lease, writes, lets go and copies. -/
def flushEnds : List (Action (Fin 2) Call Answer) :=
  (List.replicate 11 (.step 0 {}) : Schedule 2) ++ ([.finish 0] : Schedule 2)

theorem nothing_copied (N T : Type) : StartsConfirmed (fun _ _ => False) (World.empty N T) :=
  ⟨fun _ _ _ hm => (by cases hm), fun _ _ _ hcopy => (by cases hcopy)⟩

theorem local_copy_confirmed_flush :
    ∃ c cert, (cluster copying fun _ : Fin 2 => ()).run (.idle (World.empty _ _))
        (refusedBy 0 true 20000000 ++ flushBegun ++ flushEnds) = some c ∧
      (c.shared.node ()).localCopy "a" = some cert ∧
      (cluster copying fun _ : Fin 2 => ()).Passes
        (fun w => w.storage.chain "a" = some (encodeChainPEM cert)) (.idle (World.empty _ _))
        (refusedBy 0 true 20000000 ++ flushBegun ++ flushEnds) := by
  refine ⟨_, _, rfl, rfl, ?_⟩
  have hheld := local_copy_confirmed copying (fun _ => ()) (fun _ _ => False) (World.empty _ _)
    (nothing_copied _ _) (refusedBy 0 true 20000000 ++ flushBegun ++ flushEnds) (by decide +kernel) _
    rfl () "a" _ rfl
  exact hheld.resolve_left id

/-- Between the snapshot and the write a second order was refused by storage and is held.  The flush
writes the first chain, drops the second and copies its certificate: storage never took it. -/
theorem local_copy_unconfirmed :
    StartsConfirmed (fun _ _ => False) (World.empty Unit (Fin 2)) ∧
    ∃ c cert, (cluster copying fun _ : Fin 2 => ()).run (.idle (World.empty _ _))
        (refusedBy 0 true 20000000 ++ flushBegun ++ refusedBy 1 false 30000000 ++ flushEnds) =
          some c ∧
      (c.shared.node ()).localCopy "a" = some cert ∧
      ¬(cluster copying fun _ : Fin 2 => ()).Passes
        (fun w => w.storage.chain "a" = some (encodeChainPEM cert)) (.idle (World.empty _ _))
        (refusedBy 0 true 20000000 ++ flushBegun ++ refusedBy 1 false 30000000 ++ flushEnds) := by
  exact ⟨nothing_copied _ _, _, _, rfl, rfl, by decide +kernel⟩

end CertsManager
