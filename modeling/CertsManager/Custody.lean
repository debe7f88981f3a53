import CertsManager.Effects
import CertsManager.KeyStability
import CertsManager.Discipline.Operations

/-!
# Custody — what an operation knows is true

The lock an operation holds is its own in the memory of its node, the chain it knows is the one
storage holds, the held chain it knows is the one its node holds.  Its own calls make this so and
nobody else's call undoes it: a chain is written only under its name's lease, a held chain changes
only under its name's lock, and either has one holder.

That a lease has one holder is the premise `Alone`: `Lease` is where it is proved of the lease
object; on a single node it follows from the lock.
-/

namespace CertsManager

open Interleave

section

variable {N T : Type}

/-- Everything in `κ` is true of thread `t`, which runs on node `i`. -/
structure Know.Valid (κ : Know) (i : N) (t : T) (w : World N T) : Prop where
  lock : ∀ n, κ.lock = some n → (w.node i).inflight n = some t
  chain : ∀ n x, κ.Leased n → κ.chain = some x → w.storage.chain n = x
  held : ∀ n x, κ.lock = some n → κ.held = some x → (w.node i).pending.lookup n = x
  key : ∀ n, κ.lock = some n → κ.key = true → w.storage.key (.live n) ≠ none
  gone : κ.gone = false

theorem Know.Valid.transport {κ : Know} {i : N} {t : T} {w w' : World N T} (h : κ.Valid i t w)
    (hlock : ∀ n, κ.lock = some n → (w'.node i).inflight n = (w.node i).inflight n)
    (hchain : ∀ n, κ.Leased n → w'.storage.chain n = w.storage.chain n)
    (hheld : ∀ n, κ.lock = some n →
      (w'.node i).pending.lookup n = (w.node i).pending.lookup n)
    (hkey : ∀ n, w.storage.key (.live n) ≠ none → w'.storage.key (.live n) ≠ none) :
    κ.Valid i t w' where
  lock n hn := (hlock n hn).trans (h.lock n hn)
  chain n x hn hx := (hchain n hn).trans (h.chain n x hn hx)
  held n x hn hx := (hheld n hn).trans (h.held n x hn hx)
  key n hn hk := hkey n (h.key n hn hk)
  gone := h.gone

/-- Every thread's knowledge is true. -/
def Custody (cfg : Settings) (node : T → N) (v : ClusterView N T) : Prop :=
  ∀ t q h, v.task t = some (q, h) → (know cfg h).Valid (node t) t v.shared

/-- A name's lease has one holder. -/
def Alone (cfg : Settings) (v : ClusterView N T) : Prop :=
  ∀ t u q q' h h' n, v.task t = some (q, h) → v.task u = some (q', h') →
    (know cfg h).Leased n → (know cfg h').Leased n → t = u

/-- On one node a name's lock, and with it the lease, has one holder. -/
theorem Custody.same_of_lock {cfg : Settings} {node : T → N} {v : ClusterView N T}
    (hv : Custody cfg node v) {t u : T} {q q' : Call} {h h' : History} {n : Name}
    (ht : v.task t = some (q, h)) (hu : v.task u = some (q', h')) (hnode : node t = node u)
    (hl : (know cfg h).lock = some n) (hl' : (know cfg h').lock = some n) : t = u := by
  have h₁ := (hv t q h ht).lock n hl
  have h₂ := (hv u q' h' hu).lock n hl'
  rw [hnode] at h₁
  exact Option.some.inj (h₁.symm.trans h₂)

/-! ## The caller's own knowledge -/

/-- Calls that move no lock, chain, held chain or live key. -/
def Op.Still : Op → Prop
  | .storage _ (.putChain _ _) => False
  | .storage _ (.removeKey (.live _)) => False
  | .mem (.pendingSet _ _) => False
  | .mem (.pendingDelete _) => False
  | .mem (.lock _) => False
  | .mem (.tryLock _) => False
  | .mem (.unlock _) => False
  | _ => True

variable [DecidableEq N] {maxRetries : Nat} {node : T → N} {w w' : World N T} {t : T} {o : Op}
  {r : Res o} {a : Answer} {cfg : Settings} {q : Call} {h : History}

theorem exec_live_present (he : exec maxRetries node w t o a = some (r, w'))
    (hmay : mayKeep cfg q h o) {n : Name} (hn : w.storage.key (.live n) ≠ none) :
    w'.storage.key (.live n) ≠ none := by
  rcases exec_key he (.live n) with hk | ⟨_, _, _, -, hk, -⟩ | ⟨ctx, rfl, -⟩
  · rwa [hk]
  · simp [hk]
  · exact hmay.elim

theorem exec_still (he : exec maxRetries node w t o a = some (r, w')) (ho : o.Still) (i : N)
    (n : Name) :
    (w'.node i).inflight n = (w.node i).inflight n ∧ w'.storage.chain n = w.storage.chain n ∧
      (w'.node i).pending.lookup n = (w.node i).pending.lookup n := by
  refine ⟨?_, ?_, ?_⟩
  · rcases exec_inflight he i n with hi | ⟨rfl | rfl, -⟩ | ⟨rfl, -⟩
    · exact hi
    all_goals exact ho.elim
  · rcases exec_chain he n with hc | ⟨_, _, rfl, -⟩
    · exact hc
    · exact ho.elim
  · rcases exec_pending he i n with hp | ⟨_, rfl, -⟩ | ⟨rfl, -⟩
    · exact hp
    all_goals exact ho.elim

theorem Know.Valid.still {κ : Know} {i : N} {u : T} (hκ : κ.Valid i u w)
    (he : exec maxRetries node w t o a = some (r, w')) (hmay : mayKeep cfg q h o)
    (ho : o.Still) : κ.Valid i u w' :=
  hκ.transport (fun n _ => (exec_still he ho i n).1) (fun n _ => (exec_still he ho i n).2.1)
    (fun n _ => (exec_still he ho i n).2.2) (fun _ hn => exec_live_present he hmay hn)

omit [DecidableEq N] in
/-- Taking a lock forgets everything else. -/
theorem Know.valid_locked {i : N} {n : Name} (hn : (w.node i).inflight n = some t) :
    Know.Valid { lock := some n } i t w where
  lock m hm := by
    cases hm
    exact hn
  chain m x hm := by simp [Leased] at hm
  held m x _ hx := by simp at hx
  key m _ hk := by simp at hk
  gone := rfl

theorem valid_readKey {n : Name} {ctx : Time} {r : Except ReadFault KeyPEM}
    (he : exec maxRetries node w t (.storage ctx (.getKey (.live n))) a = some (r, w'))
    (hκ : (know cfg h).Valid (node t) t w) (hκ' : (know cfg h).Valid (node t) t w')
    (hn : (know cfg h).lock = some n) : ((know cfg h).readKey r).Valid (node t) t w' := by
  rcases r with (_ | _) | pem
  · -- a key that was there is not gone
    have hkey : (know cfg h).key = false := by
      by_contra hk
      exact hκ.key n hn (by simpa using hk) (exec_getKey_notExist he)
    exact ⟨hκ'.lock, hκ'.chain, hκ'.held, hκ'.key, by simp [Know.readKey, hkey, hκ.gone]⟩
  · exact hκ'
  · refine ⟨hκ'.lock, hκ'.chain, hκ'.held, fun m hm _ => ?_, hκ'.gone⟩
    obtain rfl : n = m := Option.some.inj (hn.symm.trans hm)
    rcases exec_key he (.live n) with hk | ⟨_, _, _, ho, -⟩ | ⟨_, ho, -⟩
    · simp [hk, exec_getKey_ok he]
    · simp at ho
    · simp at ho

theorem valid_readChain {n : Name} {ctx : Time} {r : Except ReadFault ChainPEM}
    (he : exec maxRetries node w t (.storage ctx (.getChain n)) a = some (r, w'))
    (hκ' : (know cfg h).Valid (node t) t w') (hn : (know cfg h).Leased n) :
    ((know cfg h).readChain r).Valid (node t) t w' := by
  have hsame : w'.storage.chain n = w.storage.chain n := (exec_still he trivial (node t) n).2.1
  cases hc : (know cfg h).chain with
  | some x => simpa [Know.readChain, hc] using hκ'
  | none =>
      have hread : ∀ x, w.storage.chain n = x →
          Know.Valid { know cfg h with chain := some x, read := some x } (node t) t w' := by
        intro x hx
        refine ⟨hκ'.lock, fun m y hm hy => ?_, hκ'.held, hκ'.key, hκ'.gone⟩
        obtain rfl : n = m := Option.some.inj (hn.1.symm.trans hm.1)
        obtain rfl : x = y := Option.some.inj hy
        exact hsame.trans hx
      rcases r with (_ | _) | c <;> simp only [Know.readChain, hc]
      · exact hread none (exec_getChain_notExist he)
      · exact hκ'
      · exact hread (some c) (exec_getChain_ok he)

theorem valid_wroteChain {n : Name} {ctx : Time} {c : ChainPEM} {r : Except PutFault Unit}
    (he : exec maxRetries node w t (.storage ctx (.putChain n c)) a = some (r, w'))
    (hκ : (know cfg h).Valid (node t) t w) (hn : (know cfg h).Leased n) :
    ((know cfg h).wroteChain c r).Valid (node t) t w' := by
  have hlock : ∀ m, (w'.node (node t)).inflight m = (w.node (node t)).inflight m := fun m => by
    rcases exec_inflight he (node t) m with hi | ⟨hor, -⟩ | ⟨ho, -⟩
    · exact hi
    · simp at hor
    · simp at ho
  have hheld : ∀ m, (w'.node (node t)).pending.lookup m = (w.node (node t)).pending.lookup m :=
    fun m => by
      rcases exec_pending he (node t) m with hp | ⟨_, ho, -⟩ | ⟨ho, -⟩
      · exact hp
      · simp at ho
      · simp at ho
  have hkey : ∀ m, w.storage.key (.live m) ≠ none → w'.storage.key (.live m) ≠ none := fun m hm => by
    rcases exec_key he (.live m) with hk | ⟨_, _, _, ho, -⟩ | ⟨_, ho, -⟩
    · rwa [hk]
    · simp at ho
    · simp at ho
  have hwrote : ∀ x b, (∀ y, x = some y → w'.storage.chain n = y) →
      Know.Valid { know cfg h with chain := x, spoiled := b } (node t) t w' := by
    intro x b hx
    refine ⟨fun m hm => (hlock m).trans (hκ.lock m hm), fun m y hm hy => ?_,
      fun m y hm hy => (hheld m).trans (hκ.held m y hm hy), fun m hm hk => hkey m (hκ.key m hm hk),
      hκ.gone⟩
    obtain rfl : n = m := Option.some.inj (hn.1.symm.trans hm.1)
    exact hx y hy
  rcases r with _ | _
  · exact hwrote none true (by simp)
  · refine hwrote (some (some c)) _ ?_
    rintro _ ⟨⟩
    exact exec_putChain_ok he

/-- Setting or dropping the held chain of the locked name. -/
theorem valid_held {n : Name} {o : MemOp} {r : o.Res} {x : Option PendingPersist}
    (he : exec maxRetries node w t (.mem o) a = some (r, w'))
    (ho : (∃ p, o = .pendingSet n p) ∨ o = .pendingDelete n)
    (hx : (w'.node (node t)).pending.lookup n = x) (hκ : (know cfg h).Valid (node t) t w)
    (hn : (know cfg h).lock = some n) :
    Know.Valid { know cfg h with held := some x } (node t) t w' := by
  have hlock : ∀ m, (w'.node (node t)).inflight m = (w.node (node t)).inflight m := fun m => by
    rcases exec_inflight he (node t) m with hi | ⟨hor, -⟩ | ⟨hun, -⟩
    · exact hi
    · rcases ho with ⟨p, rfl⟩ | rfl <;> simp at hor
    · rcases ho with ⟨p, rfl⟩ | rfl <;> simp at hun
  have hst : w'.storage = w.storage := by
    rcases exec_storage he with hst | ⟨_, _, hso, -⟩
    · exact hst
    · simp at hso
  refine ⟨fun m hm => (hlock m).trans (hκ.lock m hm), fun m y hm hy => ?_, fun m y hm hy => ?_,
    fun m hm hk => ?_, hκ.gone⟩
  · rw [hst]
    exact hκ.chain m y hm hy
  · obtain rfl : n = m := Option.some.inj (hn.symm.trans hm)
    obtain rfl : x = y := Option.some.inj hy
    exact hx
  · rw [hst]
    exact hκ.key m hm hk

/-- What a call adds to its caller's knowledge is true. -/
theorem valid_after (he : exec maxRetries node w t o a = some (r, w'))
    (hmay : mayKeep cfg q h o) (hκ : (know cfg h).Valid (node t) t w) :
    (know cfg (⟨o, r⟩ :: h)).Valid (node t) t w' := by
  rw [know_cons]
  cases o with
  | storage ctx o =>
      cases o with
      | getKey slot =>
          have hκ' := hκ.still he hmay trivial
          cases slot with
          | live n =>
              simp only [Know.after]
              split
              · exact valid_readKey he hκ hκ' ‹_›
              · exact hκ'
          | _ => exact hκ'
      | getChain n =>
          have hκ' := hκ.still he hmay trivial
          simp only [Know.after]
          split
          · exact valid_readChain he hκ' ‹_›
          · exact hκ'
      | putChain n c =>
          simp only [Know.after, show (know cfg h).Leased n from hmay, if_true]
          exact valid_wroteChain he hκ hmay
      | removeKey slot =>
          cases slot with
          | live n => exact hmay.elim
          | _ => exact hκ.still he hmay trivial
      | _ => exact hκ.still he hmay trivial
  | mem o =>
      cases o with
      | lock n => exact Know.valid_locked (exec_lock he)
      | tryLock n =>
          cases r with
          | true => exact Know.valid_locked (exec_tryLock he)
          | false =>
              -- without a lock there is nothing to keep
              have hnone : (know cfg h).lock = none := hmay
              have hempty := (know_sound cfg h).unlocked hnone
              simp only [Know.after, Bool.false_eq_true, if_false, hempty]
              exact ⟨by simp, by simp [Know.Leased], by simp, by simp, rfl⟩
      | unlock n => exact ⟨by simp [Know.after], by simp [Know.after, Know.Leased],
          by simp [Know.after], by simp [Know.after], rfl⟩
      | pendingGet n =>
          have hκ' := hκ.still he hmay trivial
          simp only [Know.after]
          split
          · rename_i hn
            refine ⟨hκ'.lock, hκ'.chain, fun m x hm hx => ?_, hκ'.key, hκ'.gone⟩
            obtain rfl : n = m := Option.some.inj (hn.symm.trans hm)
            obtain rfl : r = x := Option.some.inj hx
            rw [exec_pendingGet he]
            exact (exec_still he trivial (node t) n).2.2
          · exact hκ'
      | pendingSet n p =>
          rw [Know.after, if_pos hmay.1.1]
          exact valid_held he (Or.inl ⟨p, rfl⟩) (exec_pendingSet he) hκ hmay.1.1
      | pendingDelete n =>
          rw [Know.after, if_pos hmay.1.1]
          exact valid_held he (Or.inr rfl) (exec_pendingDelete he) hκ hmay.1.1
      | memSet n cert | memGet n =>
          have hκ' := hκ.still he hmay trivial
          simp only [Know.after]
          split
          · exact ⟨hκ'.lock, hκ'.chain, hκ'.held, hκ'.key, hκ'.gone⟩
          · exact hκ'
      | _ => exact hκ.still he hmay trivial
  | env o =>
      have hκ' := hκ.still he hmay trivial
      cases o with
      | acquireLease ctx n =>
          simp only [Know.after]
          split
          · obtain ⟨hchain, -⟩ := (know_sound cfg h).unleased hmay.2
            exact ⟨hκ'.lock, fun m x _ hx => by simp [hchain] at hx, hκ'.held, hκ'.key, hκ'.gone⟩
          · exact hκ'
      | releaseLease n =>
          exact ⟨hκ'.lock, fun m x _ hx => by simp [Know.after] at hx, hκ'.held, hκ'.key, hκ'.gone⟩
      | issue ctx n k =>
          cases r with
          | error f => exact hκ'
          | ok c =>
              simp only [Know.after]
              split
              · exact ⟨hκ'.lock, hκ'.chain, hκ'.held, hκ'.key, hκ'.gone⟩
              · exact hκ'
      | now =>
          simp only [Know.after]
          split
          · exact ⟨hκ'.lock, hκ'.chain, hκ'.held, hκ'.key, hκ'.gone⟩
          · exact hκ'
      | _ => exact hκ'

/-! ## Everyone else's -/

/-- A call by `t` undoes nothing that another thread knows. -/
theorem valid_other {u : T} {κ : Know} (hut : u ≠ t)
    (he : exec maxRetries node w t o a = some (r, w')) (hmay : mayKeep cfg q h o)
    (ht : (know cfg h).Valid (node t) t w) (hu : κ.Valid (node u) u w)
    (halone : ∀ n, (know cfg h).Leased n → ¬κ.Leased n) : κ.Valid (node u) u w' := by
  -- a name that `u` has locked is not locked by `t` on the same node
  have hlock : ∀ n, κ.lock = some n → node u = node t → (know cfg h).lock ≠ some n := by
    intro n hn hnode hn'
    have h₁ := hu.lock n hn
    rw [hnode, ht.lock n hn'] at h₁
    exact hut (Option.some.inj h₁).symm
  refine hu.transport (fun n hn => ?_) (fun n hn => ?_) (fun n hn => ?_)
    (fun n hn => exec_live_present he hmay hn)
  · rcases exec_inflight he (node u) n with hi | ⟨-, -, hnone, -⟩ | ⟨rfl, hnode, -⟩
    · exact hi
    · simp [hu.lock n hn] at hnone
    · exact absurd hmay.1 (hlock n hn hnode)
  · rcases exec_chain he n with hc | ⟨_, _, rfl, -⟩
    · exact hc
    · exact absurd hn (halone n hmay)
  · rcases exec_pending he (node u) n with hp | ⟨_, rfl, hnode, -⟩ | ⟨rfl, hnode, -⟩
    · exact hp
    all_goals exact absurd hmay.1.1 (hlock n hn hnode)

variable [DecidableEq T]

theorem custody_move {v v' : ClusterView N T} {l : ClusterLabel T} (hv : Custody cfg node v)
    (halone : Alone cfg v) (hmove : Move (cluster cfg node) (keeps cfg) v l v') :
    Custody cfg node v' := by
  cases hmove with
  | start _ =>
      intro u q h hu
      rcases View.put_cases hu with ⟨rfl, ⟨⟩⟩ | ⟨-, hu⟩
      · exact ⟨by simp, by simp [Know.Leased], by simp, by simp, rfl⟩
      · exact hv u q h hu
  | @did t q h o a r w' ht hmay he =>
      replace he : exec cfg.maxRetries node v.shared t o a = some (r, w') := he
      replace hmay : mayKeep cfg q h o := hmay
      intro u q' h' hu
      rcases View.put_cases hu with ⟨rfl, ⟨⟩⟩ | ⟨hut, hu⟩
      · exact valid_after he hmay (hv u q h ht)
      · refine valid_other hut he hmay (hv t q h ht) (hv u q' h' hu) fun n hn hn' => ?_
        exact hut (halone u t q' q h' h n hu ht hn' hn)
  | finish _ _ | crash =>
      intro u q h hu
      rcases View.put_cases hu with ⟨-, ⟨⟩⟩ | ⟨-, hu⟩
      exact hv u q h hu

/-! ## One holder -/

/-- The thread and the name of a lease this move granted. -/
def granted : ClusterLabel T → Option (T × Name)
  | .did t ⟨.env (.acquireLease _ n), got⟩ => if got then some (t, n) else none
  | _ => none

/-- A lease is granted only when no other operation holds one of that hostname. -/
def LeaseExclusive (cfg : Settings) (v : ClusterView N T) (l : ClusterLabel T)
    (_ : ClusterView N T) : Prop :=
  ∀ g ∈ granted l, ∀ u, u ≠ g.1 → ∀ x ∈ v.task u, (know cfg x.2).lease = true →
    ∀ m ∈ (know cfg x.2).lock, Layout.certDomain m ≠ Layout.certDomain g.2

instance [Fintype T] (v : ClusterView N T) (l : ClusterLabel T) (v' : ClusterView N T) :
    Decidable (LeaseExclusive cfg v l v') :=
  inferInstanceAs (Decidable (∀ g ∈ granted l, ∀ u, u ≠ g.1 → ∀ x ∈ v.task u,
    (know cfg x.2).lease = true → ∀ m ∈ (know cfg x.2).lock,
      Layout.certDomain m ≠ Layout.certDomain g.2))

/-- Of related names the lease has one holder. -/
def AloneUpTo (R : Name → Name → Prop) (cfg : Settings) (v : ClusterView N T) : Prop :=
  ∀ t u q q' h h' n m, v.task t = some (q, h) → v.task u = some (q', h') →
    (know cfg h).Leased n → (know cfg h').Leased m → R n m → t = u

omit [DecidableEq N] [DecidableEq T] in
theorem alone_iff {v : ClusterView N T} : Alone cfg v ↔ AloneUpTo Eq cfg v := by
  constructor
  · rintro hv t u q q' h h' n _ ht hu hn hn' rfl
    exact hv t u q q' h h' n ht hu hn hn'
  · intro hv t u q q' h h' n ht hu hn hn'
    exact hv t u q q' h h' n n ht hu hn hn' rfl

/-- Leases granted one at a time are held one at a time. -/
theorem aloneUpTo_move {R : Name → Name → Prop} (hsymm : ∀ n m, R n m → R m n)
    (hR : ∀ n m, R n m → Layout.certDomain n = Layout.certDomain m) {v v' : ClusterView N T}
    {l : ClusterLabel T} (hv : AloneUpTo R cfg v)
    (hmove : Move (cluster cfg node) (keeps cfg) v l v') (hA : LeaseExclusive cfg v l v') :
    AloneUpTo R cfg v' := by
  cases hmove with
  | start _ =>
      intro t u q q' h h' n m ht hu hn hm
      rcases View.put_cases ht with ⟨-, ⟨⟩⟩ | ⟨-, ht⟩
      · simp [Know.Leased] at hn
      · rcases View.put_cases hu with ⟨-, ⟨⟩⟩ | ⟨-, hu⟩
        · simp [Know.Leased] at hm
        · exact hv t u q q' h h' n m ht hu hn hm
  | @did s q₀ h₀ o a r w' hs hmay he =>
      -- a grant to `s` meets no other holder; otherwise nobody's lease is new
      have hgrant : ∀ u q' h' n m, u ≠ s → v.task u = some (q', h') →
          (know cfg (⟨o, r⟩ :: h₀)).Leased n → (know cfg h').Leased m → ¬R m n := by
        intro u q' h' n m hus hu hn hm hR'
        rcases leased_after hn with hn₀ | ⟨ctx, heq⟩
        · exact hus (hv u s q' q₀ h' h₀ m n hu hs hm hn₀ hR')
        · rw [heq] at hA
          exact hA (s, n) rfl u hus _ hu hm.2 m hm.1 (hR m n hR')
      intro t u q q' h h' n m ht hu hn hm hR'
      rcases View.put_cases ht with ⟨hts, hx⟩ | ⟨hts, ht'⟩
      · rcases View.put_cases hu with ⟨hus, -⟩ | ⟨hus, hu'⟩
        · rw [hts, hus]
        · cases hx
          exact absurd (hsymm n m hR') (hgrant u q' h' n m hus hu' hn hm)
      · rcases View.put_cases hu with ⟨-, hx⟩ | ⟨-, hu'⟩
        · cases hx
          exact absurd hR' (hgrant t q h m n hts ht' hm hn)
        · exact hv t u q q' h h' n m ht' hu' hn hm hR'
  | finish _ _ | crash =>
      intro t u q q' h h' n m ht hu hn hm
      rcases View.put_cases ht with ⟨-, ⟨⟩⟩ | ⟨-, ht⟩
      rcases View.put_cases hu with ⟨-, ⟨⟩⟩ | ⟨-, hu⟩
      exact hv t u q q' h h' n m ht hu hn hm

theorem alone_move {v v' : ClusterView N T} {l : ClusterLabel T} (hv : Alone cfg v)
    (hmove : Move (cluster cfg node) (keeps cfg) v l v') (hA : LeaseExclusive cfg v l v') :
    Alone cfg v' := by
  rw [alone_iff] at hv ⊢
  exact aloneUpTo_move (fun _ _ heq => heq.symm) (fun _ _ heq => congrArg _ heq) hv hmove hA

/-- A hostname's lease, for whichever of its names it is taken, has one holder. -/
def HostAlone (cfg : Settings) (v : ClusterView N T) : Prop :=
  AloneUpTo (fun n m => Layout.certDomain n = Layout.certDomain m) cfg v

theorem hostAlone_move {v v' : ClusterView N T} {l : ClusterLabel T} (hv : HostAlone cfg v)
    (hmove : Move (cluster cfg node) (keeps cfg) v l v') (hA : LeaseExclusive cfg v l v') :
    HostAlone cfg v' :=
  aloneUpTo_move (fun _ _ heq => heq.symm) (fun _ _ heq => heq) hv hmove hA

/-! ## The lock without the lease -/

omit [DecidableEq N] [DecidableEq T] in
/-- What is known under the lock is true, whoever else has the lease. -/
structure Know.Holds (κ : Know) (i : N) (t : T) (w : World N T) : Prop where
  lock : ∀ n, κ.lock = some n → (w.node i).inflight n = some t
  held : ∀ n x, κ.lock = some n → κ.held = some x → (w.node i).pending.lookup n = x

/-- Every thread's locks are its own. -/
def Locking (cfg : Settings) (node : T → N) (v : ClusterView N T) : Prop :=
  ∀ t q h, v.task t = some (q, h) → (know cfg h).Holds (node t) t v.shared

omit [DecidableEq N] [DecidableEq T] in
theorem Locking.same_of_lock {v : ClusterView N T} (hv : Locking cfg node v) {t u : T}
    {q q' : Call} {h h' : History} {n : Name} (ht : v.task t = some (q, h))
    (hu : v.task u = some (q', h')) (hnode : node t = node u) (hl : (know cfg h).lock = some n)
    (hl' : (know cfg h').lock = some n) : t = u := by
  have h₁ := (hv t q h ht).lock n hl
  have h₂ := (hv u q' h' hu).lock n hl'
  rw [hnode] at h₁
  exact Option.some.inj (h₁.symm.trans h₂)

omit [DecidableEq N] [DecidableEq T] in
/-- The calls that move neither a lock nor a held chain leave both as they are known. -/
theorem Know.after_still (cfg : Settings) (κ : Know) (r : Res o)
    (hstill : o.Still ∨ ∃ ctx n c, o = .storage ctx (.putChain n c))
    (hget : ∀ n, o ≠ .mem (.pendingGet n)) :
    (κ.after cfg ⟨o, r⟩).lock = κ.lock ∧ (κ.after cfg ⟨o, r⟩).held = κ.held := by
  by_cases hlight : o.Light
  · have hg := κ.after_grows cfg (e := ⟨o, r⟩) hlight
    exact ⟨hg.lock, hg.held⟩
  · cases o with
    | storage ctx o =>
        cases o with
        | putChain n c =>
            simp only [Know.after]
            split
            · rcases r with _ | _ <;> exact ⟨rfl, rfl⟩
            · exact ⟨rfl, rfl⟩
        | removeKey slot => exact ⟨rfl, rfl⟩
        | _ => exact absurd trivial hlight
    | mem o =>
        cases o with
        | pendingGet n => exact absurd rfl (hget n)
        | pendingSnapshot | retriesAllow n | retriesRecordFailure n | retriesBlock n t
        | retriesReset n => exact ⟨rfl, rfl⟩
        | lock n | tryLock n | unlock n | pendingSet n p | pendingDelete n =>
            rcases hstill with hstill | ⟨_, _, _, heq⟩
            · exact hstill.elim
            · cases heq
        | _ => exact absurd trivial hlight
    | env o =>
        cases o with
        | acquireLease ctx n =>
            simp only [Know.after]
            split <;> exact ⟨rfl, rfl⟩
        | releaseLease n => exact ⟨rfl, rfl⟩
        | issue ctx n k =>
            cases r with
            | error f => exact ⟨rfl, rfl⟩
            | ok c =>
                simp only [Know.after]
                split <;> exact ⟨rfl, rfl⟩
        | _ => exact absurd trivial hlight

omit [DecidableEq N] [DecidableEq T] in
theorem Know.Holds.transport {κ κ' : Know} {i : N} {u : T} (hκ : κ.Holds i u w)
    (hlock : κ'.lock = κ.lock) (hheld : κ'.held = κ.held)
    (hinflight : ∀ n, κ.lock = some n → (w'.node i).inflight n = (w.node i).inflight n)
    (hpending : ∀ n, κ.lock = some n →
      (w'.node i).pending.lookup n = (w.node i).pending.lookup n) : κ'.Holds i u w' where
  lock n hn := by
    rw [hlock] at hn
    exact (hinflight n hn).trans (hκ.lock n hn)
  held n x hn hx := by
    rw [hlock] at hn
    rw [hheld] at hx
    exact (hpending n hn).trans (hκ.held n x hn hx)

omit [DecidableEq T] in
theorem holds_after (he : exec maxRetries node w t o a = some (r, w'))
    (hmay : mayKeep cfg q h o) (hκ : (know cfg h).Holds (node t) t w) :
    (know cfg (⟨o, r⟩ :: h)).Holds (node t) t w' := by
  rw [know_cons]
  have hother : o.Still → (∀ n, o ≠ .mem (.pendingGet n)) →
      ((know cfg h).after cfg ⟨o, r⟩).Holds (node t) t w' := by
    intro hstill hget
    obtain ⟨hlock, hheld⟩ := (know cfg h).after_still cfg r (Or.inl hstill) hget
    exact hκ.transport hlock hheld (fun n _ => (exec_still he hstill (node t) n).1)
      fun n _ => (exec_still he hstill (node t) n).2.2
  -- setting or dropping what is held under the lock
  have hset : ∀ {n x}, (know cfg h).lock = some n → (w'.node (node t)).pending.lookup n = x →
      (w'.node (node t)).inflight n = (w.node (node t)).inflight n →
        ({ know cfg h with held := some x } : Know).Holds (node t) t w' := by
    intro n x hn hx hinflight
    refine ⟨fun m hm => ?_, fun m y hm hy => ?_⟩
    · obtain rfl : n = m := Option.some.inj (hn.symm.trans hm)
      exact hinflight.trans (hκ.lock n hn)
    · obtain rfl : n = m := Option.some.inj (hn.symm.trans hm)
      obtain rfl : x = y := Option.some.inj hy
      exact hx
  cases o with
  | storage ctx o =>
      cases o with
      | putChain n c =>
          obtain ⟨hlock, hheld⟩ := (know cfg h).after_still cfg r
            (Or.inr ⟨ctx, n, c, rfl⟩) (by simp)
          refine hκ.transport hlock hheld (fun m _ => ?_) fun m _ => ?_
          · rcases exec_inflight he (node t) m with hsame | ⟨heq | heq, -⟩ | ⟨heq, -⟩
            · exact hsame
            all_goals cases heq
          · rcases exec_pending he (node t) m with hsame | ⟨_, heq, -⟩ | ⟨heq, -⟩
            · exact hsame
            all_goals cases heq
      | removeKey slot =>
          cases slot with
          | live n => exact hmay.elim
          | _ => exact hother trivial (by simp)
      | _ => exact hother trivial (by simp)
  | mem o =>
      have hinflight : (∀ n, o ≠ .lock n) → (∀ n, o ≠ .tryLock n) → (∀ n, o ≠ .unlock n) →
          ∀ n, (w'.node (node t)).inflight n = (w.node (node t)).inflight n := by
        intro hl ht hu n
        rcases exec_inflight he (node t) n with hsame | ⟨heq | heq, -⟩ | ⟨heq, -⟩
        · exact hsame
        · exact absurd (Op.mem.inj heq) (hl n)
        · exact absurd (Op.mem.inj heq) (ht n)
        · exact absurd (Op.mem.inj heq) (hu n)
      cases o with
      | lock n => exact ⟨fun m hm => (by cases hm; exact exec_lock he), fun m x _ hx => (by cases hx)⟩
      | tryLock n =>
          cases r with
          | true =>
              exact ⟨fun m hm => (by cases hm; exact exec_tryLock he), fun m x _ hx => (by cases hx)⟩
          | false =>
              have hempty := (know_sound cfg h).unlocked hmay
              simp only [Know.after, Bool.false_eq_true, if_false, hempty]
              exact ⟨fun m hm => (by cases hm), fun m x hm => (by cases hm)⟩
      | unlock n => exact ⟨fun m hm => (by cases hm), fun m x hm => (by cases hm)⟩
      | pendingGet n =>
          simp only [Know.after]
          split
          · rename_i hn
            refine hset hn ?_ (hinflight (by simp) (by simp) (by simp) n)
            rw [exec_pendingGet he]
            exact (exec_still he trivial (node t) n).2.2
          · exact hκ.transport rfl rfl (fun m _ => (exec_still he trivial (node t) m).1)
              fun m _ => (exec_still he trivial (node t) m).2.2
      | pendingSet n p =>
          rw [Know.after, if_pos hmay.1.1]
          exact hset hmay.1.1 (exec_pendingSet he) (hinflight (by simp) (by simp) (by simp) n)
      | pendingDelete n =>
          rw [Know.after, if_pos hmay.1.1]
          exact hset hmay.1.1 (exec_pendingDelete he) (hinflight (by simp) (by simp) (by simp) n)
      | _ => exact hother trivial (by simp)
  | env o => exact hother trivial (by simp)

omit [DecidableEq T] in
theorem holds_other {u : T} {κ : Know} (hut : u ≠ t)
    (he : exec maxRetries node w t o a = some (r, w')) (hmay : mayKeep cfg q h o)
    (ht : (know cfg h).Holds (node t) t w) (hu : κ.Holds (node u) u w) :
    κ.Holds (node u) u w' := by
  have hlock : ∀ n, κ.lock = some n → node u = node t → (know cfg h).lock ≠ some n := by
    intro n hn hnode hn'
    have h₁ := hu.lock n hn
    rw [hnode, ht.lock n hn'] at h₁
    exact hut (Option.some.inj h₁).symm
  refine hu.transport rfl rfl (fun n hn => ?_) fun n hn => ?_
  · rcases exec_inflight he (node u) n with hsame | ⟨-, -, hnone, -⟩ | ⟨rfl, hnode, -⟩
    · exact hsame
    · simp [hu.lock n hn] at hnone
    · exact absurd hmay.1 (hlock n hn hnode)
  · rcases exec_pending he (node u) n with hsame | ⟨_, rfl, hnode, -⟩ | ⟨rfl, hnode, -⟩
    · exact hsame
    all_goals exact absurd hmay.1.1 (hlock n hn hnode)

theorem locking_move {v v' : ClusterView N T} {l : ClusterLabel T} (hv : Locking cfg node v)
    (hmove : Move (cluster cfg node) (keeps cfg) v l v') : Locking cfg node v' := by
  cases hmove with
  | start _ =>
      intro u q h hu
      rcases View.put_cases hu with ⟨rfl, ⟨⟩⟩ | ⟨-, hu⟩
      · exact ⟨fun m hm => (by cases hm), fun m x hm => (by cases hm)⟩
      · exact hv u q h hu
  | @did t q h o a r w' ht hmay he =>
      replace he : exec cfg.maxRetries node v.shared t o a = some (r, w') := he
      intro u q' h' hu
      rcases View.put_cases hu with ⟨rfl, ⟨⟩⟩ | ⟨hut, hu⟩
      · exact holds_after he hmay (hv u q h ht)
      · exact holds_other hut he hmay (hv t q h ht) (hv u q' h' hu)
  | finish _ _ | crash =>
      intro u q h hu
      rcases View.put_cases hu with ⟨-, ⟨⟩⟩ | ⟨-, hu⟩
      exact hv u q h hu

end

end CertsManager
