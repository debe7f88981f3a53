import CertsManager.Custody

/-!
# Orders — no needless automatic order

An order that nobody forced is placed under the name's lease, after a read under that lease that
found no chain or one with no more than `renewBefore` left.  What was read is what storage still
holds (`Custody`), and an order is stored before its lease is given back; so while chain writes
land, a name that was ordered once is not ordered again before its stored certificate is due.
-/

namespace CertsManager

open Interleave

section

variable {N T : Type}

/-! ## What an operation serves under its lease -/

/-- What the operation put in memory is there, memory answered with it, and what was found due is. -/
structure Know.Serving (κ : Know) (cfg : Settings) (i : N) (w : World N T) : Prop where
  mem : ∀ n cert, κ.Leased n → κ.served = some cert → (w.node i).mem n = some cert
  seen : ∀ cert m, κ.served = some cert → κ.seen = some m → m = some cert
  due : ∀ cert, κ.seen = some (some cert) → κ.due = true →
    cert.leaf.notAfter * second ≤ w.clock + cfg.renewBefore

/-- It depends on the lease, on what was served and seen, and on nothing else. -/
theorem Know.Serving.congr {κ κ' : Know} {cfg : Settings} {i : N} {w : World N T}
    (h : κ.Serving cfg i w) (hlock : κ'.lock = κ.lock) (hlease : κ'.lease = κ.lease)
    (hserved : κ'.served = κ.served) (hseen : κ'.seen = κ.seen) (hdue : κ'.due = κ.due) :
    κ'.Serving cfg i w where
  mem n cert hn hc := h.mem n cert ⟨hlock.symm.trans hn.1, hlease.symm.trans hn.2⟩
    (hserved.symm.trans hc)
  seen cert m hc hm := h.seen cert m (hserved.symm.trans hc) (hseen.symm.trans hm)
  due cert hc hd := h.due cert (hseen.symm.trans hc) (hdue.symm.trans hd)

/-- Having served nothing, there is nothing to keep. -/
theorem Know.serving_of_none {κ : Know} {cfg : Settings} {i : N} {w : World N T}
    (hserved : κ.served = none) (hseen : κ.seen = none) : κ.Serving cfg i w :=
  ⟨by simp [hserved], by simp [hserved], by simp [hseen]⟩

variable [DecidableEq N] {maxRetries : Nat} {node : T → N} {w w' : World N T} {t : T} {o : Op}
  {r : Res o} {a : Answer} {cfg : Settings} {q : Call} {h : History}

/-- Nobody else's call, and none of its own but a new certificate, undoes it. -/
theorem Know.Serving.transport {κ : Know} {i : N}
    (he : exec maxRetries node w t o a = some (r, w')) (hκ : κ.Serving cfg i w)
    (hmem : ∀ n cert, κ.Leased n → o = .mem (.memSet n cert) → i = node t → False) :
    κ.Serving cfg i w' where
  mem n cert hn hc := by
    rcases exec_cert he i n with hsame | ⟨cert', ho, hi, -⟩
    · exact hsame.trans (hκ.mem n cert hn hc)
    · exact (hmem n cert' hn ho hi).elim
  seen := hκ.seen
  due cert hc hd := (hκ.due cert hc hd).trans (Nat.add_le_add_right (exec_clock he) _)

theorem serving_after (he : exec maxRetries node w t o a = some (r, w'))
    (hmay : mayKeep cfg q h o) (hκ : (know cfg h).Serving cfg (node t) w) :
    (know cfg (⟨o, r⟩ :: h)).Serving cfg (node t) w' := by
  rw [know_cons]
  cases o with
  | storage ctx o =>
      have hκ' := hκ.transport he (by simp)
      cases o with
      | getKey slot =>
          cases slot with
          | live n =>
              simp only [Know.after]
              split
              · rcases r with (_ | _) | _ <;> exact hκ'.congr rfl rfl rfl rfl rfl
              · exact hκ'
          | _ => exact hκ'
      | getChain n =>
          simp only [Know.after]
          split
          · cases hc : (know cfg h).chain with
            | some x => simpa [Know.readChain, hc] using hκ'
            | none =>
                rcases r with (_ | _) | _ <;> simp only [Know.readChain, hc] <;>
                  exact hκ'.congr rfl rfl rfl rfl rfl
          · exact hκ'
      | putChain n c =>
          simp only [Know.after]
          split
          · rcases r with _ | _ <;> exact hκ'.congr rfl rfl rfl rfl rfl
          · exact hκ'
      | _ => exact hκ'
  | mem o =>
      cases o with
      | memSet n cert =>
          simp only [Know.after]
          split
          · rename_i hn
            refine ⟨fun m cert' hm hc => ?_, by simp, by simp⟩
            obtain rfl : n = m := Option.some.inj (hn.1.symm.trans hm.1)
            obtain rfl : cert = cert' := Option.some.inj hc
            exact exec_memSet he
          · rename_i hn
            refine hκ.transport he ?_
            rintro m cert' hm ⟨⟩ -
            exact hn hm
      | memGet n =>
          have hκ' := hκ.transport he (by simp)
          simp only [Know.after]
          split
          · rename_i hn
            refine ⟨hκ'.mem, fun cert m hc hm => ?_, by simp⟩
            obtain rfl : r = m := Option.some.inj hm
            exact (exec_memGet he).trans (hκ.mem n cert hn hc)
          · exact hκ'
      | lock n | unlock n => exact Know.serving_of_none rfl rfl
      | tryLock n =>
          simp only [Know.after]
          split
          · exact Know.serving_of_none rfl rfl
          · exact hκ.transport he (by simp)
      | pendingGet n | pendingSet n p | pendingDelete n =>
          have hκ' := hκ.transport he (by simp)
          simp only [Know.after]
          split
          · exact hκ'.congr rfl rfl rfl rfl rfl
          · exact hκ'
      | _ => exact hκ.transport he (by simp)
  | env o =>
      have hκ' := hκ.transport he (by simp)
      cases o with
      | acquireLease ctx n =>
          simp only [Know.after]
          split
          · obtain ⟨-, -, hserved, hseen, -⟩ := (know_sound cfg h).unleased hmay.2
            exact Know.serving_of_none hserved hseen
          · exact hκ'
      | releaseLease n => exact Know.serving_of_none rfl rfl
      | issue ctx n k =>
          cases r with
          | error f => exact hκ'
          | ok c =>
              simp only [Know.after]
              split
              · exact hκ'.congr rfl rfl rfl rfl rfl
              · exact hκ'
      | now =>
          simp only [Know.after]
          split
          · rename_i cert hseen
            refine ⟨hκ'.mem, hκ'.seen, fun cert' hc hd => ?_⟩
            obtain rfl : cert = cert' := by simpa [hseen] using hc
            by_cases hdue : (know cfg h).due = true
            · exact hκ'.due cert hseen hdue
            · -- the clock reading itself found it due
              have hout : Manager.outlivesRenewal cfg r cert.leaf.notAfter = false := by
                simpa [hdue] using hd
              rw [← exec_now he]
              simpa [Manager.outlivesRenewal] using hout
          · exact hκ'
      | _ => exact hκ'

/-! ## Justified orders -/

variable [DecidableEq T]

/-- The thread and the name of a certificate this move put in memory. -/
def memorySet : ClusterLabel T → Option (T × Name)
  | .did t ⟨.mem (.memSet n _), _⟩ => some (t, n)
  | _ => none

/-- While a name is locked on a node, only the lock's holder puts a certificate of it in the node's
memory: no other refresh of the name runs beside it. -/
def MemoryGuarded (cfg : Settings) (node : T → N) (v : ClusterView N T) (l : ClusterLabel T)
    (_ : ClusterView N T) : Prop :=
  ∀ g ∈ memorySet l, ∀ u, u ≠ g.1 → node u = node g.1 → ∀ x ∈ v.task u,
    (know cfg x.2).lock ≠ some g.2

instance [Fintype T] (v : ClusterView N T) (l : ClusterLabel T) (v' : ClusterView N T) :
    Decidable (MemoryGuarded cfg node v l v') :=
  inferInstanceAs (Decidable (∀ g ∈ memorySet l, ∀ u, u ≠ g.1 → node u = node g.1 →
    ∀ x ∈ v.task u, (know cfg x.2).lock ≠ some g.2))

/-- At time `t` there is no chain, or it has at most `renewBefore` left. -/
def Due (cfg : Settings) (t : Time) (x : Option ChainPEM) : Prop :=
  ∀ c ∈ x, ∃ leaf, c = .chain leaf ∧ leaf.notAfter * second ≤ t + cfg.renewBefore

/-- An order that is not forced is placed under the name's lease, after a read of the stored chain
under that lease; what was read is what storage holds, and it is due. -/
def JustifiedOrder (cfg : Settings) (v : ClusterView N T) (l : ClusterLabel T)
    (_ : ClusterView N T) : Prop :=
  ∀ g ∈ ordered l, ∀ x ∈ v.task g.1, x.1.forced = false →
    (know cfg x.2).Leased g.2 ∧
      ∃ c, ReadUnderLease cfg x.2 g.2 c ∧ v.shared.storage.chain g.2 = c ∧ Due cfg v.shared.clock c

structure OrderInv (cfg : Settings) (node : T → N) (v : ClusterView N T) : Prop where
  custody : Custody cfg node v
  alone : Alone cfg v
  serving : ∀ t q h, v.task t = some (q, h) → (know cfg h).Serving cfg (node t) v.shared

theorem orderInv_move {v v' : ClusterView N T} {l : ClusterLabel T} (hI : OrderInv cfg node v)
    (hmove : Move (cluster cfg node) (keeps cfg) v l v') (hlease : LeaseExclusive cfg v l v')
    (hmem : MemoryGuarded cfg node v l v') : OrderInv cfg node v' := by
  refine ⟨custody_move hI.custody hI.alone hmove, alone_move hI.alone hmove hlease, ?_⟩
  cases hmove with
  | start _ =>
      intro u q h hu
      rcases View.put_cases hu with ⟨rfl, ⟨⟩⟩ | ⟨-, hu⟩
      · exact Know.serving_of_none rfl rfl
      · exact hI.serving u q h hu
  | @did t q h o a r w' ht hmay he =>
      replace he : exec cfg.maxRetries node v.shared t o a = some (r, w') := he
      intro u q' h' hu
      rcases View.put_cases hu with ⟨rfl, ⟨⟩⟩ | ⟨hut, hu'⟩
      · exact serving_after he hmay (hI.serving u q h ht)
      · refine (hI.serving u q' h' hu').transport he ?_
        rintro n cert hn rfl hi
        exact hmem (t, n) rfl u hut hi (q', h') hu' hn.1
  | finish _ _ | crash =>
      intro u q h hu
      rcases View.put_cases hu with ⟨-, ⟨⟩⟩ | ⟨-, hu⟩
      exact hI.serving u q h hu

omit [DecidableEq N] [DecidableEq T] in
/-- What justified the order is still so when it is placed. -/
theorem due_of_judged {κ : Know} {n : Name} (hκ : κ.Valid (node t) t w)
    (hs : κ.Serving cfg (node t) w) (hn : κ.Leased n) (hj : κ.Judged) :
    ∃ x, κ.read = some x ∧ w.storage.chain n = x ∧ Due cfg w.clock x := by
  obtain ⟨x, hchain, hread, hx⟩ := hj
  refine ⟨x, hread, hκ.chain n x hn hchain, ?_⟩
  rcases hx with rfl | hgone | ⟨cert, rfl, hserved, hseen⟩
  · simp [Due]
  · -- a key that was read is not gone
    simp [hκ.gone] at hgone
  · rcases hseen with hnone | ⟨⟨m, hm⟩, hdue⟩
    · simpa using hs.seen cert none hserved hnone
    · obtain rfl : m = cert := Option.some.inj (hs.seen cert (some m) hserved hm)
      rintro c ⟨⟩
      exact ⟨m.leaf, rfl, hs.due m hm hdue⟩

theorem justified_move {v v' : ClusterView N T} {l : ClusterLabel T} (hI : OrderInv cfg node v)
    (hmove : Move (cluster cfg node) (keeps cfg) v l v') : JustifiedOrder cfg v l v' := by
  rintro ⟨t, n⟩ hg ⟨q, h⟩ hx hq
  cases hmove with
  | @did s q₀ h₀ o a r w' hs hmay he =>
      obtain ⟨ctx, k, rfl, rfl⟩ : ∃ ctx k, o = .env (.issue ctx n k) ∧ s = t := by
        cases o with
        | env o => cases o <;> simp_all [ordered]
        | storage ctx o => simp [ordered] at hg
        | mem o => simp [ordered] at hg
      cases hs.symm.trans hx
      obtain ⟨hn, -, -, hj⟩ := (show mayKeep cfg q h (.env (.issue ctx n k)) from hmay)
      obtain ⟨x, hread, hchain, hdue⟩ :=
        due_of_judged (hI.custody s q h hs) (hI.serving s q h hs) hn (hj hq)
      exact ⟨hn, x, readUnderLease_of_read hn hread, hchain, hdue⟩
  | _ => simp [ordered] at hg

/-! ## Orders are stored -/

/-- The answer to a chain write this move made. -/
def chainWrite : ClusterLabel T → Option (Except PutFault Unit)
  | .did _ ⟨.storage _ (.putChain _ _), r⟩ => some r
  | _ => none

/-- Chain writes succeed, and no operation dies with an order in hand. -/
def StoresOrders (cfg : Settings) (v : ClusterView N T) (l : ClusterLabel T)
    (_ : ClusterView N T) : Prop :=
  (∀ r ∈ chainWrite l, r = .ok ()) ∧
    ∀ t ∈ crashed l, ∀ x ∈ v.task t, (know cfg x.2).order = none

instance (v : ClusterView N T) (l : ClusterLabel T) (v' : ClusterView N T) :
    Decidable (StoresOrders cfg v l v') :=
  inferInstanceAs (Decidable (_ ∧ _))

/-- The operation has ordered for `n` and still has the chain to store. -/
structure Know.MustStore (κ : Know) (n : Name) : Prop where
  leased : κ.Leased n
  order : κ.order ≠ none
  unspoiled : κ.spoiled = false

/-- Storage has a chain of `n`, or an operation is about to store one. -/
def Provided (cfg : Settings) (n : Name) (v : ClusterView N T) : Prop :=
  v.shared.storage.chain n ≠ none ∨
    ∃ t q h, v.task t = some (q, h) ∧ (know cfg h).MustStore n

omit [DecidableEq N] [DecidableEq T] in
/-- The order stays in hand until the lease is given back. -/
theorem mustStore_after {e : Event} {n : Name} (hκ : (know cfg h).MustStore n)
    (hmay : mayKeep cfg q h e.op)
    (hput : ∀ ctx m c r, e = ⟨.storage ctx (.putChain m c), r⟩ → r = .ok ()) :
    ((know cfg h).after cfg e).MustStore n ∨ e.op = .env (.releaseLease n) := by
  by_cases hlight : e.op.Light
  · have hg := (know cfg h).after_grows cfg hlight
    exact Or.inl ⟨hg.leased hκ.leased, hg.order.symm ▸ hκ.order, hg.spoiled.trans hκ.unspoiled⟩
  · obtain ⟨o, r⟩ := e
    cases o with
    | storage ctx o =>
        cases o with
        | putChain m c =>
            obtain rfl := hput ctx m c r rfl
            simp only [Know.after]
            split
            · exact Or.inl ⟨hκ.leased, hκ.order, hκ.unspoiled⟩
            · exact Or.inl hκ
        | removeKey slot => exact Or.inl hκ
        | _ => exact absurd trivial hlight
    | mem o =>
        cases o with
        | lock m | tryLock m => exact absurd hκ.leased.1 (by simp [show _ = none from hmay])
        | unlock m => exact absurd hκ.leased.2 (by simp [hmay.2])
        | pendingGet m =>
            have hh := Know.after_holding cfg (know cfg h) (o := .pendingGet m) r ⟨m, Or.inl rfl⟩
            exact Or.inl ⟨hh.leased hκ.leased, hh.order.symm ▸ hκ.order,
              hh.spoiled.trans hκ.unspoiled⟩
        | pendingSet m p =>
            have hh := Know.after_holding cfg (know cfg h) (o := .pendingSet m p) r
              ⟨m, Or.inr (Or.inr ⟨p, rfl⟩)⟩
            exact Or.inl ⟨hh.leased hκ.leased, hh.order.symm ▸ hκ.order,
              hh.spoiled.trans hκ.unspoiled⟩
        | pendingDelete m =>
            have hh := Know.after_holding cfg (know cfg h) (o := .pendingDelete m) r
              ⟨m, Or.inr (Or.inl rfl)⟩
            exact Or.inl ⟨hh.leased hκ.leased, hh.order.symm ▸ hκ.order,
              hh.spoiled.trans hκ.unspoiled⟩
        | pendingSnapshot | retriesAllow m | retriesRecordFailure m | retriesBlock m t
        | retriesReset m => exact Or.inl hκ
        | _ => exact absurd trivial hlight
    | env o =>
        cases o with
        | acquireLease ctx m => exact absurd hκ.leased.2 (by simp [hmay.2])
        | releaseLease m =>
            obtain rfl : m = n := Option.some.inj (hmay.1.1.symm.trans hκ.leased.1)
            exact Or.inr rfl
        | issue ctx m k => exact absurd hmay.2.1 hκ.order
        | _ => exact absurd trivial hlight

omit [DecidableEq T] in
theorem exec_chain_present (he : exec maxRetries node w t o a = some (r, w')) {n : Name}
    (hn : w.storage.chain n ≠ none) : w'.storage.chain n ≠ none := by
  rcases exec_chain he n with hc | ⟨_, _, -, hc⟩
  · rwa [hc]
  · simp [hc]

theorem provided_move {v v' : ClusterView N T} {l : ClusterLabel T} {n : Name}
    (hv : Custody cfg node v) (hp : Provided cfg n v)
    (hmove : Move (cluster cfg node) (keeps cfg) v l v') (hA : StoresOrders cfg v l v') :
    Provided cfg n v' := by
  rcases hp with hchain | ⟨s, q₀, h₀, hs, hκ⟩
  · left
    cases hmove with
    | did ht hmay he => exact exec_chain_present he hchain
    | _ => exact hchain
  · cases hmove with
    | @start t q ht =>
        have hst : s ≠ t := by
          rintro rfl
          simp [ht] at hs
        exact Or.inr ⟨s, q₀, h₀, by rwa [View.put_other v _ _ hst], hκ⟩
    | @did t q h o a r w' ht hmay he =>
        replace he : exec cfg.maxRetries node v.shared t o a = some (r, w') := he
        by_cases hst : s = t
        · subst hst
          cases hs.symm.trans ht
          have hput : ∀ ctx m c r', (⟨o, r⟩ : Event) = ⟨.storage ctx (.putChain m c), r'⟩ →
              r' = .ok () := by
            rintro ctx m c r' ⟨⟩
            exact hA.1 r' rfl
          rcases mustStore_after (e := ⟨o, r⟩) hκ hmay hput with hκ' | hrelease
          · exact Or.inr ⟨s, q₀, ⟨o, r⟩ :: h₀, by simp, hκ'⟩
          · -- the lease is given back: the order was stored
            left
            obtain rfl : o = .env (.releaseLease n) := hrelease
            rcases hmay.2 hκ.order with ⟨c, hc⟩ | hspoiled
            · refine exec_chain_present he ?_
              simp [(hv s q₀ h₀ hs).chain n _ hκ.leased hc]
            · simp [hκ.unspoiled] at hspoiled
        · exact Or.inr ⟨s, q₀, h₀, by rwa [View.put_other v _ _ hst], hκ⟩
    | @finish t q h out ht hdone =>
        have hst : s ≠ t := by
          rintro rfl
          cases hs.symm.trans ht
          exact absurd hκ.leased.1 (by simp [show _ = none from hdone])
        exact Or.inr ⟨s, q₀, h₀, by rwa [View.put_other v _ _ hst], hκ⟩
    | @crash t =>
        have hst : s ≠ t := by
          rintro rfl
          exact hκ.order (hA.2 s rfl _ hs)
        exact Or.inr ⟨s, q₀, h₀, by rwa [View.put_other v _ _ hst], hκ⟩

/-! ## No needless order -/

/-- Leases exclude one another, and memory is guarded by the lock. -/
def OrderRules (cfg : Settings) (node : T → N) (v : ClusterView N T) (l : ClusterLabel T)
    (v' : ClusterView N T) : Prop :=
  LeaseExclusive cfg v l v' ∧ MemoryGuarded cfg node v l v'

instance [Fintype T] (v : ClusterView N T) (l : ClusterLabel T) (v' : ClusterView N T) :
    Decidable (OrderRules cfg node v l v') :=
  inferInstanceAs (Decidable (_ ∧ _))

/-- An order for `n` that is not forced is placed only when the stored certificate is due. -/
def OrderedWhenDue (cfg : Settings) (n : Name) (v : ClusterView N T) (l : ClusterLabel T)
    (_ : ClusterView N T) : Prop :=
  ∀ g ∈ ordered l, g.2 = n → ∀ x ∈ v.task g.1, x.1.forced = false →
    ∃ leaf, v.shared.storage.chain n = some (.chain leaf) ∧
      leaf.notAfter * second ≤ v.shared.clock + cfg.renewBefore

/-- Whoever orders holds the lease, so nobody else has an order to store: the chain is there. -/
theorem orderedWhenDue_move {v v' : ClusterView N T} {l : ClusterLabel T} {n : Name}
    (hI : OrderInv cfg node v) (hp : Provided cfg n v)
    (hmove : Move (cluster cfg node) (keeps cfg) v l v') : OrderedWhenDue cfg n v l v' := by
  rintro ⟨t, m⟩ hg rfl ⟨q, h⟩ hx hq
  obtain ⟨hn, x, -, hchain, hdue⟩ := justified_move hI hmove (t, m) hg (q, h) hx hq
  have hpresent : v.shared.storage.chain m ≠ none := by
    rcases hp with hpresent | ⟨s, q', h', hs, hκ⟩
    · exact hpresent
    · obtain rfl : s = t := hI.alone s t q' q h' h m hs hx hκ.leased hn
      cases hs.symm.trans hx
      cases hmove with
      | @did u q₀ h₀ o a r w' hu hmay he =>
          cases o with
          | env o =>
              cases o with
              | issue ctx n' k =>
                  cases hg
                  cases hu.symm.trans hx
                  exact absurd hmay.2.1 hκ.order
              | _ => simp [ordered] at hg
          | _ => simp [ordered] at hg
      | _ => simp [ordered] at hg
  obtain ⟨c, hc⟩ := Option.ne_none_iff_exists'.1 hpresent
  obtain ⟨leaf, rfl, hleaf⟩ := hdue c (hchain ▸ hc)
  exact ⟨leaf, hc, hleaf⟩

/-- From any state, along every schedule in which leases exclude one another: every order that is
not forced is justified by a read under its lease; and after a successful order for a name, while
chain writes land, every further one that is not forced meets a stored certificate that is due. -/
theorem orders_needed (cfg : Settings) (node : T → N) (w : World N T)
    (as : List (Action T Call Answer))
    (hA : (cluster cfg node).Meets (OrderRules cfg node) (.idle w) as) :
    (cluster cfg node).Meets (JustifiedOrder cfg) (.idle w) as ∧
    ∀ as₁ a as₂ c₁ c₂ t ctx n k chain, as = as₁ ++ a :: as₂ →
      (cluster cfg node).run (.idle w) as₁ = some c₁ →
      (cluster cfg node).step c₁ a = some (.did t ⟨.env (.issue ctx n k), .ok chain⟩, c₂) →
      (cluster cfg node).Meets (StoresOrders cfg) c₂ as₂ →
      (cluster cfg node).Meets (OrderedWhenDue cfg n) c₂ as₂ := by
  have hfollows := cluster_keeps cfg node
  have hinit : OrderInv cfg node (Config.idle w : Config Op Res (World N T) T Call Out).view := by
    refine ⟨?_, ?_, ?_⟩ <;> simp [Custody, Alone, Config.view, Config.idle]
  have hstep : ∀ v l v', OrderInv cfg node v → Move (cluster cfg node) (keeps cfg) v l v' →
      OrderRules cfg node v l v' → OrderInv cfg node v' :=
    fun _ _ _ hI hmove hA => orderInv_move hI hmove hA.1 hA.2
  refine ⟨?_, ?_⟩
  · refine (Machine.run_meets hfollows hstep as _ (Machine.onTrack_idle w) hinit hA).mono ?_
    rintro _ _ _ ⟨hmove, -, hI, -⟩
    exact justified_move hI hmove
  · rintro as₁ a as₂ c₁ c₂ t ctx n k chain rfl hrun hissue hstores
    obtain ⟨hA₁, hrest⟩ := Machine.meets_append hA
    obtain ⟨hI₁, htrack₁⟩ := Machine.run_invariant hfollows hstep as₁ _ c₁ (Machine.onTrack_idle w)
      hinit hA₁ hrun
    have hA₂ := hrest c₁ hrun
    simp only [Machine.Meets, hissue] at hA₂
    obtain ⟨hmove, htrack₂⟩ := Machine.step_refines hfollows htrack₁ hissue
    have hI₂ := hstep _ _ _ hI₁ hmove hA₂.1
    -- the order is in hand
    have hp₂ : Provided cfg n c₂.view := by
      generalize c₁.view = v at hmove hI₁
      generalize c₂.view = v' at hmove
      cases hmove with
      | @did _ q h o a r w' ht hmay he =>
          obtain ⟨hn, -, hsp, -⟩ := (show mayKeep cfg q h (.env (.issue ctx n k)) from hmay)
          obtain ⟨notAfter, rfl, -⟩ := exec_issue_ok (show exec cfg.maxRetries node v.shared t
            (.env (.issue ctx n k)) a = some (.ok chain, w') from he)
          refine Or.inr ⟨t, q, _, View.put_self _ _ _ _, ?_⟩
          have hκ : know cfg (⟨.env (.issue ctx n k), .ok (.chain ⟨k.public, notAfter⟩)⟩ :: h) =
              (know cfg h).ordered k (.chain ⟨k.public, notAfter⟩) := by
            simp only [know_cons, Know.after, hn, if_true]
          rw [hκ]
          exact ⟨hn, by simp [Know.ordered], by simp [Know.ordered, hsp, buildCertificate,
            Except.toOption]⟩
    refine (Machine.run_meets hfollows (I := fun v => OrderInv cfg node v ∧ Provided cfg n v)
      (fun v l v' hI hmove hA => ⟨hstep v l v' hI.1 hmove hA.1,
        provided_move hI.1.custody hI.2 hmove hA.2⟩) as₂ c₂ htrack₂ ⟨hI₂, hp₂⟩
      (hA₂.2.and hstores)).mono ?_
    rintro _ _ _ ⟨hmove, -, hI, -⟩
    exact orderedWhenDue_move hI.1 hI.2 hmove

end

/-- Node 0 finds no chain and comes to the point of ordering one. -/
def firstRenewal : List (Action (Fin 2) Call Answer) :=
  .start 0 (.renewIfNeeded "a") :: List.replicate 22 (.step 0 {})

/-- It stores what it ordered; weeks later node 1 finds that due, and orders again. -/
def dueRenewal : List (Action (Fin 2) Call Answer) :=
  (List.replicate 7 (.step 0 {}) : Schedule 2) ++
    ([.finish 0, .start 1 (.renewIfNeeded "a"),
      .step 1 { wait := 8000000 * second }] : Schedule 2) ++
    (List.replicate 25 (.step 1 { notAfter := 20000000 }) : Schedule 2)

theorem orders_needed_dueRenewal :
    (cluster (.plain ["a"]) (id : Fin 2 → Fin 2)).Meets (JustifiedOrder (.plain ["a"]))
      (.idle (.empty _ _)) (firstRenewal ++ .step 0 { notAfter := 10000000 } :: dueRenewal) ∧
    ∃ c₁ c₂ t ctx n k chain,
      (cluster (.plain ["a"]) (id : Fin 2 → Fin 2)).run (.idle (.empty _ _)) firstRenewal =
        some c₁ ∧
      (cluster (.plain ["a"]) (id : Fin 2 → Fin 2)).step c₁ (.step 0 { notAfter := 10000000 }) =
        some (.did t ⟨.env (.issue ctx n k), .ok chain⟩, c₂) ∧
      (cluster (.plain ["a"]) (id : Fin 2 → Fin 2)).Meets (OrderedWhenDue (.plain ["a"]) n) c₂
        dueRenewal ∧
      ∃ c ∈ (cluster (.plain ["a"]) (id : Fin 2 → Fin 2)).run c₂ dueRenewal,
        (c.shared.issued n).length = 2 := by
  have hneeded := orders_needed (.plain ["a"]) (id : Fin 2 → Fin 2) (.empty _ _)
    (firstRenewal ++ .step 0 { notAfter := 10000000 } :: dueRenewal) (by decide +kernel)
  refine ⟨hneeded.1, _, _, _, _, _, _, _, rfl, rfl, ?_, by decide +kernel⟩
  exact hneeded.2 firstRenewal _ dueRenewal _ _ _ _ _ _ _ rfl rfl rfl (by decide +kernel)

end CertsManager
