import CertsManager.Handshake.Model
import CertsManager.Footprint
import CertsManager.Effects

/-!
# Handshake.Calls — what a listener's calls do

The effect of a call on the one part of the state a later proof asks about, and the calls a program
of the cluster makes when a node with listeners runs it.
-/

namespace CertsManager
namespace Handshake

open Interleave

/-! ## Effects -/

section Effects

variable {τ N T : Type} [DecidableEq N] {maxRetries : Nat} {node : T → N} {w w' : World N T} {t : T}
  {a : Answer τ}

theorem exec_inner {o : CertsManager.Op} {r : CertsManager.Res o}
    (h : exec maxRetries node w t (.inner o) a = some (r, w')) :
    ∃ c', CertsManager.exec maxRetries node w.cluster t o a.cluster = some (r, c') ∧
      w' = { w with cluster := c' } := by
  simp only [exec, Option.map_eq_some_iff] at h
  obtain ⟨⟨r', c'⟩, hc, heq⟩ := h
  obtain ⟨rfl, rfl⟩ := Prod.mk.inj heq
  exact ⟨c', hc, rfl⟩

/-- A call that is neither the cluster's nor a new allow-set. -/
def Op.Own : Op → Prop
  | .inner _ => False
  | .setHosts _ => False
  | _ => True

theorem exec_own {o : Op} {r : Res τ o} (h : exec maxRetries node w t o a = some (r, w'))
    (ho : o.Own) :
    ∃ m', execNode t (w.cluster.clock + (a.cluster.wait + paused a o)) a (w.node (node t)) o =
        some (r, m') ∧
      w' = (w.pass (a.cluster.wait + paused a o)).setNode (node t) m' := by
  have hexec : (execNode t (w.cluster.clock + (a.cluster.wait + paused a o)) a (w.node (node t)) o).map
      (fun x => (x.1, (w.pass (a.cluster.wait + paused a o)).setNode (node t) x.2)) =
        some (r, w') := by
    cases o with
    | inner o => exact ho.elim
    | setHosts hosts => exact ho.elim
    | _ => exact h
  obtain ⟨⟨r', m'⟩, hm, heq⟩ := Option.map_eq_some_iff.1 hexec
  obtain ⟨rfl, rfl⟩ := Prod.mk.inj heq
  exact ⟨m', hm, rfl⟩

/-- A call of the cluster leaves what listeners keep, and theirs leave the cluster's state but for
the time. -/
theorem exec_frame {o : Op} {r : Res τ o} (h : exec maxRetries node w t o a = some (r, w')) :
    (∃ o', o = .inner o' ∧ w'.node = w.node) ∨ (∃ hosts, o = .setHosts hosts ∧ w'.node = w.node) ∨
      (o.Own ∧ w'.cluster.node = w.cluster.node) := by
  cases o with
  | inner o =>
      obtain ⟨c', -, rfl⟩ := exec_inner h
      exact .inl ⟨o, rfl, rfl⟩
  | setHosts hosts =>
      cases h
      exact .inr (.inl ⟨hosts, rfl, rfl⟩)
  | _ =>
      obtain ⟨m', -, rfl⟩ := exec_own h trivial
      exact .inr (.inr ⟨trivial, rfl⟩)

/-- Time does not run backwards. -/
theorem exec_clock {o : Op} {r : Res τ o} (h : exec maxRetries node w t o a = some (r, w')) :
    w.cluster.clock ≤ w'.cluster.clock := by
  cases o with
  | inner o =>
      obtain ⟨c', hc, rfl⟩ := exec_inner h
      exact CertsManager.exec_clock hc
  | setHosts hosts =>
      cases h
      exact Nat.le_add_right _ _
  | _ =>
      obtain ⟨m', -, rfl⟩ := exec_own h trivial
      exact Nat.le_add_right _ _

/-- A certificate is installed by `memSet` only. -/
theorem exec_mem {o : Op} {r : Res τ o} (h : exec maxRetries node w t o a = some (r, w')) (i : N)
    (n : Name) :
    (w'.cluster.node i).mem n = (w.cluster.node i).mem n ∨
      ∃ cert, o = .inner (.mem (.memSet n cert)) ∧ i = node t ∧
        (w'.cluster.node i).mem n = some cert := by
  cases o with
  | inner o =>
      obtain ⟨c', hc, rfl⟩ := exec_inner h
      rcases CertsManager.exec_cert hc i n with hsame | ⟨cert, rfl, hi, hcert⟩
      · exact .inl hsame
      · exact .inr ⟨cert, rfl, hi, hcert⟩
  | setHosts hosts =>
      cases h
      refine .inl ?_
      by_cases hi : i = node t
      · subst hi
        simp [setHosts, CertsManager.World.tick]
      · simp [setHosts, CertsManager.World.tick, hi]
  | _ =>
      obtain ⟨m', -, rfl⟩ := exec_own h trivial
      exact .inl rfl

/-- A node's own state is what it was, or what a call of one of its threads makes. -/
theorem exec_state {o : Op} {r : Res τ o} (h : exec maxRetries node w t o a = some (r, w')) (i : N) :
    w'.node i = w.node i ∨ (o.Own ∧ i = node t ∧
      execNode t w'.cluster.clock a (w.node i) o = some (r, w'.node i)) := by
  rcases exec_frame h with ⟨-, -, hsame⟩ | ⟨-, -, hsame⟩ | ⟨hown, -⟩
  · exact .inl (by rw [hsame])
  · exact .inl (by rw [hsame])
  · obtain ⟨m', hm, rfl⟩ := exec_own h hown
    by_cases hi : i = node t
    · subst hi
      refine .inr ⟨hown, rfl, ?_⟩
      simpa [World.setNode, World.pass, CertsManager.World.tick] using hm
    · exact .inl (by simp [World.setNode, World.pass, hi])

theorem exec_neg {o : Op} {r : Res τ o} (h : exec maxRetries node w t o a = some (r, w')) (i : N)
    (n : Name) :
    (w'.node i).neg n = (w.node i).neg n ∨
      (o = .negDelete n ∧ i = node t ∧ (w'.node i).neg n = none) ∨
      (o = .noteMiss n ∧ i = node t ∧ (w'.node i).neg n = some w'.cluster.clock) := by
  rcases exec_state h i with hsame | ⟨-, hi, hm⟩
  · exact .inl (by rw [hsame])
  · generalize w'.node i = m' at hm
    cases o with
    | negDelete m =>
        cases hm
        by_cases hnm : n = m
        · subst hnm
          exact .inr (.inl ⟨rfl, hi, by simp⟩)
        · exact .inl (by simp [hnm])
    | noteMiss m =>
        cases hm
        by_cases hnm : n = m
        · subst hnm
          exact .inr (.inr ⟨rfl, hi, by simp⟩)
        · exact .inl (by simp [hnm])
    | recentMiss m | refreshLock m | issuingLoadOrStore m | spawned =>
        simp only [execNode] at hm
        split at hm <;> cases hm <;> exact .inl rfl
    | _ => cases hm <;> exact .inl rfl

/-- The lock is taken when free, by the thread that then owns it, and given up by an unlock. -/
theorem exec_refreshing {o : Op} {r : Res τ o} (h : exec maxRetries node w t o a = some (r, w'))
    (i : N) (n : Name) :
    (w'.node i).refreshing n = (w.node i).refreshing n ∨
      (o = .refreshLock n ∧ i = node t ∧ (w.node i).refreshing n = none ∧
        (w'.node i).refreshing n = some t) ∨
      (o = .refreshUnlock n ∧ i = node t ∧ (w'.node i).refreshing n = none) := by
  rcases exec_state h i with hsame | ⟨-, hi, hm⟩
  · exact .inl (by rw [hsame])
  · generalize w'.node i = m' at hm
    cases o with
    | refreshLock m =>
        simp only [execNode] at hm
        split at hm
        · rename_i hfree
          cases hm
          by_cases hnm : n = m
          · subst hnm
            exact .inr (.inl ⟨rfl, hi, by simpa using hfree, by simp⟩)
          · exact .inl (by simp [hnm])
        · cases hm
    | refreshUnlock m =>
        cases hm
        by_cases hnm : n = m
        · subst hnm
          exact .inr (.inr ⟨rfl, hi, by simp⟩)
        · exact .inl (by simp [hnm])
    | recentMiss m | issuingLoadOrStore m | spawned =>
        simp only [execNode] at hm
        split at hm <;> cases hm <;> exact .inl rfl
    | _ => cases hm <;> exact .inl rfl

/-- A lock that was taken was free, and is the taker's. -/
theorem exec_refreshLock {n : Name} {r : Unit}
    (h : exec maxRetries node w t (.refreshLock n) a = some (r, w')) :
    (w.node (node t)).refreshing n = none ∧ (w'.node (node t)).refreshing n = some t := by
  obtain ⟨m', hm, rfl⟩ := exec_own h trivial
  simp only [execNode] at hm
  split at hm
  · rename_i hfree
    cases hm
    exact ⟨by simpa using hfree, by simp [World.setNode]⟩
  · cases hm

theorem exec_refreshUnlock {n : Name} {r : Unit}
    (h : exec maxRetries node w t (.refreshUnlock n) a = some (r, w')) :
    (w'.node (node t)).refreshing n = none := by
  obtain ⟨m', hm, rfl⟩ := exec_own h trivial
  cases hm
  simp [World.setNode]

theorem exec_noteMiss {n : Name} {r : Unit}
    (h : exec maxRetries node w t (.noteMiss n) a = some (r, w')) :
    (w'.node (node t)).neg n = some w'.cluster.clock := by
  obtain ⟨m', hm, rfl⟩ := exec_own h trivial
  cases hm
  simp [World.setNode, World.pass, CertsManager.World.tick]

/-- No recent miss: none at all, or one that has aged. -/
theorem exec_recentMiss_false {n : Name}
    (h : exec maxRetries node w t (.recentMiss n) a = some (false, w')) :
    ∀ missedAt ∈ (w.node (node t)).neg n, missedAt + certMissNegativeTTL ≤ w'.cluster.clock := by
  obtain ⟨m', hm, rfl⟩ := exec_own h trivial
  intro missedAt hmiss
  simp only [execNode, Option.mem_def.1 hmiss] at hm
  obtain ⟨hold, -⟩ := Prod.mk.inj (Option.some.inj hm)
  have hpos : 0 < certMissNegativeTTL := by decide
  have hage := Nat.le_of_not_lt (of_decide_eq_false hold)
  rw [Nat.add_comm]
  exact (Nat.le_sub_iff_add_le (Nat.le_of_lt (Nat.lt_of_sub_pos (hpos.trans_le hage)))).1 hage

theorem exec_memGet {n : Name} {r : Option Certificate}
    (h : exec maxRetries node w t (.inner (.mem (.memGet n))) a = some (r, w')) :
    r = (w.cluster.node (node t)).mem n := by
  obtain ⟨c', hc, rfl⟩ := exec_inner h
  exact CertsManager.exec_memGet hc

theorem exec_memSet {n : Name} {cert : Certificate} {r : Unit}
    (h : exec maxRetries node w t (.inner (.mem (.memSet n cert))) a = some (r, w')) :
    (w'.cluster.node (node t)).mem n = some cert := by
  obtain ⟨c', hc, rfl⟩ := exec_inner h
  exact CertsManager.exec_memSet hc

end Effects

/-! ## Programs of the cluster -/

section Inner

variable {τ α : Type}

@[simp] theorem inner_pure (x : α) : (inner (pure x) : P τ α) = pure x :=
  rfl

@[simp] theorem inner_bind {β : Type} (p : M α) (f : α → M β) :
    (inner (p >>= f) : P τ β) = inner p >>= fun x => inner (f x) :=
  Prog.via_bind p f

@[simp] theorem inner_getChain (ctx : Time) (n : Name) :
    (inner (onStorage ctx (.getChain n)) : P τ (Except ReadFault ChainPEM)) =
      call (.inner (.storage ctx (.getChain n))) :=
  Prog.via_perform _

@[simp] theorem inner_now :
    (inner Manager.now : P τ Time) = call (.inner (.env .now)) :=
  Prog.via_perform _

@[simp] theorem inner_isLeader :
    (inner isLeader : P τ Bool) = call (.inner (.env .isLeader)) :=
  Prog.via_perform _

@[simp] theorem inner_memGet (n : Name) :
    (inner (onMem (.memGet n)) : P τ (Option Certificate)) = call (.inner (.mem (.memGet n))) :=
  Prog.via_perform _

@[simp] theorem inner_hosts :
    (inner (onMem .hosts) : P τ (List Name)) = call (.inner (.mem .hosts)) :=
  Prog.via_perform _

@[simp] theorem inner_memSet (n : Name) (cert : Certificate) :
    (inner (onMem (.memSet n cert)) : P τ Unit) =
      (do call (.inner (.mem (.memSet n cert))); call (.negDelete n)) :=
  Prog.via_perform _

/-- The calls a program of the cluster makes on a node with listeners, if it makes `Q` by itself. -/
def Inside (Q : CertsManager.Op → Prop) : Op → Prop
  | .inner o => Q o
  | .negDelete n => ∃ cert, Q (.mem (.memSet n cert))
  | _ => False

theorem onNode_calls {Q : CertsManager.Op → Prop} (o : CertsManager.Op) (ho : Q o) :
    (onNode o : P τ _).Calls (Inside Q) := by
  unfold onNode
  split
  · rename_i n cert
    have hset : Inside Q (.inner (.mem (.memSet n cert))) := ho
    have hdelete : Inside Q (.negDelete n) := ⟨cert, ho⟩
    exact (Prog.Calls.perform hset).bind fun _ => Prog.Calls.perform hdelete
  · exact Prog.Calls.perform ho

theorem inner_calls {Q : CertsManager.Op → Prop} {p : M α} (hp : p.Calls Q) :
    (inner p : P τ α).Calls (Inside Q) :=
  hp.via onNode_calls

/-- A call of the cluster, whatever it was made of. -/
theorem all_calls (p : M α) : p.Calls fun _ => True :=
  fun _ => Prog.conforms_of_all (fun _ _ => trivial) fun _ _ => trivial

end Inner

/-! ## Moves of the machine -/

section Moves

variable {τ ω N T : Type} [DecidableEq N] [DecidableEq T] {L : Listener ω} {node : T → N}
  {v v' : ListenersView τ ω N T} {l : ListenersLabel τ ω T}

abbrev ListenersMove (L : Listener ω) (node : T → N) (P : Protocol Op (Res τ) (Call ω) (Out τ)) :
    ListenersView τ ω N T → ListenersLabel τ ω T → ListenersView τ ω N T → Prop :=
  Move (listeners L node : Machine Op (Res τ) (World N T) T (Call ω) (Out τ) (Answer τ)) P

/-- `Move.tasks` for a node with listeners. -/
theorem listeners_tasks {P : Protocol Op (Res τ) (Call ω) (Out τ)}
    {J : World N T → T → Call ω → History τ → Prop} (hmove : ListenersMove L node P v l v')
    (hJ : ∀ t q h, v.task t = some (q, h) → J v.shared t q h)
    (hstart : ∀ t q, J v.shared t q [])
    (hself : ∀ {t q h o} {a : Answer τ} {r s}, v.task t = some (q, h) → P.may q h o →
      exec L.cfg.maxRetries node v.shared t o a = some (r, s) → J s t q (⟨o, r⟩ :: h))
    (hothers : ∀ {t q h o} {a : Answer τ} {r s}, v.task t = some (q, h) → P.may q h o →
      exec L.cfg.maxRetries node v.shared t o a = some (r, s) →
        ∀ u q' h', u ≠ t → v.task u = some (q', h') → J s u q' h') :
    ∀ t q h, v'.task t = some (q, h) → J v'.shared t q h :=
  hmove.tasks hJ (fun _ => hstart _ _) (fun _ => hself) fun _ => hothers

end Moves

/-! ## What a handshake keeps

A property of histories that each part of a handshake keeps is kept by the whole of it, so that an
argument about one part names that part only. -/

section Keeps

variable {τ ω : Type} {may : History τ → Op → Prop} {I : History τ → Prop} {L : Listener ω}

theorem allowsName_keeps (hinner : ∀ (α : Type) (p : M α), (inner p : P τ α).Keeps may I)
    (n : Name) : (allowsName L n : P τ Bool).Keeps may I := by
  unfold allowsName
  split
  · exact Prog.Keeps.pure _
  · split
    · exact (hinner _ _).bind fun hosts => Prog.Keeps.pure _
    · exact Prog.Keeps.pure _

theorem companionFor_keeps (hinner : ∀ (α : Type) (p : M α), (inner p : P τ α).Keeps may I)
    (hello : ClientHello ω) (n : Name) (primary : Certificate) :
    (companionFor L hello n primary : P τ _).Keeps may I := by
  unfold companionFor
  dsimp only
  split
  · exact Prog.Keeps.pure _
  · refine (hinner _ _).bind fun r => ?_
    cases r with
    | none => exact Prog.Keeps.pure _
    | some companion =>
        dsimp only
        split
        · exact Prog.Keeps.pure _
        · exact Prog.Keeps.pure _

theorem awaitFrom_keeps (hinner : ∀ (α : Type) (p : M α), (inner p : P τ α).Keeps may I)
    (hpause : ∀ d, (call (.pause d) : P τ Bool).Keeps may I)
    (hoverrun : (call .overrun : P τ Unit).Keeps may I) (n : Name) (leader : Bool)
    (deadline : Time) (polls : Nat) :
    (awaitFrom L n leader deadline polls : P τ _).Keeps may I := by
  induction polls with
  | zero => exact hoverrun.bind fun _ => Prog.Keeps.pure _
  | succ polls ih =>
      refine (hinner _ _).bind fun t => ?_
      split
      · exact Prog.Keeps.pure _
      · refine (hpause _).bind fun slept => ?_
        cases slept with
        | false => exact Prog.Keeps.pure _
        | true =>
            refine (hinner _ _).bind fun r => ?_
            cases r with
            | some cert => exact Prog.Keeps.pure _
            | none =>
                cases leader with
                | true => exact ih
                | false =>
                    refine (hinner _ _).bind fun t => (hinner _ _).bind fun r => ?_
                    cases r with
                    | ok cert => exact Prog.Keeps.pure _
                    | error err => exact ih

theorem awaitOr_keeps (hinner : ∀ (α : Type) (p : M α), (inner p : P τ α).Keeps may I)
    (hpause : ∀ d, (call (.pause d) : P τ Bool).Keeps may I)
    (hoverrun : (call .overrun : P τ Unit).Keeps may I) (n : Name) (limit : Time) (err : Err) :
    (awaitOr L n limit err : P τ _).Keeps may I := by
  unfold awaitOr awaitCertificate
  split
  · exact Prog.Keeps.pure _
  · refine Prog.Keeps.bind ?_ fun r => ?_
    · exact (hinner _ _).bind fun t => (hinner _ _).bind fun leader =>
        awaitFrom_keeps hinner hpause hoverrun n leader _ _
    · cases r with
      | some cert => exact Prog.Keeps.pure _
      | none => exact Prog.Keeps.pure _

/-- A read of a follower, where every call it makes by itself keeps the property. -/
theorem refreshThrottled_keeps (hinner : ∀ (α : Type) (p : M α), (inner p : P τ α).Keeps may I)
    {n : Name} (hlock : (call (.refreshLock n) : P τ Unit).Keeps may I)
    (hrecent : (call (.recentMiss n) : P τ Bool).Keeps may I)
    (hnote : (call (.noteMiss n) : P τ Unit).Keeps may I)
    (hunlock : (call (.refreshUnlock n) : P τ Unit).Keeps may I) :
    (refreshThrottled L n : P τ _).Keeps may I := by
  have hleave : ∀ r : Except Err Certificate,
      (do let r ← (pure r : P τ _); call (.refreshUnlock n); return r).Keeps may I :=
    fun r => (Prog.Keeps.pure _).bind fun _ => hunlock.bind fun _ => Prog.Keeps.pure _
  refine hlock.bind fun _ => (hinner _ (CertCache.get n)).bind fun r => ?_
  cases r with
  | some cert => exact hleave _
  | none =>
      refine hrecent.bind fun recent => ?_
      cases recent with
      | true => exact hleave _
      | false =>
          refine (hinner _ _).bind fun t => (hinner _ _).bind fun r => ?_
          cases r with
          | ok cert => exact hleave _
          | error err => exact hnote.bind fun _ => hleave _

/-- `getCertificate`, from its parts. -/
theorem getCertificate_keeps (hinner : ∀ (α : Type) (p : M α), (inner p : P τ α).Keeps may I)
    {n : Name} {onDemandHost : Bool}
    (hrequest : (requestIssue n onDemandHost : P τ Unit).Keeps may I)
    (hread : (refreshThrottled L n : P τ _).Keeps may I)
    (hawait : ∀ err, (awaitOr L n (if onDemandHost && L.cfg.onDemand then L.handshakeWait else 0)
      err : P τ _).Keeps may I) :
    (getCertificate L n onDemandHost : P τ _).Keeps may I := by
  refine (hinner _ _).bind fun r => ?_
  cases r with
  | some cert => exact Prog.Keeps.pure _
  | none =>
      refine (hinner _ _).bind fun leader => ?_
      cases leader with
      | true =>
          refine (hinner _ _).bind fun r => ?_
          cases r with
          | serve cert => exact Prog.Keeps.pure _
          | unavailable err => exact Prog.Keeps.pure _
          | kick => exact hrequest.bind fun _ => hawait _
      | false =>
          refine hread.bind fun r => ?_
          cases r with
          | ok cert => exact Prog.Keeps.pure _
          | error err => exact hawait _

/-- A whole handshake, from its parts. -/
theorem tlsGetCertificate_keeps (hinner : ∀ (α : Type) (p : M α), (inner p : P τ α).Keeps may I)
    (halpn : ∀ n, (call (.getALPN n) : P τ (Option τ)).Keeps may I)
    (hget : ∀ n, (getCertificate L n (!L.cfg.domains.contains n) : P τ _).Keeps may I)
    (hello : ClientHello ω) : (tlsGetCertificate L hello : P τ _).Keeps may I := by
  unfold tlsGetCertificate
  split
  · refine (allowsName_keeps hinner _).bind fun allowed => ?_
    cases allowed with
    | false => exact Prog.Keeps.pure _
    | true =>
        refine (halpn _).bind fun r => ?_
        cases r with
        | some cert => exact Prog.Keeps.pure _
        | none => exact Prog.Keeps.pure _
  · cases resolve L hello with
    | none => exact Prog.Keeps.pure _
    | some n =>
        refine (allowsName_keeps hinner _).bind fun allowed => ?_
        cases allowed with
        | false => exact Prog.Keeps.pure _
        | true =>
            refine (hget n).bind fun r => ?_
            cases r with
            | error err => exact Prog.Keeps.pure _
            | ok cert =>
                dsimp only
                split
                · refine (companionFor_keeps hinner hello n cert).bind fun r => ?_
                  cases r with
                  | some companion => exact Prog.Keeps.pure _
                  | none => exact Prog.Keeps.pure _
                · exact Prog.Keeps.pure _

end Keeps

end Handshake
end CertsManager
