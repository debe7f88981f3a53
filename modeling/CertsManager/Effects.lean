import CertsManager.System

/-!
# Effects — what one call can do to each part of the world

For every component an invariant may speak of: the one or two calls that can change it and how, and
what a call that reads it can reply.  Nothing after this file looks into `exec`.
-/

namespace CertsManager

open Interleave

/-! ## Storage -/

/-- Storage when the call has taken effect. -/
@[grind =] def StorageOp.after (st : Storage) : StorageOp → Storage
  | .putChain name c => { st with chain := Function.update st.chain name (some c) }
  | .putKey slot key _ => { st with key := Function.update st.key slot (some (marshalKeyPEM key)) }
  | .removeKey slot => { st with key := Function.update st.key slot none }
  | .putRetiring host rs =>
      { st with retiring := Function.update st.retiring host (some (.records rs)) }
  | .removeRetiring host => { st with retiring := Function.update st.retiring host none }
  | .putIndex m => { st with index := some (.entries m) }
  | _ => st

theorem writeReply_cases {σ : Type} {a : Answer} {pre : Option Bool} {s s' x : σ}
    {r : Except PutFault Unit} (h : writeReply a pre s s' = some (r, x)) :
    (x = s ∧ r ≠ .ok ()) ∨ (x = s' ∧ pre.getD true = true) := by
  simp only [writeReply] at h
  split at h
  · cases h
    exact Or.inl ⟨rfl, by simp⟩
  · split at h <;> cases h
    exact Or.inl ⟨rfl, by simp⟩
  all_goals
    split at h
    · rename_i hmet
      cases h
      exact Or.inr ⟨rfl, hmet⟩
    · cases h
      exact Or.inl ⟨rfl, by simp⟩

theorem readReply_ok {α : Type} {a : Answer} {x : Option α} {v : α}
    (h : readReply a x = .ok v) : x = some v := by
  simp only [readReply] at h
  split at h
  · cases x <;> simp_all
  · cases h

theorem readReply_notExist {α : Type} {a : Answer} {x : Option α}
    (h : readReply a x = .error .notExist) : x = none := by
  simp only [readReply] at h
  split at h
  · cases x <;> simp_all
  · cases h

theorem execStorage_cases {a : Answer} {st st' : Storage} {o : StorageOp}
    {r : o.Res} (h : execStorage a st o = some (r, st')) :
    st' = st ∨ (st' = o.after st ∧ ∀ slot key, o = .putKey slot key true → st.key slot = none) := by
  cases o with
  | putKey slot key createOnly =>
      rcases writeReply_cases h with ⟨rfl, -⟩ | ⟨rfl, hpre⟩
      · exact Or.inl rfl
      · refine Or.inr ⟨rfl, ?_⟩
        rintro slot' key' ⟨⟩
        simpa using hpre
  | putChain _ _ | removeKey _ | putRetiring _ _ | removeRetiring _ | putIndex _ =>
      rcases writeReply_cases h with ⟨rfl, -⟩ | ⟨rfl, -⟩
      · exact Or.inl rfl
      · exact Or.inr ⟨rfl, by simp⟩
  | _ =>
      cases h
      exact Or.inl rfl

section

variable {N T : Type} [DecidableEq N] {maxRetries : Nat} {node : T → N} {w w' : World N T} {t : T}
  {a : Answer}

theorem exec_onStorage {ctx : Time} {o : StorageOp} {r : o.Res}
    (h : exec maxRetries node w t (.storage ctx o) a = some (r, w')) :
    ∃ st', execStorage a w.storage o = some (r, st') ∧
      w' = { w.tick a.wait with storage := st' } := by
  obtain ⟨⟨r', st'⟩, hst, heq⟩ := Option.map_eq_some_iff.1 h
  cases heq
  exact ⟨st', hst, rfl⟩

theorem exec_onMem {o : MemOp} {r : o.Res}
    (h : exec maxRetries node w t (.mem o) a = some (r, w')) :
    ∃ m', execMem maxRetries t (w.clock + a.wait) a (w.node (node t)) o = some (r, m') ∧
      w' = { w.tick a.wait with node := Function.update w.node (node t) m' } := by
  obtain ⟨⟨r', m'⟩, hm, heq⟩ := Option.map_eq_some_iff.1 h
  cases heq
  exact ⟨m', hm, rfl⟩

omit [DecidableEq N] in
/-- What a call to the environment can do: let time pass, number a key, record a certificate. -/
theorem execEnv_cases {w w' : World N T} {o : EnvOp} {r : o.Res}
    (h : execEnv a w o = some (r, w')) :
    (w' = w ∧ o ≠ .generateSigner) ∨
      (∃ ctx d, o = .sleep ctx d ∧ w' = w.tick d) ∨
      (∃ k : Key, (⟨.env o, r⟩ : Ev Op Res) = ⟨.env .generateSigner, k⟩ ∧ k.id = w.nextKey ∧
        w' = { w with nextKey := w.nextKey + 1 }) ∨
      (∃ ctx n k leaf, o = .issue ctx n k ∧ w' = w.record n leaf) := by
  cases o with
  | sleep ctx d =>
      simp only [execEnv] at h
      split at h <;> cases h
      · exact Or.inl ⟨rfl, by simp⟩
      · exact Or.inr (Or.inl ⟨ctx, d, rfl, rfl⟩)
  | generateSigner =>
      cases h
      exact Or.inr (Or.inr (Or.inl ⟨_, rfl, rfl, rfl⟩))
  | issue ctx name key =>
      simp only [execEnv] at h
      split at h
      · split at h <;> cases h
        exact Or.inr (Or.inr (Or.inr ⟨ctx, name, key, _, rfl, rfl⟩))
      · cases h
        exact Or.inr (Or.inr (Or.inr ⟨ctx, name, key, _, rfl, rfl⟩))
      · cases h
        exact Or.inl ⟨rfl, by simp⟩
  | lookupTLSA ctx host =>
      simp only [execEnv] at h
      split at h <;> (cases h; exact Or.inl ⟨rfl, by simp⟩)
  | _ =>
      cases h
      exact Or.inl ⟨rfl, by simp⟩

omit [DecidableEq N] in
/-- The environment's calls touch neither storage nor memory. -/
theorem execEnv_frame {w w' : World N T} {o : EnvOp} {r : o.Res}
    (h : execEnv a w o = some (r, w')) : w'.storage = w.storage ∧ w'.node = w.node := by
  rcases execEnv_cases h with ⟨rfl, -⟩ | ⟨_, _, -, rfl⟩ | ⟨_, -, -, rfl⟩ | ⟨_, _, _, _, -, rfl⟩ <;>
    exact ⟨rfl, rfl⟩

/-- The storage after a call is what it was, or what a call of it makes. -/
theorem exec_storage {o : Op} {r : Res o} (h : exec maxRetries node w t o a = some (r, w')) :
    w'.storage = w.storage ∨
      ∃ ctx so, o = .storage ctx so ∧ w'.storage = so.after w.storage ∧
        ∀ slot key, so = .putKey slot key true → w.storage.key slot = none := by
  cases o with
  | storage ctx so =>
      obtain ⟨st', hst, rfl⟩ := exec_onStorage h
      rcases execStorage_cases hst with rfl | ⟨rfl, hpre⟩
      · exact Or.inl rfl
      · exact Or.inr ⟨ctx, so, rfl, rfl, hpre⟩
  | mem mo =>
      obtain ⟨m', -, rfl⟩ := exec_onMem h
      exact Or.inl rfl
  | env eo => exact Or.inl (execEnv_frame h).1

theorem exec_chain {o : Op} {r : Res o} (h : exec maxRetries node w t o a = some (r, w'))
    (n : Name) :
    w'.storage.chain n = w.storage.chain n ∨
      ∃ ctx c, o = .storage ctx (.putChain n c) ∧ w'.storage.chain n = some c := by
  rcases exec_storage h with hst | ⟨ctx, so, rfl, hst, -⟩
  · exact Or.inl (by rw [hst])
  · rw [hst]
    cases so with
    | putChain m c =>
        by_cases hnm : n = m
        · subst hnm
          exact Or.inr ⟨ctx, c, rfl, by simp [StorageOp.after]⟩
        · exact Or.inl (by simp [StorageOp.after, hnm])
    | _ => exact Or.inl rfl

theorem exec_key {o : Op} {r : Res o} (h : exec maxRetries node w t o a = some (r, w'))
    (slot : KeySlot) :
    w'.storage.key slot = w.storage.key slot ∨
      (∃ ctx k createOnly, o = .storage ctx (.putKey slot k createOnly) ∧
        w'.storage.key slot = some (.key k) ∧ (createOnly = true → w.storage.key slot = none)) ∨
      (∃ ctx, o = .storage ctx (.removeKey slot) ∧ w'.storage.key slot = none) := by
  rcases exec_storage h with hst | ⟨ctx, so, rfl, hst, hpre⟩
  · exact Or.inl (by rw [hst])
  · rw [hst]
    cases so with
    | putKey slot' k createOnly =>
        by_cases hs : slot = slot'
        · subst hs
          refine Or.inr (Or.inl ⟨ctx, k, createOnly, rfl, by simp [StorageOp.after, marshalKeyPEM],
            ?_⟩)
          rintro rfl
          exact hpre slot k rfl
        · exact Or.inl (by simp [StorageOp.after, hs])
    | removeKey slot' =>
        by_cases hs : slot = slot'
        · subst hs
          exact Or.inr (Or.inr ⟨ctx, rfl, by simp [StorageOp.after]⟩)
        · exact Or.inl (by simp [StorageOp.after, hs])
    | _ => exact Or.inl rfl

theorem exec_retiring {o : Op} {r : Res o} (h : exec maxRetries node w t o a = some (r, w'))
    (host : Name) :
    w'.storage.retiring host = w.storage.retiring host ∨
      (∃ ctx rs, o = .storage ctx (.putRetiring host rs) ∧
        w'.storage.retiring host = some (.records rs)) ∨
      (∃ ctx, o = .storage ctx (.removeRetiring host) ∧ w'.storage.retiring host = none) := by
  rcases exec_storage h with hst | ⟨ctx, so, rfl, hst, -⟩
  · exact Or.inl (by rw [hst])
  · rw [hst]
    cases so with
    | putRetiring n rs =>
        by_cases hn : host = n
        · subst hn
          exact Or.inr (Or.inl ⟨ctx, rs, rfl, by simp [StorageOp.after]⟩)
        · exact Or.inl (by simp [StorageOp.after, hn])
    | removeRetiring n =>
        by_cases hn : host = n
        · subst hn
          exact Or.inr (Or.inr ⟨ctx, rfl, by simp [StorageOp.after]⟩)
        · exact Or.inl (by simp [StorageOp.after, hn])
    | _ => exact Or.inl rfl

/-! ## The memory of a node -/

omit [DecidableEq N] in
/-- Memory when the call has taken effect. -/
@[grind =] def MemOp.after (maxRetries : Nat) (t : T) (now : Time) (m : NodeMemory T) : MemOp → NodeMemory T
  | .memSet name cert => { m with mem := Function.update m.mem name (some cert) }
  | .pendingSet name p => { m with pending := m.pending.insert name p }
  | .pendingDelete name => { m with pending := m.pending.erase name }
  | .lock name => { m with inflight := Function.update m.inflight name (some t) }
  | .tryLock name => { m with inflight := Function.update m.inflight name (some t) }
  | .unlock name => { m with inflight := Function.update m.inflight name none }
  | .retiringLock => { m with retiringMu := some t }
  | .retiringUnlock => { m with retiringMu := none }
  | .issuerLock => { m with issuerMu := some t }
  | .issuerUnlock => { m with issuerMu := none }
  | .setIssuer => { m with issuer := true }
  | .fromLocalDelete name => { m with fromLocal := Function.update m.fromLocal name false }
  | .localSave name cert => { m with localCopy := Function.update m.localCopy name (some cert) }
  | .retriesAllow name => { m with retries := (m.retries.allow maxRetries (.once now) name).2 }
  | .retriesRecordFailure name => { m with retries := m.retries.recordFailure (.once now) name }
  | .retriesBlock name liftsAt => { m with retries := m.retries.block name liftsAt }
  | .retriesReset name => { m with retries := m.retries.reset name }
  | .indexSet name v => { m with index := Function.update m.index name v }
  | .indexLock => { m with indexMu := some t }
  | .indexUnlock => { m with indexMu := none }
  | .setIndexDirty dirty => { m with indexDirty := dirty }
  | _ => m

theorem execMem_cases {now : Time} {m m' : NodeMemory T} {o : MemOp} {r : o.Res}
    (h : execMem maxRetries t now a m o = some (r, m')) :
    m' = m ∨ m' = o.after maxRetries t now m := by
  cases o with
  | lock n | tryLock n | retiringLock | issuerLock | indexLock =>
      simp only [execMem] at h
      split at h <;> cases h <;> simp [MemOp.after]
  | localSave n cert =>
      simp only [execMem] at h
      split at h <;> cases h <;> simp [MemOp.after]
  | _ =>
      cases h
      exact Or.inr rfl

/-- The memory of a node after a call is what it was, or what a call of one of its threads makes. -/
theorem exec_node {o : Op} {r : Res o} (h : exec maxRetries node w t o a = some (r, w')) (i : N) :
    w'.node i = w.node i ∨
      ∃ mo, o = .mem mo ∧ i = node t ∧
        w'.node i = mo.after maxRetries t (w.clock + a.wait) (w.node i) := by
  cases o with
  | storage ctx so =>
      obtain ⟨st', -, rfl⟩ := exec_onStorage h
      exact Or.inl rfl
  | mem mo =>
      obtain ⟨m', hm, rfl⟩ := exec_onMem h
      by_cases hi : i = node t
      · subst hi
        rcases execMem_cases hm with rfl | rfl
        · exact Or.inl (by simp)
        · exact Or.inr ⟨mo, rfl, rfl, by simp⟩
      · exact Or.inl (by simp [hi])
  | env eo => exact Or.inl (by rw [(execEnv_frame h).2]; rfl)

theorem exec_cert {o : Op} {r : Res o} (h : exec maxRetries node w t o a = some (r, w')) (i : N)
    (n : Name) :
    (w'.node i).mem n = (w.node i).mem n ∨
      ∃ cert, o = .mem (.memSet n cert) ∧ i = node t ∧ (w'.node i).mem n = some cert := by
  rcases exec_node h i with hn | ⟨mo, rfl, hi, hm⟩
  · exact Or.inl (by rw [hn])
  · rw [hm]
    cases mo with
    | memSet m cert =>
        by_cases hnm : n = m
        · subst hnm
          exact Or.inr ⟨cert, rfl, hi, by simp [MemOp.after]⟩
        · exact Or.inl (by simp [MemOp.after, hnm])
    | _ => exact Or.inl rfl

theorem exec_localCopy {o : Op} {r : Res o} (h : exec maxRetries node w t o a = some (r, w')) (i : N)
    (n : Name) :
    (w'.node i).localCopy n = (w.node i).localCopy n ∨
      ∃ cert, o = .mem (.localSave n cert) ∧ i = node t ∧ (w'.node i).localCopy n = some cert := by
  rcases exec_node h i with hn | ⟨mo, rfl, hi, hm⟩
  · exact Or.inl (by rw [hn])
  · rw [hm]
    cases mo with
    | localSave m cert =>
        by_cases hnm : n = m
        · subst hnm
          exact Or.inr ⟨cert, rfl, hi, by simp [MemOp.after]⟩
        · exact Or.inl (by simp [MemOp.after, hnm])
    | _ => exact Or.inl rfl

/-- A block is recorded, reset, or found to have lifted. -/
theorem exec_blocked {o : Op} {r : Res o} (h : exec maxRetries node w t o a = some (r, w')) (i : N)
    (host : String) :
    (w'.node i).retries.blocked host = (w.node i).retries.blocked host ∨
      (∃ n liftsAt, o = .mem (.retriesBlock n liftsAt) ∧ RetryBudget.budgetKey n = host ∧
        (w'.node i).retries.blocked host = some liftsAt) ∨
      (∃ n, o = .mem (.retriesReset n) ∧ i = node t ∧ RetryBudget.budgetKey n = host) ∨
      ∃ liftsAt ∈ (w.node i).retries.blocked host, liftsAt ≤ w'.clock := by
  rcases exec_node h i with hn | ⟨mo, rfl, hi, hm⟩
  · exact Or.inl (by rw [hn])
  · rw [hm]
    cases mo with
    | retriesAllow n =>
        rcases RetryBudget.allow_blocked (w.node i).retries maxRetries (.once (w.clock + a.wait)) n
          host with
          hsame | ⟨-, hlifted⟩
        · exact Or.inl hsame
        · obtain ⟨m', -, rfl⟩ := exec_onMem h
          exact Or.inr (Or.inr (Or.inr hlifted))
    | retriesBlock n liftsAt =>
        by_cases hhost : RetryBudget.budgetKey n = host
        · exact Or.inr (Or.inl ⟨n, liftsAt, rfl, hhost, by simp [MemOp.after, RetryBudget.block, hhost]⟩)
        · exact Or.inl (by simp [MemOp.after, RetryBudget.block, Ne.symm hhost])
    | retriesReset n =>
        by_cases hhost : RetryBudget.budgetKey n = host
        · exact Or.inr (Or.inr (Or.inl ⟨n, rfl, hi, hhost⟩))
        · exact Or.inl (by simp [MemOp.after, RetryBudget.reset, Ne.symm hhost])
    | _ => exact Or.inl rfl

/-- A hostname's failures are dropped when they have aged out, added to, or forgotten. -/
theorem exec_failures {o : Op} {r : Res o} (h : exec maxRetries node w t o a = some (r, w')) (i : N)
    (host : String) :
    ((∀ n, o = .mem (.retriesRecordFailure n) → i = node t → RetryBudget.budgetKey n ≠ host) ∧
      ((w'.node i).retries.failures host = (w.node i).retries.failures host ∨
        (w'.node i).retries.failures host = (w.node i).retries.recent w'.clock host)) ∨
      (∃ n, o = .mem (.retriesRecordFailure n) ∧ i = node t ∧ RetryBudget.budgetKey n = host ∧
        (w'.node i).retries.failures host =
          (w.node i).retries.recent w'.clock host ++ [w'.clock]) ∨
      ∃ n, o = .mem (.retriesReset n) ∧ i = node t ∧ RetryBudget.budgetKey n = host ∧
        (w'.node i).retries.failures host = [] := by
  cases o with
  | storage ctx so =>
      obtain ⟨st', -, rfl⟩ := exec_onStorage h
      exact .inl ⟨nofun, .inl rfl⟩
  | env eo => exact .inl ⟨nofun, .inl (by rw [(execEnv_frame h).2]; rfl)⟩
  | mem mo =>
      obtain ⟨m', hm, hw'⟩ := exec_onMem h
      have hclock : w'.clock = w.clock + a.wait := by rw [hw']; rfl
      by_cases hi : i = node t
      · subst hi
        have hself : w'.node (node t) = m' := by simp [hw']
        rw [hself, hclock]
        cases mo with
        | retriesAllow n =>
            refine .inl ⟨nofun, ?_⟩
            rcases execMem_cases hm with rfl | rfl
            · exact .inl rfl
            · rcases RetryBudget.allow_failures (w.node (node t)).retries maxRetries
                (.once (w.clock + a.wait)) n host with hsame | ⟨-, hrecent⟩
              · exact .inl hsame
              · exact .inr hrecent
        | retriesRecordFailure n =>
            cases hm
            by_cases hhost : RetryBudget.budgetKey n = host
            · refine .inr (.inl ⟨n, rfl, rfl, hhost, ?_⟩)
              simp [RetryBudget.recordFailure, hhost]
            · refine .inl ⟨fun m hm _ => ?_, .inl ?_⟩
              · cases hm
                exact hhost
              · simp [RetryBudget.recordFailure, Ne.symm hhost]
        | retriesReset n =>
            cases hm
            by_cases hhost : RetryBudget.budgetKey n = host
            · exact .inr (.inr ⟨n, rfl, rfl, hhost, by simp [RetryBudget.reset, hhost]⟩)
            · exact .inl ⟨nofun, .inl (by simp [RetryBudget.reset, Ne.symm hhost])⟩
        | _ =>
            refine .inl ⟨nofun, .inl ?_⟩
            rcases execMem_cases hm with rfl | rfl <;> rfl
      · exact .inl ⟨fun _ _ hnode => absurd hnode hi, .inl (by simp [hw', hi])⟩

theorem exec_block {n : Name} {liftsAt : Time}
    (h : exec maxRetries node w t (.mem (.retriesBlock n liftsAt)) a = some ((), w')) :
    (w'.node (node t)).retries.blocked (RetryBudget.budgetKey n) = some liftsAt := by
  obtain ⟨m', hm, rfl⟩ := exec_onMem h
  cases hm
  simp [RetryBudget.block]

theorem exec_allow {n : Name}
    (h : exec maxRetries node w t (.mem (.retriesAllow n)) a = some (.ok (), w')) {liftsAt : Time}
    (hb : (w.node (node t)).retries.blocked (RetryBudget.budgetKey n) = some liftsAt) :
    liftsAt ≤ w'.clock := by
  obtain ⟨m', hm, rfl⟩ := exec_onMem h
  simp only [execMem, Option.some.injEq, Prod.mk.injEq] at hm
  exact RetryBudget.allow_ok hm.1 hb

/-- The one that was let through is below the cap. -/
theorem exec_allow_recent {n : Name}
    (h : exec maxRetries node w t (.mem (.retriesAllow n)) a = some (.ok (), w')) :
    ((w'.node (node t)).retries.recent w'.clock (RetryBudget.budgetKey n)).length < maxRetries := by
  have hlt : ((w.node (node t)).retries.recent w'.clock (RetryBudget.budgetKey n)).length <
      maxRetries := by
    obtain ⟨m', hm, rfl⟩ := exec_onMem h
    simp only [execMem, Option.some.injEq, Prod.mk.injEq] at hm
    exact RetryBudget.allow_ok_recent hm.1
  refine Nat.lt_of_le_of_lt (List.Sublist.length_le ?_) hlt
  rcases exec_failures h (node t) (RetryBudget.budgetKey n) with
    ⟨-, hf | hf⟩ | ⟨m, ho, -⟩ | ⟨m, ho, -⟩
  · simp only [RetryBudget.recent, hf]
    exact List.Sublist.refl _
  · simp only [RetryBudget.recent, hf]
    exact List.filter_sublist
  · cases ho
  · cases ho

theorem exec_pending {o : Op} {r : Res o} (h : exec maxRetries node w t o a = some (r, w')) (i : N)
    (n : Name) :
    (w'.node i).pending.lookup n = (w.node i).pending.lookup n ∨
      (∃ p, o = .mem (.pendingSet n p) ∧ i = node t ∧ (w'.node i).pending.lookup n = some p) ∨
      (o = .mem (.pendingDelete n) ∧ i = node t ∧ (w'.node i).pending.lookup n = none) := by
  rcases exec_node h i with hn | ⟨mo, rfl, hi, hm⟩
  · exact Or.inl (by rw [hn])
  · rw [hm]
    cases mo with
    | pendingSet m p =>
        by_cases hnm : n = m
        · subst hnm
          exact Or.inr (Or.inl ⟨p, rfl, hi, by simp [MemOp.after]⟩)
        · exact Or.inl (by simp [MemOp.after, hnm])
    | pendingDelete m =>
        by_cases hnm : n = m
        · subst hnm
          exact Or.inr (Or.inr ⟨rfl, hi, by simp [MemOp.after]⟩)
        · exact Or.inl (by simp [MemOp.after, hnm])
    | _ => exact Or.inl rfl

/-- A lock is taken when free, by the thread that then owns it, and given up by an unlock. -/
theorem exec_index {o : Op} {r : Res o} (h : exec maxRetries node w t o a = some (r, w')) (i : N)
    (n : Name) :
    (w'.node i).index n = (w.node i).index n ∨
      ∃ x, o = .mem (.indexSet n x) ∧ i = node t ∧ (w'.node i).index n = x := by
  rcases exec_node h i with hn | ⟨mo, rfl, hi, hm⟩
  · exact Or.inl (by rw [hn])
  · rw [hm]
    cases mo with
    | indexSet m x =>
        by_cases hnm : n = m
        · subst hnm
          exact Or.inr ⟨x, rfl, hi, by simp [MemOp.after]⟩
        · exact Or.inl (by simp [MemOp.after, hnm])
    | _ => exact Or.inl rfl

theorem exec_inflight {o : Op} {r : Res o} (h : exec maxRetries node w t o a = some (r, w')) (i : N)
    (n : Name) :
    (w'.node i).inflight n = (w.node i).inflight n ∨
      ((o = .mem (.lock n) ∨ o = .mem (.tryLock n)) ∧ i = node t ∧
        (w.node i).inflight n = none ∧ (w'.node i).inflight n = some t) ∨
      (o = .mem (.unlock n) ∧ i = node t ∧ (w'.node i).inflight n = none) := by
  cases o with
  | storage ctx so =>
      obtain ⟨st', -, rfl⟩ := exec_onStorage h
      exact Or.inl rfl
  | env eo => exact Or.inl (by rw [(execEnv_frame h).2]; rfl)
  | mem mo =>
      obtain ⟨m', hm, rfl⟩ := exec_onMem h
      by_cases hi : i = node t
      · subst hi
        simp only [Function.update_self]
        cases mo with
        | lock m | tryLock m =>
            simp only [execMem] at hm
            split at hm
            · rename_i hfree
              cases hm
              by_cases hnm : n = m
              · subst hnm
                exact Or.inr (Or.inl ⟨by simp, trivial, by simpa using hfree, by simp⟩)
              · exact Or.inl (by simp [hnm])
            · cases hm <;> exact Or.inl rfl
        | unlock m =>
            cases hm
            by_cases hnm : n = m
            · subst hnm
              exact Or.inr (Or.inr ⟨rfl, trivial, by simp⟩)
            · exact Or.inl (by simp [hnm])
        | _ => exact Or.inl (by rcases execMem_cases hm with rfl | rfl <;> rfl)
      · exact Or.inl (by simp [hi])

theorem exec_retiringMu {o : Op} {r : Res o} (h : exec maxRetries node w t o a = some (r, w'))
    (i : N) :
    (w'.node i).retiringMu = (w.node i).retiringMu ∨
      (o = .mem .retiringLock ∧ i = node t ∧ (w.node i).retiringMu = none) ∨
      (o = .mem .retiringUnlock ∧ i = node t) := by
  rcases exec_node h i with hn | ⟨mo, rfl, hi, hm⟩
  · exact Or.inl (by rw [hn])
  · cases mo with
    | retiringLock =>
        obtain ⟨m', hm', -⟩ := exec_onMem h
        simp only [execMem] at hm'
        split at hm'
        · rename_i hfree
          exact Or.inr (Or.inl ⟨rfl, hi, by simpa [hi] using hfree⟩)
        · cases hm'
    | retiringUnlock => exact Or.inr (Or.inr ⟨rfl, hi⟩)
    | _ => exact Or.inl (by rw [hm]; rfl)

/-! ## Replies -/

theorem exec_retiringLock {r : Unit}
    (h : exec maxRetries node w t (.mem .retiringLock) a = some (r, w')) :
    (w.node (node t)).retiringMu = none ∧ (w'.node (node t)).retiringMu = some t := by
  obtain ⟨m', hm, rfl⟩ := exec_onMem h
  simp only [execMem] at hm
  split at hm
  · rename_i hfree
    cases hm
    exact ⟨by simpa using hfree, by simp⟩
  · cases hm

theorem exec_getRetiring_ok {ctx : Time} {host : Name} {x : RetiringObject}
    (h : exec maxRetries node w t (.storage ctx (.getRetiring host)) a = some (.ok x, w')) :
    w.storage.retiring host = some x := by
  obtain ⟨st', hst, -⟩ := exec_onStorage h
  obtain ⟨hy, -⟩ := Prod.mk.inj (Option.some.inj hst)
  exact readReply_ok hy

theorem exec_getRetiring_notExist {ctx : Time} {host : Name}
    (h : exec maxRetries node w t (.storage ctx (.getRetiring host)) a =
      some (.error .notExist, w')) : w.storage.retiring host = none := by
  obtain ⟨st', hst, -⟩ := exec_onStorage h
  obtain ⟨hy, -⟩ := Prod.mk.inj (Option.some.inj hst)
  exact readReply_notExist hy

theorem exec_putRetiring_ok {ctx : Time} {host : Name} {rs : List RetiringRecord}
    (h : exec maxRetries node w t (.storage ctx (.putRetiring host rs)) a = some (.ok (), w')) :
    w'.storage.retiring host = some (.records rs) := by
  obtain ⟨st', hst, rfl⟩ := exec_onStorage h
  rcases writeReply_cases hst with ⟨-, hr⟩ | ⟨rfl, -⟩
  · exact absurd rfl hr
  · simp

theorem exec_removeRetiring_ok {ctx : Time} {host : Name}
    (h : exec maxRetries node w t (.storage ctx (.removeRetiring host)) a = some (.ok (), w')) :
    w'.storage.retiring host = none := by
  obtain ⟨st', hst, rfl⟩ := exec_onStorage h
  rcases writeReply_cases hst with ⟨-, hr⟩ | ⟨rfl, -⟩
  · exact absurd rfl hr
  · simp

theorem exec_getIndex_ok {ctx : Time} {x : IndexObject}
    (h : exec maxRetries node w t (.storage ctx .getIndex) a = some (.ok x, w')) :
    w.storage.index = some x := by
  obtain ⟨st', hst, -⟩ := exec_onStorage h
  obtain ⟨hy, -⟩ := Prod.mk.inj (Option.some.inj hst)
  exact readReply_ok hy

theorem exec_lock {n : Name} {r : Unit}
    (h : exec maxRetries node w t (.mem (.lock n)) a = some (r, w')) :
    (w'.node (node t)).inflight n = some t := by
  obtain ⟨m', hm, rfl⟩ := exec_onMem h
  simp only [execMem] at hm
  split at hm <;> cases hm
  simp

theorem exec_tryLock {n : Name}
    (h : exec maxRetries node w t (.mem (.tryLock n)) a = some (true, w')) :
    (w'.node (node t)).inflight n = some t := by
  obtain ⟨m', hm, rfl⟩ := exec_onMem h
  simp only [execMem] at hm
  split at hm <;> cases hm
  simp

/-- A lock that is taken was free. -/
theorem exec_lock_free {n : Name} {r : Unit}
    (h : exec maxRetries node w t (.mem (.lock n)) a = some (r, w')) :
    (w.node (node t)).inflight n = none := by
  obtain ⟨m', hm, rfl⟩ := exec_onMem h
  simp only [execMem] at hm
  split at hm
  · rename_i hnone
    exact Option.isNone_iff_eq_none.1 hnone
  · cases hm

theorem exec_tryLock_free {n : Name}
    (h : exec maxRetries node w t (.mem (.tryLock n)) a = some (true, w')) :
    (w.node (node t)).inflight n = none := by
  obtain ⟨m', hm, rfl⟩ := exec_onMem h
  simp only [execMem] at hm
  split at hm
  · rename_i hnone
    exact Option.isNone_iff_eq_none.1 hnone
  · cases hm

theorem exec_getChain_ok {ctx : Time} {n : Name} {c : ChainPEM}
    (h : exec maxRetries node w t (.storage ctx (.getChain n)) a = some (.ok c, w')) :
    w.storage.chain n = some c := by
  obtain ⟨st', hst, -⟩ := exec_onStorage h
  obtain ⟨hx, -⟩ := Prod.mk.inj (Option.some.inj hst)
  exact readReply_ok hx

theorem exec_getChain_notExist {ctx : Time} {n : Name}
    (h : exec maxRetries node w t (.storage ctx (.getChain n)) a = some (.error .notExist, w')) :
    w.storage.chain n = none := by
  obtain ⟨st', hst, -⟩ := exec_onStorage h
  obtain ⟨hx, -⟩ := Prod.mk.inj (Option.some.inj hst)
  exact readReply_notExist hx

theorem exec_putChain_ok {ctx : Time} {n : Name} {c : ChainPEM}
    (h : exec maxRetries node w t (.storage ctx (.putChain n c)) a = some (.ok (), w')) :
    w'.storage.chain n = some c := by
  obtain ⟨st', hst, rfl⟩ := exec_onStorage h
  rcases writeReply_cases hst with ⟨-, hr⟩ | ⟨rfl, -⟩
  · exact absurd rfl hr
  · simp

theorem exec_putKey_ok {ctx : Time} {slot : KeySlot} {k : Key} {createOnly : Bool}
    (h : exec maxRetries node w t (.storage ctx (.putKey slot k createOnly)) a =
      some (.ok (), w')) : w'.storage.key slot = some (.key k) := by
  obtain ⟨st', hst, rfl⟩ := exec_onStorage h
  rcases writeReply_cases hst with ⟨-, hr⟩ | ⟨rfl, -⟩
  · exact absurd rfl hr
  · simp [marshalKeyPEM]

theorem exec_getKey_notExist {ctx : Time} {slot : KeySlot}
    (h : exec maxRetries node w t (.storage ctx (.getKey slot)) a = some (.error .notExist, w')) :
    w.storage.key slot = none := by
  obtain ⟨st', hst, -⟩ := exec_onStorage h
  obtain ⟨hx, -⟩ := Prod.mk.inj (Option.some.inj hst)
  exact readReply_notExist hx

theorem exec_pendingGet {n : Name} {r : Option PendingPersist}
    (h : exec maxRetries node w t (.mem (.pendingGet n)) a = some (r, w')) :
    r = (w.node (node t)).pending.lookup n := by
  obtain ⟨m', hm, -⟩ := exec_onMem h
  cases hm
  rfl

theorem exec_pendingSet {n : Name} {p : PendingPersist} {r : Unit}
    (h : exec maxRetries node w t (.mem (.pendingSet n p)) a = some (r, w')) :
    (w'.node (node t)).pending.lookup n = some p := by
  obtain ⟨m', hm, rfl⟩ := exec_onMem h
  cases hm
  simp

theorem exec_pendingDelete {n : Name} {r : Unit}
    (h : exec maxRetries node w t (.mem (.pendingDelete n)) a = some (r, w')) :
    (w'.node (node t)).pending.lookup n = none := by
  obtain ⟨m', hm, rfl⟩ := exec_onMem h
  cases hm
  simp

theorem exec_memGet {n : Name} {r : Option Certificate}
    (h : exec maxRetries node w t (.mem (.memGet n)) a = some (r, w')) :
    r = (w.node (node t)).mem n := by
  obtain ⟨m', hm, -⟩ := exec_onMem h
  cases hm
  rfl

theorem exec_memSet {n : Name} {cert : Certificate} {r : Unit}
    (h : exec maxRetries node w t (.mem (.memSet n cert)) a = some (r, w')) :
    (w'.node (node t)).mem n = some cert := by
  obtain ⟨m', hm, rfl⟩ := exec_onMem h
  cases hm
  simp

theorem exec_now {r : Time} (h : exec maxRetries node w t (.env .now) a = some (r, w')) :
    r = w'.clock := by
  cases h
  rfl

/-- Time does not run backwards. -/
theorem exec_clock {o : Op} {r : Res o} (h : exec maxRetries node w t o a = some (r, w')) :
    w.clock ≤ w'.clock := by
  have htick : w.clock ≤ (w.tick a.wait).clock := Nat.le_add_right _ _
  cases o with
  | storage ctx so =>
      obtain ⟨st', -, rfl⟩ := exec_onStorage h
      exact htick
  | mem mo =>
      obtain ⟨m', -, rfl⟩ := exec_onMem h
      exact htick
  | env eo =>
      rcases execEnv_cases h with ⟨rfl, -⟩ | ⟨_, d, -, rfl⟩ | ⟨_, -, -, rfl⟩ | ⟨_, _, _, _, -, rfl⟩
      · exact htick
      · exact htick.trans (Nat.le_add_right _ d)
      · exact htick
      · exact htick

theorem exec_getKey_ok {ctx : Time} {slot : KeySlot} {pem : KeyPEM}
    (h : exec maxRetries node w t (.storage ctx (.getKey slot)) a = some (.ok pem, w')) :
    w.storage.key slot = some pem := by
  obtain ⟨st', hst, -⟩ := exec_onStorage h
  obtain ⟨hx, -⟩ := Prod.mk.inj (Option.some.inj hst)
  exact readReply_ok hx

theorem exec_pendingSnapshot {r : List (Name × PendingPersist)}
    (h : exec maxRetries node w t (.mem .pendingSnapshot) a = some (r, w')) {n : Name}
    {p : PendingPersist} (hp : (n, p) ∈ r) : (w.node (node t)).pending.lookup n = some p := by
  obtain ⟨m', hm, -⟩ := exec_onMem h
  cases hm
  obtain ⟨e, he, heq⟩ := List.mem_map.1 hp
  cases heq
  exact AList.mem_lookup_iff.2 he

theorem exec_issue_ok {ctx : Time} {n : Name} {k : Key} {c : ChainPEM}
    (h : exec maxRetries node w t (.env (.issue ctx n k)) a = some (.ok c, w')) :
    ∃ notAfter, c = .chain ⟨k.public, notAfter⟩ ∧
      w'.issued n = ⟨k.public, notAfter⟩ :: w.issued n := by
  simp only [exec, execEnv] at h
  split at h
  · split at h <;> cases h
    exact ⟨a.notAfter, rfl, by simp [World.record, World.tick]⟩
  · cases h
  · cases h

/-- An order adds its certificate to the CA's record, whatever the caller hears of it. -/
theorem exec_issued {o : Op} {r : Res o} (h : exec maxRetries node w t o a = some (r, w'))
    (n : Name) :
    w'.issued n = w.issued n ∨
      ∃ ctx k leaf, o = .env (.issue ctx n k) ∧ w'.issued n = leaf :: w.issued n := by
  cases o with
  | storage ctx so =>
      obtain ⟨st', -, rfl⟩ := exec_onStorage h
      exact Or.inl rfl
  | mem mo =>
      obtain ⟨m', -, rfl⟩ := exec_onMem h
      exact Or.inl rfl
  | env eo =>
      rcases execEnv_cases h with ⟨rfl, -⟩ | ⟨_, d, -, rfl⟩ | ⟨_, -, -, rfl⟩ |
        ⟨ctx, m, k, leaf, rfl, rfl⟩
      · exact Or.inl rfl
      · exact Or.inl rfl
      · exact Or.inl rfl
      · by_cases hnm : n = m
        · subst hnm
          exact Or.inr ⟨ctx, k, leaf, rfl, by simp [World.record, World.tick]⟩
        · exact Or.inl (by simp [World.record, World.tick, hnm])

/-- Keys are numbered as they are generated. -/
theorem exec_nextKey {o : Op} {r : Res o} (h : exec maxRetries node w t o a = some (r, w')) :
    (w'.nextKey = w.nextKey ∧ o ≠ .env .generateSigner) ∨
      ∃ k : Key, (⟨o, r⟩ : Ev Op Res) = ⟨.env .generateSigner, k⟩ ∧ k.id = w.nextKey ∧
        w'.nextKey = w.nextKey + 1 := by
  cases o with
  | storage ctx so =>
      obtain ⟨st', -, rfl⟩ := exec_onStorage h
      exact Or.inl ⟨rfl, by simp⟩
  | mem mo =>
      obtain ⟨m', -, rfl⟩ := exec_onMem h
      exact Or.inl ⟨rfl, by simp⟩
  | env eo =>
      rcases execEnv_cases h with ⟨rfl, hne⟩ | ⟨_, d, rfl, rfl⟩ | ⟨k, heq, hid, rfl⟩ |
        ⟨_, _, _, _, rfl, rfl⟩
      · exact Or.inl ⟨rfl, by simpa using hne⟩
      · exact Or.inl ⟨rfl, by simp⟩
      · exact Or.inr ⟨k, heq, hid, rfl⟩
      · exact Or.inl ⟨rfl, by simp⟩

theorem exec_issued_mono {o : Op} {r : Res o} (h : exec maxRetries node w t o a = some (r, w'))
    {n : Name} {leaf : Leaf} (hleaf : leaf ∈ w.issued n) : leaf ∈ w'.issued n := by
  rcases exec_issued h n with hsame | ⟨_, _, _, -, hcons⟩
  · rwa [hsame]
  · rw [hcons]
    exact List.mem_cons_of_mem _ hleaf

end

end CertsManager
