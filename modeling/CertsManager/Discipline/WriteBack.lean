import CertsManager.Discipline.Marks

/-!
# WriteBack — what a flush and a restoration write

`flushHeldChains` and `restoreMissingChains` share one writer, `flushOne`.  It reads the object for
itself under the lease, and writes only over what it has read: nothing, something that is no chain,
or a chain that expires earlier than its own.  `mayWriteBack` says so, for whatever the caller knows
of the chain it hands over; the two callers know different things of it.
-/

namespace CertsManager

open Interleave

/-! ## What is written over -/

def chainReply (n : Name) : Event → Option (Except ReadFault ChainPEM)
  | ⟨.storage _ (.getChain m), r⟩ => if m = n then some r else none
  | _ => none

/-- The answer to the operation's last read of the chain of `n`. -/
def lastRead (h : History) (n : Name) : Option (Except ReadFault ChainPEM) :=
  h.findSome? (chainReply n)

/-- The answer that tells what is stored; a failed read is neither. -/
def answer : Option ChainPEM → Except ReadFault ChainPEM
  | some c => .ok c
  | none => .error .notExist

/-- What is stored is no chain, or expires earlier. -/
def Behind (notAfter : Nat) (x : Option ChainPEM) : Prop :=
  ∀ leaf, x = some (.chain leaf) → leaf.notAfter < notAfter

/-- The chain `c` goes over the object that was read under the lease. -/
structure WritesOver (cfg : Settings) (h : History) (n : Name) (notAfter : Nat)
    (x : Option ChainPEM) : Prop where
  leased : (know cfg h).Leased n
  known : (know cfg h).chain = some x
  read : lastRead h n = some (answer x)
  behind : Behind notAfter x

/-- `P` is what the caller of `flushOne` knows of the chain it hands over. -/
def mayWriteBack (cfg : Settings) (P : History → Name → PendingPersist → Prop) (h : History) :
    Op → Prop
  | .storage _ (.putChain n c) =>
      ∃ p x, P h n p ∧ p.chainPEM = c ∧ WritesOver cfg h n p.notAfter x
  | .mem (.pendingSet _ _) => False
  | _ => True

section

variable {cfg : Settings} {P : History → Name → PendingPersist → Prop} {h : History} {n : Name}
  {p : PendingPersist}

theorem serving_writesBack {α : Type} {q : M α} (hq : q.Calls Op.Serving) :
    q.Conforms (mayWriteBack cfg P) h fun _ _ => True := by
  refine (hq.conforms fun h o ho => ?_).mono fun _ _ _ => trivial
  cases o with
  | storage ctx o =>
      cases o with
      | putChain n c => cases ho
      | _ => trivial
  | mem o =>
      cases o with
      | pendingSet n p => cases ho
      | _ => trivial
  | env o => trivial

/-- The one write of a flush, and what is done after it. -/
theorem writeHeld_writesBack (ctx : Time) {x : Option ChainPEM} (hp : P h n p)
    (hover : WritesOver cfg h n p.notAfter x) :
    (Manager.writeHeld cfg ctx n p).Conforms (mayWriteBack cfg P) h fun _ _ => True := by
  have hpersist : (CertCache.persist ctx n p.chainPEM 1).Conforms (mayWriteBack cfg P) h
      fun _ _ => True := by
    change (CertCache.persistFrom ctx n p.chainPEM 0 1).Conforms _ h _
    simp only [CertCache.persistFrom, onStorage, Prog.conforms_bind, Prog.conforms_perform]
    refine ⟨⟨p, x, hp, rfl, hover⟩, fun r => ?_⟩
    cases r <;> simp
  refine hpersist.bind fun h₁ r _ _ => ?_
  cases r with
  | error err => simp
  | ok _ =>
      simp only [CertCache.dropPending, CertCache.get, onMem, Prog.conforms_bind,
        Prog.conforms_perform]
      refine ⟨trivial, fun _ => ⟨trivial, fun r => ?_⟩⟩
      cases r with
      | none => simp
      | some cert =>
          exact (serving_writesBack (confirmed_serving cfg n cert)).bind
            fun _ _ _ _ => trivial

/-- Under a fresh lease, the read that decides is the operation's first of the object. -/
theorem flushLeased_writesBack (ctx : Time) (hn : (know cfg h).Leased n)
    (hc : (know cfg h).chain = none)
    (hp : ∀ r, P (⟨.storage ctx (.getChain n), r⟩ :: h) n p) :
    (Manager.flushLeased cfg ctx n p).Conforms (mayWriteBack cfg P) h fun _ _ => True := by
  have hover : ∀ x, Behind p.notAfter x →
      WritesOver cfg (⟨.storage ctx (.getChain n), answer x⟩ :: h) n p.notAfter x := by
    intro x hx
    have hgrows := (know cfg h).after_grows cfg (e := ⟨.storage ctx (.getChain n), answer x⟩)
      trivial
    refine ⟨hgrows.leased hn, ?_, by simp [lastRead, chainReply], hx⟩
    cases x <;> simp [Know.after, hn, Know.readChain, hc, answer]
  simp only [Manager.flushLeased, CertCache.storedNotAfter, CertCache.loadChain, onStorage,
    Prog.conforms_bind, Prog.conforms_perform]
  refine ⟨trivial, fun r => ?_⟩
  rcases r with f | (leaf | _)
  · cases f with
    | notExist => exact writeHeld_writesBack ctx (hp _) (hover none (by simp [Behind]))
    -- a read that failed is neither absence nor garbage
    | failed inBody reason =>
        cases inBody <;> simp [readFailure, Err.is, Err.wrap]
  · simp only [Prog.conforms_pure, leafNotAfterPEM]
    split
    · refine (serving_writesBack (refresh_serving cfg ctx n)).bind fun _ r _ _ => ?_
      cases r <;> simp [CertCache.dropPending, onMem, mayWriteBack]
    · rename_i hle
      refine writeHeld_writesBack ctx (hp _) (hover (some (.chain leaf)) ?_)
      rintro leaf' ⟨⟩
      exact Nat.lt_of_not_le hle
  · exact writeHeld_writesBack ctx (hp _) (hover (some .garbage) (by simp [Behind]))

/-- What the caller knows must outlast the calls before the write: none of them reads the clock. -/
theorem flushOne_writesBack (ctx : Time)
    (hstable : ∀ h e, reading e = none → P h n p → P (e :: h) n p) (hp : P h n p) :
    (Manager.flushOne cfg ctx n p).Conforms (mayWriteBack cfg P) h fun _ _ => True := by
  simp only [Manager.flushOne, Manager.flushLocked, Manager.acquireIssueLease,
    Manager.releaseIssueLease, onMem, onEnv, Prog.conforms_bind, Prog.conforms_perform]
  refine ⟨trivial, fun free => ?_⟩
  cases free with
  | false => simp
  | true =>
      simp only [Bool.not_true, Bool.false_eq_true, if_false, Prog.conforms_bind,
        Prog.conforms_perform]
      refine ⟨trivial, fun ok => ?_⟩
      cases ok with
      | false => simp [mayWriteBack]
      | true =>
          have hknow : know cfg (⟨.env (.acquireLease ctx n), true⟩ :: ⟨.mem (.tryLock n), true⟩ :: h)
              = { lock := some n, lease := true } := by
            simp [Know.after]
          refine (flushLeased_writesBack ctx (by simp [hknow, Know.Leased]) (by simp [hknow])
            fun r => ?_).bind fun _ _ _ _ => by simp [mayWriteBack]
          exact hstable _ _ rfl (hstable _ _ rfl (hstable _ _ rfl hp))

/-! ## The two callers -/

theorem flushHeldChains_writesBack (ctx : Time) :
    (Manager.flushHeldChains cfg ctx).Keeps (mayWriteBack cfg Offered) fun _ => True := by
  refine flushHeldChains_keeps_of (E := Offered) (fun hp hs => hp.extend hs)
    (fun _ _ => ⟨trivial, fun _ => trivial⟩)
    (fun _ _ => ⟨trivial, fun held => ⟨trivial, fun e he => ⟨held, List.mem_cons_self, he⟩⟩⟩)
    (fun _ _ _ => ⟨trivial, fun _ => trivial⟩) fun h n p _ hp => ?_
  exact flushOne_writesBack ctx (fun h e _ hp => hp.extend (List.suffix_cons e h)) hp

/-- A name of the node: a configured one, one of its table of hosts as it read it, or the companion
of a configured one. -/
def ServedName (cfg : Settings) (h : History) (n : Name) : Prop :=
  n ∈ cfg.domains ∨
    (cfg.onDemand = true ∧ ∃ hosts : List Name, (⟨.mem .hosts, hosts⟩ : Event) ∈ h ∧ n ∈ hosts) ∨
    (cfg.rsaCompanion = true ∧ ∃ d ∈ cfg.domains, n = Layout.companion d)

/-- What a restoration knows of a chain it hands over: by its last clock reading the chain is
unexpired, the name is one of the node's, and the live key it read is the chain's. -/
structure Restorable (cfg : Settings) (h : History) (n : Name) (p : PendingPersist) : Prop where
  unexpired : ∃ t, (readings h).head? = some t ∧ t < p.notAfter * second
  served : ServedName cfg h n
  bound : ∃ leaf k, p.chainPEM = .chain leaf ∧ leaf.notAfter = p.notAfter ∧ LiveRead h n k ∧
    leaf.pub = k.public

theorem ServedName.extend {h' : History} (hn : ServedName cfg h n) (hs : h <:+ h') :
    ServedName cfg h' n := by
  rcases hn with hn | ⟨hod, hosts, hmem, hn⟩ | hn
  · exact Or.inl hn
  · exact Or.inr (Or.inl ⟨hod, hosts, hs.subset hmem, hn⟩)
  · exact Or.inr (Or.inr hn)

theorem Restorable.cons {e : Event} (hp : Restorable cfg h n p) (he : reading e = none) :
    Restorable cfg (e :: h) n p := by
  obtain ⟨leaf, k, hchain, hexp, hk, hpub⟩ := hp.bound
  refine ⟨?_, hp.served.extend (List.suffix_cons e h),
    leaf, k, hchain, hexp, hk.extend (List.suffix_cons e h), hpub⟩
  simpa only [readings, List.filterMap_cons_none he] using hp.unexpired

theorem restoreOne_writesBack (ctx : Time) (inStorage : Name → Bool) (hn : ServedName cfg h n) :
    (Manager.restoreOne cfg ctx inStorage n).Conforms (mayWriteBack cfg (Restorable cfg)) h
      fun _ _ => True := by
  simp only [Manager.restoreOne]
  split
  · simp
  · simp only [CertCache.isPending, Manager.restoreServed, CertCache.get, onMem, Prog.conforms_bind,
      Prog.conforms_perform, Prog.conforms_pure]
    refine ⟨trivial, fun held => ?_⟩
    split
    · simp
    · simp only [Prog.conforms_bind, Prog.conforms_perform]
      refine ⟨trivial, fun r => ?_⟩
      cases r with
      | none => simp
      | some cert =>
          simp only [Manager.now, onEnv, Prog.conforms_bind, Prog.conforms_perform]
          refine ⟨trivial, fun t => ?_⟩
          split
          · simp
          · rename_i hexp
            refine (load_reply ctx (.live n) trivial).bind fun h₁ r hs hr => ?_
            obtain ⟨reply, rfl, hload, -⟩ := hr
            cases r with
            | error err => simp
            | ok k =>
                simp only
                cases hbuild : buildCertificate (encodeChainPEM cert) k with
                | error err => simp
                | ok built =>
                    obtain ⟨hleaf, hkey⟩ := buildCertificate_ok hbuild
                    simp only [encodeChainPEM, ChainPEM.chain.injEq] at hleaf
                    have hbound : cert.leaf.pub = k.public := by
                      rw [hleaf, ← hkey, built.matching]
                    have hread : LiveRead (⟨.storage ctx (.getKey (.live n)), reply⟩ ::
                        ⟨.env .now, t⟩ :: ⟨.mem (.memGet n), some cert⟩ ::
                        ⟨.mem (.pendingGet n), held⟩ :: h) n k :=
                      ⟨ctx, by rw [(hload k).1 rfl]; exact List.mem_cons_self⟩
                    refine flushOne_writesBack ctx (fun h e he hp => hp.cons he) ?_
                    exact ⟨⟨t, rfl, Nat.lt_of_not_le hexp⟩,
                      hn.extend (List.suffix_append [_, _, _, _] h),
                      cert.leaf, k, rfl, rfl, hread, hbound⟩

theorem restoreNames_writesBack (ctx : Time) (inStorage : Name → Bool) (names : List Name)
    (hnames : ∀ n ∈ names, ServedName cfg h n) :
    (Manager.restoreNames cfg ctx inStorage names).Conforms (mayWriteBack cfg (Restorable cfg)) h
      fun _ _ => True := by
  induction names generalizing h with
  | nil => simp [Manager.restoreNames]
  | cons n names ih =>
      simp only [Manager.restoreNames, onEnv, Prog.conforms_bind, Prog.conforms_perform]
      refine ⟨trivial, fun done => ?_⟩
      cases done with
      | true => simp
      | false =>
          have hs := List.suffix_cons (⟨.env (.ctxErr ctx), false⟩ : Event) h
          simp only [Bool.false_eq_true, if_false]
          refine (restoreOne_writesBack ctx inStorage
            ((hnames n List.mem_cons_self).extend hs)).bind fun h₁ r hs₁ _ => ?_
          refine (ih fun m hm => ?_).bind fun _ _ _ _ => trivial
          exact (hnames m (List.mem_cons_of_mem n hm)).extend (hs.trans hs₁)

theorem restoreMissingChains_writesBack (ctx : Time) :
    (Manager.restoreMissingChains cfg ctx).Conforms (mayWriteBack cfg (Restorable cfg)) h
      fun _ _ => True := by
  simp only [Manager.restoreMissingChains, onStorage, Prog.conforms_bind, Prog.conforms_perform]
  refine ⟨trivial, fun r => ?_⟩
  cases r with
  | error f => simp
  | ok inStorage =>
      have hcompanions : ∀ h' : History, ∀ n ∈ Manager.companionNames cfg, ServedName cfg h' n := by
        intro h' n hn
        simp only [Manager.companionNames] at hn
        split at hn
        · rename_i hrsa
          obtain ⟨d, hd, rfl⟩ := List.mem_map.1 hn
          exact Or.inr (Or.inr ⟨hrsa, d, hd, rfl⟩)
        · cases hn
      have hdomains : ∀ n ∈ cfg.domains.dedup.insertionSort (· ≤ ·), n ∈ cfg.domains := by
        intro n hn
        exact List.mem_dedup.1 ((List.mem_insertionSort _).1 hn)
      simp only [Manager.servedNames]
      split
      · rename_i hod
        simp only [onMem, Prog.conforms_bind, Prog.conforms_perform, Prog.conforms_pure]
        refine ⟨trivial, fun hosts => restoreNames_writesBack ctx inStorage _ fun n hn => ?_⟩
        rcases List.mem_append.1 hn with hn | hn
        · rcases List.mem_append.1 hn with hn | hn
          · exact Or.inl (hdomains n hn)
          · exact Or.inr (Or.inl ⟨hod, hosts, List.mem_cons_self, (List.mem_filter.1 hn).1⟩)
        · exact hcompanions _ n hn
      · refine restoreNames_writesBack ctx inStorage _ fun n hn => ?_
        rcases List.mem_append.1 hn with hn | hn
        · exact Or.inl (hdomains n hn)
        · exact hcompanions _ n hn

end

/-- Of the other calls this protocol says nothing. -/
def writesBack (cfg : Settings) : Protocol Op Res Call Out where
  may q h o :=
    (q = .flushHeldChains → mayWriteBack cfg Offered h o) ∧
      (q = .restoreMissingChains → mayWriteBack cfg (Restorable cfg) h o)
  done _ _ _ := True

theorem cluster_writesBack {N T : Type} [DecidableEq N] (cfg : Settings) (node : T → N) :
    (cluster cfg node).Follows (writesBack cfg) := by
  intro q
  show (body cfg q).Conforms ((writesBack cfg).may q) [] ((writesBack cfg).done q)
  cases q with
  | flushHeldChains =>
      refine Prog.conforms_map.2 (within_conforms ⟨fun _ => trivial, by simp⟩ fun t => ?_)
      exact (flushHeldChains_writesBack _ _ trivial).weaken fun _ _ ho => ⟨fun _ => ho, by simp⟩
  | restoreMissingChains =>
      refine Prog.conforms_map.2 (within_conforms ⟨by simp, fun _ => trivial⟩ fun t => ?_)
      exact (restoreMissingChains_writesBack _).weaken fun _ _ ho => ⟨by simp, fun _ => ho⟩
  | _ => exact Prog.conforms_of_all (fun _ _ => ⟨by simp, by simp⟩) fun _ _ => trivial

end CertsManager
