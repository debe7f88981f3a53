import CertsManager.Provenance

/-!
# KeyStability — one key per domain while no ceremony runs

The live key object is created once and never written again, so whoever reads it reads the same
key.  Every chain an operation writes, holds or serves is bound to a key it read
(`cluster_handsOn`), so everything kept for the domain anywhere stays bound to the one live key.
-/

namespace CertsManager

open Interleave

section

variable {N T : Type}

/-! ## What is kept for a domain -/

/-- `p` is the public half of the live key. -/
def LiveIs (w : World N T) (d : Name) (p : PublicKey) : Prop :=
  ∃ k, w.storage.key (.live d) = some (.key k) ∧ k.public = p

/-- Whatever is kept for the domain is bound to a key that satisfies `G`. -/
structure Kept (w : World N T) (d : Name) (G : PublicKey → Prop) : Prop where
  chain : ∀ c, w.storage.chain d = some c → Bound G c
  pending : ∀ i p, (w.node i).pending.lookup d = some p → Bound G p.chainPEM
  mem : ∀ i cert, (w.node i).mem d = some cert → Bound G (encodeChainPEM cert)

theorem Kept.mono {w : World N T} {d : Name} {G G' : PublicKey → Prop} (h : Kept w d G)
    (hG : ∀ p, G p → G' p) : Kept w d G' where
  chain c hc := (h.chain c hc).mono hG
  pending i p hp := (h.pending i p hp).mono hG
  mem i cert hcert := (h.mem i cert hcert).mono hG

/-- The live key object is a key, and everything kept for the domain is bound to it. -/
structure Consistent (w : World N T) (d : Name) : Prop where
  key : w.storage.key (.live d) ≠ some .garbage
  kept : Kept w d (LiveIs w d)

/-- The live key object is absent or is `k`, and everything kept for the domain is bound to `k`. -/
structure HasKey (w : World N T) (d : Name) (k : Key) : Prop where
  key : w.storage.key (.live d) = none ∨ w.storage.key (.live d) = some (.key k)
  kept : Kept w d (· = k.public)

theorem Consistent.hasKey {w : World N T} {d : Name} {k : Key} (h : Consistent w d)
    (hk : w.storage.key (.live d) = none ∨ w.storage.key (.live d) = some (.key k)) :
    HasKey w d k := by
  refine ⟨hk, h.kept.mono ?_⟩
  rintro p ⟨k', hk', rfl⟩
  rcases hk with hk | hk <;> simp_all

theorem Consistent.exists_hasKey {w : World N T} {d : Name} (h : Consistent w d) :
    ∃ k, HasKey w d k := by
  cases hk : w.storage.key (.live d) with
  | none => exact ⟨⟨0⟩, h.hasKey (Or.inl hk)⟩
  | some pem =>
      cases pem with
      | garbage => exact absurd hk h.key
      | key k => exact ⟨k, h.hasKey (Or.inr hk)⟩

/-! ## Moves outside a ceremony -/

/-- No key-replacement call, and no recovery of one, is started. -/
def StartsNoCeremony (_ : ClusterView N T) (l : ClusterLabel T) (_ : ClusterView N T) : Prop :=
  ∀ q ∈ started l, q.source = some false

instance (v : ClusterView N T) (l : ClusterLabel T) (v' : ClusterView N T) :
    Decidable (StartsNoCeremony v l v') :=
  inferInstanceAs (Decidable (∀ q ∈ started l, _))

structure KeyInv (d : Name) (v : ClusterView N T) : Prop where
  consistent : Consistent v.shared d
  source : ∀ t q h, v.task t = some (q, h) → q.source = some false
  handed : ∀ t q h, v.task t = some (q, h) → GoodHistory false d (LiveIs v.shared d) h

variable [DecidableEq N]

section Step

variable {maxRetries : Nat} {node : T → N} {w w' : World N T} {t : T} {d : Name} {h : History}
  {o : Op} {r : Res o} {a : Answer}

/-- A call outside a ceremony does not touch a live key that is there. -/
theorem exec_live_stays (he : exec maxRetries node w t o a = some (r, w'))
    (hmay : mayHandOn false h o) {pem : KeyPEM} (hpem : w.storage.key (.live d) = some pem) :
    w'.storage.key (.live d) = some pem := by
  rcases exec_key he (.live d) with hk | ⟨ctx, k, createOnly, rfl, -, hpre⟩ | ⟨ctx, rfl, -⟩
  · exact hk.trans hpem
  · -- outside a ceremony a live key is only created
    cases createOnly with
    | true => simp [hpre rfl] at hpem
    | false => cases hmay.1
  · cases hmay.1

theorem exec_liveIs_mono (he : exec maxRetries node w t o a = some (r, w'))
    (hmay : mayHandOn false h o) (p : PublicKey) (hp : LiveIs w d p) : LiveIs w' d p := by
  obtain ⟨k, hk, rfl⟩ := hp
  exact ⟨k, exec_live_stays he hmay hk, rfl⟩

theorem exec_live_not_garbage (he : exec maxRetries node w t o a = some (r, w'))
    (hw : w.storage.key (.live d) ≠ some .garbage) : w'.storage.key (.live d) ≠ some .garbage := by
  rcases exec_key he (.live d) with hk | ⟨_, _, _, -, hk, -⟩ | ⟨_, -, hk⟩ <;> simp_all

/-- A call that hands on only what it may keeps everything bound. -/
theorem exec_kept {staged : Bool} {G : PublicKey → Prop}
    (he : exec maxRetries node w t o a = some (r, w')) (hmay : mayHandOn staged h o)
    (hh : GoodHistory staged d G h) (hw : Kept w d G) : Kept w' d G where
  chain c hc := by
    rcases exec_chain he d with hsame | ⟨ctx, c', rfl, hput⟩
    · exact hw.chain c (hsame ▸ hc)
    · obtain rfl : c' = c := Option.some.inj (hput.symm.trans hc)
      exact hmay G hh
  pending i p hp := by
    rcases exec_pending he i d with hsame | ⟨p', rfl, -, hset⟩ | ⟨-, -, hnone⟩
    · exact hw.pending i p (hsame ▸ hp)
    · obtain rfl : p' = p := Option.some.inj (hset.symm.trans hp)
      exact hmay G hh
    · simp [hnone] at hp
  mem i cert hcert := by
    rcases exec_cert he i d with hsame | ⟨cert', rfl, -, hset⟩
    · exact hw.mem i cert (hsame ▸ hcert)
    · obtain rfl : cert' = cert := Option.some.inj (hset.symm.trans hcert)
      exact hmay G hh

end Step

variable [DecidableEq T] {cfg : Settings} {node : T → N} {d : Name}

theorem handsOn_may {q : Call} {staged : Bool} (hq : q.source = some staged) (h : History) (o : Op) :
    handsOn.may q h o ↔ mayHandOn staged h o := by
  cases q <;> cases hq <;> rfl

theorem keyInv_move {v v' : ClusterView N T} {l : ClusterLabel T} (hI : KeyInv d v)
    (hmove : Move (cluster cfg node) handsOn v l v') (hA : StartsNoCeremony v l v') :
    KeyInv d v' := by
  cases hmove with
  | start _ =>
      refine ⟨hI.consistent, fun u q h hu => ?_, fun u q h hu => ?_⟩
      · rcases View.put_cases hu with ⟨-, ⟨⟩⟩ | ⟨-, hu⟩
        · exact hA _ rfl
        · exact hI.source u q h hu
      · rcases View.put_cases hu with ⟨-, ⟨⟩⟩ | ⟨-, hu⟩
        · simp [GoodHistory]
        · exact hI.handed u q h hu
  | @did t q h o a r w' ht hmay he =>
      replace he : exec cfg.maxRetries node v.shared t o a = some (r, w') := he
      have hmay' := (handsOn_may (hI.source t q h ht) h o).1 hmay
      have hmono := exec_liveIs_mono (d := d) he hmay'
      have hgood : GoodEvent false d (LiveIs v.shared d) ⟨o, r⟩ :=
        goodEvent_of_exec he (fun k hk => ⟨k, hk, rfl⟩) fun _ => hI.consistent.kept.pending _
      refine ⟨⟨exec_live_not_garbage he hI.consistent.key, ?_⟩, fun u q' h' hu => ?_,
        fun u q' h' hu => ?_⟩
      · exact (exec_kept he hmay' (hI.handed t q h ht) hI.consistent.kept).mono hmono
      · rcases View.put_cases hu with ⟨-, ⟨⟩⟩ | ⟨-, hu⟩
        · exact hI.source t q h ht
        · exact hI.source u q' h' hu
      · rcases View.put_cases hu with ⟨-, ⟨⟩⟩ | ⟨-, hu⟩
        · exact (goodHistory_cons.2 ⟨hgood, hI.handed t q h ht⟩).mono hmono
        · exact (hI.handed u q' h' hu).mono hmono
  | finish _ _ | crash =>
      refine ⟨hI.consistent, fun u q h hu => ?_, fun u q h hu => ?_⟩
      · rcases View.put_cases hu with ⟨-, ⟨⟩⟩ | ⟨-, hu⟩
        exact hI.source u q h hu
      · rcases View.put_cases hu with ⟨-, ⟨⟩⟩ | ⟨-, hu⟩
        exact hI.handed u q h hu

/-! ## Stability -/

/-- A read of the live key object, and a request for the key, return `k` if they return a key. -/
def ReturnsKey (d : Name) (k : Key) : ClusterLabel T → Prop
  | .did _ ⟨.storage _ (.getKey slot), r⟩ => slot = .live d → ∀ pem, r = .ok pem → pem = .key k
  | .finish _ (.loadCertKey n) (.key (.ok k')) => n = d → k' = k
  | .finish _ (.loadOrCreateCertKey n) (.key (.ok k')) => n = d → k' = k
  | _ => True

/-- After the move everything is still bound to `k`; the key object, once there, stays. -/
structure Stable (d : Name) (k : Key) (v : ClusterView N T) (l : ClusterLabel T)
    (v' : ClusterView N T) : Prop where
  hasKey : HasKey v'.shared d k
  stays : v.shared.storage.key (.live d) ≠ none →
    v'.shared.storage.key (.live d) = v.shared.storage.key (.live d)
  returns : ReturnsKey d k l

theorem move_stays {v v' : ClusterView N T} {l : ClusterLabel T} (hI : KeyInv d v)
    (hmove : Move (cluster cfg node) handsOn v l v')
    (hsome : v.shared.storage.key (.live d) ≠ none) :
    v'.shared.storage.key (.live d) = v.shared.storage.key (.live d) := by
  cases hmove with
  | @did t q h o a r w' ht hmay he =>
      replace he : exec cfg.maxRetries node v.shared t o a = some (r, w') := he
      obtain ⟨pem, hpem⟩ := Option.ne_none_iff_exists'.1 hsome
      rw [hpem]
      exact exec_live_stays he ((handsOn_may (hI.source t q h ht) h o).1 hmay) hpem
  | _ => rfl

theorem move_stable {v v' : ClusterView N T} {l : ClusterLabel T} {k : Key} (hI : KeyInv d v)
    (hmove : Move (cluster cfg node) handsOn v l v')
    (hk : HasKey v'.shared d k) : Stable d k v l v' := by
  have hstays := move_stays hI hmove
  -- what is read before the move is there after it
  have hread : ∀ pem, v.shared.storage.key (.live d) = some pem → pem = .key k := by
    intro pem hpem
    have hpem' := hstays (by simp [hpem])
    rcases hk.key with hnone | hsome
    · simp [hpem, hnone] at hpem'
    · simpa [hpem, hsome] using hpem'.symm
  have hlive : ∀ k', LiveIs v.shared d k'.public → k' = k := by
    rintro k' ⟨k₁, hk₁, hpub⟩
    obtain rfl := Key.public_inj.1 hpub
    simpa using hread _ hk₁
  refine ⟨hk, hstays, ?_⟩
  cases hmove with
  | @did t q h o a r w' ht hmay he =>
      replace he : exec cfg.maxRetries node v.shared t o a = some (r, w') := he
      cases o with
      | storage ctx so =>
          cases so with
          | getKey slot =>
              rintro rfl pem rfl
              exact hread pem (exec_getKey_ok he)
          | _ => trivial
      | _ => trivial
  | @finish t q h out ht hdone =>
      have hh := hI.handed t q h ht
      cases q with
      | loadCertKey n =>
          rcases out with _ | (_ | k') | _ | _ | _ | _ | _ | _ | _ <;> try trivial
          rintro rfl
          exact hlive k' (hdone _ hh)
      | loadOrCreateCertKey n =>
          rcases out with _ | (_ | k') | _ | _ | _ | _ | _ | _ | _ <;> try trivial
          rintro rfl
          exact hlive k' (hdone _ hh)
      | _ => trivial
  | _ => trivial

/-- A run whose moves all keep the invariant keeps one key: the one it ends with. -/
theorem exists_stable (as : List (Action T Call Answer)) :
    ∀ c : Config Op Res (World N T) T Call Out, Consistent c.shared d →
      (cluster cfg node).Meets (fun v l v' => Move (cluster cfg node) handsOn v l v' ∧
        StartsNoCeremony v l v' ∧ KeyInv d v ∧ KeyInv d v') c as →
      ∃ k, HasKey c.shared d k ∧ (cluster cfg node).Meets (Stable d k) c as := by
  induction as with
  | nil =>
      intro c hc _
      obtain ⟨k, hk⟩ := hc.exists_hasKey
      exact ⟨k, hk, trivial⟩
  | cons a as ih =>
      intro c hc hA
      simp only [Machine.Meets] at hA ⊢
      cases hs : (cluster cfg node).step c a with
      | none =>
          obtain ⟨k, hk⟩ := hc.exists_hasKey
          exact ⟨k, hk, trivial⟩
      | some p =>
          obtain ⟨l, c'⟩ := p
          rw [hs] at hA
          obtain ⟨⟨hmove, -, hI, hI'⟩, hA'⟩ := hA
          obtain ⟨k, hk, hmeets⟩ := ih c' hI'.consistent hA'
          refine ⟨k, hc.hasKey ?_, move_stable hI hmove hk, hmeets⟩
          by_cases hnone : c.shared.storage.key (.live d) = none
          · exact Or.inl hnone
          · have hsame := move_stays hI hmove hnone
            rcases hk.key with hk | hk
            · exact absurd (hsame.symm.trans hk) hnone
            · exact Or.inr (hsame.symm.trans hk)

/-- From any state where what is kept for the domain is bound to its live key, along every schedule
that starts no key replacement: there is one key that the key object, if present, is in every
state, that every load returns, and that every chain stored, held or served is bound to; and the
key object, once present, stays. -/
theorem key_stable (cfg : Settings) (node : T → N) (d : Name) (w : World N T)
    (hw : Consistent w d) (as : List (Action T Call Answer))
    (hA : (cluster cfg node).Meets StartsNoCeremony (.idle w) as) :
    ∃ k, HasKey w d k ∧ (cluster cfg node).Meets (Stable d k) (.idle w) as := by
  have hinit : KeyInv d (Config.idle w : Config Op Res (World N T) T Call Out).view :=
    ⟨hw, by simp [Config.view, Config.idle], by simp [Config.view, Config.idle]⟩
  have hrun := Machine.run_meets (cluster_handsOn cfg node)
    (fun _ _ _ hI hmove hA => keyInv_move hI hmove hA) as _ (Machine.onTrack_idle w) hinit hA
  exact exists_stable as _ hw hrun

end

/-- Both nodes find no key and generate one each.  Node 0's put lands and reports a failure, node 1
loses the race and reads node 0's key; node 0 then obtains a certificate. -/
def createRace : List (Action (Fin 2) Call Answer) :=
  ([.start 0 (.loadOrCreateCertKey "a"), .start 1 (.loadOrCreateCertKey "a"), .step 0 {},
      .step 1 {}, .step 0 {}, .step 1 {}, .step 0 {}, .step 1 {}, .step 0 {}, .step 1 {},
      .step 0 { outcome := .lost }, .step 1 {}, .step 1 {}, .finish 1, .finish 0,
      .start 0 (.obtain "a")] : Schedule 2) ++
    (List.replicate 24 (.step 0 { notAfter := 10000000 }) : Schedule 2)

theorem key_stable_createRace :
    (∃ c ∈ (cluster (.plain ["a"]) (id : Fin 2 → Fin 2)).run (.idle (.empty _ _)) createRace,
      c.shared.storage.key (.live "a") = some (.key ⟨0⟩) ∧
        c.shared.storage.chain "a" = some (.chain ⟨⟨0⟩, 10000000⟩)) ∧
    ∃ k, HasKey (.empty (Fin 2) (Fin 2)) "a" k ∧
      (cluster (.plain ["a"]) (id : Fin 2 → Fin 2)).Meets (Stable "a" k) (.idle (.empty _ _))
        createRace := by
  refine ⟨by decide +kernel, key_stable (.plain ["a"]) id "a" _ ?_ createRace (by decide +kernel)⟩
  refine ⟨by simp [World.empty, Storage.empty], ⟨?_, ?_, ?_⟩⟩ <;>
    simp [World.empty, Storage.empty, NodeMemory.empty]

end CertsManager
