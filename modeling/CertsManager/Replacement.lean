import CertsManager.Serveable

/-!
# Replacement — a key replacement stages another key

`ReplaceCertificateKey` stages a key it generates, or finds one staged and takes that.  What it finds
may be the live key: a promotion overwrites the live key first and removes the staged object second,
and only logs a failure of the second.  The next replacement then reports that very key as the
replacement.

The result is for calls one after another.  A replacement that begins while the staged object does
not hold the live key ends with another key staged: a key it generates is new, and nothing else is
written while it runs.
-/

namespace CertsManager

open Interleave

section

variable {N T : Type}

/-! ## Live and staged keys -/

/-- The staged object holds the live key. -/
def LiveStaged (d : Name) (w : World N T) : Prop :=
  ∃ k ∈ w.liveKey d, w.storage.key (.next d) = some (.key k)

/-- A key is staged, and it is not the live one. -/
def Replaced (d : Name) (w : World N T) : Prop :=
  ∃ pem ∈ w.storage.key (.next d), ∃ k ∈ (parseKeyPEM pem).toOption,
    ∀ k' ∈ w.liveKey d, k'.public ≠ k.public

instance (d : Name) (w : World N T) : Decidable (LiveStaged d w) :=
  inferInstanceAs (Decidable (∃ k ∈ w.liveKey d, _))

instance (d : Name) (w : World N T) : Decidable (Replaced d w) :=
  inferInstanceAs (Decidable (∃ pem ∈ w.storage.key (.next d), ∃ k ∈ (parseKeyPEM pem).toOption, _))

/-- The calls of a key-replacement ceremony. -/
def Call.ceremony (d : Name) : Call → Bool
  | .replaceCertificateKey n => n = d
  | .activateCertificateKey n _ => n = d
  | .reconcileCeremony n => n = d
  | _ => false

/-! ## The rules of a run -/

/-- Ceremony calls for `d`, one after another. -/
def CeremonyCalls (d : Name) (v : ClusterView N T) (l : ClusterLabel T) (v' : ClusterView N T) :
    Prop :=
  Sequential v l v' ∧ ∀ q ∈ started l, q.ceremony d = true

/-- A replacement begins only when the staged object does not hold the live key. -/
def ReplacesUnstaged (d : Name) (v : ClusterView N T) (l : ClusterLabel T) (_ : ClusterView N T) :
    Prop :=
  ∀ q ∈ started l, q = .replaceCertificateKey d → ¬LiveStaged d v.shared

/-- The name of a replacement that reported success. -/
def replaced : ClusterLabel T → Option Name
  | .finish _ (.replaceCertificateKey d) (.records (.ok _)) => some d
  | _ => none

/-- A replacement of `d` that reports success has staged another key. -/
def ReplacementStages (d : Name) (_ : ClusterView N T) (l : ClusterLabel T)
    (v' : ClusterView N T) : Prop :=
  ∀ n ∈ replaced l, n = d → Replaced d v'.shared

instance [Fintype T] (d : Name) (v : ClusterView N T) (l : ClusterLabel T)
    (v' : ClusterView N T) : Decidable (CeremonyCalls d v l v') :=
  inferInstanceAs (Decidable (_ ∧ ∀ q ∈ started l, _))

instance (d : Name) (v : ClusterView N T) (l : ClusterLabel T) (v' : ClusterView N T) :
    Decidable (ReplacesUnstaged d v l v') :=
  inferInstanceAs (Decidable (∀ q ∈ started l, _))

instance (d : Name) (v : ClusterView N T) (l : ClusterLabel T) (v' : ClusterView N T) :
    Decidable (ReplacementStages d v l v') :=
  inferInstanceAs (Decidable (∀ n ∈ replaced l, _))

/-! ## The invariant -/

/-- The domain's key objects hold keys that were generated earlier. -/
def Numbered (d : Name) (w : World N T) : Prop :=
  ∀ k, w.storage.key (.live d) = some (.key k) ∨ w.storage.key (.next d) = some (.key k) →
    k.id < w.nextKey

/-- A replacement in progress: what it generated is new, what it read staged still is. -/
structure Replacing (d : Name) (h : History) (w : World N T) : Prop where
  distinct : ¬LiveStaged d w
  generated : ∀ k, Generated h k → k.id < w.nextKey ∧ w.storage.key (.live d) ≠ some (.key k)
  read : ∀ k, StagedRead h d k → w.storage.key (.next d) = some (.key k)

structure ReplaceInv (d : Name) (v : ClusterView N T) : Prop where
  numbered : Numbered d v.shared
  single : ∀ t u x y, v.task t = some x → v.task u = some y → t = u
  requests : ∀ t q h, v.task t = some (q, h) → q.ceremony d = true
  staged : ∀ t q h, v.task t = some (q, h) →
    GoodHistory true d (fun p => p.id < v.shared.nextKey) h
  replacing : ∀ t h, v.task t = some (.replaceCertificateKey d, h) → Replacing d h v.shared

theorem liveStaged_iff {d : Name} {w : World N T} :
    LiveStaged d w ↔
      ∃ k, w.storage.key (.live d) = some (.key k) ∧ w.storage.key (.next d) = some (.key k) := by
  constructor
  · rintro ⟨k, hk, hnext⟩
    refine ⟨k, ?_, hnext⟩
    cases hlive : w.storage.key (.live d) with
    | none => simp [World.liveKey, hlive] at hk
    | some pem =>
        cases pem with
        | garbage => simp [World.liveKey, hlive] at hk
        | key k' =>
            have hsame : k' = k := by simpa [World.liveKey, hlive] using hk
            rw [hsame]
  · rintro ⟨k, hlive, hnext⟩
    exact ⟨k, by simp [World.liveKey, hlive], hnext⟩

/-- What was read staged, and is not the live key, is the replacement. -/
theorem Replacing.replaced {d : Name} {h : History} {w : World N T} {k : Key}
    (hr : Replacing d h w) (hk : StagedRead h d k) : Replaced d w := by
  have hnext := hr.read k hk
  refine ⟨.key k, hnext, k, rfl, ?_⟩
  intro k' hk' hpub
  obtain rfl := Key.public_inj.1 hpub
  exact hr.distinct ⟨k', hk', hnext⟩

variable [DecidableEq N] [DecidableEq T] {cfg : Settings} {node : T → N} {d : Name}
  {v : ClusterView N T}

section Did

variable {t : T} {q : Call} {h : History} {o : Op} {a : Answer} {r : Res o} {w' : World N T}

omit [DecidableEq T] in
theorem nextKey_mono (he : exec cfg.maxRetries node v.shared t o a = some (r, w')) :
    v.shared.nextKey ≤ w'.nextKey := by
  rcases exec_nextKey he with ⟨hsame, -⟩ | ⟨_, -, -, hnext⟩ <;> omega

omit [DecidableEq T] in
/-- A ceremony writes to the domain's key objects what it read staged, or what it generated. -/
theorem numbered_did (hI : ReplaceInv d v) (ht : v.task t = some (q, h))
    (hmay : handsOn.may q h o) (he : exec cfg.maxRetries node v.shared t o a = some (r, w')) :
    Numbered d w' := by
  have hmono := nextKey_mono he
  intro k hk
  rcases hk with hk | hk
  · rcases exec_key he (.live d) with hsame | ⟨ctx, k', createOnly, rfl, hput, -⟩ | ⟨-, -, hnone⟩
    · exact (hI.numbered k (Or.inl (hsame.symm.trans hk))).trans_le hmono
    · -- only a promotion writes the live key here
      obtain rfl : k' = k := by simpa [hput] using hk
      have hpromotes : createOnly = false := by
        have hq := hI.requests t q h ht
        cases q with
        | replaceCertificateKey n => exact hmay.2.elim
        | reconcileCeremony n =>
            cases createOnly with
            | false => rfl
            | true => cases hmay.2
        | activateCertificateKey n force =>
            cases createOnly with
            | false => rfl
            | true => cases hmay
        | _ => simp [Call.ceremony] at hq
      subst hpromotes
      have hfrom := (keyFrom_of_promotion hmay).2
      have hid : k'.public.id < v.shared.nextKey := hfrom _ (hI.staged t q h ht)
      exact hid.trans_le hmono
    · simp [hnone] at hk
  · rcases exec_key he (.next d) with hsame | ⟨ctx, k', createOnly, rfl, hput, -⟩ | ⟨-, -, hnone⟩
    · exact (hI.numbered k (Or.inr (hsame.symm.trans hk))).trans_le hmono
    · obtain rfl : k' = k := by simpa [hput] using hk
      cases q with
      | replaceCertificateKey n =>
          obtain ⟨rfl, -, hgen⟩ := hmay.2
          exact (((hI.replacing t h ht).generated k' hgen).1).trans_le hmono
      | reconcileCeremony n => exact hmay.2.elim
      | _ => exact hmay.elim
    · simp [hnone] at hk

omit [DecidableEq T] in
theorem staged_did (hI : ReplaceInv d v) (ht : v.task t = some (q, h))
    (hmay : handsOn.may q h o) (he : exec cfg.maxRetries node v.shared t o a = some (r, w')) :
    GoodHistory true d (fun p => p.id < w'.nextKey) (⟨o, r⟩ :: h) := by
  have hmono := nextKey_mono he
  have hgood : GoodEvent true d (fun p => p.id < v.shared.nextKey) ⟨o, r⟩ := by
    refine goodEvent_of_exec he (fun k hk => hI.numbered k (Or.inr hk)) ?_
    rintro rfl
    have hsource := source_of_snapshot hmay
    have hq := hI.requests t q h ht
    cases q <;> simp_all [Call.source, Call.ceremony]
  exact (goodHistory_cons.2 ⟨hgood, hI.staged t q h ht⟩).mono fun _ hp => hp.trans_le hmono

omit [DecidableEq T] in
/-- The key objects during a replacement: the live one stays, the staged one is only created. -/
theorem keys_of_replacing (hmay : handsOn.may (.replaceCertificateKey d) h o)
    (he : exec cfg.maxRetries node v.shared t o a = some (r, w')) :
    w'.storage.key (.live d) = v.shared.storage.key (.live d) ∧
      (w'.storage.key (.next d) = v.shared.storage.key (.next d) ∨
        ∃ k, Generated h k ∧ v.shared.storage.key (.next d) = none ∧
          w'.storage.key (.next d) = some (.key k)) := by
  constructor
  · rcases exec_key he (.live d) with hsame | ⟨_, _, _, rfl, -⟩ | ⟨_, rfl, -⟩
    · exact hsame
    · exact hmay.2.elim
    · exact hmay.2.elim
  · rcases exec_key he (.next d) with hsame | ⟨_, k, createOnly, rfl, hput, hpre⟩ | ⟨_, rfl, -⟩
    · exact Or.inl hsame
    · obtain ⟨-, hcreate, hgen⟩ := hmay.2
      exact Or.inr ⟨k, hgen, hpre hcreate, hput⟩
    · exact hmay.2.elim

omit [DecidableEq T] in
theorem replacing_did (hI : ReplaceInv d v) (ht : v.task t = some (.replaceCertificateKey d, h))
    (hmay : handsOn.may (.replaceCertificateKey d) h o)
    (he : exec cfg.maxRetries node v.shared t o a = some (r, w')) :
    Replacing d (⟨o, r⟩ :: h) w' := by
  have hr := hI.replacing t h ht
  have hmono := nextKey_mono he
  obtain ⟨hlive, hnext⟩ := keys_of_replacing hmay he
  refine ⟨?_, fun k hk => ?_, fun k hk => ?_⟩
  · -- a key that is staged now was generated by this replacement
    rw [liveStaged_iff, hlive]
    rintro ⟨k, hk, hk'⟩
    rcases hnext with hsame | ⟨k₂, hgen, -, hput⟩
    · exact hr.distinct (liveStaged_iff.2 ⟨k, hk, hsame.symm.trans hk'⟩)
    · obtain rfl : k₂ = k := by simpa [hput] using hk'
      exact (hr.generated k₂ hgen).2 hk
  · rw [hlive]
    rcases List.mem_cons.1 hk with heq | hk
    · -- a new key has a number no stored key has
      rcases exec_nextKey he with ⟨-, hne⟩ | ⟨k', heq', hid, hnk⟩
      · cases heq
        exact absurd rfl hne
      · rw [← heq] at heq'
        cases heq'
        refine ⟨by omega, fun hstored => ?_⟩
        have hold := hI.numbered k (Or.inl hstored)
        omega
    · have hgen := hr.generated k hk
      exact ⟨hgen.1.trans_le hmono, hgen.2⟩
  · obtain ⟨ctx, hk⟩ := hk
    rcases List.mem_cons.1 hk with heq | hk
    · cases heq
      rcases hnext with hsame | ⟨_, -, hnone, -⟩
      · exact hsame.trans (exec_getKey_ok he)
      · exact absurd (hnone.symm.trans (exec_getKey_ok he)) (by simp)
    · have hread := hr.read k ⟨ctx, hk⟩
      rcases hnext with hsame | ⟨_, -, hnone, -⟩
      · exact hsame.trans hread
      · exact absurd (hnone.symm.trans hread) (by simp)

end Did

/-! ## Whole runs -/

theorem replaceInv_move {v' : ClusterView N T} {l : ClusterLabel T} (hI : ReplaceInv d v)
    (hmove : Move (cluster cfg node) handsOn v l v') (hcalls : CeremonyCalls d v l v')
    (hclean : ReplacesUnstaged d v l v') : ReplaceInv d v' := by
  cases hmove with
  | @start t q ht =>
      have hidle : ∀ u, v.task u = none := fun u => by simpa using hcalls.1 q rfl u
      have honly : ∀ u x, (v.put t v.shared (some (q, []))).task u = some x → u = t ∧ x = (q, []) := by
        intro u x hu
        rcases View.put_cases hu with ⟨rfl, ⟨⟩⟩ | ⟨-, hu'⟩
        · exact ⟨rfl, rfl⟩
        · simp [hidle u] at hu'
      refine ⟨hI.numbered, ?_, ?_, ?_, ?_⟩
      · intro u u' x y hu hu'
        rw [(honly u x hu).1, (honly u' y hu').1]
      · intro u q' h' hu
        cases (honly u _ hu).2
        exact hcalls.2 q rfl
      · intro u q' h' hu
        cases (honly u _ hu).2
        simp [GoodHistory]
      · intro u h' hu
        cases (honly u _ hu).2
        exact ⟨hclean _ rfl rfl, by simp [Generated], by simp [StagedRead]⟩
  | @did t q h o a r w' ht hmay he =>
      replace he : exec cfg.maxRetries node v.shared t o a = some (r, w') := he
      have honly : ∀ u x, (v.put t w' (some (q, ⟨o, r⟩ :: h))).task u = some x →
          u = t ∧ x = (q, ⟨o, r⟩ :: h) := by
        intro u x hu
        rcases View.put_cases hu with ⟨rfl, ⟨⟩⟩ | ⟨hut, hu'⟩
        · exact ⟨rfl, rfl⟩
        · exact absurd (hI.single u t _ _ hu' ht) hut
      refine ⟨numbered_did hI ht hmay he, ?_, ?_, ?_, ?_⟩
      · intro u u' x y hu hu'
        rw [(honly u x hu).1, (honly u' y hu').1]
      · intro u q' h' hu
        cases (honly u _ hu).2
        exact hI.requests t q h ht
      · intro u q' h' hu
        cases (honly u _ hu).2
        exact staged_did hI ht hmay he
      · intro u h' hu
        cases (honly u _ hu).2
        exact replacing_did hI ht hmay he
  | finish _ _ | crash =>
      have hsub : ∀ {t u : T} {x : Call × History}, (v.put t v.shared none).task u = some x →
          v.task u = some x := by
        intro t u x hu
        rcases View.put_cases hu with ⟨-, ⟨⟩⟩ | ⟨-, hu'⟩
        exact hu'
      exact ⟨hI.numbered, fun u u' x y hu hu' => hI.single u u' x y (hsub hu) (hsub hu'),
        fun u q' h' hu => hI.requests u q' h' (hsub hu),
        fun u q' h' hu => hI.staged u q' h' (hsub hu),
        fun u h' hu => hI.replacing u h' (hsub hu)⟩

theorem replacementStages_move {v' : ClusterView N T} {l : ClusterLabel T} (hI : ReplaceInv d v)
    (hmove : Move (cluster cfg node) handsOn v l v') : ReplacementStages d v l v' := by
  intro n hn hnd
  subst hnd
  cases hmove with
  | @finish t q h out ht hdone =>
      obtain ⟨recs, rfl, rfl⟩ : ∃ recs, q = .replaceCertificateKey n ∧ out = .records (.ok recs) := by
        cases q <;> simp [replaced] at hn
        rcases out with _ | _ | _ | _ | _ | _ | _ | (_ | recs) | _ <;> simp at hn
        exact ⟨recs, by rw [hn], rfl⟩
      obtain ⟨k, hk⟩ := hdone
      exact (hI.replacing t h ht).replaced hk
  | _ => simp [replaced] at hn

/-- Along every sequence of ceremony calls for a domain in which no replacement begins while the
staged object holds the live key: a replacement that reports success has staged a key other than
the live one. -/
theorem replacement_stages (cfg : Settings) (node : T → N) (d : Name) (w : World N T)
    (hw : Numbered d w) (as : List (Action T Call Answer))
    (hcalls : (cluster cfg node).Meets (CeremonyCalls d) (.idle w) as)
    (hclean : (cluster cfg node).Meets (ReplacesUnstaged d) (.idle w) as) :
    (cluster cfg node).Meets (ReplacementStages d) (.idle w) as := by
  have hinit : ReplaceInv d (Config.idle w : Config Op Res (World N T) T Call Out).view := by
    refine ⟨hw, ?_, ?_, ?_, ?_⟩ <;> simp [Config.view, Config.idle]
  have hrun := Machine.run_meets (cluster_handsOn cfg node)
    (fun _ _ _ hI hmove hA => replaceInv_move hI hmove hA.1 hA.2) as _ (Machine.onTrack_idle w)
    hinit (hcalls.and hclean)
  refine hrun.mono ?_
  intro v l v' hmeets
  exact replacementStages_move hmeets.2.2.1 hmeets.1

end

/-- The domain `a` has a chain bound to its live key 0, and no key is staged. -/
def servedWorld (N T : Type) : World N T :=
  { World.empty N T with
    storage := { Storage.empty with
      chain := Function.update (fun _ => none) "a" (some (.chain ⟨⟨0⟩, 10000000⟩))
      key := Function.update (fun _ => none) (.live "a") (some (.key ⟨0⟩)) }
    nextKey := 1 }

/-- A replacement and an activation; `removal` answers the removal of the staged object. -/
def firstCeremony (removal : Answer) : List (Action (Fin 1) Call Answer) :=
  (.start 0 (.replaceCertificateKey "a") :: List.replicate 9 (.step 0 {}) : Schedule 1) ++
    (.finish 0 :: .start 0 (.activateCertificateKey "a" false) ::
      List.replicate 24 (.step 0 { notAfter := 20000000 }) : Schedule 1) ++
    ([.step 0 removal, .step 0 {}, .step 0 {}, .finish 0] : Schedule 1)

/-- A second replacement, which takes `n` calls. -/
def secondReplacement (n : Nat) : List (Action (Fin 1) Call Answer) :=
  (.start 0 (.replaceCertificateKey "a") :: List.replicate n (.step 0 {}) : Schedule 1) ++
    ([.finish 0] : Schedule 1)

theorem replacement_stages_twice :
    (cluster (.plain ["a"]) (id : Fin 1 → Fin 1)).Meets (ReplacementStages "a")
      (.idle (servedWorld _ _)) (firstCeremony {} ++ secondReplacement 9) ∧
    ∃ c ∈ (cluster (.plain ["a"]) (id : Fin 1 → Fin 1)).run (.idle (servedWorld _ _))
      (firstCeremony {} ++ secondReplacement 9),
        c.shared.storage.key (.live "a") = some (.key ⟨1⟩) ∧
        c.shared.storage.key (.next "a") = some (.key ⟨3⟩) := by
  refine ⟨replacement_stages (.plain ["a"]) id "a" (servedWorld _ _) ?_
    (firstCeremony {} ++ secondReplacement 9) (by decide +kernel) (by decide +kernel),
    by decide +kernel⟩
  intro k hk
  rcases hk with hk | hk
  · obtain rfl : k = ⟨0⟩ := by simpa [servedWorld, eq_comm] using hk
    decide
  · simp [servedWorld] at hk

/-- The removal of the staged object fails; the second replacement reports the live key. -/
theorem replacement_keeps_key :
    (cluster (.plain ["a"]) (id : Fin 1 → Fin 1)).Meets (CeremonyCalls "a")
      (.idle (servedWorld _ _)) (firstCeremony { outcome := .fail } ++ secondReplacement 5) ∧
    ¬(cluster (.plain ["a"]) (id : Fin 1 → Fin 1)).Meets (ReplacementStages "a")
      (.idle (servedWorld _ _)) (firstCeremony { outcome := .fail } ++ secondReplacement 5) ∧
    ∃ c ∈ (cluster (.plain ["a"]) (id : Fin 1 → Fin 1)).run (.idle (servedWorld _ _))
      (firstCeremony { outcome := .fail } ++ secondReplacement 5),
        c.shared.storage.key (.live "a") = some (.key ⟨1⟩) ∧
        c.shared.storage.key (.next "a") = some (.key ⟨1⟩) := by
  decide +kernel

end CertsManager
