import CertsManager.Markers
import CertsManager.Serveable

/-!
# Soak — the outgoing digest stays published while resolvers may have it cached

When a promotion overwrites an MX host's live key, `DesiredRecords` is to name the outgoing key's
digest for about the soak from then on.  The deadline is counted from the moment the digest is
marked, and an attempt that finds it marked leaves the deadline alone: an attempt that is cut off
before its promotion leaves a marker whose time runs, and a later attempt promotes with what is left
of it.

An attempt that marks the digest itself does so after it began.  If its promotion lands within its
context, that is within `issueTimeout` of its beginning, the slack of the window is enough; a
filesystem write that stalls past the context may land all the same, and then it is not.
-/

namespace CertsManager

open Interleave

section

variable {N T : Type}

/-! ## The property -/

/-- The records of a `DesiredRecords` call that answered without an error. -/
def answered : ClusterLabel T → Option (List TLSARecord)
  | .finish _ .desiredRecords (.records (.ok recs)) => some recs
  | _ => none

/-- For the soak from `since` on, less the slack, every answer names the digest for the host. -/
def Publishes (soak : Time) (d : Name) (digest : Digest) (since : Time) (_ : ClusterView N T)
    (l : ClusterLabel T) (v' : ClusterView N T) : Prop :=
  ∀ recs ∈ answered l, v'.shared.clock + issueTimeout + second < since + soak →
    ∃ rec ∈ recs, rec.mxHost = d ∧ rec.cert = digest

/-- Nobody is collecting the records to publish. -/
def NotCollecting (v : ClusterView N T) : Prop :=
  ∀ t, ∀ x ∈ v.task t, x.1 ≠ .desiredRecords

instance (soak : Time) (d : Name) (digest : Digest) (since : Time) (v : ClusterView N T)
    (l : ClusterLabel T) (v' : ClusterView N T) : Decidable (Publishes soak d digest since v l v') :=
  inferInstanceAs (Decidable (∀ recs ∈ answered l, _))

instance [Fintype T] (v : ClusterView N T) : Decidable (NotCollecting v) :=
  inferInstanceAs (Decidable (∀ t, ∀ x ∈ v.task t, _))

/-! ## What a collection has read -/

/-- Every list of the host's markers that was read has the marker, and its live key was there. -/
structure Collected (d : Name) (m : RetiringRecord) (h : History) : Prop where
  live : ∀ ctx, (⟨.storage ctx (.getKey (.live d)), .error .notExist⟩ : Event) ∉ h
  lists : ∀ ctx reply list, (⟨.storage ctx (.getRetiring d), reply⟩ : Event) ∈ h →
    markersRead reply = some list → m ∈ list

/-- From the promotion on: the marker is in the stored list and in every list that was read, until
its deadline. -/
structure SoakInv (cfg : Settings) (node : T → N) (d : Name) (m : RetiringRecord)
    (v : ClusterView N T) : Prop extends MarkerInv cfg node v where
  persists : Persists d m v.shared
  live : ∃ k, v.shared.storage.key (.live d) = some (.key k)
  collected : ∀ t h, v.task t = some (.desiredRecords, h) →
    Collected d m h ∨ m.retireAfter ≤ unix v.shared.clock

variable [DecidableEq N] {cfg : Settings} {node : T → N} {d : Name} {m : RetiringRecord}
  {v : ClusterView N T}

/-- Before the deadline a read sees the marker. -/
theorem collected_did {t : T} {h : History} {o : Op} {a : Answer} {r : Res o} {w' : World N T}
    (hI : SoakInv cfg node d m v) (ht : v.task t = some (.desiredRecords, h))
    (he : exec cfg.maxRetries node v.shared t o a = some (r, w')) :
    Collected d m (⟨o, r⟩ :: h) ∨ m.retireAfter ≤ unix w'.clock := by
  have hclock : unix v.shared.clock ≤ unix w'.clock := unix_mono (exec_clock he)
  rcases hI.collected t h ht with hc | hdue
  · rcases hI.persists with hstored | hdue
    · refine Or.inl ⟨fun ctx hmem => ?_, fun ctx reply list hmem hlist => ?_⟩
      · rcases List.mem_cons.1 hmem with heq | hmem
        · cases heq
          obtain ⟨k, hk⟩ := hI.live
          rw [exec_getKey_notExist he] at hk
          cases hk
        · exact hc.live ctx hmem
      · rcases List.mem_cons.1 hmem with heq | hmem
        · cases heq
          rwa [markersRead_of_exec he hlist] at hstored
        · exact hc.lists ctx reply list hmem hlist
    · exact Or.inr (hdue.trans hclock)
  · exact Or.inr (hdue.trans hclock)

variable [DecidableEq T] {l : ClusterLabel T} {v' : ClusterView N T}

/-- On one node the mutex keeps the sections apart. -/
theorem sectionsApart_of_one (hone : ∀ t u, node t = node u) (hI : MarkerInv cfg node v)
    (hmove : Move (cluster cfg node) (marks cfg) v l v') : SectionsApart v l v' := by
  intro t hentering u ⟨⟨q', h'⟩, hu, hmu⟩
  cases hmove with
  | @did t' q h o a r w' ht hmay he =>
      replace he : exec cfg.maxRetries node v.shared t' o a = some (r, w') := he
      cases o with
      | mem o =>
          cases o with
          | retiringLock =>
              have hfree := (exec_retiringLock he).1
              have hheld := (hI.valid u q' h' hu).mu hmu
              rw [hone u t', hfree] at hheld
              cases hheld
          | _ => cases hentering
      | storage ctx o => cases hentering
      | env o => cases hentering
  | start _ | finish _ _ | crash => cases hentering

theorem soakInv_move (hone : ∀ t u, node t = node u) (hI : SoakInv cfg node d m v)
    (hmove : Move (cluster cfg node) ((marks cfg).and handsOn) v l v')
    (hstarts : StartsMarks v l v') : SoakInv cfg node d m v' := by
  have hapart := sectionsApart_of_one hone hI.toMarkerInv hmove.left
  have hmarks := markerInv_move hI.toMarkerInv hmove.left hstarts hapart
  refine ⟨hmarks, persists_move hI.toMarkerInv hmove.left hI.persists, ?_, ?_⟩
  · obtain ⟨k, hk⟩ := hI.live
    cases hmove with
    | did ht hmay he =>
        rcases live_of_exec hmay.2 he hk with hsame | ⟨_, k', -, hput⟩
        · exact ⟨k, hsame⟩
        · exact ⟨k', hput⟩
    | start _ | finish _ _ | crash => exact ⟨k, hk⟩
  · intro u h' hu
    cases hmove with
    | start ht =>
        rcases View.put_cases hu with ⟨rfl, ⟨⟩⟩ | ⟨-, hu'⟩
        · exact Or.inl ⟨by simp, by simp⟩
        · exact hI.collected u h' hu'
    | did ht hmay he =>
        rcases View.put_cases hu with ⟨rfl, ⟨⟩⟩ | ⟨-, hu'⟩
        · exact collected_did hI ht he
        · exact (hI.collected u h' hu').imp id fun hdue => hdue.trans (unix_mono (exec_clock he))
    | finish _ _ | crash =>
        rcases View.put_cases hu with ⟨-, ⟨⟩⟩ | ⟨-, hu'⟩
        exact hI.collected u h' hu'

omit [DecidableEq N] [DecidableEq T] in
/-- What was collected before the deadline names the digest. -/
theorem published_of_collected {t : T} {h : History} {recs : List TLSARecord}
    (hI : SoakInv cfg node d m v) (ht : v.task t = some (.desiredRecords, h))
    (hdone : Published h d recs) (hdue : unix v.shared.clock < m.retireAfter) :
    ∃ rec ∈ recs, rec.mxHost = d ∧ rec.cert = m.digest := by
  have hc : Collected d m h := (hI.collected t h ht).resolve_right (by omega)
  rcases hdone with ⟨ctx, hmem⟩ | ⟨ctx, reply, list, x, hmem, hlist, hx, hall⟩
  · exact absurd hmem (hc.live ctx)
  · refine hall m (hc.lists ctx reply list hmem hlist) ?_
    have hxclock := unix_mono (reading_le_clock hI.toMarkerInv ht hx)
    simp only [RetiringRecord.expired, decide_eq_false_iff_not]
    omega

omit [DecidableEq N] [DecidableEq T] in
/-- An operation's first clock reading is its earliest. -/
theorem began_le {h : History} {t₀ x : Time} (hsorted : (readings h).Pairwise (· ≥ ·))
    (hbegan : began h = some t₀) (hx : x ∈ readings h) : t₀ ≤ x := by
  obtain ⟨earlier, heq⟩ := List.getLast?_eq_some_iff.1 hbegan
  rw [heq] at hsorted hx
  rcases List.mem_append.1 hx with hx | hx
  · exact (List.pairwise_append.1 hsorted).2.2 x hx t₀ (List.mem_singleton_self t₀)
  · rw [List.mem_singleton.1 hx]

omit [DecidableEq N] [DecidableEq T] in
/-- Within the window a deadline of the soak after `x` has not passed. -/
theorem unix_lt_deadline {s x since soak : Nat} (hx : since < x + issueTimeout)
    (hwindow : s + issueTimeout + second < since + soak) : unix s < unix (x + soak) := by
  have hlater : s + 1 * second ≤ x + soak := by omega
  have hsec : unix (s + 1 * second) ≤ unix (x + soak) := unix_mono hlater
  have hone : unix (s + 1 * second) = unix s + 1 := unix_add_seconds s 1
  omega

omit [DecidableEq N] [DecidableEq T] in
/-- A deadline of at least `issueTimeout` and a second after `x` has not passed when an attempt that
began before `x` ends. -/
theorem unix_lt_soak {s x t₀ soak : Nat} (hsoak : issueTimeout + second ≤ soak)
    (hs : s < t₀ + issueTimeout) (hx : t₀ ≤ x) : unix s < unix (x + soak) := by
  have hlater : s + 1 * second ≤ x + soak :=
    calc s + 1 * second ≤ t₀ + issueTimeout + second := by omega
      _ = t₀ + (issueTimeout + second) := Nat.add_assoc ..
      _ ≤ x + soak := Nat.add_le_add hx hsoak
  have hsec : unix (s + 1 * second) ≤ unix (x + soak) := unix_mono hlater
  have hone : unix (s + 1 * second) = unix s + 1 := unix_add_seconds s 1
  omega

/-- An answer is that of a collection in progress, and takes no time. -/
theorem answered_cases {recs : List TLSARecord}
    (hmove : Move (cluster cfg node) ((marks cfg).and handsOn) v l v') (hrecs : recs ∈ answered l) :
    ∃ t h, v.task t = some (.desiredRecords, h) ∧
      ((marks cfg).and handsOn).done .desiredRecords h (.records (.ok recs)) ∧
      v'.shared = v.shared := by
  cases hmove with
  | @finish t q h out ht hdone =>
      obtain ⟨rfl, rfl⟩ : q = .desiredRecords ∧ out = .records (.ok recs) := by
        cases q <;> simp [answered] at hrecs
        rcases out with _ | _ | _ | _ | _ | _ | _ | (_ | _) | _ <;> simp at hrecs
        rw [hrecs]
        exact ⟨rfl, rfl⟩
      exact ⟨t, h, ht, hdone, rfl⟩
  | start _ | did _ _ _ | crash => cases hrecs

/-- One leader, and a promotion that lands at `c₂`, within its context, by an operation that itself
marked the digest of `k`, in particular of the key it overwrites: every `DesiredRecords` call made
from then on that answers without an error within the soak, less `issueTimeout` and one second,
names that digest. -/
theorem outgoing_published (cfg : Settings) (node : T → N) (hone : ∀ t u, node t = node u)
    (dane : DaneSettings) (hdane : cfg.dane = some dane) (d : Name) (hd : d ∈ dane.mxHosts)
    (w : World N T) (as₁ as₂ : List (Action T Call Answer)) (a : Action T Call Answer)
    (c₁ c₂ : Config Op Res (World N T) T Call Out) (t : T) (q : Call) (h : History) (ctx : Time)
    (k k' : Key) (r : Except PutFault Unit)
    (hstarts : (cluster cfg node).Meets StartsMarks (.idle w) (as₁ ++ a :: as₂))
    (h₁ : (cluster cfg node).run (.idle w) as₁ = some c₁)
    (hstep : (cluster cfg node).step c₁ a =
      some (.did t ⟨.storage ctx (.putKey (.live d) k' false), r⟩, c₂))
    (ht : c₁.view.task t = some (q, h))
    (hnew : c₂.shared.storage.key (.live d) = some (.key k')) (hland : c₂.shared.clock < ctx)
    (hmark : ∃ m ∈ ownMarks d h, m.digest = k.public.spkiSHA256)
    (hcollect : NotCollecting c₂.view) :
    (cluster cfg node).Meets (Publishes dane.soak d k.public.spkiSHA256 c₂.shared.clock) c₂ as₂ := by
  have hfollows := (cluster_marks cfg node).and (cluster_handsOn cfg node)
  obtain ⟨hmeets₁, hrest⟩ := Machine.meets_append hstarts
  have hmeets₂ := hrest c₁ h₁
  simp only [Machine.Meets, hstep] at hmeets₂
  -- up to the promotion the markers are kept, and the promoting operation's own is among them
  have hinv : ∀ v l v', MarkerInv cfg node v →
      Move (cluster cfg node) ((marks cfg).and handsOn) v l v' → StartsMarks v l v' →
        MarkerInv cfg node v' := fun v l v' hI hmove hA =>
    markerInv_move hI hmove.left hA (sectionsApart_of_one hone hI hmove.left)
  obtain ⟨hI₁, htrack₁⟩ := Machine.run_invariant hfollows hinv as₁ _ c₁ (Machine.onTrack_idle w)
    (markerInv_idle cfg node w) hmeets₁ h₁
  obtain ⟨hmove, htrack₂⟩ := Machine.step_refines hfollows htrack₁ hstep
  obtain ⟨m, hm, hdigest⟩ := hmark
  have hI₂ := hinv _ _ _ hI₁ hmove hmeets₂.1
  have hpersists := persists_move hI₁ hmove.left (hI₁.recorded t q h ht d m (Or.inl hm))
  -- its deadline is the soak after a clock reading at most `issueTimeout` before the promotion
  have hdeadline : ∃ x, m.retireAfter = unix (x + dane.soak) ∧
      c₂.shared.clock < x + issueTimeout := by
    obtain ⟨q₀, h₀, ans, ht₀, hmay, he⟩ := hmove.did_cases
    obtain ⟨rfl, rfl⟩ : q = q₀ ∧ h = h₀ := by simpa [ht] using ht₀
    have hq : q ≠ .cleanupExpiredRetiring := by
      rintro rfl
      exact (keyFrom_of_promotion hmay.2).1 rfl
    obtain ⟨k₁, dane', x, -, hdane', hx, rfl⟩ := hI₁.own t q h ht hq d m hm
    obtain rfl : dane = dane' := by simpa [hdane] using hdane'
    obtain ⟨-, -, ⟨t₀, hbegan, rfl⟩, -⟩ := hmay.1 (hI₁.requests t q h ht) rfl
    have hfirst : t₀ ≤ x := began_le (List.pairwise_cons.1 (hI₁.clock t q h ht)).2 hbegan hx
    exact ⟨x, rfl, lt_of_lt_of_le hland (Nat.add_le_add_right hfirst _)⟩
  obtain ⟨x, hretire, hx⟩ := hdeadline
  have hI : SoakInv cfg node d m c₂.view := by
    refine ⟨hI₂, hpersists, ⟨k', hnew⟩, fun u h' hu => ?_⟩
    exact absurd rfl (hcollect u _ hu)
  have hrun := Machine.run_meets hfollows (fun _ _ _ hI hmove hA => soakInv_move hone hI hmove hA)
    as₂ c₂ htrack₂ hI hmeets₂.2
  refine hrun.mono ?_
  rintro v l v' ⟨hmove', -, hI', -⟩ recs hrecs hwindow
  obtain ⟨u, h', hu, hdone, hsame⟩ := answered_cases hmove' hrecs
  have hdue : unix v.shared.clock < m.retireAfter := by
    rw [hsame] at hwindow
    rw [hretire]
    exact unix_lt_deadline hx hwindow
  rw [← hdigest]
  exact published_of_collected hI' hu (hdone.1 dane hdane d hd) hdue

end

/-! ## Runs of one leader -/

/-- An activation of `a`, its first call answered after `wait`, up to its `n`-th call. -/
def activating (wait : Time) (n : Nat) : List (Action (Fin 1) Call Answer) :=
  .start 0 (.activateCertificateKey "a" false) :: .step 0 { wait := wait } ::
    List.replicate (n - 1) (.step 0 { notAfter := 20000000 })

/-- The promoted key's removal from its staged place, and the end of the activation. -/
def activated : List (Action (Fin 1) Call Answer) :=
  [.step 0 {}, .step 0 {}, .step 0 {}, .finish 0]

/-- `DesiredRecords`, called `wait` later. -/
def collecting (wait : Time) : List (Action (Fin 1) Call Answer) :=
  (.start 0 .desiredRecords :: .step 0 { wait := wait } ::
      List.replicate 4 (.step 0 {}) : Schedule 1) ++
    ([.finish 0] : Schedule 1)

/-- The leadership check after the marker fails, and the activation ends. -/
def leadershipLost : List (Action (Fin 1) Call Answer) :=
  [.step 0 { yes := false }, .step 0 {}, .step 0 {}, .finish 0]

/-- An activation that marks the digest itself; the records are collected 800 s later. -/
theorem outgoing_published_own :
    ∃ c₁ c₂ t q h ctx,
      (cluster (.mail (1000 * second)) (id : Fin 1 → Fin 1)).run
        (.idle (mailWorld _ _ (100 * second) [])) (activating 0 29) = some c₁ ∧
      (cluster (.mail (1000 * second)) (id : Fin 1 → Fin 1)).step c₁ (.step 0 {}) =
        some (.did t ⟨.storage ctx (.putKey (.live "a") ⟨1⟩ false), .ok ()⟩, c₂) ∧
      c₁.view.task t = some (q, h) ∧
      (cluster (.mail (1000 * second)) (id : Fin 1 → Fin 1)).Meets
        (Publishes (1000 * second) "a" ⟨⟨0⟩⟩ c₂.shared.clock) c₂
        (activated ++ collecting (800 * second)) ∧
      ((cluster (.mail (1000 * second)) (id : Fin 1 → Fin 1)).run c₂
        (activated ++ collecting (800 * second))).isSome := by
  refine ⟨_, _, _, _, _, _, rfl, rfl, rfl, ?_, by decide +kernel⟩
  exact outgoing_published (.mail (1000 * second)) id (by decide)
    { mxHosts := ["a"], ttl := 3600, soak := 1000 * second, lookup := false } rfl "a" (by decide)
    (mailWorld _ _ (100 * second) []) (activating 0 29) (activated ++ collecting (800 * second))
    (.step 0 {}) _ _ 0 _ _ _ ⟨0⟩ ⟨1⟩ (.ok ()) (by decide +kernel) rfl rfl rfl rfl
    (by decide +kernel) (by decide +kernel) (by decide +kernel)

/-- The first attempt marks the digest at 100 s and loses its leadership; the second finds it
marked and promotes at 1090 s; 11 s later the digest is no longer published. -/
theorem outgoing_unpublished :
    (cluster (.mail (1000 * second)) (id : Fin 1 → Fin 1)).Meets StartsMarks
      (.idle (mailWorld _ _ (100 * second) []))
      (activating 0 26 ++ (leadershipLost ++ activating (990 * second) 22) ++
        .step 0 {} :: (activated ++ collecting (11 * second))) ∧
    ∃ c₁ c₂ t ctx,
      (cluster (.mail (1000 * second)) (id : Fin 1 → Fin 1)).run
        (.idle (mailWorld _ _ (100 * second) []))
        (activating 0 26 ++ (leadershipLost ++ activating (990 * second) 22)) = some c₁ ∧
      (cluster (.mail (1000 * second)) (id : Fin 1 → Fin 1)).step c₁ (.step 0 {}) =
        some (.did t ⟨.storage ctx (.putKey (.live "a") ⟨1⟩ false), .ok ()⟩, c₂) ∧
      c₁.shared.storage.key (.live "a") = some (.key ⟨0⟩) ∧
      c₂.shared.storage.key (.live "a") = some (.key ⟨1⟩) ∧ NotCollecting c₂.view ∧
      ¬(cluster (.mail (1000 * second)) (id : Fin 1 → Fin 1)).Meets
        (Publishes (1000 * second) "a" ⟨⟨0⟩⟩ c₂.shared.clock) c₂
        (activated ++ collecting (11 * second)) := by
  refine ⟨by decide +kernel, _, _, _, _, rfl, rfl, rfl, rfl, ?_, ?_⟩
  · decide +kernel
  · decide +kernel

end CertsManager
