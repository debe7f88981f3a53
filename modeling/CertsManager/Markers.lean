import CertsManager.Discipline.Marks

/-!
# Markers — a recorded digest stays in the stored list until its deadline

Every writer of a host's markers rebuilds the whole list from what it read under its own process's
`retiringMu` and writes it back unconditionally.  Two processes can therefore be between their read
and their write at once, and the one that writes second drops what the first recorded.

As long as no two operations, on any nodes, are in such a section together, what each of them knows
of the lists is true, and no list loses a marker before its deadline.  On one node the mutex sees to
that.
-/

namespace CertsManager

open Interleave

section

variable {N T : Type}

/-! ## What an operation knows of the lists is true -/

/-- The marker is in its host's list, or its deadline has passed. -/
def Persists (host : Name) (m : RetiringRecord) (w : World N T) : Prop :=
  m ∈ markers (w.storage.retiring host) ∨ m.retireAfter ≤ unix w.clock

/-- The operation has put the marker on record: it added it, or found it in force. -/
def Recorded (h : History) (host : Name) (m : RetiringRecord) : Prop :=
  m ∈ ownMarks host h ∨ m ∈ (marking h).judged host

structure Marking.Valid (κ : Marking) (i : N) (t : T) (w : World N T) : Prop where
  mu : κ.mu = true → (w.node i).retiringMu = some t
  lists : ∀ host list, κ.lists host = some list → markers (w.storage.retiring host) = list

structure MarkerInv (cfg : Settings) (node : T → N) (v : ClusterView N T) : Prop where
  requests : ∀ t q h, v.task t = some (q, h) → q.marks = true
  valid : ∀ t q h, v.task t = some (q, h) → (marking h).Valid (node t) t v.shared
  /-- The clock runs forward. -/
  clock : ∀ t q h, v.task t = some (q, h) → (v.shared.clock :: readings h).Pairwise (· ≥ ·)
  recorded : ∀ t q h, v.task t = some (q, h) → ∀ host m, Recorded h host m →
    Persists host m v.shared
  /-- What a ceremony added is the digest of the live key it read, for the soak. -/
  own : ∀ t q h, v.task t = some (q, h) → q ≠ .cleanupExpiredRetiring → ∀ host m,
    m ∈ ownMarks host h → ∃ k d x, LiveRead h host k ∧ cfg.dane = some d ∧ x ∈ readings h ∧
      m = ⟨k.public.spkiSHA256, unix (x + d.soak)⟩
  alone : ∀ t u x y, v.task t = some x → v.task u = some y → (marking x.2).mu = true →
    (marking y.2).mu = true → t = u

/-! ## The rules of a run -/

/-- Only calls that keep markers, and those that read them. -/
def StartsMarks (_ : ClusterView N T) (l : ClusterLabel T) (_ : ClusterView N T) : Prop :=
  ∀ q ∈ started l, q.marks = true

/-- The thread that takes its process's `retiringMu` in this move. -/
def entering : ClusterLabel T → Option T
  | .did t ⟨.mem .retiringLock, _⟩ => some t
  | _ => none

/-- The operations in progress that hold their process's `retiringMu`. -/
def InSection (v : ClusterView N T) (t : T) : Prop :=
  ∃ x ∈ v.task t, (marking x.2).mu = true

/-- `retiringMu` is taken only while no operation of any process holds its own. -/
def SectionsApart (v : ClusterView N T) (l : ClusterLabel T) (_ : ClusterView N T) : Prop :=
  ∀ _t ∈ entering l, ∀ u, ¬InSection v u

instance (v : ClusterView N T) (l : ClusterLabel T) (v' : ClusterView N T) :
    Decidable (StartsMarks v l v') :=
  inferInstanceAs (Decidable (∀ q ∈ started l, _))

instance (v : ClusterView N T) (t : T) : Decidable (InSection v t) :=
  inferInstanceAs (Decidable (∃ x ∈ v.task t, _))

instance [Fintype T] (v : ClusterView N T) (l : ClusterLabel T) (v' : ClusterView N T) :
    Decidable (SectionsApart v l v') :=
  inferInstanceAs (Decidable (∀ _t ∈ entering l, ∀ u, ¬InSection v u))

/-! ## One call -/

variable [DecidableEq N] {cfg : Settings} {node : T → N} {v : ClusterView N T}

section Did

variable {t : T} {q : Call} {h : History} {o : Op} {a : Answer} {r : Res o} {w' : World N T}

/-- What a read of the markers answered is what is stored. -/
theorem markersRead_of_exec {ctx : Time} {host : Name} {reply : Except ReadFault RetiringObject}
    {w : World N T} {list : List RetiringRecord}
    (he : exec cfg.maxRetries node w t (.storage ctx (.getRetiring host)) a = some (reply, w'))
    (hlist : markersRead reply = some list) : markers (w.storage.retiring host) = list := by
  rcases reply with (_ | _) | x
  · cases hlist
    rw [exec_getRetiring_notExist he]
    rfl
  · cases hlist
  · cases hlist
    rw [exec_getRetiring_ok he]

/-- Who writes a list holds the mutex, and keeps whatever has not expired. -/
theorem rewrites_of_exec (hmay : mayMark cfg q h o) (host : Name)
    (he : exec cfg.maxRetries node v.shared t o a = some (r, w')) :
    w'.storage.retiring host = v.shared.storage.retiring host ∨
      ∃ rs, mayRewrite cfg q h host rs ∧ markers (w'.storage.retiring host) = rs := by
  rcases exec_retiring he host with hsame | ⟨ctx, rs, rfl, hput⟩ | ⟨ctx, rfl, hnone⟩
  · exact Or.inl hsame
  · exact Or.inr ⟨rs, hmay, by rw [hput]; rfl⟩
  · exact Or.inr ⟨[], hmay, by rw [hnone]; rfl⟩

theorem Rewrites.keeps {host : Name} {list rs : List RetiringRecord} {x : Time}
    (hrs : Rewrites cfg q h host list x rs) {m : RetiringRecord} (hm : m ∈ list)
    (hexp : m.expired x = false) : m ∈ rs := by
  have hkept : m ∈ Dane.unexpired x list := List.mem_filter.2 ⟨hm, by simp [hexp]⟩
  rcases hrs with ⟨-, rfl⟩ | ⟨-, -, _, _, -, -, rfl⟩
  · exact hkept
  · exact List.mem_append_left _ hkept

omit [DecidableEq N] in
theorem reading_le_clock (hI : MarkerInv cfg node v) (ht : v.task t = some (q, h)) {x : Time}
    (hx : x ∈ readings h) : x ≤ v.shared.clock :=
  (List.pairwise_cons.1 (hI.clock t q h ht)).1 x hx

/-- A marker of a stored list outlives every call, or its deadline passes. -/
theorem persists_did (hI : MarkerInv cfg node v) (ht : v.task t = some (q, h))
    (hmay : mayMark cfg q h o) (he : exec cfg.maxRetries node v.shared t o a = some (r, w'))
    {host : Name} {m : RetiringRecord} (hm : Persists host m v.shared) : Persists host m w' := by
  have hclock : unix v.shared.clock ≤ unix w'.clock := unix_mono (exec_clock he)
  rcases hm with hm | hm
  · rcases rewrites_of_exec hmay host he with hsame | ⟨rs, ⟨-, list, x, hlist, hx, hrs⟩, hput⟩
    · exact Or.inl (by rwa [hsame])
    · have hstored := (hI.valid t q h ht).lists host list hlist
      rw [hstored] at hm
      cases hexp : m.expired x with
      | false =>
          refine Or.inl ?_
          rw [hput]
          exact hrs.keeps hm hexp
      | true =>
          -- it had expired by the writer's clock
          have hdue : m.retireAfter ≤ unix x := of_decide_eq_true hexp
          have hpast := unix_mono (reading_le_clock hI ht hx)
          exact Or.inr ((hdue.trans hpast).trans hclock)
  · exact Or.inr (hm.trans hclock)

/-- What the operation itself knows stays true. -/
theorem valid_did (hI : MarkerInv cfg node v) (ht : v.task t = some (q, h))
    (hmay : mayMark cfg q h o) (he : exec cfg.maxRetries node v.shared t o a = some (r, w')) :
    (marking (⟨o, r⟩ :: h)).Valid (node t) t w' := by
  have hv := hI.valid t q h ht
  -- a call that is none of those below leaves the mutex and the lists as they are
  have hother : (∀ host, w'.storage.retiring host = v.shared.storage.retiring host) →
      o ≠ .mem .retiringLock → o ≠ .mem .retiringUnlock → (marking h).Valid (node t) t w' := by
    intro hsame hlock hunlock
    refine ⟨fun hmu => ?_, fun host list hl => ?_⟩
    · rcases exec_retiringMu he (node t) with hmu' | ⟨rfl, -⟩ | ⟨rfl, -⟩
      · exact hmu'.trans (hv.mu hmu)
      · exact absurd rfl hlock
      · exact absurd rfl hunlock
    · rw [hsame]
      exact hv.lists host list hl
  have hlearn : ∀ (n : Name) (x : Option (List RetiringRecord)),
      o ≠ .mem .retiringLock → o ≠ .mem .retiringUnlock →
      (∀ host, host ≠ n → w'.storage.retiring host = v.shared.storage.retiring host) →
      (∀ list, x = some list → markers (w'.storage.retiring n) = list) →
      (marking h).mu = true → ((marking h).learn n x).Valid (node t) t w' := by
    intro n x hlock hunlock hsame hx hmu
    refine ⟨fun _ => ?_, fun host list hl => ?_⟩
    · rcases exec_retiringMu he (node t) with hmu' | ⟨rfl, -⟩ | ⟨rfl, -⟩
      · exact hmu'.trans (hv.mu hmu)
      · exact absurd rfl hlock
      · exact absurd rfl hunlock
    · by_cases hn : host = n
      · subst hn
        rw [Marking.learn_self hmu] at hl
        exact hx list hl
      · rw [hsame host hn]
        exact hv.lists host list (by simpa [Marking.learn, hmu, hn] using hl)
  rw [marking_cons]
  cases o with
  | storage ctx o =>
      have hfree : ∀ host, (∀ rs, o ≠ .putRetiring host rs) → o ≠ .removeRetiring host →
          w'.storage.retiring host = v.shared.storage.retiring host := by
        intro host hput hremove
        rcases exec_retiring he host with hsame | ⟨_, rs, heq, -⟩ | ⟨_, heq, -⟩
        · exact hsame
        · exact absurd (Op.storage.inj heq).2 (hput rs)
        · exact absurd (Op.storage.inj heq).2 hremove
      cases o with
      | getRetiring n =>
          have hsame : ∀ host, w'.storage.retiring host = v.shared.storage.retiring host :=
            fun host => hfree host (by simp) (by simp)
          cases hmu : (marking h).mu with
          | false => simpa [Marking.after, Marking.learn, hmu] using hother hsame (by simp) (by simp)
          | true =>
              refine hlearn n _ (by simp) (by simp) (fun host _ => hsame host) ?_ hmu
              intro list hlist
              rw [hsame]
              exact markersRead_of_exec he hlist
      | putRetiring n rs =>
          refine hlearn n _ (by simp) (by simp) (fun host hn => hfree host ?_ (by simp)) ?_ hmay.1
          · rintro rs' heq
            cases heq
            exact hn rfl
          · rintro list hlist
            cases r with
            | error f => cases hlist
            | ok _ =>
                cases hlist
                rw [exec_putRetiring_ok he]
                rfl
      | removeRetiring n =>
          refine hlearn n _ (by simp) (by simp) (fun host hn => hfree host (by simp) ?_) ?_ hmay.1
          · rintro heq
            cases heq
            exact hn rfl
          · rintro list hlist
            cases r with
            | error f => cases hlist
            | ok _ =>
                cases hlist
                rw [exec_removeRetiring_ok he]
                rfl
      | _ => exact hother (fun host => hfree host (by simp) (by simp)) (by simp) (by simp)
  | mem o =>
      have hsame : ∀ host, w'.storage.retiring host = v.shared.storage.retiring host := by
        intro host
        rcases exec_retiring he host with hsame | ⟨_, _, heq, -⟩ | ⟨_, heq, -⟩
        · exact hsame
        · cases heq
        · cases heq
      cases o with
      | retiringLock => exact ⟨fun _ => (exec_retiringLock he).2, fun _ _ hl => (by cases hl)⟩
      | retiringUnlock => exact ⟨fun hmu => (by cases hmu), fun _ _ hl => (by cases hl)⟩
      | _ => exact hother hsame (by simp) (by simp)
  | env o =>
      have hsame : ∀ host, w'.storage.retiring host = v.shared.storage.retiring host := by
        intro host
        rcases exec_retiring he host with hsame | ⟨_, _, heq, -⟩ | ⟨_, heq, -⟩
        · exact hsame
        · cases heq
        · cases heq
      have hkeep := hother hsame (by simp) (by simp)
      cases o with
      | now => exact ⟨fun hmu => hkeep.mu (by simpa [Marking.after] using hmu),
          fun host list hl => hkeep.lists host list (by simpa [Marking.after] using hl)⟩
      | _ => exact hkeep

/-- Nor does a call make what another operation knows untrue: to write a list, or to give up a
mutex, takes a section of one's own. -/
theorem valid_bystander (hI : MarkerInv cfg node v) (ht : v.task t = some (q, h))
    (hmay : mayMark cfg q h o) (he : exec cfg.maxRetries node v.shared t o a = some (r, w'))
    {u : T} (hut : u ≠ t) {q' : Call} {h' : History} (hu : v.task u = some (q', h')) :
    (marking h').Valid (node u) u w' := by
  have hv := hI.valid u q' h' hu
  cases hmu : (marking h').mu with
  | false =>
      refine ⟨fun hmu' => by simp [hmu] at hmu', fun host list hl => ?_⟩
      rw [marking_sound h' hmu host] at hl
      cases hl
  | true =>
      have hout : (marking h).mu = false := by
        cases hmine : (marking h).mu with
        | false => rfl
        | true => exact absurd (hI.alone u t _ _ hu ht hmu hmine) hut
      refine ⟨fun _ => ?_, fun host list hl => ?_⟩
      · have hheld := hv.mu hmu
        rcases exec_retiringMu he (node u) with hsame | ⟨rfl, -, hnone⟩ | ⟨rfl, -⟩
        · exact hsame.trans hheld
        · rw [hnone] at hheld
          cases hheld
        · have hmine : (marking h).mu = true := hmay
          rw [hout] at hmine
          cases hmine
      · rcases rewrites_of_exec hmay host he with hsame | ⟨rs, ⟨hmine, -⟩, -⟩
        · rw [hsame]
          exact hv.lists host list hl
        · rw [hout] at hmine
          cases hmine

/-- What was put on record with this call is in the list. -/
theorem recorded_did (hI : MarkerInv cfg node v) (ht : v.task t = some (q, h))
    (hmay : mayMark cfg q h o) (he : exec cfg.maxRetries node v.shared t o a = some (r, w'))
    {host : Name} {m : RetiringRecord} (hm : Recorded (⟨o, r⟩ :: h) host m) :
    Persists host m w' := by
  have hkeep : Recorded h host m → Persists host m w' := fun hm =>
    persists_did hI ht hmay he (hI.recorded t q h ht host m hm)
  rcases hm with hm | hm
  · obtain ⟨e, hmem, hmark⟩ := List.mem_filterMap.1 hm
    rcases List.mem_cons.1 hmem with rfl | hmem
    · -- the write that added it
      cases o with
      | storage ctx o =>
          cases o with
          | putRetiring n rs =>
              cases r with
              | error f => cases hmark
              | ok _ =>
                  obtain ⟨rfl, hlast⟩ : n = host ∧ rs.getLast? = some m := by
                    simpa [ownMark] using hmark
                  refine Or.inl ?_
                  rw [exec_putRetiring_ok he]
                  exact List.mem_of_getLast? hlast
          | _ => cases hmark
      | mem o => cases hmark
      | env o => cases hmark
    · exact hkeep (Or.inl (List.mem_filterMap.2 ⟨e, hmem, hmark⟩))
  · rw [marking_cons] at hm
    have hlearn : ∀ n x, m ∈ ((marking h).learn n x).judged host → Persists host m w' := by
      intro n x hm
      rw [Marking.learn_judged] at hm
      exact hkeep (Or.inr hm)
    cases o with
    | storage ctx o =>
        cases o with
        | getRetiring n => exact hlearn n _ hm
        | putRetiring n rs => exact hlearn n _ hm
        | removeRetiring n => exact hlearn n _ hm
        | _ => exact hkeep (Or.inr hm)
    | mem o => cases o <;> exact hkeep (Or.inr hm)
    | env o =>
        cases o with
        | now =>
            cases hmu : (marking h).mu with
            | false => exact hkeep (Or.inr (by simpa [Marking.after, Marking.judge, hmu] using hm))
            | true =>
                -- judged from a list that is the stored one
                refine persists_did hI ht hmay he (Or.inl ?_)
                cases hl : (marking h).lists host with
                | none => simp [Marking.after, Marking.judge, hmu, hl, Dane.unexpired] at hm
                | some list =>
                    rw [(hI.valid t q h ht).lists host list hl]
                    have hmem : m ∈ Dane.unexpired r list := by
                      simpa [Marking.after, Marking.judge, hmu, hl] using hm
                    exact (List.mem_filter.1 hmem).1
        | _ => exact hkeep (Or.inr hm)

theorem clock_did (hI : MarkerInv cfg node v) (ht : v.task t = some (q, h))
    (he : exec cfg.maxRetries node v.shared t o a = some (r, w')) :
    (w'.clock :: readings (⟨o, r⟩ :: h)).Pairwise (· ≥ ·) := by
  have hclock := exec_clock he
  have hpast := List.pairwise_cons.1 (hI.clock t q h ht)
  have hle : ∀ x ∈ readings h, w'.clock ≥ x := fun x hx => (hpast.1 x hx).trans hclock
  cases hread : reading ⟨o, r⟩ with
  | none =>
      rw [readings, List.filterMap_cons_none hread]
      exact List.pairwise_cons.2 ⟨hle, hpast.2⟩
  | some x =>
      have hnow : x = w'.clock := by
        cases o with
        | storage ctx o => cases hread
        | mem o => cases hread
        | env o =>
            cases o with
            | now =>
                cases hread
                exact exec_now he
            | _ => cases hread
      rw [readings, List.filterMap_cons_some hread, hnow]
      refine List.pairwise_cons.2 ⟨?_, List.pairwise_cons.2 ⟨hle, hpast.2⟩⟩
      intro y hy
      rcases List.mem_cons.1 hy with rfl | hy
      · exact le_refl _
      · exact hle y hy

omit [DecidableEq N] in
theorem own_did (hI : MarkerInv cfg node v) (ht : v.task t = some (q, h))
    (hmay : mayMark cfg q h o) (hq : q ≠ .cleanupExpiredRetiring) {host : Name}
    {m : RetiringRecord} (hm : m ∈ ownMarks host (⟨o, r⟩ :: h)) :
    ∃ k d x, LiveRead (⟨o, r⟩ :: h) host k ∧ cfg.dane = some d ∧ x ∈ readings (⟨o, r⟩ :: h) ∧
      m = ⟨k.public.spkiSHA256, unix (x + d.soak)⟩ := by
  have hs : h <:+ ⟨o, r⟩ :: h := List.suffix_cons _ h
  obtain ⟨e, hmem, hmark⟩ := List.mem_filterMap.1 hm
  rcases List.mem_cons.1 hmem with rfl | hmem
  · cases o with
    | storage ctx o =>
        cases o with
        | putRetiring n rs =>
            cases r with
            | error f => cases hmark
            | ok _ =>
                obtain ⟨rfl, hlast⟩ : n = host ∧ rs.getLast? = some m := by
                  simpa [ownMark] using hmark
                obtain ⟨-, list, x, -, hx, hrs⟩ := hmay
                rcases hrs with ⟨hclean, -⟩ | ⟨-, -, k, d, hk, hd, rfl⟩
                · exact absurd hclean hq
                · refine ⟨k, d, x, hk.extend hs, hd, readings_extend hx hs, ?_⟩
                  simpa [eq_comm] using hlast
        | _ => cases hmark
    | mem o => cases hmark
    | env o => cases hmark
  · obtain ⟨k, d, x, hk, hd, hx, hmx⟩ :=
      hI.own t q h ht hq host m (List.mem_filterMap.2 ⟨e, hmem, hmark⟩)
    exact ⟨k, d, x, hk.extend hs, hd, readings_extend hx hs, hmx⟩

theorem mu_of_cons {e : Event} (hmu : (marking (e :: h)).mu = true) :
    e.op = .mem .retiringLock ∨ (marking h).mu = true := by
  obtain ⟨o, r⟩ := e
  rw [marking_cons] at hmu
  cases o with
  | storage ctx o => exact Or.inr (by simpa using hmu)
  | mem o =>
      cases o with
      | retiringLock => exact Or.inl rfl
      | retiringUnlock => cases hmu
      | _ => exact Or.inr hmu
  | env o =>
      cases o with
      | now => exact Or.inr (by simpa [Marking.after] using hmu)
      | _ => exact Or.inr hmu

end Did

/-! ## Whole runs -/

variable [DecidableEq T]

theorem markerInv_move {v' : ClusterView N T} {l : ClusterLabel T} (hI : MarkerInv cfg node v)
    (hmove : Move (cluster cfg node) (marks cfg) v l v') (hstarts : StartsMarks v l v')
    (hapart : SectionsApart v l v') : MarkerInv cfg node v' := by
  cases hmove with
  | @start t q ht =>
      have hcases : ∀ {u : T} {q' : Call} {h' : History},
          (v.put t v.shared (some (q, []))).task u = some (q', h') →
            (u = t ∧ q' = q ∧ h' = []) ∨ v.task u = some (q', h') := by
        intro u q' h' hu
        rcases View.put_cases hu with ⟨rfl, ⟨⟩⟩ | ⟨-, hu'⟩
        · exact Or.inl ⟨rfl, rfl, rfl⟩
        · exact Or.inr hu'
      refine ⟨?_, ?_, ?_, ?_, ?_, ?_⟩
      · intro u q' h' hu
        rcases hcases hu with ⟨rfl, rfl, rfl⟩ | hu'
        · exact hstarts _ rfl
        · exact hI.requests u q' h' hu'
      · intro u q' h' hu
        rcases hcases hu with ⟨rfl, rfl, rfl⟩ | hu'
        · exact ⟨fun hmu => (by cases hmu), fun _ _ hl => (by cases hl)⟩
        · exact hI.valid u q' h' hu'
      · intro u q' h' hu
        rcases hcases hu with ⟨rfl, rfl, rfl⟩ | hu'
        · simp [readings]
        · exact hI.clock u q' h' hu'
      · intro u q' h' hu host m hm
        rcases hcases hu with ⟨rfl, rfl, rfl⟩ | hu'
        · simp [Recorded, ownMarks] at hm
        · exact hI.recorded u q' h' hu' host m hm
      · intro u q' h' hu hq host m hm
        rcases hcases hu with ⟨rfl, rfl, rfl⟩ | hu'
        · simp [ownMarks] at hm
        · exact hI.own u q' h' hu' hq host m hm
      · intro u u' x y hu hu' hmu hmu'
        rcases hcases hu with ⟨-, -, hx⟩ | hux
        · rw [hx] at hmu
          cases hmu
        · rcases hcases hu' with ⟨-, -, hy⟩ | huy
          · rw [hy] at hmu'
            cases hmu'
          · exact hI.alone u u' x y hux huy hmu hmu'
  | @did t q h o a r w' ht hmay he =>
      replace he : exec cfg.maxRetries node v.shared t o a = some (r, w') := he
      have hmark : mayMark cfg q h o := hmay (hI.requests t q h ht)
      -- an operation that holds the mutex now held it before, or entered with this call
      have hsection : ∀ {u : T} {x : Call × History},
          (v.put t w' (some (q, ⟨o, r⟩ :: h))).task u = some x → (marking x.2).mu = true →
            (u = t ∧ o = .mem .retiringLock) ∨ ∃ y, v.task u = some y ∧ (marking y.2).mu = true := by
        intro u x hu hmu
        rcases View.put_cases hu with ⟨rfl, ⟨⟩⟩ | ⟨-, hu'⟩
        · rcases mu_of_cons hmu with hlock | hmu
          · exact Or.inl ⟨rfl, hlock⟩
          · exact Or.inr ⟨_, ht, hmu⟩
        · exact Or.inr ⟨x, hu', hmu⟩
      refine ⟨?_, ?_, ?_, ?_, ?_, ?_⟩
      · intro u q' h' hu
        rcases View.put_cases hu with ⟨rfl, ⟨⟩⟩ | ⟨-, hu'⟩
        · exact hI.requests u q h ht
        · exact hI.requests u q' h' hu'
      · intro u q' h' hu
        rcases View.put_cases hu with ⟨rfl, ⟨⟩⟩ | ⟨hut, hu'⟩
        · exact valid_did hI ht hmark he
        · exact valid_bystander hI ht hmark he hut hu'
      · intro u q' h' hu
        rcases View.put_cases hu with ⟨rfl, ⟨⟩⟩ | ⟨hut, hu'⟩
        · exact clock_did hI ht he
        · obtain ⟨hle, hsorted⟩ := List.pairwise_cons.1 (hI.clock u q' h' hu')
          exact List.pairwise_cons.2 ⟨fun x hx => (hle x hx).trans (exec_clock he), hsorted⟩
      · intro u q' h' hu host m hm
        rcases View.put_cases hu with ⟨rfl, ⟨⟩⟩ | ⟨hut, hu'⟩
        · exact recorded_did hI ht hmark he hm
        · exact persists_did hI ht hmark he (hI.recorded u q' h' hu' host m hm)
      · intro u q' h' hu hq host m hm
        rcases View.put_cases hu with ⟨rfl, ⟨⟩⟩ | ⟨hut, hu'⟩
        · exact own_did hI ht hmark hq hm
        · exact hI.own u q' h' hu' hq host m hm
      · intro u u' x y hu hu' hmu hmu'
        rcases hsection hu hmu with ⟨rfl, rfl⟩ | ⟨x', hx', hmux⟩
        · rcases hsection hu' hmu' with ⟨rfl, -⟩ | ⟨y', hy', hmuy⟩
          · rfl
          · exact absurd ⟨y', hy', hmuy⟩ (hapart u rfl u')
        · rcases hsection hu' hmu' with ⟨rfl, rfl⟩ | ⟨y', hy', hmuy⟩
          · exact absurd ⟨x', hx', hmux⟩ (hapart u' rfl u)
          · exact hI.alone u u' x' y' hx' hy' hmux hmuy
  | finish _ _ | crash =>
      have hsub : ∀ {t u : T} {x : Call × History}, (v.put t v.shared none).task u = some x →
          v.task u = some x := by
        intro t u x hu
        rcases View.put_cases hu with ⟨-, ⟨⟩⟩ | ⟨-, hu'⟩
        exact hu'
      exact ⟨fun u q' h' hu => hI.requests u q' h' (hsub hu),
        fun u q' h' hu => hI.valid u q' h' (hsub hu),
        fun u q' h' hu => hI.clock u q' h' (hsub hu),
        fun u q' h' hu => hI.recorded u q' h' (hsub hu),
        fun u q' h' hu => hI.own u q' h' (hsub hu),
        fun u u' x y hu hu' => hI.alone u u' x y (hsub hu) (hsub hu')⟩

/-- A marker that is in its list stays there, whoever put it there. -/
theorem persists_move {v' : ClusterView N T} {l : ClusterLabel T} (hI : MarkerInv cfg node v)
    (hmove : Move (cluster cfg node) (marks cfg) v l v') {host : Name} {m : RetiringRecord}
    (hm : Persists host m v.shared) : Persists host m v'.shared := by
  cases hmove with
  | did ht hmay he => exact persists_did hI ht (hmay (hI.requests _ _ _ ht)) he hm
  | start _ | finish _ _ | crash => exact hm

omit [DecidableEq N] [DecidableEq T] in
theorem markerInv_idle (cfg : Settings) (node : T → N) (w : World N T) :
    MarkerInv cfg node (Config.idle w : Config Op Res (World N T) T Call Out).view := by
  refine ⟨?_, ?_, ?_, ?_, ?_, ?_⟩ <;> simp [Config.view, Config.idle]

/-- Any number of nodes that each believe themselves leader, as long as no two of their operations
are in a section of `retiringMu` at once: a digest that an operation has put on record is in every
later stored list until its deadline. -/
theorem recorded_persists (cfg : Settings) (node : T → N) (w : World N T)
    (as₁ as₂ : List (Action T Call Answer)) (c₁ c₂ : Config Op Res (World N T) T Call Out)
    (hstarts : (cluster cfg node).Meets StartsMarks (.idle w) (as₁ ++ as₂))
    (hapart : (cluster cfg node).Meets SectionsApart (.idle w) (as₁ ++ as₂))
    (h₁ : (cluster cfg node).run (.idle w) as₁ = some c₁) (t : T) (q : Call) (h : History)
    (ht : c₁.view.task t = some (q, h)) (host : Name) (m : RetiringRecord)
    (hm : Recorded h host m) (h₂ : (cluster cfg node).run c₁ as₂ = some c₂) :
    Persists host m c₂.shared := by
  obtain ⟨hmeets₁, hrest⟩ := Machine.meets_append (hstarts.and hapart)
  have hstep : ∀ v l v', MarkerInv cfg node v → Move (cluster cfg node) (marks cfg) v l v' →
      StartsMarks v l v' ∧ SectionsApart v l v' → MarkerInv cfg node v' :=
    fun _ _ _ hI hmove hA => markerInv_move hI hmove hA.1 hA.2
  obtain ⟨hI₁, htrack⟩ := Machine.run_invariant (cluster_marks cfg node) hstep as₁ _ c₁
    (Machine.onTrack_idle w) (markerInv_idle cfg node w) hmeets₁ h₁
  -- from here on the marker is carried along with the invariant
  have hcarry : ∀ v l v', MarkerInv cfg node v ∧ Persists host m v.shared →
      Move (cluster cfg node) (marks cfg) v l v' → StartsMarks v l v' ∧ SectionsApart v l v' →
        MarkerInv cfg node v' ∧ Persists host m v'.shared :=
    fun v l v' hI hmove hA => ⟨hstep v l v' hI.1 hmove hA, persists_move hI.1 hmove hI.2⟩
  have hend := Machine.run_invariant (cluster_marks cfg node) hcarry as₂ c₁ c₂ htrack
    ⟨hI₁, hI₁.recorded t q h ht host m hm⟩ (hrest c₁ h₁) h₂
  exact hend.1.2

end

/-! ## Two nodes -/

/-- One MX host, its markers kept for `soak`. -/
def Settings.mail (soak : Time) : Settings :=
  { Settings.plain ["a"] with
    dane := some { mxHosts := ["a"], ttl := 3600, soak := soak, lookup := false } }

/-- The MX host `a` with live key 0, staged key 1 and the markers `rs`, `t` after the epoch. -/
def mailWorld (N T : Type) (t : Time) (rs : List RetiringRecord) : World N T :=
  { World.empty N T with
    clock := t
    storage := { Storage.empty with
      chain := Function.update (fun _ => none) "a" (some (.chain ⟨⟨0⟩, 10000000⟩))
      key := Function.update (Function.update (fun _ => none) (.live "a") (some (.key ⟨0⟩)))
        (.next "a") (some (.key ⟨1⟩))
      retiring := Function.update (fun _ => none) "a" (some (.records rs)) }
    issued := Function.update (fun _ => []) "a" [⟨⟨0⟩, 10000000⟩]
    nextKey := 2 }

/-- Node 0 begins a clean-up, up to its read of the host's markers. -/
def cleanupBegun : List (Action (Fin 2) Call Answer) :=
  .start 0 .cleanupExpiredRetiring :: List.replicate 4 (.step 0 {})

/-- It writes what has not expired. -/
def cleanupEnds : List (Action (Fin 2) Call Answer) :=
  (List.replicate 2 (.step 0 {}) : Schedule 2) ++ ([.finish 0] : Schedule 2)

/-- Node 1 activates the staged key, until the outgoing digest is on record. -/
def activationMarks : List (Action (Fin 2) Call Answer) :=
  .start 1 (.activateCertificateKey "a" false) ::
    List.replicate 26 (.step 1 { notAfter := 20000000 })

/-- The record of key 0, marked at 100 s for 1000 s. -/
def outgoingMarker : RetiringRecord :=
  ⟨⟨⟨0⟩⟩, 1100⟩

/-- The clean-up ends before the activation marks. -/
theorem recorded_persists_apart :
    ∃ c₁ c₂ q h,
      (cluster (.mail (1000 * second)) (id : Fin 2 → Fin 2)).run
        (.idle (mailWorld _ _ (100 * second) [⟨⟨⟨7⟩⟩, 50⟩]))
        (cleanupBegun ++ (cleanupEnds ++ activationMarks)) = some c₁ ∧
      c₁.view.task 1 = some (q, h) ∧ Recorded h "a" outgoingMarker ∧
      (cluster (.mail (1000 * second)) (id : Fin 2 → Fin 2)).run c₁
        (cleanupBegun ++ [.step 0 {}, .finish 0]) = some c₂ ∧
      Persists "a" outgoingMarker c₂.shared ∧ unix c₂.shared.clock < outgoingMarker.retireAfter := by
  refine ⟨_, _, _, _, rfl, rfl, Or.inl (by decide +kernel), rfl, ?_, by decide +kernel⟩
  exact recorded_persists (.mail (1000 * second)) id (mailWorld _ _ (100 * second) [⟨⟨⟨7⟩⟩, 50⟩])
    (cleanupBegun ++ (cleanupEnds ++ activationMarks)) (cleanupBegun ++ [.step 0 {}, .finish 0]) _ _
    (by decide +kernel) (by decide +kernel) rfl 1 _ _ rfl "a" outgoingMarker
    (Or.inl (by decide +kernel)) rfl

/-- The clean-up has read the list before the activation marks, and deletes it afterwards. -/
theorem recorded_lost :
    (cluster (.mail (1000 * second)) (id : Fin 2 → Fin 2)).Meets StartsMarks
      (.idle (mailWorld _ _ (100 * second) [⟨⟨⟨7⟩⟩, 50⟩]))
      (cleanupBegun ++ (activationMarks ++ cleanupEnds)) ∧
    ∃ c₁ c₂ q h,
      (cluster (.mail (1000 * second)) (id : Fin 2 → Fin 2)).run
        (.idle (mailWorld _ _ (100 * second) [⟨⟨⟨7⟩⟩, 50⟩]))
        (cleanupBegun ++ activationMarks) = some c₁ ∧
      c₁.view.task 1 = some (q, h) ∧ Recorded h "a" outgoingMarker ∧
      (cluster (.mail (1000 * second)) (id : Fin 2 → Fin 2)).run c₁ cleanupEnds = some c₂ ∧
      outgoingMarker ∉ markers (c₂.shared.storage.retiring "a") ∧
      unix c₂.shared.clock < outgoingMarker.retireAfter := by
  refine ⟨by decide +kernel, _, _, _, _, rfl, rfl, Or.inl (by decide +kernel), rfl, ?_, ?_⟩
  · decide +kernel
  · decide +kernel

end CertsManager
