import CertsManager.CertIndex.Model

/-!
# CertIndex.Kept — when a published entry is not lost

A publication writes one node's private map over the index, and a node seeds its map from the index
only when it is constructed as the leader.  A follower that becomes the leader publishes whatever it
refreshed, and the entries it never refreshed are gone.

Entries are kept when every node that publishes is up to date: while it was constructed it adopted
the index it read (or there was none), and no other node has published since that read; and when
nothing it notes later lowers an entry of its own map.
-/

namespace CertsManager
namespace CertIndex

open Interleave

variable {N T : Type} [DecidableEq N]

/-! ## Who is up to date -/

inductive Standing (T : Type) where
  | behind
  | fetched (t : T)
  | current
  deriving DecidableEq, Repr

section

variable [DecidableEq T]

/-- Where a node stands after what happened to the index. -/
@[grind =] def standing (node : T → N) (i : N) : List (IndexEvent T) → Standing T
  | [] => .behind
  | .fetched t :: es =>
      if node t = i ∧ standing node i es ≠ .current then .fetched t else standing node i es
  | .absent t :: es => if node t = i then .current else standing node i es
  | .hydrated t :: es =>
      if node t = i then
        if standing node i es = .fetched t then .current else .behind
      else standing node i es
  | .published t :: es =>
      if node t = i ∧ standing node i es = .current then .current else .behind

end

/-! ## Entries -/

/-- The one entry is there and no lower whenever the other is there. -/
def Covers (a b : Option Nat) : Prop :=
  ∀ x ∈ b, ∃ y ∈ a, x ≤ y

theorem Covers.refl (a : Option Nat) : Covers a a :=
  fun x hx => ⟨x, hx, Nat.le_refl x⟩

theorem Covers.trans {a b c : Option Nat} (hab : Covers a b) (hbc : Covers b c) : Covers a c := by
  intro x hx
  obtain ⟨y, hy, hxy⟩ := hbc x hx
  obtain ⟨z, hz, hyz⟩ := hab y hy
  exact ⟨z, hz, Nat.le_trans hxy hyz⟩

theorem covers_none (a : Option Nat) : Covers a none :=
  nofun

theorem covers_some {a : Option Nat} {expiry : Nat} (h : ∀ x ∈ a, x ≤ expiry) :
    Covers (some expiry) a :=
  fun x hx => ⟨expiry, rfl, h x hx⟩

instance (a b : Option Nat) : Decidable (Covers a b) :=
  inferInstanceAs (Decidable (∀ x ∈ b, ∃ y ∈ a, x ≤ y))

/-- What the published index says of a hostname. -/
def entry (h : Name) : Option IndexObject → Option Nat
  | some (.map m) => m h
  | _ => none

/-! ## What the programs do -/

/-- The program holds `indexMu`. -/
def locked : History → Bool
  | [] => false
  | ⟨.lockIndex, _⟩ :: _ => true
  | ⟨.unlockIndex, _⟩ :: _ => false
  | _ :: h => locked h

/-- The last call took a snapshot of the map. -/
def snapped : History → Option Index
  | ⟨.snapshot, m⟩ :: _ => some m
  | _ => none

/-- The last call read the index. -/
def justRead : History → Option Index
  | ⟨.readIndex, .ok (.map m)⟩ :: _ => some m
  | _ => none

/-- Only what was just read is adopted, only what was just copied is published, and the map is
changed and copied for a publication under `indexMu`. -/
def mayDo (h : History) : Op → Prop
  | .adoptAll m => justRead h = some m
  | .setIndex _ _ => locked h = true
  | .snapshot => locked h = true
  | .putIndex m => snapped h = some m
  | .unlockIndex => locked h = true
  | _ => True

def publishes : Protocol Op Res Call Unit where
  may _ := mayDo
  done _ _ _ := True

section

variable {h : History}

theorem publishIndex_does (hlock : locked h = true) :
    publishIndex.Conforms mayDo h fun h' _ => locked h' = true := by
  refine ⟨hlock, fun m => ⟨rfl, fun ok => ?_⟩⟩
  cases ok <;> exact ⟨trivial, fun _ => hlock⟩

theorem noteIssued_does (hostname : Name) (notAfter : Time) :
    (noteIssued hostname notAfter).Conforms mayDo h fun _ _ => True := by
  simp only [noteIssued, call, Prog.conforms_bind, Prog.conforms_perform, Prog.conforms_pure]
  refine ⟨trivial, fun _ => ⟨rfl, fun _ => ?_⟩⟩
  exact (publishIndex_does rfl).mono fun h' ok hlock => ⟨hlock, fun _ => trivial⟩

theorem republishIndexIfDirty_does :
    republishIndexIfDirty.Conforms mayDo h fun _ _ => True := by
  simp only [republishIndexIfDirty, call, Prog.conforms_bind, Prog.conforms_perform]
  refine ⟨trivial, fun dirty => ?_⟩
  cases dirty with
  | false => trivial
  | true =>
      simp only [if_true, Prog.conforms_bind, Prog.conforms_perform]
      refine ⟨trivial, fun _ => ⟨trivial, fun dirty => ?_⟩⟩
      cases dirty with
      | false => exact ⟨rfl, fun _ => trivial⟩
      | true =>
          simp only [if_true, Prog.conforms_bind, Prog.conforms_perform, Prog.conforms_pure]
          exact (publishIndex_does rfl).mono fun h' ok hlock => ⟨hlock, fun _ => trivial⟩

theorem hydrateIndex_does : hydrateIndex.Conforms mayDo h fun _ _ => True := by
  refine ⟨trivial, fun r => ?_⟩
  rcases r with fault | (m | _)
  · trivial
  · exact ⟨rfl, fun _ => trivial⟩
  · trivial

theorem noteRefreshed_does (hostname : Name) :
    (noteRefreshed hostname).Conforms mayDo h fun _ _ => True := by
  refine ⟨trivial, fun r => ?_⟩
  rcases r with fault | (m | _)
  · trivial
  · exact ⟨trivial, fun _ => trivial⟩
  · trivial

theorem refreshAllowSet_does : refreshAllowSet.Conforms mayDo h fun _ _ => True := by
  refine ⟨trivial, fun r => ?_⟩
  cases r with
  | none => trivial
  | some hosts => exact ⟨trivial, fun _ => ⟨trivial, fun _ => trivial⟩⟩

theorem construct_does : construct.Conforms mayDo h fun _ _ => True := by
  have hend : ∀ h : History,
      (refreshAllowSet >>= fun _ => call .constructed).Conforms mayDo h fun _ _ => True := by
    intro h
    exact Prog.conforms_bind.2 (refreshAllowSet_does.mono fun h' _ _ => ⟨trivial, fun _ => trivial⟩)
  unfold construct
  refine Prog.conforms_bind.2 ⟨trivial, fun leader => ?_⟩
  cases leader with
  | true => exact Prog.conforms_bind.2 (hydrateIndex_does.mono fun h' _ _ => hend h')
  | false => exact hend _

end

theorem fleet_publishes (node : T → N) : (fleet node).Follows publishes := by
  intro q
  cases q with
  | construct => exact construct_does
  | refreshAllowSet => exact refreshAllowSet_does
  | noteIssued hostname notAfter => exact Prog.conforms_map.2 (noteIssued_does hostname notAfter)
  | republishIndexIfDirty => exact Prog.conforms_map.2 republishIndexIfDirty_does
  | noteRefreshed hostname => exact noteRefreshed_does hostname

/-! ## The invariant -/

variable [DecidableEq T]

/-- What holds of a task: it holds `indexMu` when it says so; what it has just read for adoption is
the index still; the copy it is about to publish lies between the index and its node's map. -/
structure Honest (node : T → N) (d : Name) (w : World N T) (t : T) (h : History) : Prop where
  held : locked h = true →
    (w.node (node t)).indexMu = some t ∧ (w.node (node t)).constructed = true
  read : standing node (node t) w.log = .fetched t → ∀ m, justRead h = some m →
    entry d w.object = m d
  copied : ∀ m, snapped h = some m → locked h = true
  between : standing node (node t) w.log = .current → ∀ m, snapped h = some m →
    Covers ((w.node (node t)).index d) (m d) ∧ Covers (m d) (entry d w.object)

structure UpToDate (node : T → N) (d : Name) (v : FleetView N T) : Prop where
  current : ∀ i, standing node i v.shared.log = .current →
    Covers ((v.shared.node i).index d) (entry d v.shared.object)
  honest : ∀ t q h, v.task t = some (q, h) → Honest node d v.shared t h

/-- The moves the result is about: every publication succeeds and is made by a node that is up to
date, the hostname stays in the allow-set, and no note lowers the entry of a map (of one up to date,
for `noteRefreshed`). -/
def Orderly (node : T → N) (d : Name) (v : FleetView N T) : FleetLabel T → FleetView N T → Prop
  | .did t ⟨.putIndex _, ok⟩, _ =>
      ok = true ∧ standing node (node t) v.shared.log = .current
  | .did t ⟨.setIndex hostname expiry, _⟩, _ =>
      hostname = d → ∀ x ∈ (v.shared.node (node t)).index d, x ≤ expiry
  | .did t ⟨.adoptOne hostname expiry, _⟩, _ =>
      hostname = d → standing node (node t) v.shared.log = .current →
        ∀ x ∈ (v.shared.node (node t)).index d, x ≤ expiry
  | .did _ ⟨.prune set, _⟩, _ => d ∈ set
  | _, _ => True

instance (node : T → N) (d : Name) (v : FleetView N T) :
    ∀ (l : FleetLabel T) (v' : FleetView N T), Decidable (Orderly node d v l v')
  | .did _ ⟨.putIndex _, ok⟩, _ => inferInstanceAs (Decidable (ok = true ∧ _))
  | .did _ ⟨.setIndex _ _, _⟩, _ => inferInstanceAs (Decidable (_ → _))
  | .did _ ⟨.adoptOne _ _, _⟩, _ => inferInstanceAs (Decidable (_ → _))
  | .did _ ⟨.prune set, _⟩, _ => inferInstanceAs (Decidable (d ∈ set))
  | .did _ ⟨.isLeader, _⟩, _ => isTrue trivial
  | .did _ ⟨.constructed, _⟩, _ => isTrue trivial
  | .did _ ⟨.hosts, _⟩, _ => isTrue trivial
  | .did _ ⟨.storeAllow _, _⟩, _ => isTrue trivial
  | .did _ ⟨.readIndex, _⟩, _ => isTrue trivial
  | .did _ ⟨.adoptAll _, _⟩, _ => isTrue trivial
  | .did _ ⟨.lockIndex, _⟩, _ => isTrue trivial
  | .did _ ⟨.unlockIndex, _⟩, _ => isTrue trivial
  | .did _ ⟨.snapshot, _⟩, _ => isTrue trivial
  | .did _ ⟨.setDirty _, _⟩, _ => isTrue trivial
  | .did _ ⟨.isDirty, _⟩, _ => isTrue trivial
  | .start _ _, _ => isTrue trivial
  | .finish _ _ _, _ => isTrue trivial
  | .crash _, _ => isTrue trivial

/-! ## One call -/

section

variable {node : T → N} {d : Name} {w w' : World N T} {t u : T} {h : History} {i : N}
  {log : List (IndexEvent T)}

/-- A call of `t` that leaves the index alone, lowers no entry of a map that is up to date and takes
no lock of another task. -/
structure Keeps (node : T → N) (d : Name) (t : T) (w w' : World N T) : Prop where
  object : w'.object = w.object
  log : w'.log = w.log
  index : ∀ j, standing node j w.log = .current →
    Covers ((w'.node j).index d) ((w.node j).index d)
  indexMu : ∀ u, u ≠ t → (w.node (node u)).indexMu = some u →
    (w'.node (node u)).indexMu = some u
  constructed : ∀ j, (w.node j).constructed = true → (w'.node j).constructed = true

theorem Keeps.refl (w : World N T) : Keeps node d t w w :=
  ⟨rfl, rfl, fun _ _ => .refl _, fun _ _ hmu => hmu, fun _ hc => hc⟩

/-- A change of the task's own node, in terms of that node alone. -/
theorem keeps_setNode {x : Node T}
    (hindex : standing node (node t) w.log = .current →
      Covers (x.index d) ((w.node (node t)).index d))
    (hmu : ∀ u, u ≠ t → (w.node (node t)).indexMu = some u → x.indexMu = some u)
    (hc : (w.node (node t)).constructed = true → x.constructed = true) :
    Keeps node d t w (w.setNode (node t) x) := by
  refine ⟨rfl, rfl, fun j hj => ?_, fun u hut hu => ?_, fun j hj => ?_⟩
  · by_cases hjt : j = node t
    · subst hjt
      simpa using hindex hj
    · rw [setNode_other w x hjt]
      exact .refl _
  · by_cases hut' : node u = node t
    · rw [hut'] at hu ⊢
      simpa using hmu u hut hu
    · rw [setNode_other w x hut']
      exact hu
  · by_cases hjt : j = node t
    · subst hjt
      simpa using hc hj
    · rw [setNode_other w x hjt]
      exact hj

theorem Honest.keeps (hh : Honest node d w u h) (hk : Keeps node d t w w') (hut : u ≠ t) :
    Honest node d w' u h := by
  refine ⟨fun hlock => ?_, ?_, hh.copied, fun hcur m hm => ?_⟩
  · obtain ⟨hmu, hc⟩ := hh.held hlock
    exact ⟨hk.indexMu u hut hmu, hk.constructed _ hc⟩
  · rw [hk.log, hk.object]
    exact hh.read
  · rw [hk.log] at hcur
    obtain ⟨hmap, hindex⟩ := hh.between hcur m hm
    rw [hk.object]
    exact ⟨(hk.index _ hcur).trans hmap, hindex⟩

/-- A task that has neither just read nor just copied only has to hold what it says it holds. -/
theorem honest_plain (hheld : locked h = true →
      (w.node (node t)).indexMu = some t ∧ (w.node (node t)).constructed = true)
    (hread : justRead h = none) (hcopy : snapped h = none) : Honest node d w t h := by
  refine ⟨hheld, fun _ m hm => ?_, fun m hm => ?_, fun _ m hm => ?_⟩
  · cases hread.symm.trans hm
  · cases hcopy.symm.trans hm
  · cases hcopy.symm.trans hm

/-! ## Standings after a call -/

theorem standing_fetched_current :
    standing node i (.fetched t :: log) = .current ↔ standing node i log = .current := by
  simp only [standing]
  split
  · rename_i hnew
    simp [hnew.2]
  · exact Iff.rfl

theorem standing_absent_other (hi : node t ≠ i) :
    standing node i (.absent t :: log) = standing node i log := by
  simp [standing, hi]

theorem standing_hydrated_other (hi : node t ≠ i) :
    standing node i (.hydrated t :: log) = standing node i log := by
  simp [standing, hi]

/-- Adopting leaves nothing fetched on the node. -/
theorem standing_hydrated_ne : standing node (node t) (.hydrated t :: log) ≠ .fetched u := by
  simp only [standing, if_true]
  split <;> exact nofun

/-- It brings the node up to date only with what is still the index. -/
theorem standing_hydrated_current (h : standing node (node t) (.hydrated t :: log) = .current) :
    standing node (node t) log = .fetched t := by
  simp only [standing, if_true] at h
  split at h
  · assumption
  · cases h

theorem standing_published_ne : standing node i (.published t :: log) ≠ .fetched u := by
  simp only [standing]
  split <;> exact nofun

theorem standing_published_current (h : standing node i (.published t :: log) = .current) :
    node t = i := by
  simp only [standing] at h
  split at h
  · rename_i hown
    exact hown.1
  · cases h

/-! ## The calls that touch the index -/

/-- What a call does to the entry and leaves of the invariant. -/
def Kept (node : T → N) (d : Name) (v : FleetView N T) (t : T) (w' : World N T) (h : History) :
    Prop :=
  Covers (entry d w'.object) (entry d v.shared.object) ∧
    (∀ i, standing node i w'.log = .current →
      Covers ((w'.node i).index d) (entry d w'.object)) ∧
    Honest node d w' t h ∧
    ∀ u q' h', u ≠ t → v.task u = some (q', h') → Honest node d w' u h'

variable {v : FleetView N T} {q : Call}

theorem UpToDate.keeps (hI : UpToDate node d v) (hk : Keeps node d t v.shared w')
    (hself : Honest node d w' t h) : Kept node d v t w' h := by
  refine ⟨hk.object ▸ .refl _, fun i hi => ?_, hself,
    fun u q' h' hut hu => (hI.honest u q' h' hu).keeps hk hut⟩
  rw [hk.log] at hi
  rw [hk.object]
  exact (hk.index i hi).trans (hI.current i hi)

/-- A task that holds `indexMu` is alone in that on its node. -/
theorem UpToDate.alone (hI : UpToDate node d v) {q q' : Call} {h h' : History}
    (ht : v.task t = some (q, h)) (hu : v.task u = some (q', h')) (hlock : locked h = true)
    (hlock' : locked h' = true) (hnode : node t = node u) : u = t := by
  have hmu := ((hI.honest t q h ht).held hlock).1
  have hmu' := ((hI.honest u q' h' hu).held hlock').1
  rw [← hnode, hmu] at hmu'
  exact (Option.some.inj hmu').symm

theorem honest_read {x : IndexObject} (hobject : w.object = some x)
    (hheld : locked h = true →
      (w.node (node t)).indexMu = some t ∧ (w.node (node t)).constructed = true) :
    Honest node d w t (⟨.readIndex, .ok x⟩ :: h) := by
  refine ⟨hheld, fun _ m hm => ?_, nofun, nofun⟩
  cases x with
  | garbage => cases hm
  | map m' =>
      cases hm
      simp [hobject, entry]

/-- The read a construction makes. -/
theorem upToDate_fetched (hI : UpToDate node d v) (ht : v.task t = some (q, h)) {x : IndexObject}
    (hobject : v.shared.object = some x) :
    Kept node d v t { v.shared with log := .fetched t :: v.shared.log }
      (⟨.readIndex, .ok x⟩ :: h) := by
  refine ⟨.refl _, fun i hi => ?_, honest_read hobject (hI.honest t q h ht).held,
    fun u q' h' hut hu => ?_⟩
  · exact hI.current i (standing_fetched_current.1 hi)
  · have hh := hI.honest u q' h' hu
    refine ⟨hh.held, fun hread => ?_, hh.copied, fun hcur => ?_⟩
    · refine hh.read ?_
      simp only [standing] at hread
      split at hread
      · cases hread
        exact absurd rfl hut
      · exact hread
    · exact hh.between (standing_fetched_current.1 hcur)

theorem upToDate_absent (hI : UpToDate node d v) (ht : v.task t = some (q, h))
    (hobject : v.shared.object = none) (hnew : (v.shared.node (node t)).constructed = false) :
    Kept node d v t { v.shared with log := .absent t :: v.shared.log }
      (⟨.readIndex, .error .notExist⟩ :: h) := by
  refine ⟨.refl _, fun i hi => ?_, honest_plain (hI.honest t q h ht).held rfl rfl,
    fun u q' h' hut hu => ?_⟩
  · simp only [hobject, entry]
    exact covers_none _
  · have hh := hI.honest u q' h' hu
    refine ⟨hh.held, fun hread => ?_, hh.copied, fun hcur m hm => ?_⟩
    · by_cases hnode : node t = node u
      · simp [standing, hnode] at hread
      · rw [standing_absent_other hnode] at hread
        exact hh.read hread
    · by_cases hnode : node t = node u
      · -- a task that has copied the map runs on a node that is constructed
        have hc := (hh.held (hh.copied m hm)).2
        rw [← hnode, hnew] at hc
        cases hc
      · rw [standing_absent_other hnode] at hcur
        exact hh.between hcur m hm

theorem upToDate_hydrated (hI : UpToDate node d v) (ht : v.task t = some (q, h)) {m : Index}
    (hread : justRead h = some m) (hnew : (v.shared.node (node t)).constructed = false) :
    Kept node d v t
      { v.shared.setNode (node t) { v.shared.node (node t) with index := m } with
        log := .hydrated t :: v.shared.log }
      (⟨.adoptAll m, ()⟩ :: h) := by
  refine ⟨.refl _, fun i hi => ?_, honest_plain ?_ rfl rfl, fun u q' h' hut hu => ?_⟩
  · by_cases hnode : node t = i
    · subst hnode
      have hsame := (hI.honest t q h ht).read (standing_hydrated_current hi) m hread
      simpa [hsame] using Covers.refl (m d)
    · rw [standing_hydrated_other hnode] at hi
      simpa [setNode_other _ _ (Ne.symm hnode)] using hI.current i hi
  · simpa [locked] using (hI.honest t q h ht).held
  · have hh := hI.honest u q' h' hu
    by_cases hnode : node t = node u
    · refine ⟨fun hlock => ?_, fun hfetched => ?_, hh.copied, fun hcur m' hm' => ?_⟩
      · simpa [← hnode] using hh.held hlock
      · rw [← hnode] at hfetched
        exact absurd hfetched standing_hydrated_ne
      · have hc := (hh.held (hh.copied m' hm')).2
        rw [← hnode, hnew] at hc
        cases hc
    · refine ⟨fun hlock => ?_, fun hfetched => ?_, hh.copied, fun hcur m' hm' => ?_⟩
      · simpa [setNode_other _ _ (Ne.symm hnode)] using hh.held hlock
      · rw [standing_hydrated_other hnode] at hfetched
        exact hh.read hfetched
      · rw [standing_hydrated_other hnode] at hcur
        simpa [setNode_other _ _ (Ne.symm hnode)] using hh.between hcur m' hm'

theorem upToDate_published (hI : UpToDate node d v) (ht : v.task t = some (q, h)) {m : Index}
    {ok : Bool} (hcopy : snapped h = some m)
    (hcur : standing node (node t) v.shared.log = .current) :
    Kept node d v t { v.shared with object := some (.map m), log := .published t :: v.shared.log }
      (⟨.putIndex m, ok⟩ :: h) := by
  have hh := hI.honest t q h ht
  refine ⟨(hh.between hcur m hcopy).2, fun i hi => ?_, honest_plain hh.held rfl rfl,
    fun u q' h' hut hu => ?_⟩
  · obtain rfl := standing_published_current hi
    exact (hh.between hcur m hcopy).1
  · have hh' := hI.honest u q' h' hu
    refine ⟨hh'.held, fun hfetched => absurd hfetched standing_published_ne, hh'.copied,
      fun hcur' m' hm' => ?_⟩
    -- another copy on the node would be under the same lock
    have hnode := standing_published_current hcur'
    exact absurd (hI.alone ht hu (hh.copied m hcopy) (hh'.copied m' hm') hnode) hut

/-! ## Every call -/

variable {o : Op} {a : Answer} {r : Res o}

/-- A note of an expiry, by `noteIssued` or `noteRefreshed`. -/
theorem keeps_note {hostname : Name} {expiry : Nat}
    (hle : hostname = d → standing node (node t) w.log = .current →
      ∀ x ∈ (w.node (node t)).index d, x ≤ expiry) :
    Keeps node d t w (w.setNode (node t) { w.node (node t) with
      index := Function.update (w.node (node t)).index hostname (some expiry) }) := by
  refine keeps_setNode (fun hcur => ?_) (fun _ _ hmu => hmu) fun hc => hc
  by_cases hd : hostname = d
  · subst hd
    simpa using covers_some (hle rfl hcur)
  · simpa [Function.update_of_ne (Ne.symm hd)] using Covers.refl _

theorem kept_did (hI : UpToDate node d v) (ht : v.task t = some (q, h)) (hmay : mayDo h o)
    (he : exec node v.shared t o a = some (r, w')) {v' : FleetView N T}
    (hA : Orderly node d v (.did t ⟨o, r⟩) v') : Kept node d v t w' (⟨o, r⟩ :: h) := by
  have hheld := (hI.honest t q h ht).held
  cases o with
  | isLeader =>
      cases he
      exact hI.keeps (.refl _) (honest_plain hheld rfl rfl)
  | hosts =>
      cases he
      exact hI.keeps (.refl _) (honest_plain hheld rfl rfl)
  | isDirty =>
      cases he
      exact hI.keeps (.refl _) (honest_plain hheld rfl rfl)
  | constructed =>
      cases he
      refine hI.keeps (keeps_setNode (fun _ => .refl _) (fun _ _ hmu => hmu) fun _ => rfl)
        (honest_plain (fun hlock => ?_) rfl rfl)
      simpa using (hheld hlock).1
  | storeAllow set =>
      cases he
      refine hI.keeps (keeps_setNode (fun _ => .refl _) (fun _ _ hmu => hmu) fun hc => hc)
        (honest_plain (fun hlock => ?_) rfl rfl)
      simpa using hheld hlock
  | setDirty dirty =>
      cases he
      refine hI.keeps (keeps_setNode (fun _ => .refl _) (fun _ _ hmu => hmu) fun hc => hc)
        (honest_plain (fun hlock => ?_) rfl rfl)
      simpa using hheld hlock
  | prune set =>
      cases he
      have hmem : d ∈ set := hA
      refine hI.keeps (keeps_setNode (fun _ => ?_) (fun _ _ hmu => hmu) fun hc => hc)
        (honest_plain (fun hlock => ?_) rfl rfl)
      · simpa [hmem] using Covers.refl _
      · simpa using hheld hlock
  | adoptOne hostname expiry =>
      cases he
      refine hI.keeps (keeps_note hA) (honest_plain (fun hlock => ?_) rfl rfl)
      simpa using hheld hlock
  | setIndex hostname expiry =>
      cases he
      refine hI.keeps (keeps_note fun hd _ => hA hd) (honest_plain (fun hlock => ?_) rfl rfl)
      simpa using hheld hlock
  | lockIndex =>
      simp only [exec] at he
      split at he
      · rename_i hfree
        cases he
        refine hI.keeps (keeps_setNode (fun _ => .refl _) (fun u _ hu => ?_) fun hc => hc)
          (honest_plain (fun _ => ?_) rfl rfl)
        · simp [hu] at hfree
        · simpa using hfree.1
      · cases he
  | unlockIndex =>
      cases he
      refine hI.keeps (keeps_setNode (fun _ => .refl _) (fun u hut hu => ?_) fun hc => hc)
        (honest_plain nofun rfl rfl)
      -- the lock was the task's own
      cases (hheld hmay).1.symm.trans hu
      exact absurd rfl hut
  | snapshot =>
      cases he
      refine hI.keeps (.refl _) ⟨hheld, nofun, fun _ _ => hmay, fun hcur m hm => ?_⟩
      cases hm
      exact ⟨.refl _, hI.current _ hcur⟩
  | readIndex =>
      simp only [exec] at he
      split at he
      · rename_i x hobject
        cases he
        unfold World.record
        split
        · exact hI.keeps (.refl _) (honest_read hobject hheld)
        · exact upToDate_fetched hI ht hobject
      · rename_i hobject
        cases he
        unfold World.record
        split
        · exact hI.keeps (.refl _) (honest_plain hheld rfl rfl)
        · rename_i hnew
          exact upToDate_absent hI ht hobject (by simpa using hnew)
      · cases he
        exact hI.keeps (.refl _) (honest_plain hheld rfl rfl)
  | adoptAll m =>
      simp only [exec] at he
      split at he
      · cases he
      · rename_i hnew
        cases he
        exact upToDate_hydrated hI ht hmay (by simpa using hnew)
  | putIndex m =>
      obtain ⟨rfl, hcur⟩ := hA
      simp only [exec] at he
      split at he <;> cases he
      exact upToDate_published hI ht hmay hcur

/-- A move keeps the invariant, and every entry of the index. -/
theorem upToDate_move {v' : FleetView N T} {l : FleetLabel T} (hI : UpToDate node d v)
    (hmove : Move (fleet node) publishes v l v') (hA : Orderly node d v l v') :
    UpToDate node d v' ∧ Covers (entry d v'.shared.object) (entry d v.shared.object) := by
  have honest : ∀ t q h, v'.task t = some (q, h) → Honest node d v'.shared t h := by
    cases hmove with
    | @did t q h o a r s ht hmay he =>
        obtain ⟨-, -, hself, hothers⟩ := kept_did hI ht hmay he hA
        intro u q' h' hu
        rcases View.put_cases hu with ⟨rfl, ⟨⟩⟩ | ⟨hut, hu⟩
        · exact hself
        · exact hothers u q' h' hut hu
    | start _ =>
        intro u q' h' hu
        rcases View.put_cases hu with ⟨rfl, ⟨⟩⟩ | ⟨-, hu⟩
        · exact honest_plain nofun rfl rfl
        · exact hI.honest u q' h' hu
    | finish _ _ =>
        intro u q' h' hu
        rcases View.put_cases hu with ⟨-, ⟨⟩⟩ | ⟨-, hu⟩
        exact hI.honest u q' h' hu
    | crash =>
        intro u q' h' hu
        rcases View.put_cases hu with ⟨-, ⟨⟩⟩ | ⟨-, hu⟩
        exact hI.honest u q' h' hu
  cases hmove with
  | did ht hmay he =>
      obtain ⟨hentry, hcurrent, -, -⟩ := kept_did hI ht hmay he hA
      exact ⟨⟨hcurrent, honest⟩, hentry⟩
  | start _ => exact ⟨⟨hI.current, honest⟩, .refl _⟩
  | finish _ _ => exact ⟨⟨hI.current, honest⟩, .refl _⟩
  | crash => exact ⟨⟨hI.current, honest⟩, .refl _⟩

end

/-! ## Every run -/

/-- No node is constructed yet; the index is what an earlier fleet left. -/
def World.boot (N T : Type) (object : Option IndexObject) : World N T where
  node _ := ⟨false, [], fun _ => none, false, none⟩
  object := object
  log := []

/-- What the index names at some point of an orderly run it names at every later point, with no
earlier expiry. -/
theorem index_entries_kept (node : T → N) (d : Name) (object : Option IndexObject)
    (as bs : List (Action T Call Answer)) (c c' : Config Op Res (World N T) T Call Unit)
    (hA : (fleet node).Meets (Orderly node d) (.idle (.boot N T object)) (as ++ bs))
    (hc : (fleet node).run (.idle (.boot N T object)) as = some c)
    (hc' : (fleet node).run c bs = some c') :
    Covers (entry d c'.shared.object) (entry d c.shared.object) := by
  have hstart : UpToDate node d
      (Config.idle (.boot N T object) : Config Op Res (World N T) T Call Unit).view :=
    ⟨nofun, nofun⟩
  obtain ⟨hA₁, hA₂⟩ := Machine.meets_append hA
  obtain ⟨hmid, htrack⟩ := Machine.run_invariant (fleet_publishes node)
    (fun v l v' hI hmove hA => (upToDate_move hI hmove hA).1) as _ c (Machine.onTrack_idle _) hstart
    hA₁ hc
  -- the second part of the run, with what the index named at its start
  have hrun := Machine.run_invariant (fleet_publishes node)
    (I := fun v => UpToDate node d v ∧ Covers (entry d v.shared.object) (entry d c.shared.object))
    (fun v l v' hI hmove hA => ?_) bs c c' htrack ⟨hmid, .refl _⟩ (hA₂ c hc) hc'
  · exact hrun.1.2
  · obtain ⟨hnext, hentry⟩ := upToDate_move hI.1 hmove hA
    exact ⟨hnext, hentry.trans hI.2⟩

/-! ## Handover -/

/-- The allow-set of "a" and "b" is loaded and the construction ends. -/
def loadHosts (t : Fin 2) : List (Action (Fin 2) Call Answer) :=
  [.step t { hosts := some ["a", "b"] }, .step t {}, .step t {}, .step t {}, .finish t]

/-- Construction of a node as the leader, with an index to adopt or without. -/
def constructLeader (t : Fin 2) (adopts : Bool) : List (Action (Fin 2) Call Answer) :=
  (.start t .construct :: .step t {} :: .step t {} ::
      (if adopts then [.step t {}] else []) : List (Action (Fin 2) Call Answer)) ++ loadHosts t

def constructFollower (t : Fin 2) : List (Action (Fin 2) Call Answer) :=
  .start t .construct :: .step t { leader := false } :: loadHosts t

def issue (t : Fin 2) (hostname : Name) (notAfter : Time) : List (Action (Fin 2) Call Answer) :=
  (.start t (.noteIssued hostname notAfter) :: List.replicate 6 (.step t {}) :
      List (Action (Fin 2) Call Answer)) ++
    ([.finish t] : List (Action (Fin 2) Call Answer))

/-- The second leader is constructed after the first published, and adopts its index. -/
theorem index_entries_kept_handover :
    ∃ c c', (fleet id).run (.idle (.boot (Fin 2) (Fin 2) none))
        (constructLeader 0 false ++ issue 0 "a" (100 * second)) = some c ∧
      (fleet id).run c (constructLeader 1 true ++ issue 1 "b" (200 * second)) = some c' ∧
      entry "a" c.shared.object = some 100 ∧ entry "b" c'.shared.object = some 200 ∧
      Covers (entry "a" c'.shared.object) (entry "a" c.shared.object) := by
  refine ⟨_, _, rfl, rfl, by decide +kernel, by decide +kernel, ?_⟩
  exact index_entries_kept id "a" none (constructLeader 0 false ++ issue 0 "a" (100 * second))
    (constructLeader 1 true ++ issue 1 "b" (200 * second)) _ _ (by decide +kernel) rfl rfl

/-- The second node was constructed as a follower.  When it leads, its first publication drops the
entry, with the hostname in the allow-set of both nodes throughout. -/
theorem index_entry_dropped :
    ∃ c c', (fleet id).run (.idle (.boot (Fin 2) (Fin 2) none))
        (constructLeader 0 false ++ constructFollower 1 ++ issue 0 "a" (100 * second)) = some c ∧
      (fleet id).run c (issue 1 "b" (200 * second)) = some c' ∧
      (∀ i, (c.shared.node i).allow = ["a", "b"] ∧ (c'.shared.node i).allow = ["a", "b"]) ∧
      entry "a" c.shared.object = some 100 ∧ entry "b" c'.shared.object = some 200 ∧
      entry "a" c'.shared.object = none :=
  ⟨_, _, rfl, rfl, by decide +kernel, by decide +kernel, by decide +kernel, by decide +kernel⟩

end CertIndex
end CertsManager
