import CertsManager.World

/-!
# AllowSet — the published set of on-demand hostnames

`refreshLeader` and `refreshFollower` (ondemand.go).  A leader writes the set it has enumerated to
one object, unless it is the set it believes it wrote last.  The belief is a string in the memory of
one process, set before the write is attempted.

Each call is one tick of one node; which node leads at a tick is open.  The spelling of a name
(`normalizeDomain`, IDNA) is a parameter.
-/

namespace CertsManager
namespace AllowSet

/-- `layout.OnDemandState`, the body of `ondemand/hosts.json`. -/
structure HostsState where
  generatedAt : Nat
  hosts : List Name
  deriving DecidableEq, Repr

inductive HostsObject where
  | state (s : HostsState)
  | garbage
  deriving DecidableEq, Repr

/-- The memory of one process: `allow`, and what is kept under `mu`. -/
structure Node where
  allow : Finset Name
  published : String
  hasPublished : Bool
  preflight : Name → Option Time
  index : Name → Nat

def Node.empty : Node where
  allow := ∅
  published := ""
  hasPublished := false
  preflight _ := none
  index _ := 0

def readObject (get : Outcome) (object : Option HostsObject) : Except ReadFault HostsObject :=
  match get, object with
  | .ok, some x => .ok x
  | .ok, none => .error .notExist
  | _, _ => .error (.failed false "")

/-- The object after a write; an error of the write is only logged. -/
def putObject (put : Outcome) (object : Option HostsObject) (s : HostsState) : Option HostsObject :=
  match put with
  | .ok => some (.state s)
  | .lost => some (.state s)
  | .fail => object
  | .conflict => object

/-- What a leader's tick meets: no `Enumerate` configured, an enumeration that fails or succeeds,
how a read and a write of the object go, and the time. -/
structure LeaderAnswer where
  enumerated : Option (Except String (List String))
  get : Outcome := .ok
  put : Outcome := .ok
  now : Time := 0

section Functions

variable (normalizeDomain : String → String)

/-- Empty entries are dropped. -/
def normalizeDomains (domains : List String) : List Name :=
  (domains.map normalizeDomain).filter (· ≠ "")

/-- The set that is served; what is kept for names that have left it is forgotten. -/
def Node.store (o : Node) (hosts : List String) : Node :=
  let set := (normalizeDomains normalizeDomain hosts).toFinset
  { o with
    allow := set
    preflight := fun h => if h ∈ set then o.preflight h else none
    index := fun h => if h ∈ set then o.index h else 0 }

/-- `none` when the object could not be read or parsed. -/
def Node.refreshFollower (o : Node) (get : Outcome) (object : Option HostsObject) : Option Node :=
  match readObject get object with
  | .error _ => none
  | .ok .garbage => none
  | .ok (.state s) => some (o.store normalizeDomain s.hosts)

/-- The enumerated names, normalised and sorted. -/
def normalizedSet (hosts : List String) : List Name :=
  (normalizeDomains normalizeDomain hosts).insertionSort (· ≤ ·)

def joinNames (names : List Name) : String :=
  String.intercalate "\n" names

def Node.refreshLeader (o : Node) (a : LeaderAnswer) (object : Option HostsObject) :
    Node × Option HostsObject :=
  match a.enumerated with
  | none => (o, object)
  | some (.error _) =>
      -- a leader that has published nothing serves what was published before it
      if !o.hasPublished then
        match o.refreshFollower normalizeDomain a.get object with
        | some o' => (o', object)
        | none => (o, object)
      else (o, object)
  | some (.ok hosts) =>
      let normalized := normalizedSet normalizeDomain hosts
      let o := o.store normalizeDomain normalized
      let joined := joinNames normalized
      let unchanged := o.hasPublished && decide (joined = o.published)
      let o := { o with published := joined, hasPublished := true }
      if unchanged then (o, object)
      else (o, putObject a.put object ⟨unix a.now, normalized⟩)

end Functions

/-! ## Any number of nodes -/

structure Fleet (N : Type) where
  node : N → Node
  object : Option HostsObject

/-- Processes that have just started; one that restarts is another node. -/
def Fleet.fresh {N : Type} (object : Option HostsObject) : Fleet N where
  node _ := .empty
  object := object

/-- The names the object lists. -/
def Fleet.hosts {N : Type} (w : Fleet N) : Option (List Name) :=
  match w.object with
  | some (.state s) => some s.hosts
  | _ => none

/-- `refreshAllowSet` on one node. -/
inductive Tick (N : Type) where
  | leader (i : N) (a : LeaderAnswer)
  | follower (i : N) (get : Outcome)

section

variable {N : Type} [DecidableEq N] (normalizeDomain : String → String)

def step (w : Fleet N) : Tick N → Fleet N
  | .leader i a =>
      let (o, object) := (w.node i).refreshLeader normalizeDomain a w.object
      ⟨Function.update w.node i o, object⟩
  | .follower i get =>
      match (w.node i).refreshFollower normalizeDomain get w.object with
      | some o => { w with node := Function.update w.node i o }
      | none => w

/-- `P` holds of every tick of the sequence, in the state it is made in. -/
def Along (P : Fleet N → Tick N → Prop) (w : Fleet N) : List (Tick N) → Prop
  | [] => True
  | t :: ts => P w t ∧ Along P (step normalizeDomain w t) ts

/-- A set that a leader enumerated, and how a write of it goes. -/
structure Enumeration (N : Type) where
  node : N
  set : List Name
  put : Outcome

omit [DecidableEq N] in
def Tick.enumeration : Tick N → Option (Enumeration N)
  | .leader i ⟨some (.ok hosts), _, put, _⟩ => some ⟨i, normalizedSet normalizeDomain hosts, put⟩
  | _ => none

/-- An enumeration that succeeds while storage accepts writes leaves its set in the object. -/
def Publishes (w : Fleet N) (t : Tick N) : Prop :=
  ∀ e, t.enumeration normalizeDomain = some e → e.put = .ok →
    (step normalizeDomain w t).hosts = some e.set

/-- What the node's last enumeration reads like once joined.  The past is listed newest first. -/
def lastJoined (past : List (Enumeration N)) (i : N) : Option String :=
  (past.find? (·.node = i)).map (joinNames ·.set)

/-- The node enumerates what reads like the set it enumerated last. -/
def Repeats (e : Enumeration N) (past : List (Enumeration N)) : Prop :=
  lastJoined past e.node = some (joinNames e.set)

instance (e : Enumeration N) (past : List (Enumeration N)) : Decidable (Repeats e past) :=
  inferInstanceAs (Decidable (_ = some _))

/-- The last set whose write was accepted, or that storage took although it reported an error; a
set that a node repeats is not written. -/
def landed (start : Option (List Name)) : List (Enumeration N) → Option (List Name)
  | [] => start
  | e :: past =>
      if e.put = .ok ∨ e.put = .lost ∧ ¬Repeats e past then some e.set else landed start past

/-- A leader enumerates what it enumerated last, and storage accepts writes, only while the last
set that landed is this one. -/
def RepeatsLanded (start : Option (List Name)) (past : List (Enumeration N)) :
    List (Enumeration N) → Prop
  | [] => True
  | e :: es =>
      (e.put = .ok → Repeats e past → landed start past = some e.set) ∧
        RepeatsLanded start (e :: past) es

/-! ## One tick -/

/-- What a node believes the object lists. -/
def Node.belief (o : Node) : Option String :=
  if o.hasPublished then some o.published else none

/-- A leader with a set in hand: it skips the write or makes it, and believes in it either way. -/
theorem refreshLeader_enumerated (o : Node) (a : LeaderAnswer) (object : Option HostsObject)
    {hosts : List String} (ha : a.enumerated = some (.ok hosts)) :
    (o.refreshLeader normalizeDomain a object).1.belief =
        some (joinNames (normalizedSet normalizeDomain hosts)) ∧
      (o.refreshLeader normalizeDomain a object).2 =
        if o.belief = some (joinNames (normalizedSet normalizeDomain hosts)) then object
        else putObject a.put object ⟨unix a.now, normalizedSet normalizeDomain hosts⟩ := by
  rcases o with ⟨allow, published, hasPublished, preflight, index⟩
  by_cases hsame : joinNames (normalizedSet normalizeDomain hosts) = published
  · cases hasPublished <;> simp [Node.refreshLeader, ha, Node.store, Node.belief, hsame]
  · cases hasPublished <;>
      simp [Node.refreshLeader, ha, Node.store, Node.belief, hsame, Ne.symm hsame]

theorem refreshFollower_belief {o o' : Node} {get : Outcome} {object : Option HostsObject}
    (h : o.refreshFollower normalizeDomain get object = some o') : o'.belief = o.belief := by
  simp only [Node.refreshFollower] at h
  split at h <;> cases h
  rfl

/-- A leader without one leaves its belief and the object as they are. -/
theorem refreshLeader_unenumerated (o : Node) (a : LeaderAnswer) (object : Option HostsObject)
    (ha : ∀ hosts, a.enumerated ≠ some (.ok hosts)) :
    (o.refreshLeader normalizeDomain a object).1.belief = o.belief ∧
      (o.refreshLeader normalizeDomain a object).2 = object := by
  rcases hen : a.enumerated with _ | (err | hosts)
  · simp [Node.refreshLeader, hen]
  · simp only [Node.refreshLeader, hen]
    split
    · split
      · rename_i o' ho'
        exact ⟨refreshFollower_belief normalizeDomain ho', rfl⟩
      · exact ⟨rfl, rfl⟩
    · exact ⟨rfl, rfl⟩
  · exact absurd hen (ha hosts)

/-! ## Whole sequences -/

/-- The beliefs of the nodes and the names the object lists are those of the enumerations so
far. -/
structure Tracks (start : Option (List Name)) (w : Fleet N) (past : List (Enumeration N)) : Prop where
  believes : ∀ i, (w.node i).belief = lastJoined past i
  hosts : w.hosts = landed start past

/-- A tick without a set in hand changes neither. -/
theorem Tracks.idle {start : Option (List Name)} {w : Fleet N} {past : List (Enumeration N)}
    (hw : Tracks start w past) {t : Tick N} (ht : t.enumeration normalizeDomain = none) :
    Tracks start (step normalizeDomain w t) past := by
  -- a node whose belief is kept
  have hkept : ∀ {i : N} {o : Node}, o.belief = (w.node i).belief →
      ∀ j, (Function.update w.node i o j).belief = lastJoined past j := by
    intro i o ho j
    by_cases hji : j = i
    · rw [hji, Function.update_self, ho, hw.believes i]
    · rw [Function.update_of_ne hji, hw.believes j]
  cases t with
  | leader i a =>
      have hen : ∀ hosts, a.enumerated ≠ some (.ok hosts) := by
        rcases a with ⟨enumerated, get, put, now⟩
        rintro hosts ⟨⟩
        cases ht
      obtain ⟨hbelief, hobject⟩ := refreshLeader_unenumerated normalizeDomain (w.node i) a w.object hen
      refine ⟨hkept hbelief, ?_⟩
      simpa only [step, Fleet.hosts, hobject] using hw.hosts
  | follower i get =>
      simp only [step]
      split
      · rename_i o ho
        exact ⟨hkept (refreshFollower_belief normalizeDomain ho), hw.hosts⟩
      · exact hw

/-- With a set in hand, the write is skipped exactly when the node repeats itself. -/
theorem Tracks.hosts_step {start : Option (List Name)} {w : Fleet N} {past : List (Enumeration N)}
    (hw : Tracks start w past) {t : Tick N} {e : Enumeration N}
    (ht : t.enumeration normalizeDomain = some e) :
    (step normalizeDomain w t).hosts =
      if (e.put = .ok ∨ e.put = .lost) ∧ ¬Repeats e past then some e.set else landed start past := by
  rcases t with ⟨i, ⟨_ | (err | hosts), get, put, now⟩⟩ | ⟨i, get⟩ <;> cases ht
  obtain ⟨-, hobject⟩ := refreshLeader_enumerated normalizeDomain (w.node i)
    ⟨some (.ok hosts), get, put, now⟩ w.object rfl
  simp only [hw.believes i] at hobject
  by_cases hrepeats : lastJoined past i = some (joinNames (normalizedSet normalizeDomain hosts))
  · simp only [if_pos hrepeats] at hobject
    simp [step, Fleet.hosts, hobject, Repeats, hrepeats, ← hw.hosts]
  · simp only [if_neg hrepeats] at hobject
    cases put <;>
      simp [step, Fleet.hosts, hobject, Repeats, hrepeats, putObject, ← hw.hosts]

/-- So the set is published unless the node repeats one that is not there. -/
theorem Tracks.publishes_iff {start : Option (List Name)} {w : Fleet N}
    {past : List (Enumeration N)} (hw : Tracks start w past) {t : Tick N} {e : Enumeration N}
    (ht : t.enumeration normalizeDomain = some e) :
    Publishes normalizeDomain w t ↔
      (e.put = .ok → Repeats e past → landed start past = some e.set) := by
  simp only [Publishes, ht, Option.some.injEq, forall_eq', hw.hosts_step normalizeDomain ht]
  by_cases hrepeats : Repeats e past
  · simp [hrepeats]
  · simp +contextual [hrepeats]

theorem Tracks.enumerates {start : Option (List Name)} {w : Fleet N} {past : List (Enumeration N)}
    (hw : Tracks start w past) {t : Tick N} {e : Enumeration N}
    (ht : t.enumeration normalizeDomain = some e)
    (hlanded : e.put = .ok → Repeats e past → landed start past = some e.set) :
    Tracks start (step normalizeDomain w t) (e :: past) := by
  refine ⟨fun j => ?_, ?_⟩
  · rcases t with ⟨i, ⟨_ | (err | hosts), get, put, now⟩⟩ | ⟨i, get⟩ <;> cases ht
    by_cases hji : i = j
    · subst hji
      simp [step, lastJoined, (refreshLeader_enumerated normalizeDomain (w.node i)
        ⟨some (.ok hosts), get, put, now⟩ w.object rfl).1]
    · have hrest := hw.believes j
      simpa [step, lastJoined, hji, Ne.symm hji] using hrest
  · rw [hw.hosts_step normalizeDomain ht, landed]
    -- a repeated set is not written, but counts as landed: it is the last that did
    by_cases hrepeats : Repeats e past
    · cases hput : e.put <;> simp [hrepeats, hput] at hlanded ⊢
      exact hlanded
    · simp [hrepeats]

/-- Nodes take turns as leader; enumerations, reads and writes fail as they like.  Every set that
is enumerated while storage accepts writes ends up in the object, if and only if the set a leader
enumerates a second time in a row is each time the last that landed. -/
theorem allowSet_published (object : Option HostsObject) (ts : List (Tick N)) :
    Along normalizeDomain (Publishes normalizeDomain) (Fleet.fresh object) ts ↔
      RepeatsLanded (Fleet.fresh (N := N) object).hosts []
        (ts.filterMap (Tick.enumeration normalizeDomain)) := by
  -- generalised to any fleet that the enumerations so far account for
  suffices hrun : ∀ start w past, Tracks start w past →
      (Along normalizeDomain (Publishes normalizeDomain) w ts ↔
        RepeatsLanded start past (ts.filterMap (Tick.enumeration normalizeDomain))) from
    hrun _ _ [] ⟨fun _ => rfl, rfl⟩
  induction ts with
  | nil => exact fun _ _ _ _ => Iff.rfl
  | cons t ts ih =>
      intro start w past hw
      cases ht : t.enumeration normalizeDomain with
      | none =>
          rw [List.filterMap_cons_none ht, ← ih _ _ _ (hw.idle normalizeDomain ht)]
          exact and_iff_right fun e he => nomatch ht.symm.trans he
      | some e =>
          rw [List.filterMap_cons_some ht]
          rw [Along, RepeatsLanded, hw.publishes_iff normalizeDomain ht]
          exact and_congr_right fun hlanded => ih _ _ _ (hw.enumerates normalizeDomain ht hlanded)

end

/-! ## Sets that are not published -/

/-- A leader that enumerates `hosts`, and whose write goes as `put` says. -/
def enumerates {N : Type} (i : N) (hosts : List String) (put : Outcome) : Tick N :=
  .leader i { enumerated := some (.ok hosts), put := put }

/-- A write that failed is believed to have been made; a set that another leader has replaced is
believed to be there still; and a name is believed to be the two it reads like once joined. -/
theorem allowSet_unpublished :
    ¬Along id (Publishes id) (Fleet.fresh (N := Fin 2) none)
      [enumerates 0 ["a"] .fail, enumerates 0 ["a"] .ok] ∧
    ¬Along id (Publishes id) (Fleet.fresh (N := Fin 2) none)
      [enumerates 0 ["a"] .ok, enumerates 1 ["b"] .ok, enumerates 0 ["a"] .ok] ∧
    ¬Along id (Publishes id) (Fleet.fresh (N := Fin 2) none)
      [enumerates 0 ["a\nb"] .ok, enumerates 0 ["a", "b"] .ok] := by
  refine ⟨?_, ?_, ?_⟩
  · rintro ⟨-, hlast, -⟩
    have hhosts : _ = some ["a"] := hlast _ rfl rfl
    exact absurd hhosts (by decide +kernel)
  · rintro ⟨-, -, hlast, -⟩
    have hhosts : _ = some ["a"] := hlast _ rfl rfl
    exact absurd hhosts (by decide +kernel)
  · rintro ⟨-, hlast, -⟩
    have hhosts : _ = some ["a", "b"] := hlast _ rfl rfl
    exact absurd hhosts (by decide +kernel)

end AllowSet
end CertsManager
