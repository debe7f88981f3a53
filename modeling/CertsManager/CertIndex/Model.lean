import CertsManager.World

/-!
# CertIndex.Model — the shared index of on-demand expiries

`noteIssued`, `publishIndex`, `republishIndexIfDirty`, `hydrateIndex`, `noteRefreshed` and the
pruning of `store` (ondemand.go), with the part of a node's construction that seeds the index
(`refreshAllowSetIfConfigured`, manager.go).

Every node keeps a private map; a publication writes the whole of it over the one object.  Each
locked section and each storage call is one call of a program, so the sections interleave.  The log
records what happened to the object: who read it while being constructed, who adopted what it read,
who published.  A node's methods can be called once it is constructed; a restarted process is
another node.
-/

namespace CertsManager
namespace CertIndex

open Interleave

/-- Hostname to expiry, in seconds. -/
abbrev Index : Type := Name → Option Nat

/-- `ondemand/certs-index.json`. -/
inductive IndexObject where
  | map (m : Index)
  | garbage

inductive IndexEvent (T : Type) where
  | fetched (t : T)
  | absent (t : T)
  | hydrated (t : T)
  | published (t : T)
  deriving DecidableEq, Repr

/-- One node's `onDemand`. -/
structure Node (T : Type) where
  constructed : Bool
  allow : List Name
  index : Index
  indexDirty : Bool
  indexMu : Option T

structure World (N T : Type) where
  node : N → Node T
  object : Option IndexObject
  log : List (IndexEvent T)

/-! ## Calls -/

inductive Op where
  | isLeader
  | constructed
  /-- What `refreshLeader` enumerates or `refreshFollower` reads. -/
  | hosts
  | storeAllow (set : List Name)
  | prune (set : List Name)
  | readIndex
  | adoptAll (m : Index)
  | adoptOne (hostname : Name) (expiry : Nat)
  | lockIndex
  | unlockIndex
  | setIndex (hostname : Name) (expiry : Nat)
  | snapshot
  | putIndex (m : Index)
  | setDirty (dirty : Bool)
  | isDirty

@[reducible] def Res : Op → Type
  | .isLeader => Bool
  | .constructed => Unit
  | .hosts => Option (List Name)
  | .storeAllow _ => Unit
  | .prune _ => Unit
  | .readIndex => Except ReadFault IndexObject
  | .adoptAll _ => Unit
  | .adoptOne _ _ => Unit
  | .lockIndex => Unit
  | .unlockIndex => Unit
  | .setIndex _ _ => Unit
  | .snapshot => Index
  | .putIndex _ => Bool
  | .setDirty _ => Unit
  | .isDirty => Bool

abbrev M (α : Type) : Type := Prog Op Res α
abbrev History : Type := Hist Op Res

def call (o : Op) : M (Res o) := Prog.perform o

/-! ## Functions -/

/-- Writes the in-memory index and notes whether the published copy is behind it; `false` when the
write failed. -/
def publishIndex : M Bool := do
  let snapshot ← call .snapshot
  if ← call (.putIndex snapshot) then
    call (.setDirty false)
    pure true
  else
    call (.setDirty true)
    pure false

def noteIssued (hostname : Name) (notAfter : Time) : M Bool := do
  call .lockIndex
  call (.setIndex hostname (unix notAfter))
  let ok ← publishIndex
  call .unlockIndex
  pure ok

def republishIndexIfDirty : M Bool := do
  if ← call .isDirty then
    call .lockIndex
    if ← call .isDirty then
      let ok ← publishIndex
      call .unlockIndex
      pure ok
    else
      call .unlockIndex
      pure true
  else pure true

def hydrateIndex : M Unit := do
  match ← call .readIndex with
  | .ok (.map published) => call (.adoptAll published)
  | _ => pure ()

/-- An absent entry is adopted as zero. -/
def noteRefreshed (hostname : Name) : M Unit := do
  match ← call .readIndex with
  | .ok (.map published) => call (.adoptOne hostname ((published hostname).getD 0))
  | _ => pure ()

def store (hosts : List Name) : M Unit := do
  call (.storeAllow hosts)
  call (.prune hosts)

def refreshAllowSet : M Unit := do
  match ← call .hosts with
  | some hosts => store hosts
  | none => pure ()

/-- `refreshAllowSetIfConfigured`, and the end of the construction it is part of. -/
def construct : M Unit := do
  if ← call .isLeader then
    hydrateIndex
    refreshAllowSet
    call .constructed
  else
    refreshAllowSet
    call .constructed

/-! ## What the calls do -/

structure Answer where
  leader : Bool := true
  hosts : Option (List Name) := none
  get : Outcome := .ok
  put : Outcome := .ok

section

variable {N T : Type} [DecidableEq N]

def World.setNode (w : World N T) (i : N) (x : Node T) : World N T :=
  { w with node := fun j => if j = i then x else w.node j }

@[simp] theorem setNode_self (w : World N T) (i : N) (x : Node T) : (w.setNode i x).node i = x := by
  simp [World.setNode]

theorem setNode_other (w : World N T) {i j : N} (x : Node T) (hj : j ≠ i) :
    (w.setNode i x).node j = w.node j := by
  simp [World.setNode, hj]

@[simp] theorem setNode_object (w : World N T) (i : N) (x : Node T) :
    (w.setNode i x).object = w.object :=
  rfl

/-- A read made while the node is being constructed is recorded. -/
def World.record (w : World N T) (i : N) (e : IndexEvent T) : World N T :=
  if (w.node i).constructed then w else { w with log := e :: w.log }

variable (node : T → N)

def exec (w : World N T) (t : T) : (o : Op) → Answer → Option (Res o × World N T)
  | .isLeader, a => some (a.leader, w)
  | .constructed, _ =>
      some ((), w.setNode (node t) { w.node (node t) with constructed := true })
  | .hosts, a => some (a.hosts, w)
  | .storeAllow set, _ => some ((), w.setNode (node t) { w.node (node t) with allow := set })
  | .prune set, _ =>
      some ((), w.setNode (node t) { w.node (node t) with
        index := fun h => if h ∈ set then (w.node (node t)).index h else none })
  | .readIndex, a =>
      match a.get, w.object with
      | .ok, some x => some (.ok x, w.record (node t) (.fetched t))
      | .ok, none => some (.error .notExist, w.record (node t) (.absent t))
      | _, _ => some (.error (.failed false ""), w)
  | .adoptAll m, _ =>
      if (w.node (node t)).constructed then none
      else
        some ((), { w.setNode (node t) { w.node (node t) with index := m } with
          log := .hydrated t :: w.log })
  | .adoptOne h expiry, _ =>
      some ((), w.setNode (node t) { w.node (node t) with
        index := Function.update (w.node (node t)).index h (some expiry) })
  | .lockIndex, _ =>
      if (w.node (node t)).constructed ∧ (w.node (node t)).indexMu.isNone then
        some ((), w.setNode (node t) { w.node (node t) with indexMu := some t })
      else none
  | .unlockIndex, _ => some ((), w.setNode (node t) { w.node (node t) with indexMu := none })
  | .setIndex h expiry, _ =>
      some ((), w.setNode (node t) { w.node (node t) with
        index := Function.update (w.node (node t)).index h (some expiry) })
  | .snapshot, _ => some ((w.node (node t)).index, w)
  | .putIndex m, a =>
      match a.put with
      | .ok => some (true, { w with object := some (.map m), log := .published t :: w.log })
      | .lost => some (false, { w with object := some (.map m), log := .published t :: w.log })
      | .fail => some (false, w)
      | .conflict => some (false, w)
  | .setDirty dirty, _ =>
      some ((), w.setNode (node t) { w.node (node t) with indexDirty := dirty })
  | .isDirty, _ => some ((w.node (node t)).indexDirty, w)

end

inductive Call where
  | construct
  | refreshAllowSet
  | noteIssued (hostname : Name) (notAfter : Time)
  | republishIndexIfDirty
  | noteRefreshed (hostname : Name)

def body : Call → M Unit
  | .construct => construct
  | .refreshAllowSet => refreshAllowSet
  | .noteIssued hostname notAfter => (fun _ => ()) <$> noteIssued hostname notAfter
  | .republishIndexIfDirty => (fun _ => ()) <$> republishIndexIfDirty
  | .noteRefreshed hostname => noteRefreshed hostname

/-- The nodes that share one index. -/
def fleet {N T : Type} [DecidableEq N] (node : T → N) :
    Machine Op Res (World N T) T Call Unit Answer where
  exec := exec node
  body := body

abbrev FleetView (N T : Type) : Type := View Op Res (World N T) T Call
abbrev FleetLabel (T : Type) : Type := Label Op Res T Call Unit

end CertIndex
end CertsManager
