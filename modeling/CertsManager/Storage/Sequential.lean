import CertsManager.Interleave.Linear
import CertsManager.Storage.Filesystem

/-!
# Sequential — the calls of the filesystem backend, one at a time

What one call does to the object when no other moves (`Serves`, the object store the backend is
meant to be), and that the programs do just that (`serves_of_runs`).  Over a sequence of calls it
follows that creations are paid for by removals, and that one ETag is replaced once.
-/

namespace CertsManager
namespace Storage

open Interleave

abbrev FileEv : Type :=
  Ev FileOp FileRes

abbrev FileHist : Type :=
  Hist FileOp FileRes

/-! ## Which steps look at the object -/

def FileOp.touches : FileOp → Bool
  | .link _ | .stat | .rename _ | .remove => true
  | _ => false

/-- What one step does to the object when nobody else moves. -/
def Step (x : Option File) (e : FileEv) (x' : Option File) : Prop :=
  ∃ a, onFile x e.op a = some (e.res, x')

theorem onFile_of_not_touches {x x' : Option File} {o : FileOp} {a : Ans} {r : FileRes o}
    (ho : o.touches = false) (h : onFile x o a = some (r, x')) :
    x' = x ∧ ∀ y, onFile y o a = some (r, y) := by
  cases o <;> cases ho <;> cases a <;> cases h <;> exact ⟨rfl, fun y => rfl⟩

theorem onFile_stat {x x' : Option File} {a : Ans} {r : FileRes .stat}
    (h : onFile x .stat a = some (r, x')) :
    x' = x ∧ (∀ modTime, r = .ok modTime → ∃ file, x = some file ∧ file.modTime = modTime) ∧
      (r = .error .notExist → x = none) := by
  cases a with
  | time _ => cases h
  | fail _ =>
      cases h
      exact ⟨rfl, nofun, nofun⟩
  | go =>
      cases x with
      | none =>
          cases h
          exact ⟨rfl, nofun, fun _ => rfl⟩
      | some file =>
          cases h
          refine ⟨rfl, fun modTime hr => ?_, nofun⟩
          cases hr
          exact ⟨file, rfl, rfl⟩

theorem onFile_link {x x' : Option File} {tmp : File} {a : Ans} {r : FileRes (.link tmp)}
    (h : onFile x (.link tmp) a = some (r, x')) :
    (r = .ok () ∧ x = none ∧ x' = some tmp) ∨ (x' = x ∧ ∃ e, r = .error e ∧ (e = .exist → x ≠ none)) := by
  cases a with
  | time _ => cases h
  | fail _ =>
      cases h
      exact .inr ⟨rfl, _, rfl, fun he => by cases he⟩
  | go =>
      cases x with
      | none =>
          cases h
          exact .inl ⟨rfl, rfl, rfl⟩
      | some file =>
          cases h
          exact .inr ⟨rfl, _, rfl, fun _ => by simp⟩

theorem onFile_rename {x x' : Option File} {tmp : File} {a : Ans} {r : FileRes (.rename tmp)}
    (h : onFile x (.rename tmp) a = some (r, x')) :
    (r = .ok () ∧ x' = some tmp) ∨ (x' = x ∧ ∃ e, r = .error e) := by
  cases a with
  | time _ => cases h
  | fail _ =>
      cases h
      exact .inr ⟨rfl, _, rfl⟩
  | go =>
      cases h
      exact .inl ⟨rfl, rfl⟩

theorem onFile_remove {x x' : Option File} {a : Ans} {r : FileRes .remove}
    (h : onFile x .remove a = some (r, x')) :
    ((r = .ok () ∨ r = .error .notExist) ∧ x' = none) ∨
      (x' = x ∧ ∃ reason, r = .error (.other reason)) := by
  cases a with
  | time _ => cases h
  | fail _ =>
      cases h
      exact .inr ⟨rfl, _, rfl⟩
  | go =>
      cases x with
      | none =>
          cases h
          exact .inl ⟨.inr rfl, rfl⟩
      | some file =>
          cases h
          exact .inl ⟨.inl rfl, rfl⟩

/-! ## Kinds of calls -/

namespace Req

/-- A put that must not find the object. -/
def createOnce : Req → Bool
  | .put _ opts => opts.ifNoneMatch = "*"
  | .remove => false

/-- The ETag a put must find, if it asks for one. -/
def wants : Req → Option String
  | .put _ opts => if opts.ifNoneMatch ≠ "*" ∧ opts.ifMatch ≠ "" then some opts.ifMatch else none
  | .remove => none

def plain : Req → Bool
  | .put _ opts => opts.ifNoneMatch ≠ "*" ∧ opts.ifMatch = ""
  | .remove => false

end Req

theorem Req.createOnce_of_wants {q : Req} {etag : String} (h : q.wants = some etag) :
    q.createOnce = false := by
  cases q with
  | remove => rfl
  | put data opts =>
      by_cases hopts : opts.ifNoneMatch ≠ "*" ∧ opts.ifMatch ≠ ""
      · simpa [Req.createOnce] using hopts.1
      · rw [Req.wants, if_neg hopts] at h
        cases h

theorem Req.createOnce_of_plain {q : Req} (h : q.plain = true) : q.createOnce = false := by
  cases q with
  | remove => rfl
  | put data opts =>
      have hopts : opts.ifNoneMatch ≠ "*" ∧ opts.ifMatch = "" := by simpa [Req.plain] using h
      simpa [Req.createOnce] using hopts.1

theorem Req.wants_of_plain {q : Req} (h : q.plain = true) : q.wants = none := by
  cases q with
  | remove => rfl
  | put data opts =>
      have hopts : opts.ifNoneMatch ≠ "*" ∧ opts.ifMatch = "" := by simpa [Req.plain] using h
      simp [Req.wants, hopts.2]

/-! ## One call -/

/-- The modification times the copies of a call were given. -/
def wrote (h : List FileEv) : List Nat :=
  h.filterMap fun
    | ⟨.copy _, .ok modTime⟩ => some modTime
    | _ => none

/-- An object store that serves one call at a time: what a call may be told, and what it leaves.  A
put that is told nothing is stored, whole, at the time of its copy. -/
inductive Serves (d : Digest) (key : String) :
    Req → Option StoreError → List Nat → Option File → Option File → Prop
  | created {data : Bytes} {opts : PutOptions} {modTime : Nat} :
      (Req.put data opts).createOnce = true →
      Serves d key (.put data opts) none [modTime] none (some ⟨data, modTime⟩)
  | present {q : Req} {times : List Nat} {file : File} : q.createOnce = true →
      Serves d key q (some (.conditionalPut key)) times (some file) (some file)
  | replaced {data : Bytes} {opts : PutOptions} {modTime : Nat} {file : File} :
      (Req.put data opts).wants = some (generateETag d key file.modTime) →
      Serves d key (.put data opts) none [modTime] (some file) (some ⟨data, modTime⟩)
  | changed {q : Req} {times : List Nat} {etag : String} {x : Option File} :
      q.wants = some etag → (∀ file, x = some file → generateETag d key file.modTime ≠ etag) →
      Serves d key q (some (.conditionalPut key)) times x x
  | overwritten {data : Bytes} {opts : PutOptions} {modTime : Nat} {x : Option File} :
      (Req.put data opts).plain = true →
      Serves d key (.put data opts) none [modTime] x (some ⟨data, modTime⟩)
  | removed {times : List Nat} {x : Option File} : Serves d key .remove none times x none
  | failed {q : Req} {err : StoreError} {times : List Nat} {x : Option File} :
      err ≠ .conditionalPut key → Serves d key q (some err) times x x

section Runs

variable {d : Digest} {key : String} {x x' : Option File} {h : List FileEv}

theorem writeTemp_runs {data : Bytes} {written : Except StoreError File}
    (hrun : (writeTemp data).Runs Step x h written x') :
    x' = x ∧ match written with
      | .ok tmp => tmp.content = data ∧ wrote h = [tmp.modTime]
      | .error err => err ≠ .conditionalPut key := by
  obtain ⟨r, x₁, h₁, rfl, ⟨a, hcopy⟩, hrest⟩ := hrun
  obtain ⟨rfl, -⟩ := onFile_of_not_touches rfl hcopy
  cases r with
  | error e =>
      obtain ⟨r, x₂, h₂, rfl, ⟨a, hclose⟩, rfl, rfl, rfl⟩ := hrest
      exact ⟨(onFile_of_not_touches rfl hclose).1, by simp⟩
  | ok modTime =>
      obtain ⟨r, x₂, h₂, rfl, ⟨a, hsync⟩, hrest⟩ := hrest
      obtain ⟨rfl, -⟩ := onFile_of_not_touches rfl hsync
      cases r with
      | error e =>
          obtain ⟨r, x₂, h₂, rfl, ⟨a, hclose⟩, rfl, rfl, rfl⟩ := hrest
          exact ⟨(onFile_of_not_touches rfl hclose).1, by simp⟩
      | ok _ =>
          obtain ⟨r, x₂, h₂, rfl, ⟨a, hclose⟩, hrest⟩ := hrest
          obtain ⟨rfl, -⟩ := onFile_of_not_touches rfl hclose
          cases r with
          | error e =>
              obtain ⟨rfl, rfl, rfl⟩ := hrest
              exact ⟨rfl, by simp⟩
          | ok _ =>
              obtain ⟨rfl, rfl, rfl⟩ := hrest
              exact ⟨rfl, rfl, rfl⟩

theorem compareAndRename_runs {opts : PutOptions} {tmp : File} {err : Option StoreError}
    (hw : (Req.put tmp.content opts).wants = some opts.ifMatch)
    (hrun : (compareAndRename d key opts.ifMatch tmp).Runs Step x h err x') :
    Serves d key (.put tmp.content opts) err [tmp.modTime] x x' ∧ wrote h = [] := by
  obtain ⟨r, x₁, h₁, rfl, ⟨a, hstat⟩, hrest⟩ := hrun
  obtain ⟨rfl, hfound, hmissing⟩ := onFile_stat hstat
  rcases r with (_ | _ | reason) | modTime
  · obtain ⟨rfl, rfl, rfl⟩ := hrest
    exact ⟨.failed (by simp), rfl⟩
  · obtain ⟨rfl, rfl, rfl⟩ := hrest
    refine ⟨.changed hw fun file hfile => ?_, rfl⟩
    rw [hmissing rfl] at hfile
    cases hfile
  · obtain ⟨rfl, rfl, rfl⟩ := hrest
    exact ⟨.failed (by simp), rfl⟩
  · obtain ⟨file, rfl, rfl⟩ := hfound modTime rfl
    change Prog.Runs Step (if generateETag d key file.modTime ≠ opts.ifMatch then _ else _) _ _ _ _
      at hrest
    by_cases hmatch : generateETag d key file.modTime = opts.ifMatch
    · rw [if_neg (not_not.2 hmatch)] at hrest
      obtain ⟨r, x₂, h₂, rfl, ⟨a, hrename⟩, hrest⟩ := hrest
      rcases onFile_rename hrename with ⟨rfl, rfl⟩ | ⟨rfl, e, rfl⟩
      · obtain ⟨rfl, rfl, rfl⟩ := hrest
        exact ⟨.replaced (hmatch ▸ hw), rfl⟩
      · obtain ⟨rfl, rfl, rfl⟩ := hrest
        exact ⟨.failed (by simp), rfl⟩
    · rw [if_pos hmatch] at hrest
      obtain ⟨rfl, rfl, rfl⟩ := hrest
      refine ⟨.changed hw fun file' hfile => ?_, rfl⟩
      cases hfile
      exact hmatch

theorem publish_runs {opts : PutOptions} {tmp : File} {err : Option StoreError}
    (hrun : (publish d key opts tmp).Runs Step x h err x') :
    Serves d key (.put tmp.content opts) err [tmp.modTime] x x' ∧ wrote h = [] := by
  unfold publish at hrun
  split at hrun
  · rename_i hcreate
    have hcreate : (Req.put tmp.content opts).createOnce = true := by simp [Req.createOnce, hcreate]
    obtain ⟨r, x₁, h₁, rfl, ⟨a, hlink⟩, hrest⟩ := hrun
    rcases onFile_link hlink with ⟨rfl, rfl, rfl⟩ | ⟨rfl, e, rfl, hexist⟩
    · obtain ⟨rfl, rfl, rfl⟩ := hrest
      exact ⟨.created hcreate, rfl⟩
    · rcases e with _ | _ | _
      · obtain ⟨rfl, rfl, rfl⟩ := hrest
        obtain ⟨file, rfl⟩ := Option.ne_none_iff_exists'.1 (hexist rfl)
        exact ⟨.present hcreate, rfl⟩
      · obtain ⟨rfl, rfl, rfl⟩ := hrest
        exact ⟨.failed (by simp), rfl⟩
      · obtain ⟨rfl, rfl, rfl⟩ := hrest
        exact ⟨.failed (by simp), rfl⟩
  · rename_i hcreate
    split at hrun
    · rename_i hmatch
      have hw : (Req.put tmp.content opts).wants = some opts.ifMatch := if_pos ⟨hcreate, hmatch⟩
      obtain ⟨r, x₁, h₁, rfl, ⟨a, hlock⟩, hrest⟩ := hrun
      obtain ⟨rfl, -⟩ := onFile_of_not_touches rfl hlock
      change Prog.Runs Step (compareAndRename d key opts.ifMatch tmp >>= _) _ _ _ _ at hrest
      obtain ⟨h₂, err', x₂, h₃, rfl, hcompare, hrest⟩ := Prog.runs_bind.1 hrest
      obtain ⟨r, x₃, h₄, rfl, ⟨a, hunlock⟩, rfl, rfl, rfl⟩ := hrest
      obtain ⟨rfl, -⟩ := onFile_of_not_touches rfl hunlock
      obtain ⟨hserves, hwrote⟩ := compareAndRename_runs hw hcompare
      refine ⟨hserves, ?_⟩
      simpa [wrote] using hwrote
    · rename_i hmatch
      have hplain : (Req.put tmp.content opts).plain = true := by
        simpa [Req.plain, hcreate] using hmatch
      obtain ⟨r, x₁, h₁, rfl, ⟨a, hrename⟩, hrest⟩ := hrun
      rcases onFile_rename hrename with ⟨rfl, rfl⟩ | ⟨rfl, e, rfl⟩
      · obtain ⟨rfl, rfl, rfl⟩ := hrest
        exact ⟨.overwritten hplain, rfl⟩
      · obtain ⟨rfl, rfl, rfl⟩ := hrest
        exact ⟨.failed (by simp), rfl⟩

theorem putTemp_runs {dir : String} {data : Bytes} {opts : PutOptions} {err : Option StoreError}
    (hrun : (putTemp d dir key data opts).Runs Step x h err x') :
    Serves d key (.put data opts) err (wrote h) x x' := by
  obtain ⟨h₁, written, x₁, h₂, rfl, hwrite, hrest⟩ := Prog.runs_bind.1 hrun
  obtain ⟨rfl, hwritten⟩ := writeTemp_runs hwrite
  cases written with
  | error e =>
      obtain ⟨rfl, rfl, rfl⟩ := hrest
      exact .failed hwritten
  | ok tmp =>
      obtain ⟨rfl, hwrote⟩ := hwritten
      obtain ⟨h₃, err', x₂, h₄, rfl, hpublish, hrest⟩ := Prog.runs_bind.1 hrest
      obtain ⟨hserves, hnone⟩ := publish_runs hpublish
      have htimes : wrote (h₁ ++ (h₃ ++ h₄)) = [tmp.modTime] ++ wrote h₄ := by
        simp only [wrote, List.filterMap_append] at hwrote hnone ⊢
        rw [hwrote, hnone, List.nil_append]
      cases err' with
      | some e =>
          obtain ⟨rfl, rfl, rfl⟩ := hrest
          rwa [htimes]
      | none =>
          obtain ⟨r, x₃, h₅, rfl, ⟨a, hsync⟩, rfl, rfl, rfl⟩ := hrest
          obtain ⟨rfl, -⟩ := onFile_of_not_touches rfl hsync
          rwa [htimes]

theorem putObject_runs {f : FilesystemBackend} {data : Bytes} {opts : PutOptions}
    {err : Option StoreError} (hrun : (f.putObject d key data opts).Runs Step x h err x') :
    Serves d key (.put data opts) err (wrote h) x x' := by
  unfold FilesystemBackend.putObject at hrun
  split at hrun
  · obtain ⟨rfl, rfl, rfl⟩ := hrun
    exact .failed (by simp)
  · obtain ⟨r, x₁, h₁, rfl, ⟨a, hdir⟩, hrest⟩ := hrun
    obtain ⟨rfl, -⟩ := onFile_of_not_touches rfl hdir
    cases r with
    | error e =>
        obtain ⟨rfl, rfl, rfl⟩ := hrest
        exact .failed (by simp)
    | ok _ =>
        obtain ⟨r, x₂, h₂, rfl, ⟨a, htemp⟩, hrest⟩ := hrest
        obtain ⟨rfl, -⟩ := onFile_of_not_touches rfl htemp
        cases r with
        | error e =>
            obtain ⟨rfl, rfl, rfl⟩ := hrest
            exact .failed (by simp)
        | ok _ =>
            change Prog.Runs Step (putTemp d _ key data opts >>= _) _ _ _ _ at hrest
            obtain ⟨h₃, err', x₃, h₄, rfl, hput, hrest⟩ := Prog.runs_bind.1 hrest
            obtain ⟨r, x₄, h₅, rfl, ⟨a, hremove⟩, rfl, rfl, rfl⟩ := hrest
            obtain ⟨rfl, -⟩ := onFile_of_not_touches rfl hremove
            simpa [wrote] using putTemp_runs hput

theorem removeObject_runs {f : FilesystemBackend} {err : Option StoreError} {times : List Nat}
    (hrun : (f.removeObject key).Runs Step x h err x') : Serves d key .remove err times x x' := by
  unfold FilesystemBackend.removeObject at hrun
  split at hrun
  · obtain ⟨rfl, rfl, rfl⟩ := hrun
    exact .failed (by simp)
  · obtain ⟨r, x₁, h₁, rfl, ⟨a, hlock⟩, hrest⟩ := hrun
    obtain ⟨rfl, -⟩ := onFile_of_not_touches rfl hlock
    obtain ⟨r, x₂, h₂, rfl, ⟨a, hremove⟩, hrest⟩ := hrest
    rcases onFile_remove hremove with ⟨rfl | rfl, rfl⟩ | ⟨rfl, reason, rfl⟩
    · obtain ⟨r, x₃, h₃, rfl, ⟨a, hunlock⟩, rfl, rfl, rfl⟩ := hrest
      obtain ⟨rfl, -⟩ := onFile_of_not_touches rfl hunlock
      exact .removed
    · obtain ⟨r, x₃, h₃, rfl, ⟨a, hunlock⟩, rfl, rfl, rfl⟩ := hrest
      obtain ⟨rfl, -⟩ := onFile_of_not_touches rfl hunlock
      exact .removed
    · obtain ⟨r, x₃, h₃, rfl, ⟨a, hunlock⟩, rfl, rfl, rfl⟩ := hrest
      obtain ⟨rfl, -⟩ := onFile_of_not_touches rfl hunlock
      exact .failed (by simp)

/-- Executed alone, the calls are those of the object store. -/
theorem serves_of_runs {f : FilesystemBackend} {q : Req} {err : Option StoreError}
    (hrun : (f.serve d key q).Runs Step x h err x') : Serves d key q err (wrote h) x x' := by
  cases q with
  | put data opts => exact putObject_runs hrun
  | remove => exact removeObject_runs hrun

end Runs

/-! ## One call after another -/

abbrev FileCall : Type :=
  Call FileOp FileRes Req (Option StoreError)

/-- The modification times of a call's data. -/
def writes (c : FileCall) : List Nat :=
  wrote c.hist.reverse

/-- The call executed with nobody else about: it reports what it reported, its data has the
modification time it had, and `x` becomes `x'`. -/
def FilesystemBackend.alone (f : FilesystemBackend) (d : Digest) (key : String) (c : FileCall)
    (x x' : Option File) : Prop :=
  ∃ h, (f.serve d key c.req).Runs Step x h c.out x' ∧ wrote h = writes c

/-- A create-once put that succeeded. -/
def creates (c : FileCall) : Bool :=
  c.req.createOnce ∧ c.out = none

/-- A removal that succeeded. -/
def removes (c : FileCall) : Bool :=
  c.req = .remove ∧ c.out = none

/-- An If-Match put for `etag` that succeeded. -/
def Wins (etag : String) (c : FileCall) : Prop :=
  c.req.wants = some etag ∧ c.out = none

def times (x : Option File) : List Nat :=
  x.toList.map File.modTime

section Sequences

variable {f : FilesystemBackend} {d : Digest} {key : String} {x x' : Option File}
  {c : FileCall} {order : List FileCall}

theorem alone_serves (h : f.alone d key c x x') : Serves d key c.req c.out (writes c) x x' := by
  obtain ⟨hist, hrun, hwrote⟩ := h
  rw [← hwrote]
  exact serves_of_runs hrun

/-- How many objects there are. -/
def size (x : Option File) : Nat :=
  if x.isSome then 1 else 0

theorem size_le_one (x : Option File) : size x ≤ 1 := by
  unfold size
  split <;> omega

/-- A creation needs room, and only a removal makes it. -/
theorem Serves.size_le (h : Serves d key c.req c.out (writes c) x x') :
    (if creates c then 1 else 0) + size x ≤ (if removes c then 1 else 0) + size x' := by
  obtain ⟨req, hist, out, started, finished⟩ := c
  generalize writes _ = times at h
  cases h with
  | created hcreate => simp [creates, removes, size, hcreate]
  | present _ => simp [creates, removes, size]
  | replaced hwants => simp [creates, removes, size, Req.createOnce_of_wants hwants]
  | changed _ _ => simp [creates, removes]
  | overwritten hplain =>
      simpa [creates, removes, size, Req.createOnce_of_plain hplain] using size_le_one x
  | removed => simpa [creates, removes, size, Req.createOnce] using size_le_one x
  | failed _ => simp [creates, removes]

/-- Over a sequence of calls, creations are paid for by removals. -/
theorem creates_le (h : Executes (f.alone d key) x order x') :
    order.countP creates + size x ≤ order.countP removes + size x' := by
  induction order generalizing x with
  | nil =>
      obtain rfl : x' = x := h
      exact Nat.le_refl _
  | cons c rest ih =>
      obtain ⟨x₁, hc, hrest⟩ := h
      have hstep := (alone_serves hc).size_le
      have hlater := ih hrest
      rw [List.countP_cons, List.countP_cons]
      omega

/-- What lies there after a call lay there before or is what it wrote. -/
theorem Serves.times_sublist {q : Req} {out : Option StoreError} {w : List Nat}
    (h : Serves d key q out w x x') : (times x').Sublist (times x ++ w) := by
  cases h with
  | created _ => exact List.Sublist.refl _
  | replaced _ => exact List.sublist_append_right _ _
  | overwritten _ => exact List.sublist_append_right _ _
  | removed => exact List.nil_sublist _
  | present _ => exact List.sublist_append_left _ _
  | changed _ _ => exact List.sublist_append_left _ _
  | failed _ => exact List.sublist_append_left _ _

/-- A put that wins with an ETag finds it, and leaves only what it wrote. -/
theorem Serves.found {w : List Nat} {etag : String} (h : Serves d key c.req c.out w x x')
    (hwin : Wins etag c) :
    (∃ modTime ∈ times x, generateETag d key modTime = etag) ∧ times x' = w := by
  obtain ⟨req, hist, out, started, finished⟩ := c
  obtain ⟨hwants, hout⟩ := hwin
  simp only at hwants hout h
  subst hout
  cases h with
  | created hcreate =>
      rw [Req.createOnce_of_wants hwants] at hcreate
      cases hcreate
  | @replaced _ _ _ file hfound =>
      rw [hfound] at hwants
      exact ⟨⟨file.modTime, List.mem_singleton_self _, Option.some.inj hwants⟩, rfl⟩
  | overwritten hplain =>
      rw [Req.wants_of_plain hplain] at hwants
      cases hwants
  | removed => cases hwants

/-- The ETag a put wins with is that of something that was there or was written before. -/
theorem etag_mem (h : Executes (f.alone d key) x order x') {etag : String} (hc : c ∈ order)
    (hwin : Wins etag c) : etag ∈ (times x ++ order.flatMap writes).map (generateETag d key) := by
  induction order generalizing x with
  | nil => cases hc
  | cons b rest ih =>
      obtain ⟨x₁, hb, hrest⟩ := h
      rcases List.mem_cons.1 hc with rfl | hc
      · obtain ⟨⟨modTime, hmem, rfl⟩, -⟩ := (alone_serves hb).found hwin
        exact List.mem_map_of_mem (List.mem_append_left _ hmem)
      · have hsub : (times x₁ ++ rest.flatMap writes).Sublist
            (times x ++ (b :: rest).flatMap writes) := by
          rw [List.flatMap_cons, ← List.append_assoc]
          exact (alone_serves hb).times_sublist.append_right _
        exact (hsub.map _).subset (ih hrest hc)

/-- Where all writes have different ETags, no two puts win with the same one. -/
theorem wins_once (h : Executes (f.alone d key) x order x')
    (hdistinct : ((times x ++ order.flatMap writes).map (generateETag d key)).Nodup) :
    order.Pairwise fun a b => ∀ etag, ¬ (Wins etag a ∧ Wins etag b) := by
  induction order generalizing x with
  | nil => exact List.Pairwise.nil
  | cons a rest ih =>
      obtain ⟨x₁, ha, hrest⟩ := h
      have hserves := alone_serves ha
      rw [List.flatMap_cons, ← List.append_assoc] at hdistinct
      refine List.Pairwise.cons (fun b hb etag hwin => ?_) (ih hrest (hdistinct.sublist ?_))
      · -- the first winner replaced what carried the ETag; all that comes after is newer
        obtain ⟨⟨modTime, hmem, rfl⟩, hleft⟩ := hserves.found hwin.1
        have hlater := etag_mem hrest hb hwin.2
        rw [hleft] at hlater
        rw [List.append_assoc, List.map_append] at hdistinct
        exact (List.nodup_append.1 hdistinct).2.2 _ (List.mem_map_of_mem hmem) _ hlater rfl
      · exact (hserves.times_sublist.append_right _).map _

end Sequences

end Storage
end CertsManager
