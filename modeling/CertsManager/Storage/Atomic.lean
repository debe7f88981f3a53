import CertsManager.Interleave.Linear
import CertsManager.Storage.Sequential

/-!
# Atomic — concurrent puts and removals of one key

Every call has one step at which it takes effect or finds that it may not: the `link`, the `rename`,
the `remove`, or the `stat` that does not find the wanted ETag (`decisive`).  An If-Match put looks
once before that step, and the mutex keeps other If-Match puts and removals away until it has
renamed; a create-once put cannot come between because the object exists.  A plain put can: it
renames without the mutex.  Where none does (`Apart`), the calls are linearizable.
-/

namespace CertsManager
namespace Storage

open Interleave

/-! ## Quiet histories -/

/-- Nothing of what was seen is about the object. -/
def Quiet (h : FileHist) : Prop :=
  ∀ e ∈ h, e.op.touches = false

theorem Quiet.cons {h : FileHist} {o : FileOp} {r : FileRes o} (hh : Quiet h)
    (ho : o.touches = false) : Quiet (⟨o, r⟩ :: h) :=
  List.forall_mem_cons.2 ⟨ho, hh⟩

/-- Whether a call that has seen `h` holds the mutex. -/
def held : FileHist → Bool
  | [] => false
  | ⟨.lock, _⟩ :: _ => true
  | ⟨.unlock, _⟩ :: _ => false
  | _ :: h => held h

theorem held_cons {o : FileOp} {r : FileRes o} {h : FileHist} (hl : o ≠ .lock) (hu : o ≠ .unlock) :
    held (⟨o, r⟩ :: h) = held h := by
  cases o <;> first | rfl | exact absurd rfl hl | exact absurd rfl hu

section Protocol

variable (d : Digest) (key : String)

/-- A put that has just seen the ETag it wants: it is about to rename. -/
def comparing (q : Req) : FileHist → Bool
  | ⟨.stat, .ok modTime⟩ :: _ => q.wants = some (generateETag d key modTime)
  | _ => false

/-- The step settles the call: what it does or does not do is decided here. -/
def decisive (q : Req) : FileEv → Bool
  | ⟨.link _, _⟩ | ⟨.rename _, _⟩ | ⟨.remove, _⟩ | ⟨.stat, .error _⟩ => true
  | ⟨.stat, .ok modTime⟩ => q.wants ≠ some (generateETag d key modTime)
  | _ => false

def passed (q : Req) (h : FileHist) : Prop :=
  ∃ e ∈ h, decisive d key q e = true

/-- Which steps a call may take when. -/
def discipline : Protocol FileOp FileRes Req (Option StoreError) where
  may q h
    | .link _ => Quiet h
    | .stat | .remove => Quiet h ∧ held h = true
    | .rename _ => (Quiet h ∧ q.plain = true) ∨
        (comparing d key q h = true ∧ Quiet h.tail ∧ held h = true)
    | .unlock => held h = true
    | _ => True
  done q h _ := passed d key q h ∨ Quiet h

variable {d key}

theorem decisive_touches {q : Req} {e : FileEv} (he : decisive d key q e = true) :
    e.op.touches = true := by
  obtain ⟨o, r⟩ := e
  cases o <;> first | rfl | cases he

theorem Quiet.not_passed {q : Req} {h : FileHist} (hh : Quiet h) : ¬ passed d key q h := by
  rintro ⟨e, he, hdec⟩
  have htouch := decisive_touches hdec
  rw [hh e he] at htouch
  cases htouch

theorem passed.cons {q : Req} {h : FileHist} (e : FileEv) (hp : passed d key q h) :
    passed d key q (e :: h) := by
  obtain ⟨e', he', hdec⟩ := hp
  exact ⟨e', List.mem_cons_of_mem e he', hdec⟩

/-! ## The calls keep to it -/

theorem writeTemp_conforms {q : Req} {h : FileHist} {data : Bytes} (hh : Quiet h) :
    (writeTemp data).Conforms ((discipline d key).may q) h fun h' _ => Quiet h' := by
  refine ⟨trivial, fun r => ?_⟩
  have hcopy : Quiet (⟨.copy data, r⟩ :: h) := hh.cons rfl
  cases r with
  | error e => exact ⟨trivial, fun r => hcopy.cons rfl⟩
  | ok modTime =>
      refine ⟨trivial, fun r => ?_⟩
      have hsync : Quiet (⟨.sync, r⟩ :: ⟨.copy data, .ok modTime⟩ :: h) := hcopy.cons rfl
      cases r with
      | error e => exact ⟨trivial, fun r => hsync.cons rfl⟩
      | ok _ =>
          refine ⟨trivial, fun r => ?_⟩
          cases r with
          | error e => exact hsync.cons rfl
          | ok _ => exact hsync.cons rfl

theorem compareAndRename_conforms {q : Req} {h : FileHist} {ifMatch : String} {tmp : File}
    (hq : q.wants = some ifMatch) (hh : Quiet h) (hheld : held h = true) :
    (compareAndRename d key ifMatch tmp).Conforms ((discipline d key).may q) h
      fun h' _ => passed d key q h' ∧ held h' = true := by
  refine ⟨⟨hh, hheld⟩, fun r => ?_⟩
  cases r with
  | error e =>
      have hseen : passed d key q (⟨.stat, .error e⟩ :: h) := ⟨_, List.mem_cons_self, rfl⟩
      cases e <;> exact ⟨hseen, hheld⟩
  | ok modTime =>
      show Prog.Conforms _ (if generateETag d key modTime ≠ ifMatch then _ else _) _ _
      by_cases hmatch : generateETag d key modTime = ifMatch
      · rw [if_neg (not_not.2 hmatch)]
        have hcomparing : comparing d key q (⟨.stat, .ok modTime⟩ :: h) = true := by
          simp [comparing, hq, hmatch]
        refine ⟨.inr ⟨hcomparing, hh, hheld⟩, fun r => ?_⟩
        have hrenamed : passed d key q (⟨.rename tmp, r⟩ :: ⟨.stat, .ok modTime⟩ :: h) :=
          ⟨_, List.mem_cons_self, rfl⟩
        cases r <;> exact ⟨hrenamed, hheld⟩
      · rw [if_pos hmatch]
        refine ⟨⟨_, List.mem_cons_self, ?_⟩, hheld⟩
        simpa [decisive, hq] using Ne.symm hmatch

theorem publish_conforms {h : FileHist} {data : Bytes} {opts : PutOptions} {tmp : File}
    (hh : Quiet h) :
    (publish d key opts tmp).Conforms ((discipline d key).may (.put data opts)) h
      fun h' _ => passed d key (.put data opts) h' := by
  unfold publish
  split
  · refine ⟨hh, fun r => ?_⟩
    have hlinked : passed d key (.put data opts) (⟨.link tmp, r⟩ :: h) :=
      ⟨_, List.mem_cons_self, rfl⟩
    rcases r with (_ | _ | _) | _ <;> exact hlinked
  · rename_i hcreate
    split
    · rename_i hmatch
      have hwants : (Req.put data opts).wants = some opts.ifMatch := if_pos ⟨hcreate, hmatch⟩
      refine ⟨trivial, fun locked => ?_⟩
      have hlocked : Quiet (⟨.lock, locked⟩ :: h) := hh.cons rfl
      show Prog.Conforms _ (compareAndRename d key opts.ifMatch tmp >>= _) _ _
      refine Prog.conforms_bind.2
        ((compareAndRename_conforms hwants hlocked rfl).mono fun h' err hh' => ?_)
      exact ⟨hh'.2, fun r => hh'.1.cons _⟩
    · rename_i hmatch
      have hplain : (Req.put data opts).plain = true := by simpa [Req.plain, hcreate] using hmatch
      refine ⟨.inl ⟨hh, hplain⟩, fun r => ?_⟩
      have hrenamed : passed d key (.put data opts) (⟨.rename tmp, r⟩ :: h) :=
        ⟨_, List.mem_cons_self, rfl⟩
      cases r <;> exact hrenamed

/-- A call that has had its decisive step or looked at nothing is still so after a step that does
not look. -/
theorem settled_cons {q : Req} {h : FileHist} {o : FileOp} {r : FileRes o}
    (hh : passed d key q h ∨ Quiet h) (ho : o.touches = false) :
    passed d key q (⟨o, r⟩ :: h) ∨ Quiet (⟨o, r⟩ :: h) :=
  hh.imp (passed.cons _) fun hh => hh.cons ho

theorem putTemp_conforms {h : FileHist} {dir : String} {data : Bytes} {opts : PutOptions}
    (hh : Quiet h) :
    (putTemp d dir key data opts).Conforms ((discipline d key).may (.put data opts)) h
      fun h' _ => passed d key (.put data opts) h' ∨ Quiet h' := by
  refine Prog.conforms_bind.2 ((writeTemp_conforms hh).mono fun h₁ written hh₁ => ?_)
  cases written with
  | error err => exact .inr hh₁
  | ok tmp =>
      refine Prog.conforms_bind.2 ((publish_conforms hh₁).mono fun h₂ err hh₂ => ?_)
      cases err with
      | some err => exact .inl hh₂
      | none => exact ⟨trivial, fun r => .inl (hh₂.cons _)⟩

variable (f : FilesystemBackend)

theorem putObject_conforms (data : Bytes) (opts : PutOptions) :
    (f.putObject d key data opts).Conforms ((discipline d key).may (.put data opts)) []
      fun h _ => passed d key (.put data opts) h ∨ Quiet h := by
  have hnil : Quiet [] := fun e he => by cases he
  unfold FilesystemBackend.putObject
  split
  · exact .inr hnil
  · rename_i fullPath _
    refine ⟨trivial, fun r => ?_⟩
    have hdir : Quiet [⟨.mkdirAll (dirOf fullPath), r⟩] := hnil.cons rfl
    cases r with
    | error e => exact .inr hdir
    | ok made =>
        refine ⟨trivial, fun r => ?_⟩
        have htemp : Quiet (⟨.createTemp (dirOf fullPath), r⟩ ::
            [⟨.mkdirAll (dirOf fullPath), .ok made⟩]) := hdir.cons rfl
        cases r with
        | error e => exact .inr htemp
        | ok _ =>
            show Prog.Conforms _ (putTemp d (dirOf fullPath) key data opts >>= _) _ _
            refine Prog.conforms_bind.2 ((putTemp_conforms htemp).mono fun h err hh => ?_)
            exact ⟨trivial, fun r => settled_cons hh rfl⟩

theorem removeObject_conforms :
    (f.removeObject key).Conforms ((discipline d key).may .remove) []
      fun h _ => passed d key .remove h ∨ Quiet h := by
  have hnil : Quiet [] := fun e he => by cases he
  unfold FilesystemBackend.removeObject
  split
  · exact .inr hnil
  · refine ⟨trivial, fun locked => ⟨⟨hnil.cons rfl, rfl⟩, fun r => ?_⟩⟩
    have hremoved : passed d key .remove [⟨.remove, r⟩, ⟨.lock, locked⟩] :=
      ⟨_, List.mem_cons_self, rfl⟩
    rcases r with (_ | _ | _) | _ <;> exact ⟨rfl, fun r => .inl (hremoved.cons _)⟩

theorem follows_discipline (T : Type) : (f.process d key T).Follows (discipline d key) := by
  intro q
  cases q with
  | put data opts => exact putObject_conforms f data opts
  | remove => exact removeObject_conforms f

/-! ## What holds between steps -/

theorem comparing_iff {q : Req} {h : FileHist} :
    comparing d key q h = true ↔
      ∃ modTime rest, h = ⟨.stat, .ok modTime⟩ :: rest ∧
        q.wants = some (generateETag d key modTime) := by
  constructor
  · intro hc
    rcases h with _ | ⟨⟨o, r⟩, rest⟩
    · cases hc
    · cases o <;> try cases hc
      cases r with
      | error e => cases hc
      | ok modTime => exact ⟨modTime, rest, rfl, by simpa [comparing] using hc⟩
  · rintro ⟨modTime, rest, rfl, hw⟩
    simp [comparing, hw]

section Run

variable {T : Type}

theorem onDisk_eq_some {s s' : Disk T} {t : T} {o : FileOp} {a : Ans} {r : FileRes o}
    (h : onDisk s t o a = some (r, s')) :
    onMutex s.mutex t o = some s'.mutex ∧ onFile s.object o a = some (r, s'.object) := by
  unfold onDisk at h
  split at h
  · cases h
  · rename_i mutex hmutex
    split at h
    · cases h
    · rename_i r' object hfile
      cases h
      exact ⟨hmutex, hfile⟩

theorem onMutex_lock {mutex mutex' : Option T} {t : T}
    (h : onMutex mutex t .lock = some mutex') : mutex = none ∧ mutex' = some t := by
  cases mutex with
  | none => exact ⟨rfl, (Option.some.inj h).symm⟩
  | some _ => cases h

/-- The mutex after a step that neither takes nor gives it. -/
theorem onMutex_same {mutex mutex' : Option T} {t : T} {o : FileOp} (hl : o ≠ .lock)
    (hu : o ≠ .unlock) (h : onMutex mutex t o = some mutex') : mutex' = mutex := by
  cases o with
  | lock => exact absurd rfl hl
  | unlock => exact absurd rfl hu
  | _ => exact (Option.some.inj h).symm

/-- Where a call stands: it was given its answers by some object, it holds the mutex if it took it,
and between compare and rename the object is the one it compared. -/
structure InOrder (d : Digest) (key : String) (s : Disk T) (t : T) (q : Req) (h : FileHist) :
    Prop where
  seen : ∀ e ∈ h, ∃ x x', Step x e x'
  holds : held h = true → s.mutex = some t
  window : ∀ modTime rest, h = ⟨.stat, .ok modTime⟩ :: rest →
    q.wants = some (generateETag d key modTime) →
      held h = true ∧ ∃ file, s.object = some file ∧ file.modTime = modTime

def plainAt (v : View FileOp FileRes (Disk T) T Req) (t : T) : Bool :=
  (v.task t).any fun x => x.1.plain

def comparingAt (d : Digest) (key : String) (v : View FileOp FileRes (Disk T) T Req) (t : T) :
    Bool :=
  (v.task t).any fun x => comparing d key x.1 x.2

def renamed : FileEv → Bool
  | ⟨.rename _, .ok _⟩ => true
  | _ => false

/-- No plain put renames while another call is between its compare and its rename, and no call is
cut off. -/
def Apart (d : Digest) (key : String) (v : View FileOp FileRes (Disk T) T Req) :
    Label FileOp FileRes T Req (Option StoreError) → Prop
  | .did t e => renamed e = true → plainAt v t = true → ∀ u, u ≠ t → comparingAt d key v u = false
  | .crash _ => False
  | .start _ _ | .finish _ _ _ => True

instance [Fintype T] [DecidableEq T] (v : View FileOp FileRes (Disk T) T Req) :
    ∀ l, Decidable (Apart d key v l)
  | .did t e => inferInstanceAs (Decidable (renamed e = true → plainAt v t = true →
      ∀ u, u ≠ t → comparingAt d key v u = false))
  | .crash _ => isFalse id
  | .start _ _ | .finish _ _ _ => isTrue trivial

theorem InOrder.fresh {s : Disk T} {t : T} {q : Req} : InOrder d key s t q [] :=
  ⟨fun _ he => by simp at he, fun h => by simp [held] at h, fun _ _ h => by cases h⟩

/-- What a call's own step does to where it stands. -/
theorem InOrder.self {s s' : Disk T} {t : T} {q : Req} {h : FileHist} {o : FileOp} {a : Ans}
    {r : FileRes o} (hin : InOrder d key s t q h) (hmay : (discipline d key).may q h o)
    (he : onDisk s t o a = some (r, s')) : InOrder d key s' t q (⟨o, r⟩ :: h) := by
  obtain ⟨hmutex, hfile⟩ := onDisk_eq_some he
  refine ⟨List.forall_mem_cons.2 ⟨⟨_, _, a, hfile⟩, hin.seen⟩, fun hheld => ?_,
    fun modTime rest hcons hw => ?_⟩
  · by_cases hl : o = .lock
    · subst hl
      exact (onMutex_lock hmutex).2
    · have hu : o ≠ .unlock := by
        rintro rfl
        cases hheld
      rw [onMutex_same hl hu hmutex]
      exact hin.holds (held_cons hl hu ▸ hheld)
  · cases hcons
    obtain ⟨hsame, hfound, -⟩ := onFile_stat hfile
    rw [hsame]
    exact ⟨hmay.2, hfound modTime rfl⟩

/-- A step of another call leaves it there, unless it is the rename of a plain put. -/
theorem InOrder.other {s s' : Disk T} {t u : T} {q q' : Req} {h h' : FileHist} {o : FileOp}
    {a : Ans} {r : FileRes o} (hin : InOrder d key s u q' h') (hut : u ≠ t)
    (hmine : InOrder d key s t q h) (hmay : (discipline d key).may q h o)
    (he : onDisk s t o a = some (r, s'))
    (hapart : renamed ⟨o, r⟩ = true → q.plain = true → comparing d key q' h' = false) :
    InOrder d key s' u q' h' := by
  obtain ⟨hmutex, hfile⟩ := onDisk_eq_some he
  -- only one of the two holds the mutex
  have hfree : held h' = true → ¬ held h = true := fun hu ht =>
    hut (Option.some.inj ((hin.holds hu).symm.trans (hmine.holds ht)))
  refine ⟨hin.seen, fun hheld => ?_, fun modTime rest hcons hw => ?_⟩
  · by_cases hl : o = .lock
    · subst hl
      have hnone := (onMutex_lock hmutex).1
      rw [hin.holds hheld] at hnone
      cases hnone
    · have hu : o ≠ .unlock := by
        rintro rfl
        exact hfree hheld hmay
      rw [onMutex_same hl hu hmutex]
      exact hin.holds hheld
  · obtain ⟨hheld, file, hobject, htime⟩ := hin.window modTime rest hcons hw
    refine ⟨hheld, file, ?_, htime⟩
    have hcomparing : comparing d key q' h' = true := comparing_iff.2 ⟨modTime, rest, hcons, hw⟩
    cases o with
    | link tmp =>
        rcases onFile_link hfile with ⟨-, hnone, -⟩ | ⟨hsame, -⟩
        · rw [hobject] at hnone
          cases hnone
        · rw [hsame, hobject]
    | stat => rw [(onFile_stat hfile).1, hobject]
    | remove => exact absurd hmay.2 (hfree hheld)
    | rename tmp =>
        rcases onFile_rename hfile with ⟨rfl, -⟩ | ⟨hsame, -⟩
        · rcases hmay with ⟨-, hplain⟩ | ⟨-, -, hmine⟩
          · rw [hapart rfl hplain] at hcomparing
            cases hcomparing
          · exact absurd hmine (hfree hheld)
        · rw [hsame, hobject]
    | _ => rw [(onFile_of_not_touches rfl hfile).1, hobject]

/-- What the calls do and in which order: their programs, and the discipline. -/
def rules (f : FilesystemBackend) (d : Digest) (key : String) (T : Type) :
    Protocol FileOp FileRes Req (Option StoreError) :=
  (f.process d key T).scripted.and (discipline d key)

variable {f}

theorem follows_rules : (f.process d key T).Follows (rules f d key T) :=
  Machine.follows_scripted.and (follows_discipline f T)

/-- Every call stands where it should. -/
def AllInOrder (d : Digest) (key : String) (v : View FileOp FileRes (Disk T) T Req) : Prop :=
  ∀ t q h, v.task t = some (q, h) → InOrder d key v.shared t q h

variable [DecidableEq T] {v v' : View FileOp FileRes (Disk T) T Req}

theorem allInOrder_move {l : Label FileOp FileRes T Req (Option StoreError)}
    (hv : AllInOrder d key v) (hmove : Move (f.process d key T) (rules f d key T) v l v')
    (hA : Apart d key v l) : AllInOrder d key v' := by
  refine hmove.tasks hv (fun _ => InOrder.fresh) ?_ ?_
  · intro t q h o a r s _ ht hmay he
    exact (hv t q h ht).self hmay.2 he
  · intro t q h o a r s hl ht hmay he u q' h' hut hu
    subst hl
    refine (hv u q' h' hu).other hut (hv t q h ht) hmay.2 he fun hren hplain => ?_
    have hnot := hA hren (by simp [plainAt, ht, hplain]) u hut
    simpa [comparingAt, hu] using hnot

/-! ## The decisive step is the point of a call -/

theorem passed_cons {q : Req} {h : FileHist} {e : FileEv} :
    passed d key q (e :: h) ↔ decisive d key q e = true ∨ passed d key q h := by
  simp [passed]

/-- What a call saw without looking at the object could be seen at any time. -/
theorem Quiet.executes {h : FileHist} (hh : Quiet h) (hseen : ∀ e ∈ h, ∃ x x', Step x e x')
    (x : Option File) : Executes (fun e x x' => Step x e x') x h.reverse x := by
  refine executes_of_still fun e he => ?_
  obtain ⟨y, y', a, hstep⟩ := hseen e (List.mem_reverse.1 he)
  exact ⟨a, (onFile_of_not_touches (hh e (List.mem_reverse.1 he)) hstep).2 x⟩

/-- After its decisive step a call does not look at the object again. -/
theorem may_after {q : Req} {h : FileHist} {o : FileOp} (hmay : (discipline d key).may q h o)
    (hp : passed d key q h) : o.touches = false := by
  cases o with
  | link tmp => exact absurd hp (Quiet.not_passed hmay)
  | stat => exact absurd hp hmay.1.not_passed
  | remove => exact absurd hp hmay.1.not_passed
  | rename tmp =>
      rcases hmay with ⟨hquiet, -⟩ | ⟨hcomparing, hquiet, -⟩
      · exact absurd hp hquiet.not_passed
      · -- the compare that found the wanted ETag is not decisive
        obtain ⟨modTime, rest, rfl, hw⟩ := comparing_iff.1 hcomparing
        rcases passed_cons.1 hp with hdec | hp
        · simp [decisive, hw] at hdec
        · exact absurd hp (Quiet.not_passed hquiet)
  | _ => rfl

/-- Before its decisive step a call changes nothing. -/
theorem object_before {q : Req} {h : FileHist} {o : FileOp} {a : Ans} {r : FileRes o}
    {x x' : Option File} (hstep : onFile x o a = some (r, x'))
    (hp : ¬ passed d key q (⟨o, r⟩ :: h)) : x' = x := by
  have hdec : ¬ decisive d key q ⟨o, r⟩ = true := fun hdec => hp (passed_cons.2 (.inl hdec))
  cases o with
  | link tmp => exact absurd rfl hdec
  | rename tmp => exact absurd rfl hdec
  | remove => exact absurd rfl hdec
  | stat => exact (onFile_stat hstep).1
  | _ => exact (onFile_of_not_touches rfl hstep).1

omit [DecidableEq T] in
/-- At its decisive step a call could have done all it did so far. -/
theorem executes_at_point {s s' : Disk T} {t : T} {q : Req} {h : FileHist} {o : FileOp} {a : Ans}
    {r : FileRes o} (hin : InOrder d key s t q h) (hmay : (discipline d key).may q h o)
    (he : onDisk s t o a = some (r, s')) (hp : passed d key q (⟨o, r⟩ :: h))
    (hbefore : ¬ passed d key q h) :
    Executes (fun e x x' => Step x e x') s.object (⟨o, r⟩ :: h).reverse s'.object := by
  have hstep : Step s.object ⟨o, r⟩ s'.object := ⟨a, (onDisk_eq_some he).2⟩
  rw [List.reverse_cons]
  refine executes_append.2 ⟨s.object, ?_, executes_singleton.2 hstep⟩
  have hquiet (hquiet : Quiet h) := hquiet.executes hin.seen s.object
  have hdec : decisive d key q ⟨o, r⟩ = true := (passed_cons.1 hp).resolve_right hbefore
  cases o with
  | link tmp => exact hquiet hmay
  | stat => exact hquiet hmay.1
  | remove => exact hquiet hmay.1
  | rename tmp =>
      rcases hmay with ⟨hh, -⟩ | ⟨hcomparing, hrest, hheld⟩
      · exact hquiet hh
      · -- the object is still the one that was compared
        obtain ⟨modTime, rest, rfl, hw⟩ := comparing_iff.1 hcomparing
        obtain ⟨-, file, hobject, rfl⟩ := hin.window modTime rest rfl hw
        have hseen := (List.forall_mem_cons.1 hin.seen).2
        rw [List.reverse_cons]
        refine executes_append.2
          ⟨s.object, Quiet.executes hrest hseen s.object, executes_singleton.2 ⟨.go, ?_⟩⟩
        rw [hobject]
        rfl
  | _ => cases hdec

theorem points : Points (f.process d key T) (rules f d key T) (fun v l _ => Apart d key v l)
    (AllInOrder d key) Disk.object Step (passed d key) where
  fresh q := Quiet.not_passed fun e he => by cases he
  stays := passed.cons _
  alive := id
  before := by
    intro v t e v' q h hv hmove _ ht hp
    obtain ⟨o, r⟩ := e
    obtain ⟨_, _, a, _, _, he⟩ := hmove.did_cases
    exact object_before (onDisk_eq_some he).2 hp
  point := by
    intro v t e v' q h hv hmove _ ht hbefore hp
    obtain ⟨o, r⟩ := e
    obtain ⟨q', h', a, ht', hmay, he⟩ := hmove.did_cases
    cases ht.symm.trans ht'
    exact executes_at_point (hv t q h ht) hmay.2 he hp hbefore
  after := by
    intro v t e v' q h hv hmove _ ht hp
    obtain ⟨o, r⟩ := e
    obtain ⟨q', h', a, ht', hmay, he⟩ := hmove.did_cases
    cases ht.symm.trans ht'
    obtain ⟨hsame, hframe⟩ := onFile_of_not_touches (may_after hmay.2 hp) (onDisk_eq_some he).2
    exact ⟨hsame, fun x => ⟨a, hframe x⟩⟩
  none := by
    intro v t q h out hv ht hdone hp
    exact (hdone.2.resolve_left hp).executes (hv t q h ht).seen v.shared.object

/-! ## Results -/

/-- The object an If-Match put replaces carries the ETag it asked for. -/
def CarriesETag (d : Digest) (key : String) (v : View FileOp FileRes (Disk T) T Req) :
    Label FileOp FileRes T Req (Option StoreError) → Prop
  | .did t e => renamed e = true → ∀ q h etag, v.task t = some (q, h) → q.wants = some etag →
      ∃ file, v.shared.object = some file ∧ generateETag d key file.modTime = etag
  | .start _ _ | .finish _ _ _ | .crash _ => True

theorem carriesETag_move {l : Label FileOp FileRes T Req (Option StoreError)}
    (hv : AllInOrder d key v) (hmove : Move (f.process d key T) (rules f d key T) v l v') :
    CarriesETag d key v l := by
  cases hmove with
  | start _ => trivial
  | finish _ _ => trivial
  | crash => trivial
  | @did t q h o a r s ht hmay he =>
      intro hren q' h' etag ht' hwants
      cases ht.symm.trans ht'
      cases o with
      | rename tmp =>
          rcases hmay.2 with ⟨-, hplain⟩ | ⟨hcomparing, -, -⟩
          · rw [Req.wants_of_plain hplain] at hwants
            cases hwants
          · obtain ⟨modTime, rest, rfl, hw⟩ := comparing_iff.1 hcomparing
            obtain ⟨-, file, hobject, rfl⟩ := (hv t q _ ht).window modTime rest rfl hw
            exact ⟨file, hobject, Option.some.inj (hw.symm.trans hwants)⟩
      | _ => cases hren

/-- Where no plain put renames between the compare and the rename of an If-Match put, the backend is
an atomic object store. -/
theorem calls_linearizable (f : FilesystemBackend) (d : Digest) (key : String) (x : Option File)
    (as : List (Action T Req Ans)) (c' : Config FileOp FileRes (Disk T) T Req (Option StoreError))
    (hrun : (f.process d key T).run (Config.idle ⟨x, none⟩) as = some c')
    (hidle : ∀ t, c'.task t = none)
    (hapart : (f.process d key T).Meets (fun v l _ => Apart d key v l)
      (Config.idle ⟨x, none⟩) as) :
    let calls := (f.process d key T).completed (Config.idle ⟨x, none⟩) as
    Linearizable (f.alone d key) x calls c'.shared.object ∧
      (f.process d key T).Meets (fun v l _ => CarriesETag d key v l) (Config.idle ⟨x, none⟩) as ∧
      calls.countP creates + size x ≤ calls.countP removes + 1 ∧
      (((times x ++ calls.flatMap writes).map (generateETag d key)).Nodup →
        calls.Pairwise fun a b => ∀ etag, ¬ (Wins etag a ∧ Wins etag b)) := by
  have hinit : AllInOrder d key
      (Config.idle ⟨x, none⟩ : Config FileOp FileRes (Disk T) T Req (Option StoreError)).view :=
    fun t q h ht => by cases ht
  have hlinear : Linearizable (f.alone d key) x
      ((f.process d key T).completed (Config.idle ⟨x, none⟩) as) c'.shared.object := by
    refine (Machine.linearizable_of_points follows_rules
      (fun v l v' => allInOrder_move) points hinit hapart hrun hidle).mono ?_
    rintro c y y' ⟨hdone, hexec⟩
    exact ⟨_, Prog.runs_of_path hdone.1 hexec, rfl⟩
  obtain ⟨order, hperm, hexec, -⟩ := id hlinear
  refine ⟨hlinear, ?_, ?_, fun hdistinct => ?_⟩
  · refine (Machine.run_meets follows_rules (fun v l v' => allInOrder_move) as _
      (Machine.onTrack_idle _) hinit hapart).mono ?_
    rintro v l v' ⟨hmove, -, hv, -⟩
    exact carriesETag_move hv hmove
  · have hsize := size_le_one c'.shared.object
    have hle := creates_le hexec
    rw [hperm.countP_eq, hperm.countP_eq] at hle
    omega
  · have hsame : ((times x ++ order.flatMap writes).map (generateETag d key)).Nodup :=
      ((((hperm.flatMap_right writes).append_left _).map _).nodup_iff).2 hdistinct
    refine (hperm.pairwise_iff fun {a b} hab etag hwin => ?_).1 (wins_once hexec hsame)
    exact hab etag hwin.symm

end Run

end Protocol

/-! ## A plain put and an If-Match put -/

/-- The modification time in strokes, and no hashing. -/
def strokes : Digest where
  timeString modTime := String.ofList (List.replicate modTime '|')
  md5 := id

abbrev Schedule (T : Type) : Type :=
  List (Action T Req Ans)

/-- A thread makes a put and gets as far as its temporary file. -/
def prepare {T : Type} (t : T) (data : Bytes) (opts : PutOptions) (modTime : Nat) : Schedule T :=
  [.start t (.put data opts), .step t .go, .step t .go, .step t (.time modTime), .step t .go,
    .step t .go]

/-- It syncs the directory, removes the name of its temporary file and returns. -/
def conclude {T : Type} (t : T) : Schedule T :=
  [.step t .go, .step t .go, .finish t]

/-- Thread 0 compares and renames while thread 1 has its file ready; then thread 1 renames. -/
def inTurn : Schedule (Fin 2) :=
  prepare 0 [2] ⟨"", "a"⟩ 1 ++ prepare 1 [3] ⟨"", ""⟩ 2 ++
    ([.step 0 .go, .step 0 .go, .step 0 .go, .step 0 .go, .step 1 .go] : Schedule (Fin 2)) ++
    conclude 1 ++ conclude 0

open FilesystemBackend in
theorem calls_linearizable_inTurn :
    ∃ c', (certsBackend.process strokes "a" (Fin 2)).run (Config.idle ⟨some ⟨[1], 0⟩, none⟩)
        inTurn = some c' ∧
      Linearizable (certsBackend.alone strokes "a") (some ⟨[1], 0⟩)
        ((certsBackend.process strokes "a" (Fin 2)).completed (Config.idle ⟨some ⟨[1], 0⟩, none⟩)
          inTurn) c'.shared.object := by
  obtain ⟨c', hrun, hidle⟩ : ∃ c' ∈ (certsBackend.process strokes "a" (Fin 2)).run
      (Config.idle ⟨some ⟨[1], 0⟩, none⟩) inTurn, ∀ t, c'.task t = none := by
    decide +kernel
  have hapart : (certsBackend.process strokes "a" (Fin 2)).Meets
      (fun v l _ => Apart strokes "a" v l) (Config.idle ⟨some ⟨[1], 0⟩, none⟩) inTurn := by
    decide +kernel
  exact ⟨c', hrun, (calls_linearizable certsBackend strokes "a" _ inTurn c' hrun hidle hapart).1⟩

/-- Thread 0 compares, thread 1 puts, thread 0 renames. -/
def overtaken : Schedule (Fin 2) :=
  prepare 0 [2] ⟨"", "a"⟩ 1 ++ ([.step 0 .go, .step 0 .go] : Schedule (Fin 2)) ++
    prepare 1 [3] ⟨"", ""⟩ 2 ++ (.step 1 .go :: conclude 1 : Schedule (Fin 2)) ++
    (.step 0 .go :: .step 0 .go :: conclude 0 : Schedule (Fin 2))

/-- What a call was asked and told, and when its data was written. -/
def told (c : FileCall) : Req × Option StoreError × List Nat :=
  (c.req, c.out, writes c)

theorem executes_told {f : FilesystemBackend} {d : Digest} {key : String} {x x' : Option File}
    {order : List FileCall} (h : Executes (f.alone d key) x order x') :
    Executes (fun k => Serves d key k.1 k.2.1 k.2.2) x (order.map told) x' :=
  executes_map.2 (h.mono fun _ _ _ _ => alone_serves)

open FilesystemBackend in
theorem told_overtaken :
    ((certsBackend.process strokes "a" (Fin 2)).completed (Config.idle ⟨some ⟨[1], 0⟩, none⟩)
      overtaken).map told =
      [(.put [2] ⟨"", "a"⟩, none, [1]), (.put [3] ⟨"", ""⟩, none, [2])] := by
  decide +kernel

open FilesystemBackend in
/-- Both puts report success and the object ends as the If-Match put left it, though the ETag it
asked for was gone when it renamed: no order of the two calls explains that. -/
theorem overtaken_not_linearizable :
    ∃ c', (certsBackend.process strokes "a" (Fin 2)).run (Config.idle ⟨some ⟨[1], 0⟩, none⟩)
        overtaken = some c' ∧
      (∀ t, c'.task t = none) ∧
      ((times (some ⟨[1], 0⟩) ++ ((certsBackend.process strokes "a" (Fin 2)).completed
        (Config.idle ⟨some ⟨[1], 0⟩, none⟩) overtaken).flatMap writes).map
          (generateETag strokes "a")).Nodup ∧
      ¬ Linearizable (certsBackend.alone strokes "a") (some ⟨[1], 0⟩)
        ((certsBackend.process strokes "a" (Fin 2)).completed (Config.idle ⟨some ⟨[1], 0⟩, none⟩)
          overtaken) c'.shared.object := by
  obtain ⟨c', hrun, hidle, hobject⟩ : ∃ c' ∈ (certsBackend.process strokes "a" (Fin 2)).run
      (Config.idle ⟨some ⟨[1], 0⟩, none⟩) overtaken,
      (∀ t, c'.task t = none) ∧ c'.shared.object = some ⟨[2], 1⟩ := by
    decide +kernel
  refine ⟨c', hrun, hidle, by decide +kernel, ?_⟩
  rintro ⟨order, hperm, hexec, -⟩
  have htold := hperm.map told
  rw [told_overtaken] at htold
  have hserved := executes_told hexec
  rw [hobject] at hserved
  rcases List.perm_pair.1 htold with horder | horder
  · -- the plain put last: its data would be there
    rw [horder] at hserved
    obtain ⟨x₁, -, x₂, hplain, hlast⟩ := hserved
    obtain rfl : some ⟨[2], 1⟩ = x₂ := hlast
    cases hplain
  · -- the plain put first: the ETag would be another
    rw [horder] at hserved
    obtain ⟨x₁, hplain, x₂, hmatch, -⟩ := hserved
    obtain rfl : x₁ = some ⟨[3], 2⟩ := by
      cases hplain with
      | replaced _ => rfl
      | overwritten _ => rfl
    cases hmatch with
    | replaced hwants => exact absurd hwants (by decide)
    | overwritten hplain => exact absurd hplain (by decide)

end Storage
end CertsManager
