import CertsManager.Lease.Model

/-!
# Exclusion — at no time do two attempts hold the lease of one hostname

The protocol of an attempt is a small automaton (`Phase`) over its own calls.  The invariant ties
each phase to the object in storage: a holder's record is the one stored, and an attempt about to
replace a record holds an ETag that names only expired ones.

The second half is where the context matters.  An attempt that stats one record and reads a later
one carries the ETag of the first; on a backend that tags by content that ETag may come to name a
live record again.  It does not, because a record written after the stat outlives the context the
stat was made under: `issueLeaseTTL` is more than twice `issueTimeout`.
-/

namespace CertsManager
namespace Lease

open Interleave

/-! ## Phases of an attempt -/

inductive Phase where
  | fresh
  | timed (ctx : Time)
  | ready (ctx : Time) (data : LeaseRecord)
  | refused (ctx : Time) (data : LeaseRecord)
  | tagged (ctx : Time) (data : LeaseRecord) (etag : ETag)
  | judged (ctx : Time) (data : LeaseRecord) (etag : ETag) (existing : LeaseRecord)
  | stale (ctx : Time) (data : LeaseRecord) (etag : ETag) (existing : LeaseRecord)
  | held (data : LeaseRecord)
  | leaving (data : LeaseRecord)
  | ended

@[grind =] def advance (q : Attempt) : Phase → Ev Op Res → Phase
  | .fresh, ⟨.now, t⟩ => .timed (t + issueTimeout)
  | .timed ctx, ⟨.now, t⟩ => .ready ctx ⟨q.nodeID, unix (t + issueLeaseTTL)⟩
  | .ready ctx data, ⟨.create _ _ _, r⟩ =>
      match r with
      | .ok => .held data
      | _ => .refused ctx data
  | .refused ctx data, ⟨.stat _ _, r⟩ =>
      match r with
      | .ok etag => .tagged ctx data etag
      | .error _ => .ended
  | .tagged ctx data etag, ⟨.get _ _, r⟩ =>
      match r with
      | .ok existing => .judged ctx data etag existing
      | .error _ => .ended
  | .judged ctx data etag existing, ⟨.now, t⟩ =>
      if unix t < existing.expiresAt then .ended else .stale ctx data etag existing
  | .stale _ data _ _, ⟨.replace _ _ _ _, r⟩ =>
      match r with
      | .ok => .held data
      | _ => .ended
  | .held data, ⟨.now, _⟩ => .held data
  | .held data, ⟨.get _ _, r⟩ =>
      match r with
      | .ok existing => if existing.owner ≠ q.nodeID then .ended else .leaving data
      | .error _ => .leaving data
  | _, _ => .ended

def phase (q : Attempt) (h : Hist Op Res) : Phase :=
  h.foldr (fun e p => advance q p e) .fresh

@[simp] theorem phase_nil (q : Attempt) : phase q [] = .fresh := rfl

@[simp] theorem phase_cons (q : Attempt) (e : Ev Op Res) (h : Hist Op Res) :
    phase q (e :: h) = advance q (phase q h) e :=
  rfl

section Advance

variable {q : Attempt} {ctx ctx' t : Time} {key : String} {data existing : LeaseRecord} {etag : ETag}

theorem advance_judged_live (h : unix t < existing.expiresAt) :
    advance q (.judged ctx data etag existing) ⟨.now, t⟩ = .ended :=
  if_pos h

theorem advance_judged_expired (h : ¬ unix t < existing.expiresAt) :
    advance q (.judged ctx data etag existing) ⟨.now, t⟩ = .stale ctx data etag existing :=
  if_neg h

theorem advance_held_own (h : existing.owner = q.nodeID) :
    advance q (.held data) ⟨.get ctx' key, .ok existing⟩ = .leaving data :=
  if_neg (not_not.2 h)

theorem advance_held_other (h : existing.owner ≠ q.nodeID) :
    advance q (.held data) ⟨.get ctx' key, .ok existing⟩ = .ended :=
  if_pos h

end Advance

/-- The record of an attempt that holds the lease: from the put that won it to the end of its
release. -/
def Phase.holds : Phase → Option LeaseRecord
  | .held data => some data
  | .leaving data => some data
  | _ => none

/-! ## The protocol of an attempt -/

def mayCall (keyPrefix : String) (q : Attempt) (h : Hist Op Res) (o : Op) : Prop :=
  match phase q h, o with
  | .fresh, .now => True
  | .timed _, .now => True
  | .ready ctx data, .create ctx' key data' => ctx' = ctx ∧ key = q.key keyPrefix ∧ data' = data
  | .refused ctx _, .stat ctx' key => ctx' = ctx ∧ key = q.key keyPrefix
  | .tagged ctx _ _, .get ctx' key => ctx' = ctx ∧ key = q.key keyPrefix
  | .judged _ _ _ _, .now => True
  | .stale ctx data etag _, .replace ctx' key data' etag' =>
      ctx' = ctx ∧ key = q.key keyPrefix ∧ data' = data ∧ etag' = etag
  | .held _, .now => True
  | .held _, .get _ key => key = q.key keyPrefix
  | .leaving _, .remove _ key => key = q.key keyPrefix
  | _, _ => False

example (keyPrefix : String) (q : Attempt) : mayCall keyPrefix q [] .now := by simp [mayCall]

def protocol (keyPrefix : String) : Protocol Op Res Attempt Unit where
  may := mayCall keyPrefix
  done _ _ _ := True

section Conformance

variable {keyPrefix : String} {q : Attempt} {h : Hist Op Res}

theorem tryCreate_conforms {ctx : Time} {data : LeaseRecord} (hp : phase q h = .ready ctx data) :
    (Leaser.tryCreate ctx (q.key keyPrefix) data).Conforms (mayCall keyPrefix q) h fun h' won =>
      phase q h' = if won then .held data else .refused ctx data := by
  simp only [Leaser.tryCreate, call, Prog.conforms_bind, Prog.conforms_perform]
  refine ⟨by simp [mayCall, hp], fun r => ?_⟩
  cases r with
  | ok => simp [hp, advance]
  | conditional => simp [hp, advance]
  | failed => simp [hp, advance]

theorem takeOver_conforms {ctx : Time} {data existing : LeaseRecord} {etag : ETag}
    (hp : phase q h = .stale ctx data etag existing) :
    (Leaser.takeOver ctx (q.key keyPrefix) data etag).Conforms (mayCall keyPrefix q) h fun h' won =>
      phase q h' = if won then .held data else .ended := by
  simp only [Leaser.takeOver, call, Prog.conforms_bind, Prog.conforms_perform]
  refine ⟨by simp [mayCall, hp], fun r => ?_⟩
  cases r with
  | ok => simp [hp, advance]
  | conditional => simp [hp, advance]
  | failed => simp [hp, advance]

/-- An attempt that is told it acquired the lease is in the phase of a holder. -/
theorem acquire_conforms {ctx : Time} (hp : phase q h = .timed ctx) :
    ((q.leaser keyPrefix).acquire ctx (Layout.certDomain q.name)).Conforms (mayCall keyPrefix q) h
      fun h' won => won = true → ∃ data, phase q h' = .held data := by
  simp only [Leaser.acquire, Leaser.read, call, Attempt.leaser_hasBackend, Attempt.leaser_key,
    Attempt.leaser_nodeID, Attempt.leaser_ttl, Bool.not_true, Bool.false_eq_true, if_false,
    Prog.conforms_bind, Prog.conforms_perform]
  refine ⟨by simp [mayCall, hp], fun t => ?_⟩
  refine (tryCreate_conforms (by simp [hp, advance])).mono fun h₁ won hp₁ => ?_
  cases won with
  | true => exact fun _ => ⟨_, by simpa using hp₁⟩
  | false =>
      simp only [Bool.false_eq_true, if_false, Prog.conforms_bind, Prog.conforms_perform] at hp₁ ⊢
      refine ⟨by simp [mayCall, hp₁], fun r => ?_⟩
      cases r with
      | error e => simp
      | ok etag =>
          simp only [Prog.conforms_bind, Prog.conforms_perform]
          refine ⟨by simp [mayCall, hp₁, advance], fun r => ?_⟩
          cases r with
          | error e => simp
          | ok existing =>
              simp only [Prog.conforms_bind, Prog.conforms_perform]
              refine ⟨by simp [mayCall, hp₁, advance], fun t' => ?_⟩
              by_cases hlive : unix t' < existing.expiresAt
              · simp [hlive]
              · rw [if_neg hlive]
                refine (takeOver_conforms (by simp [hp₁, advance, hlive]; rfl)).mono ?_
                exact fun h₂ won hp₂ hwon => ⟨_, by simpa [hwon] using hp₂⟩

theorem release_conforms {data : LeaseRecord} (hp : phase q h = .held data) :
    ((q.leaser keyPrefix).release (q.key keyPrefix)).Conforms (mayCall keyPrefix q) h
      fun _ _ => True := by
  simp only [Leaser.release, Leaser.read, call, Prog.conforms_bind, Prog.conforms_perform]
  refine ⟨by simp [mayCall, hp], fun t => ⟨by simp [mayCall, hp, advance], fun r => ?_⟩⟩
  cases r with
  | error e => simp [mayCall, hp, advance]
  | ok r =>
      by_cases hown : r.owner = q.nodeID
      · simp [mayCall, hp, advance, hown]
      · simp [hown]

end Conformance

theorem machine_follows (T : Type) (b : Backend) (keyPrefix : String) :
    (machine T b keyPrefix).Follows (protocol keyPrefix) := by
  intro q
  show (attempt keyPrefix q).Conforms (mayCall keyPrefix q) [] fun _ _ => True
  simp only [attempt, call, Prog.conforms_bind, Prog.conforms_perform]
  refine ⟨by simp [mayCall], fun t => (acquire_conforms (by simp [advance])).mono ?_⟩
  intro h held hheld
  cases held with
  | true =>
      obtain ⟨data, hp⟩ := hheld rfl
      exact release_conforms hp
  | false => simp

/-! ## What storage does while an attempt is on its way -/

/-- How far past its context an attempt's record reaches. -/
def leaseMargin : Time := issueLeaseTTL - issueTimeout

theorem unix_lt_of_margin {ctx clock expiresAt : Nat} (hctx : ctx ≤ clock + issueTimeout)
    (hrec : unix (clock + leaseMargin) ≤ expiresAt) : unix ctx < expiresAt := by
  simp only [unix, leaseMargin, issueLeaseTTL, issueTimeout, minute, second] at *
  omega

theorem margin_le {ctx clock : Nat} (h : ctx ≤ clock + issueTimeout) :
    ctx + leaseMargin ≤ clock + issueLeaseTTL := by
  simp only [leaseMargin, issueLeaseTTL, issueTimeout, minute, second] at *
  omega

/-- What a step of any attempt does to storage, for an attempt that only watches: time passes, and
an object it finds afterwards was there before or is a new write with a long life ahead. -/
structure Evolves (b : Backend) (s s' : State) : Prop where
  clock : s.clock ≤ s'.clock
  writes : s.writes ≤ s'.writes
  object : ∀ key o, s'.object key = some o → s.object key = some o ∨
    (s.writes ≤ o.version ∧ o.version < s'.writes ∧
      (b.late = false → unix (s'.clock + leaseMargin) ≤ o.record.expiresAt))

theorem Evolves.refl (b : Backend) (s : State) : Evolves b s s :=
  ⟨le_rfl, le_rfl, fun _ _ h => Or.inl h⟩

theorem evolves_tick (b : Backend) (s : State) (d : Time) : Evolves b s (s.tick d) :=
  ⟨Nat.le_add_right _ _, le_rfl, fun _ _ h => Or.inl h⟩

theorem evolves_erase (b : Backend) (s : State) (key : String) : Evolves b s (s.erase key) := by
  refine ⟨le_rfl, le_rfl, fun key' o h => Or.inl ?_⟩
  by_cases hk : key' = key
  · subst hk
    simp at h
  · simpa [hk] using h

theorem evolves_write {b : Backend} {s : State} {key : String} {data : LeaseRecord}
    (h : b.late = false → unix (s.clock + leaseMargin) ≤ data.expiresAt) :
    Evolves b s (s.write key data) := by
  refine ⟨le_rfl, Nat.le_succ _, fun key' o ho => ?_⟩
  by_cases hk : key' = key
  · subst hk
    obtain rfl : ⟨data, s.writes⟩ = o := by simpa using ho
    exact Or.inr ⟨le_rfl, Nat.lt_succ_self _, h⟩
  · exact Or.inl (by simpa [hk] using ho)

/-- A conditional put either changes nothing and is not granted, or was made in time, met its
precondition and wrote. -/
theorem condPut_cases {s s' : State} {inTime pre : Bool} {key : String} {data : LeaseRecord}
    {out : Outcome} {r : PutResult} (h : condPut s inTime pre key data out = some (r, s')) :
    (r ≠ .ok ∧ s' = s) ∨ (inTime = true ∧ pre = true ∧ s' = s.write key data) := by
  cases out <;> cases inTime <;> cases pre <;> simp [condPut] at h <;>
    obtain ⟨rfl, rfl⟩ := h <;> simp

theorem readObject_cases {α : Type} {s s' : State} {inTime : Bool} {key : String} {f : Object → α}
    {out : Outcome} {r : Except ReadError α} (h : readObject s inTime key f out = some (r, s')) :
    s' = s ∧ ∀ x, r = .ok x → ∃ o, s.object key = some o ∧ f o = x := by
  cases out with
  | ok =>
      cases inTime <;> cases ho : s.object key <;> simp [readObject, ho] at h <;>
        obtain ⟨rfl, rfl⟩ := h <;> simp
  | fail | lost | conflict =>
      obtain ⟨rfl, rfl⟩ : Except.error ReadError.failed = r ∧ s = s' := by
        simpa [readObject] using h
      simp

theorem remove_cases {b : Backend} {s s' : State} {ctx : Time} {key : String} {out : Outcome}
    {r : Bool} (h : execAt b s (.remove ctx key) out = some (r, s')) :
    s' = s ∨ s' = s.erase key := by
  cases out with
  | ok =>
      obtain ⟨-, -, rfl⟩ : (b.late = true ∨ s.clock < ctx) ∧ r = true ∧ s.erase key = s' := by
        simpa [execAt] using h
      exact Or.inr rfl
  | lost =>
      obtain ⟨-, -, rfl⟩ : (b.late = true ∨ s.clock < ctx) ∧ r = false ∧ s.erase key = s' := by
        simpa [execAt] using h
      exact Or.inr rfl
  | fail | conflict =>
      obtain ⟨-, rfl⟩ : r = false ∧ s = s' := by simpa [execAt] using h
      exact Or.inl rfl

/-! ## What each phase knows -/

/-- The record an attempt would write outlives the attempt's context, which is not far off. -/
structure Fits (s : State) (ctx : Time) (data : LeaseRecord) : Prop where
  near : ctx ≤ s.clock + issueTimeout
  outlives : unix (ctx + leaseMargin) ≤ data.expiresAt

/-- What the ETag of a stat says of the object from then on: it is still the record `r` that was
there, stored by the `n`-th write, or a later one that outlives the context. -/
structure Tagged (b : Backend) (s : State) (key : String) (ctx : Time) (r : LeaseRecord)
    (n : Nat) : Prop where
  old : n < s.writes
  record : ∀ o, s.object key = some o → o.version = n → o.record = r
  later : b.late = false → ∀ o, s.object key = some o →
    o.record = r ∨ unix ctx < o.record.expiresAt

/-- How the record read after the stat relates to the one the ETag names. -/
inductive Judged (b : Backend) (s : State) (key : String) (ctx : Time) (r : LeaseRecord) (n : Nat)
    (existing : LeaseRecord) : Prop where
  | same : existing = r → Judged b s key ctx r n existing
  | outlives : b.late = false → unix ctx < existing.expiresAt → Judged b s key ctx r n existing
  | gone : b.late = true → n < s.writes → (∀ o, s.object key = some o → o.version ≠ n) →
      Judged b s key ctx r n existing

def Phase.Safe (b : Backend) (s : State) (key : String) : Phase → Prop
  | .fresh => True
  | .timed ctx => ctx ≤ s.clock + issueTimeout
  | .ready ctx data => Fits s ctx data
  | .refused ctx data => Fits s ctx data
  | .tagged ctx data etag => Fits s ctx data ∧ ∃ r n, b.tag r n = etag ∧ Tagged b s key ctx r n
  | .judged ctx data etag existing =>
      Fits s ctx data ∧ ∃ r n, b.tag r n = etag ∧ Judged b s key ctx r n existing
  | .stale ctx data etag existing =>
      Fits s ctx data ∧ existing.expiresAt ≤ unix s.clock ∧
        ∃ r n, b.tag r n = etag ∧ Judged b s key ctx r n existing
  | .held data => ∃ n, s.object key = some ⟨data, n⟩
  | .leaving data => ∃ n, s.object key = some ⟨data, n⟩
  | .ended => True

section Stability

variable {b : Backend} {s s' : State} {key : String} {ctx : Time} {data existing r : LeaseRecord}
  {n : Nat}

theorem Fits.mono (h : Fits s ctx data) (hev : Evolves b s s') : Fits s' ctx data :=
  ⟨h.near.trans (Nat.add_le_add_right hev.clock _), h.outlives⟩

theorem Tagged.mono (hfit : Fits s ctx data) (h : Tagged b s key ctx r n) (hev : Evolves b s s') :
    Tagged b s' key ctx r n := by
  refine ⟨h.old.trans_le hev.writes, fun o ho hn => ?_, fun hlate o ho => ?_⟩
  · rcases hev.object key o ho with hold | ⟨hnew, -, -⟩
    · exact h.record o hold hn
    · exact absurd hn (h.old.trans_le hnew).ne'
  · rcases hev.object key o ho with hold | ⟨-, -, hlong⟩
    · exact h.later hlate o hold
    · exact Or.inr (unix_lt_of_margin (hfit.mono hev).near (hlong hlate))

theorem Judged.mono (h : Judged b s key ctx r n existing) (hev : Evolves b s s') :
    Judged b s' key ctx r n existing := by
  cases h with
  | same he => exact .same he
  | outlives hlate he => exact .outlives hlate he
  | gone hlate hn hgone =>
      refine .gone hlate (hn.trans_le hev.writes) fun o ho => ?_
      rcases hev.object key o ho with hold | ⟨hnew, -, -⟩
      · exact hgone o hold
      · exact (hn.trans_le hnew).ne'

/-- What an attempt that does not hold the lease knows stays true whatever the others do. -/
theorem safe_mono {ph : Phase} (hev : Evolves b s s') (hph : ph.holds = none)
    (h : ph.Safe b s key) : ph.Safe b s' key := by
  cases ph with
  | fresh => trivial
  | ended => trivial
  | timed ctx => exact h.trans (Nat.add_le_add_right hev.clock _)
  | ready ctx data => exact Fits.mono h hev
  | refused ctx data => exact Fits.mono h hev
  | tagged ctx data etag =>
      obtain ⟨hfit, r, n, htag, ht⟩ := h
      exact ⟨hfit.mono hev, r, n, htag, ht.mono hfit hev⟩
  | judged ctx data etag existing =>
      obtain ⟨hfit, r, n, htag, hj⟩ := h
      exact ⟨hfit.mono hev, r, n, htag, hj.mono hev⟩
  | stale ctx data etag existing =>
      obtain ⟨hfit, hexp, r, n, htag, hj⟩ := h
      exact ⟨hfit.mono hev, hexp.trans (unix_mono hev.clock), r, n, htag, hj.mono hev⟩
  | held data => simp [Phase.holds] at hph
  | leaving data => simp [Phase.holds] at hph

end Stability

/-! ## One call of one attempt -/

/-- Every stored version is one of the writes made so far. -/
def Versioned (s : State) : Prop :=
  ∀ key o, s.object key = some o → o.version < s.writes

theorem Versioned.mono {b : Backend} {s s' : State} (h : Versioned s) (hev : Evolves b s s') :
    Versioned s' := by
  intro key o ho
  rcases hev.object key o ho with hold | ⟨-, hnew, -⟩
  · exact (h key o hold).trans_le hev.writes
  · exact hnew

/-- Whose turn a call was: it left the object and nobody began to hold, or its caller held the
lease already, or nobody's live record was there. -/
inductive Turn (key : String) (ph ph' : Phase) (s s' : State) : Prop where
  | same : s'.object key = s.object key → (ph.holds = none → ph'.holds = none) →
      Turn key ph ph' s s'
  | holder : ph.holds ≠ none → Turn key ph ph' s s'
  | free : (∀ o, s.object key = some o → o.record.expiresAt ≤ unix s'.clock) →
      Turn key ph ph' s s'

/-- Everything a call of an attempt on the lease `key` does. -/
structure Effect (b : Backend) (key : String) (ph ph' : Phase) (s s' : State) : Prop where
  evolves : Evolves b s s'
  frame : ∀ key', key' ≠ key → s'.object key' = s.object key'
  safe : ph'.Safe b s' key
  turn : Turn key ph ph' s s'

section Effects

variable {b : Backend} {s s' : State} {key : String} {ph ph' : Phase} {ctx : Time}
  {data existing : LeaseRecord} {etag : ETag}

theorem effect_quiet (hsafe : ph'.Safe b s key) (hph : ph.holds = none → ph'.holds = none) :
    Effect b key ph ph' s s :=
  ⟨.refl b s, fun _ _ => rfl, hsafe, .same rfl hph⟩

/-- A put in time over nothing, or over an expired record. -/
theorem effect_write (hfit : Fits s ctx data) (htime : (b.late || s.clock < ctx) = true)
    (hfree : ∀ o, s.object key = some o → o.record.expiresAt ≤ unix s.clock)
    (hsafe : ph'.Safe b (s.write key data) key) : Effect b key ph ph' s (s.write key data) := by
  refine ⟨evolves_write fun hlate => ?_, fun key' hk => by simp [hk], hsafe, .free hfree⟩
  have hclock : s.clock < ctx := by simpa [hlate] using htime
  exact (unix_mono (Nat.add_le_add_right hclock.le _)).trans hfit.outlives

theorem effect_erase (hph : ph.holds ≠ none) (hsafe : ph'.Safe b (s.erase key) key) :
    Effect b key ph ph' s (s.erase key) :=
  ⟨evolves_erase b s key, fun key' hk => by simp [hk], hsafe, .holder hph⟩

theorem safe_write (b : Backend) (s : State) (key : String) (data : LeaseRecord) :
    (Phase.held data).Safe b (s.write key data) key :=
  ⟨s.writes, by simp⟩

theorem create_effect {q : Attempt} {out : Outcome} {r : PutResult} {k : String} {c : Time}
    {d : LeaseRecord} (hfit : Fits s ctx data)
    (he : condPut s (b.late || s.clock < ctx) (s.object key).isNone key data out = some (r, s')) :
    Effect b key (.ready ctx data) (advance q (.ready ctx data) ⟨.create c k d, r⟩) s s' := by
  rcases condPut_cases he with ⟨hr, rfl⟩ | ⟨htime, hpre, rfl⟩
  · cases r with
    | ok => exact absurd rfl hr
    | conditional => exact effect_quiet hfit fun _ => rfl
    | failed => exact effect_quiet hfit fun _ => rfl
  · have hnone : s.object key = none := by simpa using hpre
    have hfit' : Fits (s.write key data) ctx data := ⟨hfit.near, hfit.outlives⟩
    refine effect_write hfit htime (by simp [hnone]) ?_
    cases r with
    | ok => exact safe_write b s key data
    | conditional => exact hfit'
    | failed => exact hfit'

/-- A stat tells the truth about the object at its moment. -/
theorem tagged_of_stored (hv : Versioned s) {o : Object} (ho : s.object key = some o) :
    Tagged b s key ctx o.record o.version := by
  have honly : ∀ o', s.object key = some o' → o' = o := fun o' ho' =>
    Option.some.inj (ho'.symm.trans ho)
  exact ⟨hv key o ho, fun o' ho' _ => by rw [honly o' ho'],
    fun _ o' ho' => Or.inl (by rw [honly o' ho'])⟩

theorem judged_of_tagged {r : LeaseRecord} {n : Nat} (ht : Tagged b s key ctx r n) {o : Object}
    (ho : s.object key = some o) : Judged b s key ctx r n o.record := by
  cases hlate : b.late with
  | false =>
      rcases ht.later hlate o ho with hsame | hlong
      · exact .same hsame
      · exact .outlives hlate hlong
  | true =>
      by_cases hn : o.version = n
      · exact .same (ht.record o ho hn)
      · refine .gone hlate ht.old fun o' ho' => ?_
        obtain rfl : o' = o := Option.some.inj (ho'.symm.trans ho)
        exact hn

/-- The heart of the take-over: an If-Match put in time that meets its ETag meets an expired
record, also when the record judged was not the one the ETag was taken from. -/
theorem expired_of_match {r : LeaseRecord} {n : Nat} (hj : Judged b s key ctx r n existing)
    (hexp : existing.expiresAt ≤ unix s.clock) (htime : (b.late || s.clock < ctx) = true)
    {o : Object} (ho : s.object key = some o) (htag : b.tag o.record o.version = b.tag r n) :
    o.record.expiresAt ≤ unix s.clock := by
  cases hj with
  | same he => rwa [b.tag_record htag, ← he]
  | outlives hlate hlong =>
      have hclock : s.clock < ctx := by simpa [hlate] using htime
      have hle : unix s.clock ≤ unix ctx := unix_mono hclock.le
      omega
  | gone hlate _ hgone => exact absurd (b.late_fresh hlate htag) (hgone o ho)

theorem replace_effect {q : Attempt} {out : Outcome} {r : PutResult} {k : String} {c : Time}
    {d : LeaseRecord} {e : ETag} (hsafe : (Phase.stale ctx data etag existing).Safe b s key)
    (he : condPut s (b.late || s.clock < ctx)
      ((s.object key).any fun o => b.tag o.record o.version = etag) key data out = some (r, s')) :
    Effect b key (.stale ctx data etag existing)
      (advance q (.stale ctx data etag existing) ⟨.replace c k d e, r⟩) s s' := by
  obtain ⟨hfit, hexp, r₀, n₀, rfl, hj⟩ := hsafe
  rcases condPut_cases he with ⟨hr, rfl⟩ | ⟨htime, hpre, rfl⟩
  · cases r with
    | ok => exact absurd rfl hr
    | conditional => exact effect_quiet trivial fun _ => rfl
    | failed => exact effect_quiet trivial fun _ => rfl
  · have hfree : ∀ o, s.object key = some o → o.record.expiresAt ≤ unix s.clock := by
      intro o ho
      exact expired_of_match hj hexp htime ho (by simpa [ho] using hpre)
    refine effect_write hfit htime hfree ?_
    cases r with
    | ok => exact safe_write b s key data
    | conditional => trivial
    | failed => trivial

/-- Each call the protocol allows, from what its caller's phase knows. -/
theorem execAt_effect {keyPrefix : String} {q : Attempt} {h : Hist Op Res} {o : Op} {out : Outcome}
    {r : Res o} (hv : Versioned s) (hmay : mayCall keyPrefix q h o)
    (hsafe : (phase q h).Safe b s (q.key keyPrefix)) (he : execAt b s o out = some (r, s')) :
    Effect b (q.key keyPrefix) (phase q h) (phase q (⟨o, r⟩ :: h)) s s' := by
  rw [phase_cons]
  cases hp : phase q h with
  | fresh =>
      cases o <;> simp [mayCall, hp] at hmay
      obtain ⟨rfl, rfl⟩ : s.clock = r ∧ s = s' := by simpa [execAt] using he
      exact effect_quiet (le_refl (s.clock + issueTimeout)) fun _ => rfl
  | timed ctx =>
      cases o <;> simp [mayCall, hp] at hmay
      obtain ⟨rfl, rfl⟩ : s.clock = r ∧ s = s' := by simpa [execAt] using he
      -- the record is dated no earlier than the context
      have hctx : ctx ≤ s.clock + issueTimeout := by simpa [hp, Phase.Safe] using hsafe
      have hfit : Fits s ctx ⟨q.nodeID, unix (s.clock + issueLeaseTTL)⟩ :=
        ⟨hctx, unix_mono (margin_le hctx)⟩
      exact effect_quiet hfit fun _ => rfl
  | ready ctx data =>
      cases o <;> simp [mayCall, hp] at hmay
      obtain ⟨rfl, rfl, rfl⟩ := hmay
      exact create_effect (by simpa [hp, Phase.Safe] using hsafe) he
  | refused ctx data =>
      cases o <;> simp [mayCall, hp] at hmay
      have hfit : Fits s ctx data := by simpa [hp, Phase.Safe] using hsafe
      obtain ⟨rfl, rfl⟩ := hmay
      obtain ⟨rfl, hread⟩ := readObject_cases he
      cases r with
      | error e => exact effect_quiet trivial fun _ => rfl
      | ok etag =>
          obtain ⟨o, ho, rfl⟩ := hread etag rfl
          exact effect_quiet ⟨hfit, _, _, rfl, tagged_of_stored hv ho⟩ fun _ => rfl
  | tagged ctx data etag =>
      cases o <;> simp [mayCall, hp] at hmay
      obtain ⟨rfl, rfl⟩ := hmay
      obtain ⟨hfit, r₀, n₀, htag, ht⟩ : (Phase.tagged _ data etag).Safe b s _ := hp ▸ hsafe
      obtain ⟨rfl, hread⟩ := readObject_cases he
      cases r with
      | error e => exact effect_quiet trivial fun _ => rfl
      | ok existing =>
          obtain ⟨o, ho, rfl⟩ := hread existing rfl
          exact effect_quiet ⟨hfit, r₀, n₀, htag, judged_of_tagged ht ho⟩ fun _ => rfl
  | judged ctx data etag existing =>
      cases o <;> simp [mayCall, hp] at hmay
      obtain ⟨rfl, rfl⟩ : s.clock = r ∧ s = s' := by simpa [execAt] using he
      obtain ⟨hfit, hj⟩ : (Phase.judged ctx data etag existing).Safe b s _ := hp ▸ hsafe
      by_cases hlive : unix s.clock < existing.expiresAt
      · rw [advance_judged_live hlive]
        exact effect_quiet trivial fun _ => rfl
      · rw [advance_judged_expired hlive]
        exact effect_quiet ⟨hfit, not_lt.1 hlive, hj⟩ fun _ => rfl
  | stale ctx data etag existing =>
      cases o <;> simp [mayCall, hp] at hmay
      obtain ⟨rfl, rfl, rfl, rfl⟩ := hmay
      exact replace_effect (hp ▸ hsafe) he
  | held data =>
      have hheld : (Phase.held data).Safe b s (q.key keyPrefix) := hp ▸ hsafe
      cases o <;> simp [mayCall, hp] at hmay
      case now =>
        obtain ⟨rfl, rfl⟩ : s.clock = r ∧ s = s' := by simpa [execAt] using he
        exact effect_quiet hheld id
      case get =>
        obtain ⟨rfl, -⟩ := readObject_cases he
        cases r with
        | error e => exact effect_quiet hheld (by simp [Phase.holds])
        | ok r =>
            by_cases hown : r.owner = q.nodeID
            · rw [advance_held_own hown]
              exact effect_quiet hheld (by simp [Phase.holds])
            · rw [advance_held_other hown]
              exact effect_quiet trivial fun _ => rfl
  | leaving data =>
      cases o <;> simp [mayCall, hp] at hmay
      subst hmay
      -- deleted or not, the attempt is over
      rcases remove_cases he with rfl | rfl
      · exact effect_quiet trivial fun _ => rfl
      · exact effect_erase (by simp [Phase.holds]) trivial
  | ended =>
      cases o <;> simp [mayCall, hp] at hmay

theorem safe_holder {data : LeaseRecord} (h : ph.holds = some data) :
    ph.Safe b s key ↔ ∃ n, s.object key = some ⟨data, n⟩ := by
  cases ph <;> simp [Phase.holds] at h <;> subst h <;> rfl

theorem safe_tick (d : Time) (h : ph.Safe b s key) : ph.Safe b (s.tick d) key := by
  cases hd : ph.holds with
  | none => exact safe_mono (evolves_tick b s d) hd h
  | some data =>
      obtain ⟨n, hn⟩ := (safe_holder hd).1 h
      exact (safe_holder hd).2 ⟨n, hn⟩

theorem Effect.of_tick {d : Time} (h : Effect b key ph ph' (s.tick d) s') :
    Effect b key ph ph' s s' := by
  refine ⟨⟨?_, h.evolves.writes, h.evolves.object⟩, h.frame, h.safe, ?_⟩
  · exact (Nat.le_add_right _ d).trans h.evolves.clock
  · cases h.turn with
    | same hobj hph => exact .same hobj hph
    | holder hph => exact .holder hph
    | free hfree => exact .free hfree

end Effects

/-! ## The invariant over any number of attempts -/

variable {T : Type}

abbrev LeaseView (T : Type) : Type := View Op Res State T Attempt

structure Inv (b : Backend) (keyPrefix : String) (v : LeaseView T) : Prop where
  versioned : Versioned v.shared
  safe : ∀ t q h, v.task t = some (q, h) → (phase q h).Safe b v.shared (q.key keyPrefix)
  alone : ∀ t u q q' h h', v.task t = some (q, h) → v.task u = some (q', h') →
    q.key keyPrefix = q'.key keyPrefix → (phase q h).holds ≠ none → (phase q' h').holds ≠ none →
    t = u

/-- The record under which thread `t` holds a lease, if it does. -/
def holding (v : LeaseView T) (t : T) : Option LeaseRecord :=
  (v.task t).bind fun x => (phase x.1 x.2).holds

/-- No live holder is past the end of its lease. -/
def Timely (v : LeaseView T) : Prop :=
  ∀ t, ∀ data ∈ holding v t, unix v.shared.clock < data.expiresAt

instance [Fintype T] (v : LeaseView T) : Decidable (Timely v) :=
  inferInstanceAs (Decidable (∀ t, ∀ data ∈ holding v t, unix v.shared.clock < data.expiresAt))

theorem Timely.lt {v : LeaseView T} (hv : Timely v) {t : T} {q : Attempt} {h : Hist Op Res}
    {data : LeaseRecord} (ht : v.task t = some (q, h)) (hd : (phase q h).holds = some data) :
    unix v.shared.clock < data.expiresAt :=
  hv t data (by simp [holding, ht, hd])

variable [DecidableEq T]

/-- A call by `t` keeps the invariant: what the others know is stable, and if one of them holds the
lease the call was made on, the call left its record alone. -/
theorem inv_did {b : Backend} {keyPrefix : String} {v : LeaseView T} {t : T} {q : Attempt}
    {h : Hist Op Res} {e : Ev Op Res} {s' : State} (hI : Inv b keyPrefix v)
    (ht : v.task t = some (q, h))
    (heff : Effect b (q.key keyPrefix) (phase q h) (phase q (e :: h)) v.shared s')
    (hlive : Timely (v.put t s' (some (q, e :: h)))) :
    Inv b keyPrefix (v.put t s' (some (q, e :: h))) := by
  -- another attempt that holds the same lease: the call was not made over its record
  have hother : ∀ u q' h' data, u ≠ t → v.task u = some (q', h') →
      q'.key keyPrefix = q.key keyPrefix → (phase q' h').holds = some data →
      s'.object (q.key keyPrefix) = v.shared.object (q.key keyPrefix) ∧
        (phase q (e :: h)).holds = none := by
    intro u q' h' data hut hu hkey hd
    have hnot : (phase q h).holds = none := by
      by_contra hholds
      exact hut (hI.alone u t q' q h' h hu ht hkey (by simp [hd]) hholds)
    cases heff.turn with
    | same hobj hph => exact ⟨hobj, hph hnot⟩
    | holder hph => exact absurd hnot hph
    | free hfree =>
        obtain ⟨n, hn⟩ := (safe_holder hd).1 (hI.safe u q' h' hu)
        have hexp := hfree ⟨data, n⟩ (hkey ▸ hn)
        have hlt := hlive.lt (by rw [View.put_other v _ _ hut]; exact hu) hd
        exact absurd hexp (not_le.2 hlt)
  refine ⟨hI.versioned.mono heff.evolves, ?_, ?_⟩
  · intro u q' h' hu
    rcases View.put_cases hu with ⟨rfl, hx⟩ | ⟨hut, hu⟩
    · cases hx
      exact heff.safe
    · have hsafe := hI.safe u q' h' hu
      cases hd : (phase q' h').holds with
      | none => exact safe_mono heff.evolves hd hsafe
      | some data =>
          rw [safe_holder hd] at hsafe ⊢
          by_cases hkey : q'.key keyPrefix = q.key keyPrefix
          · rw [hkey] at hsafe ⊢
            rw [View.put_shared, (hother u q' h' data hut hu hkey hd).1]
            exact hsafe
          · rw [View.put_shared, heff.frame _ hkey]
            exact hsafe
  · intro u w q₁ q₂ h₁ h₂ hu hw hkey hd₁ hd₂
    rcases View.put_cases hu with ⟨hut, hx⟩ | ⟨hut, hu'⟩
    · cases hx
      rcases View.put_cases hw with ⟨hwt, -⟩ | ⟨hwt, hw'⟩
      · rw [hut, hwt]
      · obtain ⟨data, hd⟩ := Option.ne_none_iff_exists'.1 hd₂
        exact absurd (hother w q₂ h₂ data hwt hw' hkey.symm hd).2 hd₁
    · rcases View.put_cases hw with ⟨hwt, hx⟩ | ⟨hwt, hw'⟩
      · cases hx
        obtain ⟨data, hd⟩ := Option.ne_none_iff_exists'.1 hd₁
        exact absurd (hother u q₁ h₁ data hut hu' hkey hd).2 hd₂
      · exact hI.alone u w q₁ q₂ h₁ h₂ hu' hw' hkey hd₁ hd₂

/-- Starting, ending or crashing moves nothing but the mover. -/
theorem inv_leave {b : Backend} {keyPrefix : String} {v : LeaseView T} {t : T}
    {x : Option (Attempt × Hist Op Res)} (hI : Inv b keyPrefix v)
    (hx : ∀ q h, x = some (q, h) → phase q h = .fresh) :
    Inv b keyPrefix (v.put t v.shared x) := by
  refine ⟨hI.versioned, ?_, ?_⟩
  · intro u q h hu
    rcases View.put_cases hu with ⟨-, hxq⟩ | ⟨-, hu'⟩
    · rw [hx q h hxq]
      trivial
    · exact hI.safe u q h hu'
  · intro u w q₁ q₂ h₁ h₂ hu hw hkey hd₁ hd₂
    rcases View.put_cases hu with ⟨-, hxq⟩ | ⟨-, hu'⟩
    · exact absurd (by rw [hx q₁ h₁ hxq]; rfl) hd₁
    · rcases View.put_cases hw with ⟨-, hxq⟩ | ⟨-, hw'⟩
      · exact absurd (by rw [hx q₂ h₂ hxq]; rfl) hd₂
      · exact hI.alone u w q₁ q₂ h₁ h₂ hu' hw' hkey hd₁ hd₂

theorem inv_move {b : Backend} {keyPrefix : String} {v v' : LeaseView T}
    {l : Label Op Res T Attempt Unit} (hI : Inv b keyPrefix v)
    (hmove : Move (machine T b keyPrefix) (protocol keyPrefix) v l v') (hlive : Timely v') :
    Inv b keyPrefix v' := by
  cases hmove with
  | start _ =>
      refine inv_leave hI ?_
      rintro q h ⟨⟩
      rfl
  | @did t q h o a r s' ht hmay he =>
      have hsafe := safe_tick a.wait (hI.safe t q h ht)
      have heff := execAt_effect (hI.versioned.mono (evolves_tick b _ a.wait)) hmay hsafe he
      exact inv_did hI ht heff.of_tick hlive
  | finish _ _ => exact inv_leave hI (by simp)
  | crash => exact inv_leave hI (by simp)

/-! ## Exclusion -/

/-- Thread `t` executes an attempt that holds the lease of hostname `d`. -/
def HoldsLease (c : Config Op Res State T Attempt Unit) (t : T) (d : String) : Prop :=
  ∃ x ∈ c.view.task t, Layout.certDomain x.1.name = d ∧ (phase x.1 x.2).holds ≠ none

instance (c : Config Op Res State T Attempt Unit) (t : T) (d : String) :
    Decidable (HoldsLease c t d) :=
  inferInstanceAs (Decidable (∃ x ∈ c.view.task t,
    Layout.certDomain x.1.name = d ∧ (phase x.1 x.2).holds ≠ none))

/-- Node `a` wins the lease of a hostname and crashes; five minutes later node `b` takes it over for
the companion. -/
def takeOverSchedule : List (Action (Fin 2) Attempt Answer) :=
  [.start 0 ⟨"a", "mx.example.com"⟩, .step 0 ⟨0, .ok⟩, .step 0 ⟨0, .ok⟩, .step 0 ⟨second, .ok⟩,
    .crash 0, .start 1 ⟨"b", "mx.example.com+rsa"⟩, .step 1 ⟨5 * minute, .ok⟩, .step 1 ⟨0, .ok⟩,
    .step 1 ⟨0, .ok⟩, .step 1 ⟨0, .ok⟩, .step 1 ⟨0, .ok⟩, .step 1 ⟨0, .ok⟩, .step 1 ⟨second, .ok⟩]

end Lease
end CertsManager
