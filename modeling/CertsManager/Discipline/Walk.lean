import CertsManager.Footprint

/-!
# Walk — functions that add nothing of their own

A protocol says of each call what it is made on the ground of.  For most functions of the manager
that is settled by the few they come down to: they look a name up, ask the clock, take a lock, and
call `Refresh`, `issueWithKey` or `flushOne`.  Here each of them follows a protocol whenever those
do, whatever the protocol and whatever it keeps track of.
-/

namespace CertsManager

open Interleave

/-! ## Looking up -/

/-- Calls on the markers and the index, and lookups of a name. -/
def Op.Lookup : Op → Prop
  | .storage _ .listChains => True
  | .mem (.memGet _) => True
  | .mem (.pendingGet _) => True
  | o => o.Aside

theorem Op.Aside.lookup {o : Op} (h : o.Aside) : o.Lookup := by
  cases o with
  | storage ctx o => cases o <;> first | exact h | trivial
  | mem o => cases o <;> first | exact h | trivial
  | env o => exact h

theorem Op.Lookup.idle {o : Op} (h : o.Lookup) : o.Idle := by
  cases o with
  | storage ctx o => cases o <;> first | exact Op.Aside.idle h | trivial
  | mem o => trivial
  | env o => exact Op.Aside.idle h

theorem lookup_of_aside {α : Type} {p : M α} (hp : p.Calls Op.Aside) : p.Calls Op.Lookup :=
  hp.mono fun _ ho => ho.lookup

theorem lookup_of_quiet {α : Type} {p : M α} (hp : p.Calls Op.Quiet) : p.Calls Op.Lookup :=
  lookup_of_aside (aside_of_quiet hp)

theorem leafNotAfter_lookup (n : Name) : (CertCache.leafNotAfter n).Calls Op.Lookup :=
  .bind (.perform trivial) fun _ => .pure _

theorem isPending_lookup (n : Name) : (CertCache.isPending n).Calls Op.Lookup :=
  .bind (.perform trivial) fun _ => .pure _

theorem recordIssued_lookup (cfg : Settings) (ctx : Time) (n : Name) :
    (OnDemand.recordIssued cfg ctx n).Calls Op.Lookup := by
  unfold OnDemand.recordIssued
  split
  · exact .pure _
  · refine .bind (isPending_lookup n) fun held => ?_
    cases held with
    | true => exact .pure _
    | false =>
        refine .bind (leafNotAfter_lookup n) fun r => ?_
        cases r with
        | none => exact .pure _
        | some notAfter =>
            exact .bind (lookup_of_aside (noteIssued_aside ctx n notAfter)) fun _ => .pure _

theorem classify_lookup (cfg : Settings) (hosts : List Name) :
    (OnDemand.classify cfg hosts).Calls Op.Lookup := by
  induction hosts with
  | nil => exact .pure _
  | cons host hosts ih =>
      refine .bind (leafNotAfter_lookup host) fun r => ?_
      cases r with
      | none => exact .bind ih fun _ => .pure _
      | some notAfter =>
          refine .bind (.perform trivial) fun t => .bind ih fun plan => ?_
          split <;> exact .pure _

/-! ## Flushing -/

/-- The calls of `flushOne`. -/
inductive Flushing (n : Name) (c : ChainPEM) : Op → Prop
  | serve {o : Op} (h : o.Serving) : Flushing n c o
  | store {o : Op} (h : Storing n c o) : Flushing n c o
  | get : Flushing n c (.mem (.memGet n))
  | tryLock : Flushing n c (.mem (.tryLock n))
  | unlock : Flushing n c (.mem (.unlock n))
  | acquire (ctx : Time) : Flushing n c (.env (.acquireLease ctx n))
  | release : Flushing n c (.env (.releaseLease n))

theorem flushOne_flushing (cfg : Settings) (ctx : Time) (n : Name) (p : PendingPersist) :
    (Manager.flushOne cfg ctx n p).Calls (Flushing n p.chainPEM) := by
  have hwrite : (Manager.writeHeld cfg ctx n p).Calls (Flushing n p.chainPEM) := by
    refine Prog.Calls.bind ((persistFrom_storing ctx n p.chainPEM _ _).mono fun _ => .store) fun r => ?_
    cases r with
    | error err => exact .pure _
    | ok _ =>
        refine Prog.Calls.bind (.perform (.store .drop)) fun _ => ?_
        refine Prog.Calls.bind (.perform .get) fun r => ?_
        cases r with
        | none => exact .pure _
        | some cert =>
            exact (confirmed_calls (.store .confirm) (.store (.save cert))).bind fun _ => .pure _
  have hleased : (Manager.flushLeased cfg ctx n p).Calls (Flushing n p.chainPEM) := by
    refine Prog.Calls.bind (p := CertCache.storedNotAfter ctx n)
      (.bind (.bind (.perform (.serve trivial)) fun r => ?_) fun r => ?_) fun r => ?_
    · rcases r with f | c <;> exact .pure _
    · rcases r with err | (leaf | _) <;> exact .pure _
    · -- a stored chain that expires no earlier is loaded, any other is written over
      cases r with
      | ok notAfter =>
          dsimp only
          split
          · refine Prog.Calls.bind ((refresh_serving cfg ctx n).mono fun _ => .serve) fun r => ?_
            cases r with
            | error err => exact .pure _
            | ok cert => exact .bind (.perform (.store .drop)) fun _ => .pure _
          · exact hwrite
      | error err =>
          -- written if storage has none that parses, not if it could not be asked
          dsimp only
          split
          · exact hwrite
          · exact .pure _
  refine Prog.Calls.bind (.perform .tryLock) fun free => ?_
  cases free with
  | false => exact .pure _
  | true =>
      refine Prog.Calls.bind (.bind (.perform (.acquire ctx)) fun ok => ?_) fun _ =>
        .bind (.perform .unlock) fun _ => .pure _
      cases ok with
      | false => exact .pure _
      | true => exact .bind hleased fun _ => .bind (.perform .release) fun _ => .pure _

/-! ## Between the operations on a name -/

/-- Lookups are permitted and keep the invariant. -/
def Passes (may : History → Op → Prop) (I : History → Prop) : Prop :=
  ∀ h o, I h → o.Lookup → may h o ∧ ∀ r, I (⟨o, r⟩ :: h)

section

variable {cfg : Settings} {may : History → Op → Prop} {I : History → Prop}

namespace Passes

theorem calls {α : Type} {p : M α} (w : Passes may I) (hp : p.Calls Op.Lookup) : p.Keeps may I :=
  fun _ hh => hp.keeps w hh

theorem aside {α : Type} {p : M α} (w : Passes may I) (hp : p.Calls Op.Aside) : p.Keeps may I :=
  w.calls (lookup_of_aside hp)

theorem quiet {α : Type} {p : M α} (w : Passes may I) (hp : p.Calls Op.Quiet) : p.Keeps may I :=
  w.calls (lookup_of_quiet hp)

theorem call {o : Op} (w : Passes may I) (ho : o.Lookup) :
    (Prog.perform o : M (Res o)).Keeps may I :=
  .perform fun h hh => w h o hh ho

theorem requestIssue {n : Name} (w : Passes may I) (onDemandHost : Bool)
    (hobtain : ∀ ctx, (Manager.obtain cfg ctx n).Keeps may I) :
    (Manager.requestIssue cfg n onDemandHost).Keeps may I := by
  refine .bind (w.call trivial) fun t => ?_
  dsimp only
  split
  · -- an on-demand host passes the pre-flight and then takes a token
    refine .bind (w.call trivial) fun ok => ?_
    cases ok with
    | false => exact .pure _
    | true =>
        refine .bind (w.call trivial) fun taken => ?_
        cases taken with
        | false => exact .pure _
        | true => exact .bind (hobtain _) fun _ => .pure _
  · exact .bind (hobtain _) fun _ => .pure _

theorem renewalBase {ctx : Time} {n : Name} (w : Passes may I)
    (hrefresh : (CertCache.refresh cfg ctx n).Keeps may I) :
    (Manager.renewalBase cfg ctx n).Keeps may I := by
  refine .bind (w.calls (leafNotAfter_lookup n)) fun r => ?_
  cases r with
  | some notAfter => exact .pure _
  | none =>
      refine .bind hrefresh fun r => ?_
      cases r with
      | ok cert => exact .bind (w.calls (leafNotAfter_lookup n)) fun _ => .pure _
      | error err =>
          dsimp only
          split
          · exact .pure _
          · split <;> exact .pure _

theorem runHost {n : Name} (w : Passes may I) (isRenewal : Bool)
    (hrefresh : ∀ ctx, (CertCache.refresh cfg ctx n).Keeps may I)
    (hrenew : ∀ ctx, (Manager.renewIfNeeded cfg ctx n).Keeps may I) :
    (OnDemand.runHost cfg n isRenewal).Keeps may I := by
  have hrecord : ∀ ctx, (OnDemand.renewAndRecord cfg ctx n).Keeps may I := by
    refine fun ctx => .bind (hrenew ctx) fun r => ?_
    cases r with
    | some err => exact .pure _
    | none => exact w.calls (recordIssued_lookup cfg ctx n)
  refine .bind (w.call trivial) fun t => .bind (w.call trivial) fun ok => ?_
  cases ok with
  | false => exact .pure _
  | true =>
      cases isRenewal with
      | true => exact hrecord _
      | false =>
          -- storage is asked first: a token is for an order
          refine .bind (hrefresh _) fun r => ?_
          cases r with
          | ok cert => exact hrecord _
          | error err =>
              dsimp only
              split
              · exact .pure _
              · refine .bind (w.call trivial) fun taken => ?_
                cases taken with
                | false => exact .pure _
                | true => exact hrecord _

theorem maintainFollower (w : Passes may I)
    (hrefresh : ∀ ctx n, (CertCache.refresh cfg ctx n).Keeps may I) :
    (OnDemand.maintainFollower cfg).Keeps may I := by
  have hchanged : ∀ ctx hosts, (OnDemand.refreshChanged cfg ctx hosts).Keeps may I := by
    intro ctx hosts
    induction hosts with
    | nil => exact .pure _
    | cons host hosts ih =>
        refine .bind (hrefresh ctx host) fun r => ?_
        cases r with
        | error err => exact ih
        | ok cert => exact .bind (w.aside (noteRefreshed_aside ctx host)) fun _ => ih
  refine .bind (w.call trivial) fun hosts => ?_
  dsimp only
  split
  · exact .pure _
  · refine .bind (w.call trivial) fun t => ?_
    exact .bind (w.aside (changedSince_aside _ hosts)) fun changed => hchanged _ changed

theorem loadHosts (w : Passes may I)
    (hrefresh : ∀ ctx n, (CertCache.refresh cfg ctx n).Keeps may I) (ctx : Time) (hosts : List Name) :
    (OnDemand.loadHosts cfg ctx hosts).Keeps may I := by
  induction hosts with
  | nil => exact .pure _
  | cons host hosts ih =>
      refine .bind (.bind (w.calls (leafNotAfter_lookup host)) fun notAfter =>
        .bind (.bind (w.call trivial) fun _ => .pure _) fun known => ?_) fun _ => ih
      -- memory and the index: loaded if only the index has it, recorded if only memory does
      rcases notAfter with _ | notAfter <;> rcases known with _ | known
      · exact .pure _
      · exact .bind (hrefresh ctx host) fun _ => .pure _
      · exact w.calls (recordIssued_lookup cfg ctx host)
      · exact .pure _

theorem planLeader (w : Passes may I)
    (hrefresh : ∀ ctx n, (CertCache.refresh cfg ctx n).Keeps may I) :
    (OnDemand.planLeader cfg).Keeps may I := by
  refine .bind (w.call trivial) fun hosts => ?_
  dsimp only
  split
  · exact .pure _
  · refine .bind (w.call trivial) fun t => ?_
    refine .bind (w.aside (republishIndexIfDirty_aside _)) fun _ => ?_
    exact .bind (w.loadHosts hrefresh _ hosts) fun _ => w.calls (classify_lookup cfg hosts)

/-- `K` is what a restoration knows of the key it read. -/
theorem restoreMissingChains {ctx : Time} {K : History → Name → Key → Prop} (w : Passes may I)
    (hload : ∀ h n, I h → (KeyStore.load cfg ctx (.live n)).Conforms may h fun h' r =>
      I h' ∧ ∀ k, r = .ok k → K h' n k)
    (hone : ∀ h n cert k built, I h → K h n k →
      buildCertificate (encodeChainPEM cert) k = .ok built →
      (Manager.flushOne cfg ctx n ⟨encodeChainPEM cert, cert.leaf.notAfter⟩).Conforms may h
        fun h' _ => I h') :
    (Manager.restoreMissingChains cfg ctx).Keeps may I := by
  have hserved : ∀ n, (Manager.restoreServed cfg ctx n).Keeps may I := by
    intro n
    refine .bind (w.call trivial) fun r => ?_
    cases r with
    | none => exact .pure _
    | some cert =>
        refine .bind (w.call trivial) fun t => ?_
        dsimp only
        split
        · exact .pure _
        · intro h hh
          refine (hload h n hh).bind fun h₁ r _ ⟨hh₁, hk⟩ => ?_
          cases r with
          | error err => exact hh₁
          | ok k =>
              -- only a chain that builds with the key in storage is offered
              dsimp only
              cases hb : buildCertificate (encodeChainPEM cert) k with
              | error err => exact hh₁
              | ok built => exact hone h₁ n cert k built hh₁ (hk k rfl) hb
  have hnames : ∀ inStorage names,
      (Manager.restoreNames cfg ctx inStorage names).Keeps may I := by
    intro inStorage names
    induction names with
    | nil => exact .pure _
    | cons n names ih =>
        refine .bind (w.call trivial) fun done => ?_
        cases done with
        | true => exact .pure _
        | false =>
            refine .bind ?_ fun _ => .bind ih fun _ => .pure _
            unfold Manager.restoreOne
            split
            · exact .pure _
            · refine .bind (w.calls (isPending_lookup n)) fun held => ?_
              cases held with
              | true => exact .pure _
              | false => exact hserved n
  refine .bind (w.call trivial) fun r => ?_
  cases r with
  | error f => exact .pure _
  | ok inStorage => exact .bind (w.quiet (servedNames_quiet cfg)) fun served => hnames inStorage _

end Passes

/-- `E` is what a flush knows of an entry it took, and goes on knowing. -/
theorem flushHeldChains_keeps_of {ctx : Time} {E : History → Name → PendingPersist → Prop}
    (hlasts : ∀ {h h' n p}, E h n p → h <:+ h' → E h' n p)
    (hcheck : ∀ h, I h → may h (.env (.ctxErr ctx)) ∧ ∀ done, I (⟨.env (.ctxErr ctx), done⟩ :: h))
    (htake : ∀ h, I h → may h (.mem .pendingSnapshot) ∧ ∀ held : List (Name × PendingPersist),
      I (⟨.mem .pendingSnapshot, held⟩ :: h) ∧
        ∀ e ∈ held, E (⟨.mem .pendingSnapshot, held⟩ :: h) e.1 e.2)
    (hreset : ∀ h n, I h → may h (.mem (.retriesReset n)) ∧
      ∀ u, I (⟨.mem (.retriesReset n), u⟩ :: h))
    (hone : ∀ h n p, I h → E h n p →
      (Manager.flushOne cfg ctx n p).Conforms may h fun h' _ => I h') :
    (Manager.flushHeldChains cfg ctx).Keeps may I := by
  have hentries : ∀ (held : List (Name × PendingPersist)) h, I h → (∀ e ∈ held, E h e.1 e.2) →
      (Manager.flushEntries cfg ctx held).Conforms may h fun h' _ => I h' := by
    -- by induction on the snapshot; what is known of an entry has to last until its turn
    intro held
    induction held with
    | nil => exact fun h hh _ => hh
    | cons e held ih =>
        intro h hh hheld
        refine Prog.Conforms.bind (R := fun h' _ => I h') (hcheck h hh) fun h₁ done hs₁ hh₁ => ?_
        cases done with
        | true => exact hh₁
        | false =>
            refine (hone h₁ e.1 e.2 hh₁ (hlasts (hheld e List.mem_cons_self) hs₁)).bind
              fun h₂ stored hs₂ hh₂ => ?_
            have hrest : ∀ e ∈ held, E h₂ e.1 e.2 := fun e he =>
              hlasts (hheld e (List.mem_cons_of_mem _ he)) (hs₁.trans hs₂)
            cases stored with
            | false => exact ih h₂ hh₂ hrest
            | true =>
                obtain ⟨hmay, hnext⟩ := hreset h₂ e.1 hh₂
                refine ⟨hmay, fun u => (ih _ (hnext u) fun e he => ?_).bind fun _ _ _ hh₃ => hh₃⟩
                exact hlasts (hrest e he) (List.suffix_cons _ _)
  intro h hh
  obtain ⟨hmay, hnext⟩ := htake h hh
  exact ⟨hmay, fun held => hentries held _ (hnext held).1 (hnext held).2⟩

end

/-! ### The same for a predicate on calls -/

section

variable {P : Op → Prop} {cfg : Settings} {ctx : Time}

theorem passes_calls (hP : ∀ o : Op, o.Lookup → P o) : Passes (fun _ => P) fun _ => True :=
  fun _ o _ ho => ⟨hP o ho, fun _ => trivial⟩

theorem flushHeldChains_calls (hcheck : P (.env (.ctxErr ctx)))
    (hflush : ∀ n c o, Flushing n c o → P o) (htake : P (.mem .pendingSnapshot))
    (hreset : ∀ n, P (.mem (.retriesReset n))) : (Manager.flushHeldChains cfg ctx).Calls P := by
  refine fun h => flushHeldChains_keeps_of (I := fun _ => True) (E := fun _ _ _ => True)
    (fun _ _ => trivial) (fun _ _ => ⟨hcheck, fun _ => trivial⟩)
    (fun _ _ => ⟨htake, fun _ => ⟨trivial, fun _ _ => trivial⟩⟩)
    (fun _ n _ => ⟨hreset n, fun _ => trivial⟩) (fun h n p _ _ => ?_) h trivial
  exact ((flushOne_flushing cfg ctx n p).mono (hflush n p.chainPEM)) h

theorem restoreMissingChains_calls (hP : ∀ o : Op, o.Lookup → P o)
    (hflush : ∀ n c o, Flushing n c o → P o) : (Manager.restoreMissingChains cfg ctx).Calls P := by
  refine fun h => (passes_calls hP).restoreMissingChains (K := fun _ _ _ => True) (fun h n _ => ?_)
    (fun h n _ _ _ _ _ _ => ((flushOne_flushing cfg ctx n _).mono (hflush n _)) h) h trivial
  refine (((load_quiet cfg ctx (.live n)).mono fun _ ho => hP _ ho.aside.lookup) h).mono fun _ _ _ => ?_
  exact ⟨trivial, fun _ _ => trivial⟩

end

/-! ## Under the lock of a name -/

/-- What a protocol says of an issuance: `I` holds while no lock is held, `J n` under the lock of
`n`, and `K` of the key that was read or created there. -/
structure Issuing (cfg : Settings) (may : History → Op → Prop) (I : History → Prop)
    (J : Name → History → Prop) (K : History → Name → Key → Prop) : Prop where
  free : Passes may I
  locked : ∀ n, Passes may (J n)
  lock : ∀ n h, I h → may h (.mem (.lock n)) ∧ ∀ u, J n (⟨.mem (.lock n), u⟩ :: h)
  tryLock : ∀ n h, I h → may h (.mem (.tryLock n)) ∧
    J n (⟨.mem (.tryLock n), true⟩ :: h) ∧ I (⟨.mem (.tryLock n), false⟩ :: h)
  unlock : ∀ n h, J n h → may h (.mem (.unlock n)) ∧ ∀ u, I (⟨.mem (.unlock n), u⟩ :: h)
  refresh : ∀ ctx n, (CertCache.refresh cfg ctx n).Keeps may I
  key : ∀ ctx n h, J n h → (KeyStore.loadOrCreateCertKey cfg ctx n).Conforms may h fun h' r =>
    J n h' ∧ ∀ k, r = .ok k → K h' n k
  order : ∀ ctx n k h, J n h → K h n k →
    (Manager.issueWithKey cfg ctx n k false).Conforms may h fun h' _ => J n h'

namespace Issuing

variable {cfg : Settings} {may : History → Op → Prop} {I : History → Prop}
  {J : Name → History → Prop} {K : History → Name → Key → Prop}

theorem obtain (w : Issuing cfg may I J K) (ctx : Time) (n : Name) :
    (Manager.obtain cfg ctx n).Keeps may I := by
  have hlocked : (Manager.obtainLocked cfg ctx n).Keeps may (J n) := by
    refine .bind ((w.locked n).call trivial) fun r => ?_
    cases r with
    | some cert => exact .pure _
    | none =>
        refine .bind ((w.locked n).quiet (gateIssuance_quiet cfg ctx n)) fun r => ?_
        cases r with
        | error err => exact .pure _
        | ok _ =>
            refine fun h hh => (w.key ctx n h hh).bind fun h₁ r _ ⟨hh₁, hk⟩ => ?_
            cases r with
            | error err => exact hh₁
            | ok certKey => exact w.order ctx n certKey h₁ hh₁ (hk certKey rfl)
  intro h hh
  obtain ⟨hmay, hnext⟩ := w.lock n h hh
  exact ⟨hmay, fun u => (hlocked _ (hnext u)).bind fun h₁ r _ hh₁ => w.unlock n h₁ hh₁⟩

theorem renewIfNeeded (w : Issuing cfg may I J K) (ctx : Time) (n : Name) :
    (Manager.renewIfNeeded cfg ctx n).Keeps may I := by
  have hlocked : (Manager.renewIfNeededLocked cfg ctx n).Keeps may (J n) := by
    refine .bind ((w.locked n).calls (leafNotAfter_lookup n)) fun notAfter => ?_
    refine .bind ((w.locked n).quiet (stillFresh_quiet cfg notAfter)) fun fresh => ?_
    cases fresh with
    | true => exact .pure _
    | false =>
        refine .bind ((w.locked n).quiet (gateIssuance_quiet cfg ctx n)) fun r => ?_
        cases r with
        | error err => exact .pure _
        | ok _ =>
            refine fun h hh => (w.key ctx n h hh).bind fun h₁ r _ ⟨hh₁, hk⟩ => ?_
            cases r with
            | error err => exact hh₁
            | ok certKey =>
                exact (w.order ctx n certKey h₁ hh₁ (hk certKey rfl)).bind fun _ _ _ hh₂ => hh₂
  -- expiry is judged without the lock, and once more under it
  refine .bind (w.free.renewalBase (w.refresh ctx n)) fun r => ?_
  cases r with
  | error err => exact .pure _
  | ok notAfter =>
      refine .bind (w.free.quiet (stillFresh_quiet cfg notAfter)) fun fresh => ?_
      cases fresh with
      | true => exact .pure _
      | false =>
          intro h hh
          obtain ⟨hmay, hgot, hbusy⟩ := w.tryLock n h hh
          refine ⟨hmay, fun free => ?_⟩
          cases free with
          | false => exact hbusy
          | true => exact (hlocked _ hgot).bind fun h₁ r _ hh₁ => w.unlock n h₁ hh₁

theorem renewCertificate (w : Issuing cfg may I J K) (n : Name)
    (hforced : ∀ ctx k h, J n h → K h n k →
      (Manager.issueWithKey cfg ctx n k true).Conforms may h fun h' _ => J n h') :
    (Manager.renewCertificate cfg n).Keeps may I := by
  have hlocked : ∀ ctx, (Manager.renewLocked cfg ctx n).Keeps may (J n) := by
    intro ctx
    -- a forced renewal goes on whatever the gate answers
    refine .bind ((w.locked n).quiet (gateIssuance_quiet cfg ctx n)) fun _ h hh => ?_
    refine (w.key ctx n h hh).bind fun h₁ r _ ⟨hh₁, hk⟩ => ?_
    cases r with
    | error err => exact hh₁
    | ok certKey =>
        refine (hforced ctx certKey h₁ hh₁ (hk certKey rfl)).bind fun h₂ r _ hh₂ => ?_
        rcases r with ⟨_, _ | err⟩ <;> exact hh₂
  refine .bind (w.free.call trivial) fun leader => ?_
  cases leader with
  | false => exact .pure _
  | true =>
      simp only [Bool.not_true, Bool.false_eq_true, if_false]
      split
      · exact .pure _
      · refine .bind (w.free.call trivial) fun t h hh => ?_
        obtain ⟨hmay, hnext⟩ := w.lock n h hh
        exact ⟨hmay, fun u => (hlocked _ _ (hnext u)).bind fun h₁ r _ hh₁ => w.unlock n h₁ hh₁⟩

theorem requestIssue (w : Issuing cfg may I J K) (n : Name) (onDemandHost : Bool) :
    (Manager.requestIssue cfg n onDemandHost).Keeps may I :=
  w.free.requestIssue onDemandHost fun ctx => w.obtain ctx n

theorem runHost (w : Issuing cfg may I J K) (n : Name) (isRenewal : Bool) :
    (OnDemand.runHost cfg n isRenewal).Keeps may I :=
  w.free.runHost isRenewal (fun ctx => w.refresh ctx n) fun ctx => w.renewIfNeeded ctx n

end Issuing

end CertsManager
