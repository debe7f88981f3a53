import CertsManager.Issuer.Issue

/-!
# Issuer/Journal — what an attempt knows of the journal when it writes there

The program side.  An attempt's own history tells what its name's slot can hold (`Allows`); each
write is made only when everything the slot can hold may go (`Expendable`): the record's order was
found dead, belongs to another key, or has been taken to its certificate.  `journals` is that
protocol, `attempts_journals` that every attempt keeps to it.
-/

namespace CertsManager
namespace Issuer

open Interleave

/-! ## What a history tells -/

/-- Calls that do not touch the journal. -/
def Op.Quiet : Op → Prop
  | .getRecord _ => False
  | .putRecord _ _ => False
  | .removeRecord _ => False
  | _ => True

/-- What one call leaves possible for the slot of `name`, from what was possible before it. -/
def allowsAfter (name : Name) (before : Option JournalObject → Prop) (x : Option JournalObject) :
    Ev Op Res → Prop
  | ⟨.getRecord n, .ok y⟩ => if n = name then x = some y else before x
  | ⟨.getRecord n, .error .notExist⟩ => if n = name then x = none else before x
  | ⟨.putRecord n rec, .ok _⟩ => if n = name then x = some (.record rec) else before x
  | ⟨.putRecord n rec, .error _⟩ =>
      if n = name then x = some (.record rec) ∨ before x else before x
  | ⟨.removeRecord n, .ok _⟩ => if n = name then x = none else before x
  | ⟨.removeRecord n, .error _⟩ => if n = name then x = none ∨ before x else before x
  | _ => before x

/-- The slot of `name` can hold `x`, as far as the history tells: a failed write may have landed. -/
def Allows (name : Name) : Hist Op Res → Option JournalObject → Prop
  | [], _ => True
  | e :: h, x => allowsAfter name (Allows name h) x e

/-- A journal write that was reported as failed. -/
def writeFailed : Ev Op Res → Bool
  | ⟨.putRecord _ _, .error _⟩ => true
  | ⟨.removeRecord _, .error _⟩ => true
  | _ => false

/-- Every journal write of the history succeeded. -/
def Written (h : Hist Op Res) : Prop :=
  ∀ e ∈ h, writeFailed e = false

/-- The attempt found that the record's order is not to be had. -/
inductive Dead (h : Hist Op Res) (rec : OrderRecord) : Prop where
  | unnamed : rec.orderURL = none → Dead h rec
  | tooOld (t : Time) : ⟨.now, t⟩ ∈ h → rec.tooOld t → Dead h rec
  | refused (u : URL) (f : Fault) : rec.orderURL = some u → ⟨.getOrder u, .error f⟩ ∈ h →
      f.refused → Dead h rec
  | invalid (u : URL) (o : Order) : rec.orderURL = some u → ⟨.getOrder u, .ok o⟩ ∈ h →
      o.status = .invalid → Dead h rec
  | past (u : URL) (o : Order) (t : Time) : rec.orderURL = some u → ⟨.getOrder u, .ok o⟩ ∈ h →
      ⟨.now, t⟩ ∈ h → o.past t → Dead h rec

/-- `o` is the order a record with the URL `url` is about. -/
def Names (h : Hist Op Res) (url : Option URL) (o : Order) : Prop :=
  (∃ u, url = some u ∧ ⟨.getOrder u, .ok o⟩ ∈ h) ∨
    ∃ d, ⟨.authorizeOrder d, .ok o⟩ ∈ h ∧ url = o.uri

/-- The order's certificate is at `u`. -/
def CertAt (h : Hist Op Res) (o : Order) (u : URL) : Prop :=
  o.certURL = some u ∨ ∃ o', ⟨.waitOrder o.uri, .ok o'⟩ ∈ h ∧ o'.certURL = some u

/-- The attempt got the order's certificate. -/
def Certified (h : Hist Op Res) (o : Order) (leaf : Leaf) : Prop :=
  (∃ csr, ⟨.createOrderCert o.finalizeURL csr, .ok leaf⟩ ∈ h) ∨
    ∃ u, CertAt h o u ∧ ⟨.fetchCert u, .ok leaf⟩ ∈ h

def Attempt.spki (q : Attempt) : Digest :=
  q.key.public.spkiSHA256

/-- What may go from the slot. -/
def Expendable (q : Attempt) (h : Hist Op Res) (x : Option JournalObject) : Prop :=
  ∀ rec, x = some (.record rec) →
    Dead h rec ∨ rec.spki ≠ q.spki ∨ ∃ o leaf, Names h rec.orderURL o ∧ Certified h o leaf

/-- Nothing is journaled but perhaps another key's order. -/
def Foreign (q : Attempt) (x : Option JournalObject) : Prop :=
  ∀ y, x = some y → ∃ rec, y = .record rec ∧ rec.spki ≠ q.spki

/-- Unless a write failed, the record in the slot is about the order `o`. -/
def Holding (q : Attempt) (h : Hist Op Res) (o : Order) : Prop :=
  Written h → ∀ x, Allows q.name h x → ∃ rec, x = some (.record rec) ∧ Names h rec.orderURL o

/-! ## The protocol -/

def mayJournal (q : Attempt) (h : Hist Op Res) : Op → Prop
  | .putRecord n rec =>
      n = q.name ∧ rec.spki = q.spki ∧ (∃ t, ⟨.now, t⟩ ∈ h ∧ rec.createdAt = unix t) ∧
        (∃ d o, ⟨.authorizeOrder d, .ok o⟩ ∈ h ∧ rec.orderURL = o.uri) ∧
        ∀ x, Allows q.name h x → Expendable q h x
  | .removeRecord n => n = q.name ∧ ∀ x, Allows q.name h x → Expendable q h x
  | .authorizeOrder _ => Written h → ∀ x, Allows q.name h x → Foreign q x
  | .getRecord n => n = q.name
  | .getOrder u => ∃ rec, ⟨.getRecord q.name, .ok (.record rec)⟩ ∈ h ∧ rec.orderURL = some u
  | .createOrderCert u csr => csr = q.key.public ∧ ∃ o, o.finalizeURL = u ∧ Holding q h o
  | .fetchCert u => ∃ o, CertAt h o u ∧ Holding q h o
  | _ => True

/-- An attempt that returns a chain got it from an order and cleared the record last. -/
def mayEndAttempt (q : Attempt) (h : Hist Op Res) (out : Except Err ChainPEM) : Prop :=
  ∀ pem, out = .ok pem → ∃ r h' o leaf, h = ⟨.removeRecord q.name, r⟩ :: h' ∧
    pem = .chain leaf ∧ Certified h' o leaf

def journals : Protocol Op Res Attempt (Except Err ChainPEM) where
  may := mayJournal
  done := mayEndAttempt

/-! ## Calls that leave the journal alone -/

/-- Calls about neither the journal nor an order. -/
def Op.Aside : Op → Prop
  | .now => True
  | .registered => True
  | .setRegistered => True
  | .register => True
  | .createCertificateRequest _ _ => True
  | .getAuthorization _ => True
  | .challengeResponse _ _ => True
  | .putChallenge _ _ => True
  | .deleteChallenge _ _ => True
  | .accept _ => True
  | .waitAuthorization _ => True
  | _ => False

theorem ensureRegistered_aside : ensureRegistered.Calls Op.Aside := by
  refine Prog.Calls.bind (Prog.Calls.perform trivial) fun registered => ?_
  cases registered with
  | true => exact Prog.Calls.pure _
  | false =>
      refine Prog.Calls.bind (Prog.Calls.perform trivial) fun r => ?_
      cases r with
      | error f => exact Prog.Calls.pure _
      | ok _ =>
          exact Prog.Calls.bind (Prog.Calls.perform trivial) fun _ => Prog.Calls.pure _

theorem presentResponse_aside (domain : Name) (chal : Challenge) (building : String) :
    (presentResponse domain chal building).Calls Op.Aside := by
  refine Prog.Calls.bind (Prog.Calls.perform trivial) fun r => ?_
  cases r with
  | error reason => exact Prog.Calls.pure _
  | ok _ =>
      refine Prog.Calls.bind (Prog.Calls.perform trivial) fun r => ?_
      cases r <;> exact Prog.Calls.pure _

theorem present_aside (domain : Name) (chal : Challenge) :
    (present domain chal).Calls Op.Aside := by
  unfold present
  split
  · exact presentResponse_aside domain chal _
  · exact presentResponse_aside domain chal _
  · exact Prog.Calls.pure _

theorem acceptAndWait_aside (domain : Name) (authz : Authorization) (chal : Challenge) :
    (acceptAndWait domain authz chal).Calls Op.Aside := by
  refine Prog.Calls.bind (Prog.Calls.perform trivial) fun r => ?_
  cases r with
  | error f => exact Prog.Calls.pure _
  | ok _ =>
      refine Prog.Calls.bind (Prog.Calls.perform trivial) fun r => ?_
      cases r <;> exact Prog.Calls.pure _

theorem fulfillAuthorization_aside (domain : Name) (authzURL : URL) :
    (fulfillAuthorization domain authzURL).Calls Op.Aside := by
  refine Prog.Calls.bind (Prog.Calls.perform trivial) fun r => ?_
  cases r with
  | error f => exact Prog.Calls.pure _
  | ok authz =>
      dsimp only
      split
      · exact Prog.Calls.pure _
      · cases pickChallenge authz.challenges none with
        | none => exact Prog.Calls.pure _
        | some chal =>
            refine Prog.Calls.bind (present_aside domain chal) fun r => ?_
            cases r with
            | error err => exact Prog.Calls.pure _
            | ok _ =>
                refine Prog.Calls.bind (acceptAndWait_aside domain authz chal) fun r => ?_
                exact Prog.Calls.bind (Prog.Calls.perform trivial) fun _ => Prog.Calls.pure _

theorem fulfillAll_aside (domain : Name) (authzURLs : List URL) :
    (fulfillAll domain authzURLs).Calls Op.Aside := by
  induction authzURLs with
  | nil => exact Prog.Calls.pure _
  | cons authzURL rest ih =>
      refine Prog.Calls.bind (fulfillAuthorization_aside domain authzURL) fun r => ?_
      cases r with
      | error err => exact Prog.Calls.pure _
      | ok _ => exact ih

/-! ## What later calls leave of the knowledge -/

section

variable {q : Attempt} {h h' : Hist Op Res} {name : Name} {x : Option JournalObject}
  {rec : OrderRecord} {o : Order} {leaf : Leaf}

theorem allows_quiet {e : Ev Op Res} (he : e.op.Quiet) :
    Allows name (e :: h) x ↔ Allows name h x := by
  obtain ⟨op, r⟩ := e
  cases op with
  | getRecord n => cases he
  | putRecord n rec => cases he
  | removeRecord n => cases he
  | _ => exact Iff.rfl

theorem written_cons {e : Ev Op Res} : Written (e :: h) ↔ writeFailed e = false ∧ Written h :=
  List.forall_mem_cons

/-- `h'` goes on from `h` without touching the journal. -/
def Quietly (h h' : Hist Op Res) : Prop :=
  ∃ l, h' = l ++ h ∧ ∀ e ∈ l, e.op.Quiet

theorem Quietly.refl (h : Hist Op Res) : Quietly h h :=
  ⟨[], rfl, by simp⟩

theorem Quietly.cons {e : Ev Op Res} (hq : Quietly h h') (he : e.op.Quiet) :
    Quietly h (e :: h') := by
  obtain ⟨l, rfl, hl⟩ := hq
  exact ⟨e :: l, rfl, List.forall_mem_cons.2 ⟨he, hl⟩⟩

theorem Quietly.trans {h'' : Hist Op Res} (hq : Quietly h h') (hq' : Quietly h' h'') :
    Quietly h h'' := by
  obtain ⟨l, rfl, hl⟩ := hq
  obtain ⟨l', rfl, hl'⟩ := hq'
  refine ⟨l' ++ l, by simp, fun e he => ?_⟩
  rcases List.mem_append.1 he with he | he
  · exact hl' e he
  · exact hl e he

theorem Quietly.subset (hq : Quietly h h') : h ⊆ h' := by
  obtain ⟨l, rfl, hl⟩ := hq
  exact List.subset_append_right l h

theorem Quietly.allows (hq : Quietly h h') : Allows name h' x ↔ Allows name h x := by
  obtain ⟨l, rfl, hl⟩ := hq
  induction l with
  | nil => exact Iff.rfl
  | cons e l ih =>
      obtain ⟨he, hl⟩ := List.forall_mem_cons.1 hl
      exact (allows_quiet he).trans (ih hl)

theorem Quietly.written (hq : Quietly h h') : Written h' → Written h :=
  fun hw e he => hw e (hq.subset he)

/-- Calls aside are allowed at any time and quiet. -/
theorem aside_journals {α : Type} {p : M α} (hp : p.Calls Op.Aside) :
    p.Conforms (mayJournal q) h fun h' _ => Quietly h h' := by
  refine (hp.conforms fun h o ho => ?_).mono ?_
  · cases o <;> trivial
  · rintro h' a ⟨l, rfl, hl⟩
    refine ⟨l, rfl, fun e he => ?_⟩
    have haside := hl e he
    obtain ⟨op, r⟩ := e
    cases op <;> trivial

theorem Dead.mono (hd : Dead h rec) (hs : h ⊆ h') : Dead h' rec := by
  cases hd with
  | unnamed hu => exact .unnamed hu
  | tooOld t ht hold => exact .tooOld t (hs ht) hold
  | refused u f hu hf href => exact .refused u f hu (hs hf) href
  | invalid u o hu ho hi => exact .invalid u o hu (hs ho) hi
  | past u o t hu ho ht hp => exact .past u o t hu (hs ho) (hs ht) hp

theorem Names.mono {url : Option URL} (hn : Names h url o) (hs : h ⊆ h') : Names h' url o := by
  rcases hn with ⟨u, hu, ho⟩ | ⟨d, ho, hu⟩
  · exact .inl ⟨u, hu, hs ho⟩
  · exact .inr ⟨d, hs ho, hu⟩

theorem CertAt.mono {u : URL} (hc : CertAt h o u) (hs : h ⊆ h') : CertAt h' o u := by
  rcases hc with hc | ⟨o', ho', hc⟩
  · exact .inl hc
  · exact .inr ⟨o', hs ho', hc⟩

theorem Certified.mono (hc : Certified h o leaf) (hs : h ⊆ h') : Certified h' o leaf := by
  rcases hc with ⟨csr, hc⟩ | ⟨u, hu, hc⟩
  · exact .inl ⟨csr, hs hc⟩
  · exact .inr ⟨u, hu.mono hs, hs hc⟩

theorem Expendable.mono (hx : Expendable q h x) (hs : h ⊆ h') : Expendable q h' x := by
  intro rec hrec
  rcases hx rec hrec with hd | hf | ⟨o, leaf, hn, hc⟩
  · exact .inl (hd.mono hs)
  · exact .inr (.inl hf)
  · exact .inr (.inr ⟨o, leaf, hn.mono hs, hc.mono hs⟩)

theorem Holding.quietly (hold : Holding q h o) (hq : Quietly h h') : Holding q h' o := by
  intro hw x hx
  obtain ⟨rec, hrec, hn⟩ := hold (hq.written hw) x (hq.allows.1 hx)
  exact ⟨rec, hrec, hn.mono hq.subset⟩

/-! ## The functions of an attempt -/

/-- What `resumeOrder` leaves behind when it names no order. -/
structure Free (q : Attempt) (h : Hist Op Res) : Prop where
  expendable : ∀ x, Allows q.name h x → Expendable q h x
  foreign : Written h → ∀ x, Allows q.name h x → Foreign q x

theorem Free.quiet {e : Ev Op Res} (hf : Free q h) (he : e.op.Quiet) : Free q (e :: h) := by
  refine ⟨fun x hx => ?_, fun hw x hx => ?_⟩
  · exact (hf.expendable x ((allows_quiet he).1 hx)).mono (List.subset_cons_self _ _)
  · exact hf.foreign (written_cons.1 hw).2 x ((allows_quiet he).1 hx)

/-- Clearing a slot whose contents may go frees it. -/
theorem clear_journals (hx : ∀ x, Allows q.name h x → Expendable q h x) :
    (Journal.clear q.name).Conforms (mayJournal q) h fun h' _ =>
      Free q h' ∧ ∃ r, h' = ⟨.removeRecord q.name, r⟩ :: h := by
  refine ⟨⟨rfl, hx⟩, fun r => ⟨⟨?_, ?_⟩, r, rfl⟩⟩
  · intro x hx'
    cases r with
    | ok _ =>
        obtain rfl : x = none := by simpa [Allows, allowsAfter] using hx'
        rintro rec ⟨⟩
    | error reason =>
        rcases (by simpa [Allows, allowsAfter] using hx' : x = none ∨ Allows q.name h x) with rfl | hx'
        · rintro rec ⟨⟩
        · exact (hx x hx').mono (List.subset_cons_self _ _)
  · intro hw x hx'
    cases r with
    | ok _ =>
        obtain rfl : x = none := by simpa [Allows, allowsAfter] using hx'
        rintro y ⟨⟩
    | error reason => cases (written_cons.1 hw).1

/-- The slot holds this record, and its order is about to be judged. -/
def Reads (q : Attempt) (h : Hist Op Res) (rec : OrderRecord) : Prop :=
  ∀ x, Allows q.name h x → x = some (.record rec)

theorem Reads.quiet {e : Ev Op Res} (hr : Reads q h rec) (he : e.op.Quiet) :
    Reads q (e :: h) rec :=
  fun x hx => hr x ((allows_quiet he).1 hx)

theorem Reads.expendable (hr : Reads q h rec) (hd : Dead h rec) :
    ∀ x, Allows q.name h x → Expendable q h x := by
  intro x hx rec' hrec'
  cases (hr x hx).symm.trans hrec'
  exact .inl hd

/-- What `resumeOrder` leaves behind: a slot for a new order, or the order its record names. -/
def Resumed (q : Attempt) (h : Hist Op Res) : Option Order → Prop
  | none => Free q h
  | some o => ∃ rec, Reads q h rec ∧ Names h rec.orderURL o

/-- Clearing a record whose order is dead, and going on to a new order. -/
theorem clearDead_journals (hr : Reads q h rec) (hd : Dead h rec) :
    (do Journal.clear q.name; return .ok none : M (Except Err (Option Order))).Conforms
      (mayJournal q) h fun h' r => ∀ y, r = .ok y → Resumed q h' y := by
  refine (clear_journals (hr.expendable hd)).bind fun h' _ _ hfree => ?_
  rintro y ⟨⟩
  exact hfree.1

theorem judgeOrder_journals {u : URL} {r : Except Fault Order} (hr : Reads q h rec)
    (hu : rec.orderURL = some u) (hasked : ⟨.getOrder u, r⟩ ∈ h) :
    (judgeOrder q.name r).Conforms (mayJournal q) h fun h' r =>
      ∀ y, r = .ok y → Resumed q h' y := by
  cases r with
  | error f =>
      simp only [judgeOrder]
      split
      · rename_i href
        exact clearDead_journals hr (.refused u f hu hasked href)
      · rintro y ⟨⟩
  | ok order =>
      simp only [judgeOrder]
      split
      · rename_i hinv
        exact clearDead_journals hr (.invalid u order hu hasked hinv)
      · refine ⟨trivial, fun t => ?_⟩
        have hr' : Reads q (⟨.now, t⟩ :: h) rec := hr.quiet trivial
        have hasked' := List.mem_cons_of_mem (⟨.now, t⟩ : Ev Op Res) hasked
        change Prog.Conforms _ (if order.past t = true then _ else _) _ _
        split
        · rename_i hpast
          exact clearDead_journals hr' (.past u order t hu hasked' (List.mem_cons_self ..) hpast)
        · rintro y ⟨⟩
          exact ⟨rec, hr', .inl ⟨u, hu, hasked'⟩⟩

theorem judgeRecord_journals (hr : Reads q h rec)
    (hloaded : ⟨.getRecord q.name, .ok (.record rec)⟩ ∈ h) :
    (judgeRecord q.name q.spki rec).Conforms (mayJournal q) h fun h' r =>
      ∀ y, r = .ok y → Resumed q h' y := by
  cases hu : rec.orderURL with
  | none =>
      simp only [judgeRecord, hu]
      exact clearDead_journals hr (.unnamed hu)
  | some u =>
      simp only [judgeRecord, hu, on, Prog.conforms_bind, Prog.conforms_perform]
      refine ⟨trivial, fun t => ?_⟩
      have hr' : Reads q (⟨.now, t⟩ :: h) rec := hr.quiet trivial
      split
      · rename_i hold
        exact clearDead_journals hr' (.tooOld t (List.mem_cons_self ..) hold)
      · split
        · rename_i hforeign
          -- another key's record: it stays, and may go all the same
          rintro y ⟨⟩
          refine ⟨fun x hx rec' hrec' => ?_, fun _ x hx y hy => ?_⟩
          · cases (hr' x hx).symm.trans hrec'
            exact .inr (.inl hforeign)
          · cases (hr' x hx).symm.trans hy
            exact ⟨rec, rfl, hforeign⟩
        · simp only [Prog.conforms_bind, Prog.conforms_perform]
          refine ⟨⟨rec, List.mem_cons_of_mem _ hloaded, hu⟩, fun r => ?_⟩
          exact judgeOrder_journals (hr'.quiet trivial) hu (List.mem_cons_self ..)

theorem resumeOrder_journals (q : Attempt) (h : Hist Op Res) :
    (resumeOrder q.name q.spki).Conforms (mayJournal q) h fun h' r =>
      ∀ y, r = .ok y → Resumed q h' y := by
  simp only [resumeOrder, Journal.load, on, Prog.conforms_bind, Prog.conforms_perform]
  refine ⟨rfl, fun r => ?_⟩
  rcases r with (_ | ⟨inBody, reason⟩) | (rec | reason)
  · -- nothing is journaled
    have hnone : ∀ x, Allows q.name (⟨.getRecord q.name, .error .notExist⟩ :: h) x → x = none := by
      intro x hx
      simpa [Allows, allowsAfter] using hx
    rintro y ⟨⟩
    refine ⟨fun x hx rec hrec => ?_, fun _ x hx y hy => ?_⟩
    · cases (hnone x hx).symm.trans hrec
    · cases (hnone x hx).symm.trans hy
  · rintro y ⟨⟩
  · refine judgeRecord_journals (fun x hx => ?_) (List.mem_cons_self ..)
    simpa [Allows, allowsAfter] using hx
  · rintro y ⟨⟩

theorem record_journals {d : Name} (hfree : Free q h) (ho : ⟨.authorizeOrder d, .ok o⟩ ∈ h) :
    (Journal.record q.name o.uri q.spki).Conforms (mayJournal q) h fun h' _ =>
      Holding q h' o ∧ ∀ x, Allows q.name h' x →
        Expendable q h' x ∨ ∃ rec, x = some (.record rec) ∧ Names h' rec.orderURL o := by
  refine ⟨trivial, fun t => ⟨⟨rfl, rfl, ⟨t, List.mem_cons_self .., rfl⟩, ⟨d, o, ?_, rfl⟩, ?_⟩,
    fun r => ⟨?_, ?_⟩⟩⟩
  · exact List.mem_cons_of_mem _ ho
  · exact (hfree.quiet (e := ⟨.now, t⟩) trivial).expendable
  · intro hw x hx
    cases r with
    | ok _ =>
        refine ⟨_, by simpa [Allows, allowsAfter] using hx, .inr ⟨d, ?_, rfl⟩⟩
        exact List.mem_cons_of_mem _ (List.mem_cons_of_mem _ ho)
    | error reason => cases (written_cons.1 hw).1
  · intro x hx
    have hnames : Names (⟨.putRecord q.name ⟨o.uri, q.spki, unix t⟩, r⟩ :: ⟨.now, t⟩ :: h) o.uri o :=
      .inr ⟨d, List.mem_cons_of_mem _ (List.mem_cons_of_mem _ ho), rfl⟩
    cases r with
    | ok _ => exact .inr ⟨_, by simpa [Allows, allowsAfter] using hx, hnames⟩
    | error reason =>
        rcases (by simpa [Allows, allowsAfter] using hx : x = _ ∨ Allows q.name h x) with rfl | hx
        · exact .inr ⟨_, rfl, hnames⟩
        · refine .inl ((hfree.expendable x hx).mono ?_)
          exact List.Subset.trans (List.subset_cons_self _ _) (List.subset_cons_self _ _)

/-- The order an attempt works on, and what the slot holds then: its record, or what may go. -/
structure InHand (q : Attempt) (h : Hist Op Res) (o : Order) : Prop where
  holding : Holding q h o
  slot : ∀ x, Allows q.name h x →
    Expendable q h x ∨ ∃ rec, x = some (.record rec) ∧ Names h rec.orderURL o

theorem InHand.quietly (hi : InHand q h o) (hq : Quietly h h') : InHand q h' o := by
  refine ⟨hi.holding.quietly hq, fun x hx => ?_⟩
  rcases hi.slot x (hq.allows.1 hx) with hx | ⟨rec, hrec, hn⟩
  · exact .inl (hx.mono hq.subset)
  · exact .inr ⟨rec, hrec, hn.mono hq.subset⟩

/-- With the certificate, whatever the slot holds may go. -/
theorem InHand.expendable (hi : InHand q h o) (hc : Certified h o leaf) :
    ∀ x, Allows q.name h x → Expendable q h x := by
  intro x hx
  rcases hi.slot x hx with hx | ⟨rec, rfl, hn⟩
  · exact hx
  · rintro rec' ⟨⟩
    exact .inr (.inr ⟨o, leaf, hn, hc⟩)

theorem orderFor_journals (q : Attempt) (h : Hist Op Res) (domain : Name) :
    (orderFor q.name domain q.spki).Conforms (mayJournal q) h fun h' r =>
      ∀ o, r = .ok o → InHand q h' o := by
  refine (resumeOrder_journals q h).bind fun h₁ r _ hr => ?_
  rcases r with err | (_ | order)
  · rintro o ⟨⟩
  · have hfree : Free q h₁ := hr none rfl
    refine ⟨hfree.foreign, fun r => ?_⟩
    cases r with
    | error f => rintro o ⟨⟩
    | ok order =>
        have hfree' : Free q (⟨.authorizeOrder domain, .ok order⟩ :: h₁) := hfree.quiet trivial
        refine (record_journals hfree' (List.mem_cons_self ..)).bind fun h₂ _ _ hrec => ?_
        rintro o ⟨⟩
        exact ⟨hrec.1, hrec.2⟩
  · obtain ⟨rec, hreads, hn⟩ : Resumed q h₁ (some order) := hr _ rfl
    rintro o ⟨⟩
    refine ⟨fun _ x hx => ⟨rec, hreads x hx, hn⟩, fun x hx => .inr ⟨rec, hreads x hx, hn⟩⟩

theorem fetch_journals {o' : Order} (domain : Name) (hi : InHand q h o)
    (hat : ∀ u, o'.certURL = some u → CertAt h o u) :
    (fetch domain o').Conforms (mayJournal q) h fun h' r =>
      Quietly h h' ∧ ∀ leaf, r = .ok leaf → Certified h' o leaf := by
  cases hu : o'.certURL with
  | none =>
      simp only [fetch, hu]
      exact ⟨.refl h, by rintro leaf ⟨⟩⟩
  | some u =>
      simp only [fetch, hu]
      refine ⟨⟨o, hat u hu, hi.holding⟩, fun r => ?_⟩
      cases r with
      | error f => exact ⟨(Quietly.refl h).cons trivial, by rintro leaf ⟨⟩⟩
      | ok leaf =>
          refine ⟨(Quietly.refl h).cons trivial, ?_⟩
          rintro leaf' ⟨⟩
          exact .inr ⟨u, (hat u hu).mono (List.subset_cons_self _ _), List.mem_cons_self ..⟩

theorem finalize_journals (domain : Name) (hi : InHand q h o) :
    (finalize domain o q.key).Conforms (mayJournal q) h fun h' r =>
      Quietly h h' ∧ ∀ leaf, r = .ok leaf → Certified h' o leaf := by
  refine (aside_journals (fulfillAll_aside domain o.authzURLs)).bind fun h₁ r _ hq => ?_
  cases r with
  | error err => exact ⟨hq, by rintro leaf ⟨⟩⟩
  | ok _ =>
      refine ⟨trivial, fun r => ?_⟩
      have hq' := hq.cons (e := ⟨.createCertificateRequest domain q.key, r⟩) trivial
      cases r with
      | error reason => exact ⟨hq', by rintro leaf ⟨⟩⟩
      | ok _ =>
          refine ⟨⟨rfl, o, rfl, hi.holding.quietly hq'⟩, fun r => ?_⟩
          cases r with
          | error f => exact ⟨hq'.cons trivial, by rintro leaf ⟨⟩⟩
          | ok leaf =>
              refine ⟨hq'.cons trivial, ?_⟩
              rintro leaf' ⟨⟩
              exact .inl ⟨q.key.public, List.mem_cons_self ..⟩

/-- Whatever state the order is in, a chain comes from that order. -/
theorem complete_journals (domain : Name) (hi : InHand q h o) :
    (complete domain o q.key).Conforms (mayJournal q) h fun h' r =>
      Quietly h h' ∧ ∀ leaf, r = .ok leaf → Certified h' o leaf := by
  unfold complete
  split
  · exact fetch_journals domain hi fun u hu => .inl hu
  · refine ⟨trivial, fun r => ?_⟩
    have hq := (Quietly.refl h).cons (e := ⟨.waitOrder o.uri, r⟩) trivial
    cases r with
    | error f => exact ⟨hq, by rintro leaf ⟨⟩⟩
    | ok o' =>
        refine (fetch_journals domain (hi.quietly hq) ?_).mono fun h' r hr => ⟨hq.trans hr.1, hr.2⟩
        exact fun u hu => .inr ⟨o', List.mem_cons_self .., hu⟩
  · exact finalize_journals domain hi

end

/-- Every attempt keeps to the protocol. -/
theorem attempts_journals : attempts.Follows journals := by
  intro q
  have hdone : ∀ {h : Hist Op Res} {err : Err}, mayEndAttempt q h (.error err) := by
    rintro h err pem ⟨⟩
  refine (aside_journals ensureRegistered_aside).bind fun h₁ r _ _ => ?_
  cases r with
  | error err => exact hdone
  | ok _ =>
      refine (orderFor_journals q h₁ (Layout.certDomain q.name)).bind fun h₂ r _ hr => ?_
      cases r with
      | error err => exact hdone
      | ok order =>
          have hi : InHand q h₂ order := hr order rfl
          refine (complete_journals (Layout.certDomain q.name) hi).bind fun h₃ r _ hc => ?_
          cases r with
          | error err => exact hdone
          | ok leaf =>
              have hcert : Certified h₃ order leaf := hc.2 leaf rfl
              refine (clear_journals ((hi.quietly hc.1).expendable hcert)).bind fun h₄ _ _ hend => ?_
              obtain ⟨_, r, rfl⟩ := hend
              rintro pem ⟨⟩
              exact ⟨r, h₃, order, leaf, rfl, rfl, hcert⟩

end Issuer
end CertsManager
