import CertsManager.Provenance
import CertsManager.Discipline.Know

/-!
# Marks — retiring markers, and the promotion that comes after them

The markers of a host are rewritten under `retiringMu`, from the list read there: what has not
expired stays, and at most one record is added.  `Marking` folds an operation's calls and replies
into what it knows of the lists while it holds the mutex and which markers it found in force.
`mayMark` says what that permits:

* the mutex is taken when it is not held, and given up when it is;
* a list is written only under the mutex, from what was read or written there before; an operation
  that adds a record adds the digest of the live key it read, with the soak counted from its own
  clock reading, and does so before it overwrites the live key;
* a live key is overwritten once, within `issueTimeout` of the operation's first clock reading, and
  an MX host's only when the digest of the live key that was read is marked;
* all this is done only when it is due: in an activation that has stored its chain, and in a
  reconciliation that has found the stored chain bound to the staged key and another key live.
-/

namespace CertsManager

open Interleave

/-! ## What an operation has seen -/

/-- What a reader makes of a host's marker object. -/
def markers : Option RetiringObject → List RetiringRecord
  | some (.records rs) => rs
  | _ => []

/-- The list a read answered; a failed read answered none. -/
def markersRead : Except ReadFault RetiringObject → Option (List RetiringRecord)
  | .ok x => some (markers (some x))
  | .error .notExist => some []
  | .error (.failed _ _) => none

def reading : Event → Option Time
  | ⟨.env .now, t⟩ => some t
  | _ => none

/-- The clock readings of an operation, newest first. -/
def readings (h : History) : List Time :=
  h.filterMap reading

/-- The first of them. -/
def began (h : History) : Option Time :=
  (readings h).getLast?

def LiveRead (h : History) (n : Name) (k : Key) : Prop :=
  ∃ ctx, (⟨.storage ctx (.getKey (.live n)), .ok (.key k)⟩ : Event) ∈ h

def ChainRead (h : History) (n : Name) (c : ChainPEM) : Prop :=
  ∃ ctx, (⟨.storage ctx (.getChain n), .ok c⟩ : Event) ∈ h

/-- The operation called for the live key of `n` to be overwritten, whatever it heard of that. -/
def Overwrote (h : History) (n : Name) : Prop :=
  ∃ ctx k r, (⟨.storage ctx (.putKey (.live n) k false), r⟩ : Event) ∈ h

/-- The record a write of markers put last: the one that was added, if one was. -/
def ownMark (n : Name) : Event → Option RetiringRecord
  | ⟨.storage _ (.putRetiring host rs), .ok ()⟩ => if host = n then rs.getLast? else none
  | _ => none

def ownMarks (n : Name) (h : History) : List RetiringRecord :=
  h.filterMap (ownMark n)

theorem LiveRead.extend {h h' : History} {n : Name} {k : Key} (hk : LiveRead h n k)
    (hs : h <:+ h') : LiveRead h' n k := by
  obtain ⟨ctx, hmem⟩ := hk
  exact ⟨ctx, hs.subset hmem⟩

theorem ChainRead.extend {h h' : History} {n : Name} {c : ChainPEM} (hc : ChainRead h n c)
    (hs : h <:+ h') : ChainRead h' n c := by
  obtain ⟨ctx, hmem⟩ := hc
  exact ⟨ctx, hs.subset hmem⟩

theorem readings_append (l h : History) : readings (l ++ h) = readings l ++ readings h :=
  List.filterMap_append

theorem readings_extend {h h' : History} {t : Time} (ht : t ∈ readings h) (hs : h <:+ h') :
    t ∈ readings h' := by
  obtain ⟨l, rfl⟩ := hs
  rw [readings_append]
  exact List.mem_append_right _ ht

theorem ownMarks_extend {h h' : History} {n : Name} {m : RetiringRecord} (hm : m ∈ ownMarks n h)
    (hs : h <:+ h') : m ∈ ownMarks n h' := by
  obtain ⟨l, rfl⟩ := hs
  rw [ownMarks, List.filterMap_append]
  exact List.mem_append_right _ hm

/-- The first reading stays the first. -/
theorem began_append {h : History} {t : Time} (ht : began h = some t) (l : History) :
    began (l ++ h) = some t := by
  rw [began, readings_append, List.getLast?_append]
  simp [show (readings h).getLast? = some t from ht]

/-! ## Knowledge under the mutex -/

structure Marking where
  /-- Whether `retiringMu` is held. -/
  mu : Bool := false
  /-- The lists read or written under it. -/
  lists : Name → Option (List RetiringRecord) := fun _ => none
  /-- The markers of those lists that were in force at the last clock reading under it. -/
  judged : Name → List RetiringRecord := fun _ => []

namespace Marking

/-- Under the mutex nobody else writes a list. -/
def learn (κ : Marking) (host : Name) (x : Option (List RetiringRecord)) : Marking :=
  if κ.mu then { κ with lists := Function.update κ.lists host x } else κ

def judge (κ : Marking) (t : Time) : Marking :=
  if κ.mu then { κ with judged := fun host => Dane.unexpired t ((κ.lists host).getD []) } else κ

def after (κ : Marking) : Event → Marking
  | ⟨.mem .retiringLock, _⟩ => { κ with mu := true, lists := fun _ => none }
  | ⟨.mem .retiringUnlock, _⟩ => { κ with mu := false, lists := fun _ => none }
  | ⟨.storage _ (.getRetiring host), r⟩ => κ.learn host (markersRead r)
  | ⟨.storage _ (.putRetiring host rs), r⟩ => κ.learn host (r.toOption.map fun _ => rs)
  | ⟨.storage _ (.removeRetiring host), r⟩ => κ.learn host (r.toOption.map fun _ => [])
  | ⟨.env .now, t⟩ => κ.judge t
  | _ => κ

@[simp] theorem learn_mu (κ : Marking) (host : Name) (x : Option (List RetiringRecord)) :
    (κ.learn host x).mu = κ.mu := by
  simp only [learn]
  split <;> rfl

@[simp] theorem learn_judged (κ : Marking) (host : Name) (x : Option (List RetiringRecord)) :
    (κ.learn host x).judged = κ.judged := by
  simp only [learn]
  split <;> rfl

@[simp] theorem judge_mu (κ : Marking) (t : Time) : (κ.judge t).mu = κ.mu := by
  simp only [judge]
  split <;> rfl

@[simp] theorem judge_lists (κ : Marking) (t : Time) : (κ.judge t).lists = κ.lists := by
  simp only [judge]
  split <;> rfl

@[simp] theorem after_storage_mu (κ : Marking) (ctx : Time) (o : StorageOp) (r : o.Res) :
    (κ.after ⟨.storage ctx o, r⟩).mu = κ.mu := by
  cases o <;> simp [after]

theorem learn_self {κ : Marking} (hmu : κ.mu = true) (host : Name)
    (x : Option (List RetiringRecord)) : (κ.learn host x).lists host = x := by
  simp [learn, hmu]

end Marking

def marking (h : History) : Marking :=
  h.foldr (fun e κ => κ.after e) {}

@[simp] theorem marking_nil : marking [] = {} := rfl

@[simp] theorem marking_cons (e : Event) (h : History) :
    marking (e :: h) = (marking h).after e := rfl

/-- Nothing is known of the lists without the mutex. -/
theorem marking_sound (h : History) (hmu : (marking h).mu = false) (host : Name) :
    (marking h).lists host = none := by
  induction h with
  | nil => rfl
  | cons e h ih =>
      obtain ⟨o, r⟩ := e
      have hlearn : ∀ n x, ((marking h).learn n x).mu = false →
          ((marking h).learn n x).lists host = none := by
        intro n x hf
        rw [Marking.learn_mu] at hf
        simp [Marking.learn, hf, ih hf]
      rw [marking_cons] at hmu ⊢
      cases o with
      | storage ctx o =>
          cases o with
          | getRetiring n => exact hlearn n _ hmu
          | putRetiring n rs => exact hlearn n _ hmu
          | removeRetiring n => exact hlearn n _ hmu
          | _ => exact ih hmu
      | mem o =>
          cases o with
          | retiringLock => rfl
          | retiringUnlock => rfl
          | _ => exact ih hmu
      | env o =>
          cases o with
          | now =>
              have hf : (marking h).mu = false := by simpa [Marking.after] using hmu
              simpa [Marking.after] using ih hf
          | _ => exact ih hmu

/-! ## What is permitted -/

/-- The operation found the stored chain bound to the staged key, and another key live. -/
def Looked (h : History) (n : Name) : Prop :=
  ∃ k₁ k₂ leaf, LiveRead h n k₁ ∧ StagedRead h n k₂ ∧ ChainRead h n (.chain leaf) ∧
    leaf.pub = k₂.public ∧ k₁ ≠ k₂

/-- The rest of the ceremony is due: the chain is stored. -/
def PromotionDue (q : Call) (h : History) (n : Name) : Prop :=
  match q with
  | .activateCertificateKey d _ => d = n ∧ ∃ c, PutOk h n c
  | .reconcileCeremony d => d = n ∧ Looked h n
  | _ => False

theorem PromotionDue.extend {q : Call} {h h' : History} {n : Name} (hd : PromotionDue q h n)
    (hs : h <:+ h') : PromotionDue q h' n := by
  cases q with
  | activateCertificateKey d force =>
      obtain ⟨rfl, c, hc⟩ := hd
      exact ⟨rfl, c, hc.extend hs⟩
  | reconcileCeremony d =>
      obtain ⟨rfl, k₁, k₂, leaf, hlive, hnext, hchain, hfound⟩ := hd
      exact ⟨rfl, k₁, k₂, leaf, hlive.extend hs, hnext.extend hs, hchain.extend hs, hfound⟩
  | _ => exact hd.elim

/-- The digest of the live key that was read is marked: by this operation, or it was found in force
under the mutex. -/
def Marked (h : History) (n : Name) : Prop :=
  ∃ k m, LiveRead h n k ∧ m.digest = k.public.spkiSHA256 ∧
    (m ∈ ownMarks n h ∨ m ∈ (marking h).judged n)

/-- How a list may be rewritten: a clean-up drops what has expired, a ceremony also adds the live
key's digest. -/
def Rewrites (cfg : Settings) (q : Call) (h : History) (host : Name) (list : List RetiringRecord)
    (t : Time) (rs : List RetiringRecord) : Prop :=
  (q = .cleanupExpiredRetiring ∧ rs = Dane.unexpired t list) ∨
    (PromotionDue q h host ∧ ¬Overwrote h host ∧ ∃ k d, LiveRead h host k ∧ cfg.dane = some d ∧
      rs = Dane.unexpired t list ++ [⟨k.public.spkiSHA256, unix (t + d.soak)⟩])

def mayRewrite (cfg : Settings) (q : Call) (h : History) (host : Name)
    (rs : List RetiringRecord) : Prop :=
  (marking h).mu = true ∧ ∃ list t, (marking h).lists host = some list ∧ t ∈ readings h ∧
    Rewrites cfg q h host list t rs

def mayMark (cfg : Settings) (q : Call) (h : History) : Op → Prop
  | .mem .retiringLock => (marking h).mu = false
  | .mem .retiringUnlock => (marking h).mu = true
  | .storage _ (.putRetiring host rs) => mayRewrite cfg q h host rs
  | .storage _ (.removeRetiring host) => mayRewrite cfg q h host []
  | .storage ctx (.putKey (.live n) _ createOnly) => createOnly = false →
      PromotionDue q h n ∧ ¬Overwrote h n ∧ (∃ t, began h = some t ∧ ctx = t + issueTimeout) ∧
        (cfg.isMX n = true → Marked h n)
  | .storage _ (.removeKey slot) => ∃ n, slot = .next n ∧ PromotionDue q h n
  | _ => True

/-! ## Calls that leave markers and live keys alone -/

def Op.Unmarking : Op → Prop
  | .storage _ (.putRetiring _ _) => False
  | .storage _ (.removeRetiring _) => False
  | .storage _ (.putKey (.live _) _ createOnly) => createOnly = true
  | .storage _ (.removeKey _) => False
  | .mem .retiringLock => False
  | .mem .retiringUnlock => False
  | _ => True

theorem Op.Looking.unmarking {o : Op} (h : o.Looking) : o.Unmarking := by
  cases o with
  | storage ctx o =>
      cases o with
      | putKey slot k createOnly =>
          obtain ⟨rfl, -⟩ := h
          trivial
      | removeKey slot => cases h
      | _ => trivial
  | mem o => cases o <;> trivial
  | env o => trivial

theorem Op.Staging.unmarking {o : Op} (h : o.Staging) : o.Unmarking := by
  cases o with
  | storage ctx o =>
      cases o with
      | putKey slot k createOnly =>
          cases slot with
          | live n => exact h.2
          | _ => trivial
      | removeKey slot => cases h
      | _ => trivial
  | mem o => cases o <;> trivial
  | env o => trivial

theorem Op.Serving.unmarking {o : Op} (h : o.Serving) : o.Unmarking := by
  cases o with
  | storage ctx o =>
      cases o with
      | putKey slot k createOnly =>
          obtain ⟨rfl, -⟩ := h
          trivial
      | removeKey slot => cases h
      | _ => trivial
  | mem o => cases o <;> trivial
  | env o => trivial

theorem unmarking_of_quiet {α : Type} {p : M α} (hp : p.Calls Op.Quiet) : p.Calls Op.Unmarking :=
  hp.mono fun _ ho => ho.looking.unmarking

section Unmarking

variable {h l : History}

theorem Marking.after_unmarking (κ : Marking) {e : Event} (he : e.op.Unmarking) :
    (κ.after e).mu = κ.mu ∧ (κ.mu = false → (κ.after e).judged = κ.judged) := by
  obtain ⟨o, r⟩ := e
  cases o with
  | storage ctx o =>
      cases o with
      | getRetiring host => simp [Marking.after]
      | putRetiring host rs => cases he
      | removeRetiring host => cases he
      | _ => exact ⟨rfl, fun _ => rfl⟩
  | mem o =>
      cases o with
      | retiringLock => cases he
      | retiringUnlock => cases he
      | _ => exact ⟨rfl, fun _ => rfl⟩
  | env o =>
      cases o with
      | now =>
          refine ⟨by simp [Marking.after], fun hmu => ?_⟩
          simp [Marking.after, Marking.judge, hmu]
      | _ => exact ⟨rfl, fun _ => rfl⟩

theorem marking_append (hl : ∀ e ∈ l, e.op.Unmarking) :
    (marking (l ++ h)).mu = (marking h).mu ∧
      ((marking h).mu = false → (marking (l ++ h)).judged = (marking h).judged) := by
  induction l with
  | nil => exact ⟨rfl, fun _ => rfl⟩
  | cons e l ih =>
      have hrest := ih fun e' he' => hl e' (List.mem_cons_of_mem _ he')
      have hone := (marking (l ++ h)).after_unmarking (hl e List.mem_cons_self)
      rw [List.cons_append, marking_cons]
      refine ⟨hone.1.trans hrest.1, fun hmu => ?_⟩
      exact (hone.2 (hrest.1.trans hmu)).trans (hrest.2 hmu)

theorem Overwrote.of_cons {n : Name} {e : Event} (hn : Overwrote (e :: h) n)
    (he : ∀ ctx n k, e.op ≠ .storage ctx (.putKey (.live n) k false)) : Overwrote h n := by
  obtain ⟨ctx, k, r, hmem⟩ := hn
  rcases List.mem_cons.1 hmem with heq | hmem
  · exact absurd (congrArg Ev.op heq).symm (he ctx n k)
  · exact ⟨ctx, k, r, hmem⟩

theorem Overwrote.of_append {n : Name} (hn : Overwrote (l ++ h) n)
    (hl : ∀ e ∈ l, e.op.Unmarking) : Overwrote h n := by
  obtain ⟨ctx, k, r, hmem⟩ := hn
  rcases List.mem_append.1 hmem with hmem | hmem
  · cases hl _ hmem
  · exact ⟨ctx, k, r, hmem⟩

theorem Marked.append {n : Name} (hm : Marked h n) (hmu : (marking h).mu = false)
    (hl : ∀ e ∈ l, e.op.Unmarking) : Marked (l ++ h) n := by
  obtain ⟨k, m, hk, hdigest, hm⟩ := hm
  have hs : h <:+ l ++ h := List.suffix_append l h
  refine ⟨k, m, hk.extend hs, hdigest, hm.imp (ownMarks_extend · hs) fun hj => ?_⟩
  rw [(marking_append hl).2 hmu]
  exact hj

/-- Before the promotion: the mutex is not held, no live key is overwritten yet. -/
structure Ready (t : Time) (h : History) : Prop where
  mu : (marking h).mu = false
  began : CertsManager.began h = some t
  fresh : ∀ n, ¬Overwrote h n

theorem Ready.append {t : Time} (hr : Ready t h) (hl : ∀ e ∈ l, e.op.Unmarking) :
    Ready t (l ++ h) where
  mu := (marking_append hl).1.trans hr.mu
  began := began_append hr.began l
  fresh n hn := hr.fresh n (hn.of_append hl)

theorem Op.Unmarking.mayMark {cfg : Settings} {q : Call} {o : Op} (ho : o.Unmarking) :
    mayMark cfg q h o := by
  cases o with
  | storage ctx o =>
      cases o with
      | putKey slot k createOnly =>
          cases slot with
          | live n =>
              rintro rfl
              cases ho
          | _ => trivial
      | putRetiring host rs => cases ho
      | removeRetiring host => cases ho
      | removeKey slot => cases ho
      | _ => trivial
  | mem o => cases o <;> trivial
  | env o => trivial

end Unmarking

/-! ## How a reconciliation may end -/

/-- Storage did not do what was asked, or the leadership was lost. -/
def refused : Event → Bool
  | ⟨.storage _ (.getKey _), .error (.failed _ _)⟩ => true
  | ⟨.storage _ (.getChain _), .error (.failed _ _)⟩ => true
  | ⟨.storage _ (.getRetiring _), .error (.failed _ _)⟩ => true
  | ⟨.storage _ (.putKey _ _ _), .error _⟩ => true
  | ⟨.storage _ (.putRetiring _ _), .error _⟩ => true
  | ⟨.storage _ (.removeRetiring _), .error _⟩ => true
  | ⟨.env .isLeader, false⟩ => true
  | _ => false

/-- A read of one of the three objects that gave no key or no chain. -/
def Missing (n : Name) : Event → Prop
  | ⟨.storage _ (.getKey slot), r⟩ => (slot = .next n ∨ slot = .live n) ∧ ∀ k, r ≠ .ok (.key k)
  | ⟨.storage _ (.getChain m), r⟩ => m = n ∧ ∀ leaf, r ≠ .ok (.chain leaf)
  | _ => False

/-- What was read asks for no promotion. -/
def Unneeded (h : History) (n : Name) : Prop :=
  ∃ k₁ k₂ leaf, LiveRead h n k₁ ∧ StagedRead h n k₂ ∧ ChainRead h n (.chain leaf) ∧
    ¬(leaf.pub = k₂.public ∧ k₁ ≠ k₂)

/-- Why it has not gone on: something was refused, or an object was missing. -/
def Hindered (h : History) (n : Name) : Prop :=
  ∃ e ∈ h, refused e = true ∨ Missing n e

/-! ## The functions, one by one -/

section Functions

variable {cfg : Settings} {q : Call} {h : History}

theorem unmarking_marks {α : Type} {p : M α} (hp : p.Calls Op.Unmarking) :
    p.Conforms (mayMark cfg q) h fun h' _ => ∃ l, h' = l ++ h ∧ ∀ e ∈ l, e.op.Unmarking :=
  hp.conforms fun _ _ ho => ho.mayMark

theorem ready_marks {α : Type} {p : M α} {t : Time} (hp : p.Calls Op.Unmarking)
    (hr : Ready t h) : p.Conforms (mayMark cfg q) h fun h' _ => Ready t h' := by
  refine (unmarking_marks hp).mono ?_
  rintro h' a ⟨l, rfl, hl⟩
  exact hr.append hl

/-- One read of a key object, and what is made of its answer. -/
theorem load_reply {may : History → Op → Prop} (ctx : Time) (slot : KeySlot)
    (hmay : may h (.storage ctx (.getKey slot))) :
    (KeyStore.load cfg ctx slot).Conforms may h fun h' r =>
      ∃ reply, h' = ⟨.storage ctx (.getKey slot), reply⟩ :: h ∧
        (∀ k, r = .ok k ↔ reply = .ok (.key k)) ∧
        (∀ err, r = .error err → err.is .notExist = true → reply = .error .notExist) := by
  simp only [KeyStore.load, onStorage, Prog.conforms_bind, Prog.conforms_perform]
  refine ⟨hmay, fun r => ?_⟩
  cases r with
  | error f =>
      cases f with
      | notExist => exact ⟨_, rfl, by simp, fun _ _ _ => rfl⟩
      | failed inBody reason =>
          cases inBody <;> refine ⟨_, rfl, by simp, ?_⟩ <;> rintro err ⟨⟩ hne <;>
            simp [readFailure, Err.is, Err.wrap] at hne
  | ok pem =>
      cases pem with
      | garbage =>
          refine ⟨_, rfl, by simp [parseKeyPEM], ?_⟩
          rintro err ⟨⟩ hne
          simp [Err.is, Err.new] at hne
      | key k => exact ⟨_, rfl, by simp [parseKeyPEM], by simp [parseKeyPEM]⟩

/-- One read of the markers, and the list it gives. -/
theorem retiring_reply {may : History → Op → Prop} (ctx : Time) (host : Name)
    (hmay : may h (.storage ctx (.getRetiring host))) :
    (Dane.retiring ctx host).Conforms may h fun h' r =>
      ∃ reply, h' = ⟨.storage ctx (.getRetiring host), reply⟩ :: h ∧
        (∀ list, r = .ok list → markersRead reply = some list) ∧
        (∀ err, r = .error err → refused ⟨.storage ctx (.getRetiring host), reply⟩ = true) := by
  simp only [Dane.retiring, onStorage, Prog.conforms_bind, Prog.conforms_perform]
  refine ⟨hmay, fun r => ?_⟩
  rcases r with (_ | ⟨_, _⟩) | (rs | _) <;> refine ⟨_, rfl, ?_, ?_⟩ <;> rintro x ⟨⟩ <;> rfl

theorem writeRetiring_marks (ctx : Time) (host : Name) (rs : List RetiringRecord)
    (hrs : mayRewrite cfg q h host rs) :
    (Dane.writeRetiring ctx host rs).Conforms (mayMark cfg q) h fun h' r =>
      (marking h').mu = true ∧ (∀ n, Overwrote h' n → Overwrote h n) ∧
        (r = .ok () → ∀ m, rs.getLast? = some m → m ∈ ownMarks host h') ∧
        (∀ f, r = .error f → ∃ e ∈ h', refused e = true) := by
  simp only [Dane.writeRetiring, onStorage]
  split
  · rename_i hempty
    obtain rfl : rs = [] := by simpa using hempty
    refine ⟨hrs, fun r => ⟨by simpa using hrs.1, fun n hn => hn.of_cons (by simp), by simp, ?_⟩⟩
    rintro f rfl
    exact ⟨_, List.mem_cons_self, rfl⟩
  · refine ⟨hrs, fun r => ⟨by simpa using hrs.1, fun n hn => hn.of_cons (by simp), ?_, ?_⟩⟩
    · rintro rfl m hm
      rw [ownMarks, List.filterMap_cons_some (b := m)]
      · exact List.mem_cons_self
      · simpa [ownMark] using hm
    · rintro f rfl
      exact ⟨_, List.mem_cons_self, rfl⟩

/-- Under the mutex the digest is found in force, or is added. -/
theorem addRetiring_marks {d : DaneSettings} (hd : cfg.dane = some d) (ctx : Time) {host : Name}
    {k : Key} (hmu : (marking h).mu = true) (hdue : PromotionDue q h host) (hfresh : ¬Overwrote h host)
    (hk : LiveRead h host k) :
    (Dane.addRetiring d.soak ctx host k.public.spkiSHA256).Conforms (mayMark cfg q) h fun h' r =>
      (marking h').mu = true ∧ (∀ n, Overwrote h' n → Overwrote h n) ∧
        (r = .ok () → ∃ m, m.digest = k.public.spkiSHA256 ∧
          (m ∈ ownMarks host h' ∨ m ∈ (marking h').judged host)) ∧
        (∀ err, r = .error err → ∃ e ∈ h', refused e = true) := by
  refine (retiring_reply ctx host trivial).bind fun h₁ r _ hr => ?_
  obtain ⟨reply, rfl, hlist, hfailed⟩ := hr
  have hmu₁ : (marking (⟨.storage ctx (.getRetiring host), reply⟩ :: h)).mu = true := by
    simpa using hmu
  have hover₁ : ∀ n, Overwrote (⟨.storage ctx (.getRetiring host), reply⟩ :: h) n →
      Overwrote h n := fun n hn => hn.of_cons (by simp)
  cases r with
  | error err => exact ⟨hmu₁, hover₁, by simp, fun e _ => ⟨_, List.mem_cons_self, hfailed err rfl⟩⟩
  | ok list =>
      simp only [onEnv, Prog.conforms_bind, Prog.conforms_perform]
      refine ⟨trivial, fun t => ?_⟩
      -- what was read under the mutex is what is judged at this clock reading
      have hlists : ((marking h).learn host (markersRead reply)).lists host = some list := by
        rw [Marking.learn_self hmu, hlist list rfl]
      have hjudged : (marking (⟨.env .now, t⟩ :: ⟨.storage ctx (.getRetiring host), reply⟩ ::
          h)).judged host = Dane.unexpired t list := by
        simp [Marking.after, Marking.judge, hmu, hlists]
      have hover₂ : ∀ n, Overwrote (⟨.env .now, t⟩ :: ⟨.storage ctx (.getRetiring host), reply⟩ ::
          h) n → Overwrote h n := fun n hn => hover₁ n (hn.of_cons (by simp))
      have hs₂ : h <:+ ⟨.env .now, t⟩ :: ⟨.storage ctx (.getRetiring host), reply⟩ :: h :=
        (List.suffix_cons _ h).trans (List.suffix_cons _ _)
      split
      · rename_i hany
        obtain ⟨m, hm, hdigest⟩ := List.any_eq_true.1 hany
        refine ⟨by simpa [Marking.after] using hmu, hover₂, fun _ => ?_, by simp⟩
        refine ⟨m, of_decide_eq_true hdigest, Or.inr ?_⟩
        rw [hjudged]
        exact hm
      · refine (writeRetiring_marks ctx host _ ?_).bind fun h₃ r _ hr₃ => ?_
        · refine ⟨by simpa [Marking.after] using hmu, list, t, ?_, by simp [readings, reading], ?_⟩
          · simpa [Marking.after] using hlists
          · exact Or.inr ⟨hdue.extend hs₂, fun hn => hfresh (hover₂ host hn), k, d, hk.extend hs₂,
              hd, rfl⟩
        · obtain ⟨hmu₃, hover₃, hown, hput⟩ := hr₃
          cases r with
          | error f =>
              exact ⟨hmu₃, fun n hn => hover₂ n (hover₃ n hn), by simp, fun _ _ => hput f rfl⟩
          | ok _ =>
              refine ⟨hmu₃, fun n hn => hover₂ n (hover₃ n hn), fun _ => ?_, by simp⟩
              exact ⟨_, rfl, Or.inl (hown rfl _ List.getLast?_concat)⟩

theorem markRetiring_marks {d : DaneSettings} (hd : cfg.dane = some d) (ctx : Time) {host : Name}
    {t : Time} (hr : Ready t h) (hdue : PromotionDue q h host) :
    (Dane.markRetiring cfg d.soak ctx host).Conforms (mayMark cfg q) h fun h' r =>
      Ready t h' ∧ (r = .ok () → Marked h' host) ∧ (∀ err, r = .error err → Hindered h' host) := by
  refine (load_reply ctx (.live host) (by simp [mayMark])).bind fun h₁ r hs₁ hr₁ => ?_
  obtain ⟨reply, rfl, hreply, -⟩ := hr₁
  have hr₁ : Ready t (⟨.storage ctx (.getKey (.live host)), reply⟩ :: h) :=
    hr.append (l := [_]) (by simp [Op.Unmarking])
  cases r with
  | error err =>
      refine ⟨hr₁, by simp, fun _ _ => ⟨_, List.mem_cons_self, Or.inr ⟨Or.inr rfl, fun k hk => ?_⟩⟩⟩
      cases (hreply k).2 hk
  | ok k =>
      obtain rfl := (hreply k).1 rfl
      simp only [onMem, Prog.conforms_bind, Prog.conforms_perform]
      refine ⟨hr₁.mu, fun u => ?_⟩
      have hk : LiveRead (⟨.mem .retiringLock, u⟩ ::
          ⟨.storage ctx (.getKey (.live host)), .ok (.key k)⟩ :: h) host k :=
        ⟨ctx, List.mem_cons_of_mem _ List.mem_cons_self⟩
      refine (addRetiring_marks hd ctx rfl ?_ ?_ hk).extends.mono fun h₂ r hr₂ => ?_
      · exact hdue.extend ((List.suffix_cons _ h).trans (List.suffix_cons _ _))
      · exact fun hn => hr₁.fresh host (hn.of_cons (by simp))
      · obtain ⟨hs₂, hmu₂, hover₂, hm, hfailed⟩ := hr₂
        obtain ⟨l, rfl⟩ := hs₂
        refine ⟨hmu₂, fun u' => ⟨⟨rfl, ?_, ?_⟩, fun hok => ?_, fun err herr => ?_⟩⟩
        · have hlater := began_append hr₁.began (⟨.mem .retiringUnlock, u'⟩ ::
            (l ++ [⟨.mem .retiringLock, u⟩]))
          simpa using hlater
        · exact fun n hn => hr₁.fresh n ((hover₂ n (hn.of_cons (by simp))).of_cons (by simp))
        · obtain ⟨m, hdigest, hm⟩ := hm hok
          have hs₃ := List.suffix_cons (⟨.mem .retiringUnlock, u'⟩ : Event)
            (l ++ ⟨.mem .retiringLock, u⟩ :: ⟨.storage ctx (.getKey (.live host)), .ok (.key k)⟩ :: h)
          refine ⟨k, m, hk.extend ((List.suffix_append l _).trans hs₃), hdigest, ?_⟩
          exact hm.imp (ownMarks_extend · hs₃) id
        · obtain ⟨e, hmem, he⟩ := hfailed err herr
          exact ⟨e, List.mem_cons_of_mem _ hmem, Or.inl he⟩

/-- After the outgoing digest is recorded, an MX host's is marked. -/
theorem markOutgoing_marks (ctx : Time) {n : Name} {t : Time} (hr : Ready t h)
    (hdue : PromotionDue q h n) :
    (Manager.markOutgoing cfg ctx n).Conforms (mayMark cfg q) h fun h' r =>
      Ready t h' ∧ (r = .ok () → cfg.isMX n = true → Marked h' n) ∧
        (∀ err, r = .error err → Hindered h' n) := by
  cases hd : cfg.dane with
  | none => simpa [Manager.markOutgoing, hd, Settings.isMX] using hr
  | some d =>
      simp only [Manager.markOutgoing, hd]
      split
      · exact (markRetiring_marks hd ctx hr hdue).mono fun _ _ hm =>
          ⟨hm.1, fun hok _ => hm.2.1 hok, hm.2.2⟩
      · rename_i hmx
        refine ⟨hr, fun _ hn => absurd hn ?_, by simp⟩
        simpa [Settings.isMX, hd] using hmx

theorem promoteNextCertKey_marks {ctx t : Time} {n : Name} (hr : Ready t h) (hdue : PromotionDue q h n)
    (hctx : ctx = t + issueTimeout) (hm : cfg.isMX n = true → Marked h n) :
    (KeyStore.promoteNextCertKey cfg ctx n).Conforms (mayMark cfg q) h fun h' r =>
      (r = .ok () → Promoted h' n) ∧ (∀ err, r = .error err → Hindered h' n) := by
  simp only [KeyStore.promoteNextCertKey, KeyStore.canCreate, isLeader, onEnv, Prog.conforms_bind,
    Prog.conforms_perform]
  refine ⟨trivial, fun may => ?_⟩
  cases may with
  | false => exact ⟨by simp, fun _ _ => ⟨_, List.mem_cons_self, Or.inl rfl⟩⟩
  | true =>
      refine (load_reply ctx (.next n) trivial).bind fun h₁ r _ hr₁ => ?_
      obtain ⟨reply, rfl, hreply, -⟩ := hr₁
      have hl : ∀ e ∈ [(⟨.storage ctx (.getKey (.next n)), reply⟩ : Event),
          ⟨.env .isLeader, true⟩], e.op.Unmarking := by
        simp [Op.Unmarking]
      have hr₂ := hr.append hl
      cases r with
      | error err =>
          refine ⟨by simp, fun _ _ => ⟨_, List.mem_cons_self, Or.inr ⟨Or.inl rfl, fun k hk => ?_⟩⟩⟩
          cases (hreply k).2 hk
      | ok k =>
          have hdue₂ := hdue.extend (List.suffix_append [(⟨.storage ctx (.getKey (.next n)), reply⟩ :
            Event), ⟨.env .isLeader, true⟩] h)
          simp only [onStorage, Prog.conforms_bind, Prog.conforms_perform]
          refine ⟨fun _ => ⟨hdue₂, hr₂.fresh n, ⟨t, hr₂.began, hctx⟩, fun hmx => ?_⟩, fun r => ?_⟩
          · exact (hm hmx).append hr.mu hl
          · cases r with
            | error f => exact ⟨by simp, fun _ _ => ⟨_, List.mem_cons_self, Or.inl rfl⟩⟩
            | ok _ =>
                refine ⟨⟨n, rfl, hdue₂.extend (List.suffix_cons _ _)⟩, fun r => ⟨fun _ => ?_, by simp⟩⟩
                exact ⟨ctx, k, List.mem_cons_of_mem _ List.mem_cons_self⟩

theorem promoteStored_marks {ctx t : Time} {n : Name} (hr : Ready t h) (hdue : PromotionDue q h n)
    (hctx : ctx = t + issueTimeout) :
    (Manager.promoteStored cfg ctx n).Conforms (mayMark cfg q) h fun _ _ => True := by
  refine (markOutgoing_marks ctx hr hdue).bind fun h₁ r hs₁ hr₁ => ?_
  obtain ⟨hr₁, hm, -⟩ := hr₁
  cases r with
  | error err => simp
  | ok _ =>
      simp only [isLeader, onEnv, Prog.conforms_bind, Prog.conforms_perform]
      refine ⟨trivial, fun leader => ?_⟩
      have hl : ∀ e ∈ [(⟨.env .isLeader, leader⟩ : Event)], e.op.Unmarking := by
        simp [Op.Unmarking]
      have hdue₁ : PromotionDue q (⟨.env .isLeader, leader⟩ :: h₁) n :=
        hdue.extend (hs₁.trans (List.suffix_cons _ _))
      cases leader with
      | false => simp
      | true =>
          refine (promoteNextCertKey_marks (hr₁.append hl) hdue₁ hctx fun hmx => ?_).bind
            fun _ r _ _ => ?_
          · exact (hm rfl hmx).append hr₁.mu hl
          · cases r <;> simp

/-! ### Activation and reconciliation -/

theorem Storing.unmarking {n : Name} {c : ChainPEM} {o : Op} (h : Storing n c o) : o.Unmarking := by
  cases h <;> trivial

theorem persistFrom_puts (ctx : Time) (n : Name) (c : ChainPEM) (left attempt : Nat) :
    (CertCache.persistFrom ctx n c left attempt).Conforms (fun _ _ => True) h fun h' r =>
      r = .ok () → PutOk h' n c := by
  induction left generalizing attempt h with
  | zero =>
      simp only [CertCache.persistFrom, onStorage, Prog.conforms_bind, Prog.conforms_perform]
      refine ⟨trivial, fun r => ?_⟩
      cases r with
      | error f => simp
      | ok _ => exact fun _ => ⟨ctx, List.mem_cons_self⟩
  | succ left ih =>
      simp only [CertCache.persistFrom, onStorage, onEnv, Prog.conforms_bind, Prog.conforms_perform]
      refine ⟨trivial, fun r => ?_⟩
      cases r with
      | ok _ => exact fun _ => ⟨ctx, List.mem_cons_self⟩
      | error f =>
          simp only [Prog.conforms_bind, Prog.conforms_perform]
          refine ⟨trivial, fun slept => ?_⟩
          cases slept with
          | false => simp
          | true => exact ih _

theorem store_puts (cfg : Settings) (ctx : Time) (n : Name) (c : ChainPEM) (k : Key) :
    (CertCache.store cfg ctx n c k).Conforms (fun _ _ => True) h fun h' r =>
      ∀ cert, r = .stored cert → PutOk h' n c := by
  simp only [CertCache.store]
  cases buildCertificate c k with
  | error err => simp
  | ok cert =>
      refine (persistFrom_puts ctx n c _ _).bind fun h₁ r _ hr => ?_
      cases r with
      | error err => simp
      | ok _ =>
          simp only [CertCache.set, CertCache.dropPending, onMem, Prog.conforms_bind,
            Prog.conforms_perform]
          refine ⟨trivial, fun _ => ⟨trivial, fun _ => ?_⟩⟩
          refine ((confirmed_serving cfg n cert).conforms fun _ _ _ => trivial).extends.mono ?_
          rintro h₂ a ⟨hs₂, -⟩ cert' -
          exact (hr rfl).extend (((List.suffix_cons _ h₁).trans (List.suffix_cons _ _)).trans hs₂)

theorem chainForActivation_unmarking (cfg : Settings) (ctx : Time) (n : Name) (k : Key) :
    (Manager.chainForActivation cfg ctx n k).Calls Op.Unmarking := by
  have horder : (Manager.orderForActivation cfg ctx n k).Calls Op.Unmarking := by
    intro h
    refine (unmarking_of_quiet (ensureIssuer_quiet cfg ctx) h).bind fun _ r _ _ => ?_
    cases r with
    | error err => simp
    | ok _ =>
        simp only [onEnv, Prog.conforms_bind, Prog.conforms_perform]
        refine ⟨trivial, fun r => ?_⟩
        cases r <;> simp
  intro h
  simp only [Manager.chainForActivation, CertCache.heldChainFor, onMem, Prog.conforms_bind,
    Prog.conforms_perform]
  refine ⟨trivial, fun p => ?_⟩
  cases p with
  | none => exact horder _
  | some p =>
      cases hb : buildCertificate p.chainPEM k with
      | error err => simpa [hb] using horder _
      | ok cert => simp [hb]

theorem activateLeased_marks {ctx t : Time} (n : Name) (force : Bool) (hr : Ready t h)
    (hctx : ctx = t + issueTimeout) :
    (Manager.activateLeased cfg ctx n force).Conforms
      (mayMark cfg (.activateCertificateKey n force)) h fun _ _ => True := by
  refine (ready_marks (unmarking_of_quiet (load_quiet cfg ctx (.next n))) hr).bind
    fun h₁ r _ hr₁ => ?_
  cases r with
  | error err => simp
  | ok k =>
      refine (ready_marks (unmarking_of_quiet (activationGate_quiet cfg ctx n k force)) hr₁).bind
        fun h₂ r _ hr₂ => ?_
      cases r with
      | error err => simp
      | ok _ =>
          refine (ready_marks (chainForActivation_unmarking cfg ctx n k) hr₂).bind
            fun h₃ r _ hr₃ => ?_
          cases r with
          | error err => simp
          | ok c =>
              have hready : (CertCache.store cfg ctx n c k).Conforms
                  (mayMark cfg (.activateCertificateKey n force)) h₃ fun h' _ => Ready t h' :=
                ready_marks ((store_storing cfg ctx n c k).mono fun _ ho => ho.unmarking) hr₃
              have hstore := (hready.and (store_puts cfg ctx n c k)).weaken fun _ _ ho => ho.1
              refine hstore.bind fun h₄ r _ hr₄ => ?_
              cases r with
              | unusable err => simp
              | stored cert => exact promoteStored_marks hr₄.1 ⟨rfl, c, hr₄.2 cert rfl⟩ hctx
              | unstored cert err =>
                  simp only
                  split
                  · simp
                  · simp [CertCache.hold, CertCache.set, onMem, mayMark]

theorem activateCertificateKey_marks (n : Name) (force : Bool) :
    (Manager.activateCertificateKey cfg n force).Conforms
      (mayMark cfg (.activateCertificateKey n force)) [] fun _ _ => True := by
  simp only [Manager.activateCertificateKey, Manager.activateLocked, Manager.acquireIssueLease,
    Manager.releaseIssueLease, isLeader, onEnv, Prog.conforms_bind, Prog.conforms_perform]
  refine ⟨trivial, fun leader => ?_⟩
  cases leader with
  | false => simp
  | true =>
      simp only [Bool.not_true, Bool.false_eq_true, if_false]
      split
      · simp
      · simp only [Manager.now, onEnv, onMem, Prog.conforms_bind, Prog.conforms_perform]
        refine ⟨trivial, fun t => ⟨trivial, fun _ => ⟨trivial, fun ok => ?_⟩⟩⟩
        cases ok with
        | false => simp [mayMark]
        | true =>
            have hready : Ready t [⟨.env .now, t⟩, ⟨.env .isLeader, true⟩] :=
              ⟨rfl, rfl, by simp [Overwrote]⟩
            refine (activateLeased_marks n force (hready.append (l := [_, _]) ?_) rfl).bind
              fun _ _ _ _ => ?_
            · simp [Op.Unmarking]
            · simp [mayMark]

/-- Reconciliation promotes, has been hindered, or was not needed. -/
theorem reconcileCeremony_marks {ctx t : Time} (n : Name) (hr : Ready t h)
    (hctx : ctx = t + issueTimeout) :
    (Manager.reconcileCeremony cfg ctx n).Conforms (mayMark cfg (.reconcileCeremony n)) h fun h' _ =>
      Promoted h' n ∨ Hindered h' n ∨ Unneeded h' n := by
  refine (load_reply ctx (.next n) trivial).bind fun h₁ r _ hr₁ => ?_
  obtain ⟨reply, rfl, hnext, -⟩ := hr₁
  have hready₁ : Ready t (⟨.storage ctx (.getKey (.next n)), reply⟩ :: h) :=
    hr.append (l := [_]) (by simp [Op.Unmarking])
  cases r with
  | error err =>
      refine Or.inr (Or.inl ⟨_, List.mem_cons_self, Or.inr ⟨Or.inl rfl, fun k hk => ?_⟩⟩)
      cases (hnext k).2 hk
  | ok k₂ =>
      obtain rfl := (hnext k₂).1 rfl
      simp only [CertCache.storedLeafSPKI, CertCache.loadChain, onStorage, Prog.conforms_bind,
        Prog.conforms_perform]
      refine ⟨trivial, fun r => ?_⟩
      have hready₂ : Ready t (⟨.storage ctx (.getChain n), r⟩ ::
          ⟨.storage ctx (.getKey (.next n)), .ok (.key k₂)⟩ :: h) :=
        hready₁.append (l := [_]) (by simp [Op.Unmarking])
      rcases r with f | (leaf | _)
      · exact Or.inr (Or.inl ⟨_, List.mem_cons_self, Or.inr ⟨rfl, by simp⟩⟩)
      · refine (load_reply ctx (.live n) (by simp [mayMark])).bind fun h₃ r _ hr₃ => ?_
        obtain ⟨reply, rfl, hlive, -⟩ := hr₃
        have hready₃ := hready₂.append (l := [⟨.storage ctx (.getKey (.live n)), reply⟩])
          (by simp [Op.Unmarking])
        cases r with
        | error err =>
            refine Or.inr (Or.inl ⟨_, List.mem_cons_self, Or.inr ⟨Or.inr rfl, fun k hk => ?_⟩⟩)
            cases (hlive k).2 hk
        | ok k₁ =>
            obtain rfl := (hlive k₁).1 rfl
            -- the three objects have been read: what follows depends on them alone
            have hread : LiveRead (⟨.storage ctx (.getKey (.live n)), .ok (.key k₁)⟩ ::
                ⟨.storage ctx (.getChain n), .ok (.chain leaf)⟩ ::
                ⟨.storage ctx (.getKey (.next n)), .ok (.key k₂)⟩ :: h) n k₁ ∧
                StagedRead (⟨.storage ctx (.getKey (.live n)), .ok (.key k₁)⟩ ::
                ⟨.storage ctx (.getChain n), .ok (.chain leaf)⟩ ::
                ⟨.storage ctx (.getKey (.next n)), .ok (.key k₂)⟩ :: h) n k₂ ∧
                ChainRead (⟨.storage ctx (.getKey (.live n)), .ok (.key k₁)⟩ ::
                ⟨.storage ctx (.getChain n), .ok (.chain leaf)⟩ ::
                ⟨.storage ctx (.getKey (.next n)), .ok (.key k₂)⟩ :: h) n (.chain leaf) :=
              ⟨⟨ctx, by simp⟩, ⟨ctx, by simp⟩, ⟨ctx, by simp⟩⟩
            obtain ⟨hk₁, hk₂, hleaf⟩ := hread
            simp only
            split
            · rename_i hinterrupted
              have hdue : PromotionDue (.reconcileCeremony n) _ n :=
                ⟨rfl, k₁, k₂, leaf, hk₁, hk₂, hleaf, by
                  simpa [PublicKey.spkiSHA256_inj, Key.public_inj] using hinterrupted⟩
              refine (markOutgoing_marks ctx hready₃ hdue).bind fun h₄ r hs₄ hr₄ => ?_
              cases r with
              | error err => exact Or.inr (Or.inl (hr₄.2.2 err rfl))
              | ok _ =>
                  refine (promoteNextCertKey_marks hr₄.1 (hdue.extend hs₄) hctx (hr₄.2.1 rfl)).bind
                    fun h₅ r _ hr₅ => ?_
                  cases r with
                  | error err => exact Or.inr (Or.inl (hr₅.2 err rfl))
                  | ok _ =>
                      obtain ⟨ctx', k, hput⟩ := hr₅.1 rfl
                      have hrefresh := (refresh_serving cfg ctx n).mono fun _ ho => ho.unmarking
                      refine (unmarking_marks hrefresh).bind fun h₆ _ hs₆ _ => ?_
                      exact Or.inl ⟨ctx', k, hs₆.subset hput⟩
            · rename_i hsettled
              refine Or.inr (Or.inr ⟨k₁, k₂, leaf, hk₁, hk₂, hleaf, ?_⟩)
              simpa [PublicKey.spkiSHA256_inj, Key.public_inj] using hsettled
      · exact Or.inr (Or.inl ⟨_, List.mem_cons_self, Or.inr ⟨rfl, by simp⟩⟩)

/-! ### Clean-up -/

theorem cleanupHost_marks {ctx t : Time} (host : Name) (hmu : (marking h).mu = true)
    (ht : t ∈ readings h) :
    (Dane.cleanupHost ctx t host).Conforms (mayMark cfg .cleanupExpiredRetiring) h fun h' _ =>
      (marking h').mu = true := by
  refine (retiring_reply ctx host trivial).bind fun h₁ r hs hr => ?_
  obtain ⟨reply, rfl, hlist, -⟩ := hr
  have hmu₁ : (marking (⟨.storage ctx (.getRetiring host), reply⟩ :: h)).mu = true := by
    simpa using hmu
  cases r with
  | error err => exact hmu₁
  | ok list =>
      simp only
      split
      · exact hmu₁
      · refine (writeRetiring_marks ctx host _ ⟨hmu₁, list, t, ?_, readings_extend ht hs, ?_⟩).bind
          fun _ _ _ hr => hr.1
        · simpa [Marking.after, hlist list rfl] using Marking.learn_self hmu host (some list)
        · exact Or.inl ⟨rfl, rfl⟩

theorem cleanupHosts_marks {ctx t : Time} (hosts : List Name) (hmu : (marking h).mu = true)
    (ht : t ∈ readings h) :
    (Dane.cleanupHosts ctx t hosts).Conforms (mayMark cfg .cleanupExpiredRetiring) h fun h' _ =>
      (marking h').mu = true := by
  induction hosts generalizing h with
  | nil => exact hmu
  | cons host hosts ih =>
      exact (cleanupHost_marks host hmu ht).bind fun h₁ _ hs hmu₁ => ih hmu₁ (readings_extend ht hs)

theorem cleanupExpiredRetiring_marks (d : DaneSettings) (ctx : Time)
    (hmu : (marking h).mu = false) :
    (Dane.cleanupExpiredRetiring d ctx).Conforms (mayMark cfg .cleanupExpiredRetiring) h
      fun _ _ => True := by
  simp only [Dane.cleanupExpiredRetiring, onMem, onEnv, Prog.conforms_bind, Prog.conforms_perform]
  refine ⟨hmu, fun _ => ⟨trivial, fun t => ?_⟩⟩
  refine (cleanupHosts_marks d.mxHosts ?_ ?_).mono fun _ _ hmu' => ⟨hmu', fun _ => trivial⟩
  · simp [Marking.after]
  · simp [readings, reading]

/-! ### The records to publish -/

/-- What an answer without an error says of a host: it has no live key, or every marker that was
read and has not expired is among the records. -/
def Published (h : History) (host : Name) (recs : List TLSARecord) : Prop :=
  (∃ ctx, (⟨.storage ctx (.getKey (.live host)), .error .notExist⟩ : Event) ∈ h) ∨
    ∃ ctx reply list t, (⟨.storage ctx (.getRetiring host), reply⟩ : Event) ∈ h ∧
      markersRead reply = some list ∧ t ∈ readings h ∧
      ∀ m ∈ list, m.expired t = false → ∃ rec ∈ recs, rec.mxHost = host ∧ rec.cert = m.digest

theorem Published.extend {h h' : History} {host : Name} {recs recs' : List TLSARecord}
    (hp : Published h host recs) (hs : h <:+ h') (hrecs : recs ⊆ recs') :
    Published h' host recs' := by
  rcases hp with ⟨ctx, hmem⟩ | ⟨ctx, reply, list, t, hmem, hlist, ht, hall⟩
  · exact Or.inl ⟨ctx, hs.subset hmem⟩
  · refine Or.inr ⟨ctx, reply, list, t, hs.subset hmem, hlist, readings_extend ht hs, ?_⟩
    intro m hm hexp
    obtain ⟨rec, hrec, hhost⟩ := hall m hm hexp
    exact ⟨rec, hrecs hrec, hhost⟩

/-- A marker in force is published as the live key's, as the staged key's, or as its own. -/
theorem marker_published (d : DaneSettings) (host : Name) (now : Time) (live : Digest)
    (next : Option Digest) (staged : List TLSARecord) (list : List RetiringRecord)
    (hstaged : ∀ digest, next = some digest → digest ≠ live →
      ∃ rec ∈ staged, rec.mxHost = host ∧ rec.cert = digest)
    {m : RetiringRecord} (hm : m ∈ list) (hexp : m.expired now = false) :
    ∃ rec ∈ Dane.liveRecord d host live :: (staged ++
      Dane.retiringRecords d host now live next list), rec.mxHost = host ∧ rec.cert = m.digest := by
  by_cases hlive : m.digest = live
  · exact ⟨_, List.mem_cons_self, rfl, hlive.symm⟩
  · by_cases hnext : next = some m.digest
    · obtain ⟨rec, hrec, hhost⟩ := hstaged m.digest hnext hlive
      exact ⟨rec, List.mem_cons_of_mem _ (List.mem_append_left _ hrec), hhost⟩
    · refine ⟨⟨host, m.digest, d.ttl, .retiring m.retireAfter⟩, ?_, rfl, rfl⟩
      refine List.mem_cons_of_mem _ (List.mem_append_right _ (List.mem_map.2 ⟨m, ?_, rfl⟩))
      exact List.mem_filter.2 ⟨hm, by simp [hexp, hlive, hnext]⟩

theorem recordsFrom_marks (d : DaneSettings) (ctx : Time) (host : Name) (live : Digest) :
    (Dane.recordsFrom cfg d ctx host live).Conforms (mayMark cfg q) h fun h' r =>
      ∀ recs, r = .ok recs → Published h' host recs := by
  have hfinish : ∀ staged next h, (∀ digest, next = some digest → digest ≠ live →
      ∃ rec ∈ staged, rec.mxHost = host ∧ rec.cert = digest) →
      (Dane.recordsFrom.finish d ctx host live staged next).Conforms (mayMark cfg q) h fun h' r =>
        ∀ recs, r = .ok recs → Published h' host recs := by
    intro staged next h hstaged
    simp only [Dane.recordsFrom.finish, onEnv, Prog.conforms_bind, Prog.conforms_perform]
    refine ⟨trivial, fun t => (retiring_reply ctx host trivial).mono fun h₁ r hr => ?_⟩
    obtain ⟨reply, rfl, hlist, -⟩ := hr
    cases r with
    | error err => simp
    | ok list =>
        rintro recs ⟨⟩
        refine Or.inr ⟨ctx, reply, list, t, List.mem_cons_self, hlist list rfl, ?_, ?_⟩
        · simp [readings, reading]
        · exact fun m hm hexp => marker_published d host t live next staged list hstaged hm hexp
  refine (unmarking_marks (unmarking_of_quiet (load_quiet cfg ctx (.next host)))).bind
    fun _ r _ _ => ?_
  cases r with
  | ok k =>
      refine hfinish _ _ _ ?_
      rintro digest ⟨⟩ hne
      exact ⟨⟨host, k.public.spkiSHA256, d.ttl, .next⟩, by simp [Dane.nextRecords, hne], rfl, rfl⟩
  | error err =>
      simp only
      split
      · simp
      · exact hfinish _ _ _ (by simp)

theorem recordsForHost_marks (d : DaneSettings) (ctx : Time) (host : Name) :
    (Dane.recordsForHost cfg d ctx host).Conforms (mayMark cfg q) h fun h' r =>
      ∀ recs, r = .ok recs → Published h' host recs := by
  refine (load_reply ctx (.live host) (by simp [mayMark])).bind fun h₁ r _ hr => ?_
  obtain ⟨reply, rfl, -, habsent⟩ := hr
  cases r with
  | error err =>
      simp only
      split
      · rename_i hne
        obtain rfl := habsent err rfl hne
        exact fun _ _ => Or.inl ⟨ctx, List.mem_cons_self⟩
      · simp
  | ok k => exact recordsFrom_marks d ctx host _

theorem desiredFrom_marks (d : DaneSettings) (ctx : Time) (hosts : List Name) :
    (Dane.desiredFrom cfg d ctx hosts).Conforms (mayMark cfg q) h fun h' r =>
      ∀ recs, r = .ok recs → ∀ host ∈ hosts, Published h' host recs := by
  induction hosts generalizing h with
  | nil => simp [Dane.desiredFrom]
  | cons host hosts ih =>
      refine (recordsForHost_marks d ctx host).bind fun h₁ r _ hr => ?_
      cases r with
      | error err => simp
      | ok first =>
          refine ih.bind fun h₂ r hs₂ hrest => ?_
          cases r with
          | error err => simp
          | ok rest =>
              rintro recs ⟨⟩ host' hhost'
              rcases List.mem_cons.1 hhost' with rfl | hhost'
              · exact (hr first rfl).extend hs₂ (List.subset_append_left _ _)
              · exact (hrest rest rfl host' hhost').extend (List.suffix_refl _)
                  (List.subset_append_right _ _)

/-! ### Flushing -/

theorem Flushing.unmarking {n : Name} {c : ChainPEM} {o : Op} (h : Flushing n c o) :
    o.Unmarking := by
  cases h with
  | serve h => exact h.unmarking
  | store h => exact h.unmarking
  | _ => trivial

theorem flushHeldChains_unmarking (cfg : Settings) (ctx : Time) :
    (Manager.flushHeldChains cfg ctx).Calls Op.Unmarking :=
  flushHeldChains_calls trivial (fun _ _ _ ho => ho.unmarking) trivial fun _ => trivial

end Functions

/-! ## The protocol -/

/-- The calls this protocol is about; it says nothing of the others. -/
def Call.marks : Call → Bool
  | .replaceCertificateKey _ => true
  | .activateCertificateKey _ _ => true
  | .reconcileCeremony _ => true
  | .cleanupExpiredRetiring => true
  | .desiredRecords => true
  | .flushHeldChains => true
  | _ => false

def marks (cfg : Settings) : Protocol Op Res Call Out where
  may q h o := q.marks = true → mayMark cfg q h o
  done q h out :=
    match q, out with
    | .desiredRecords, .records (.ok recs) =>
        ∀ d, cfg.dane = some d → ∀ host ∈ d.mxHosts, Published h host recs
    | .reconcileCeremony n, _ => Promoted h n ∨ Hindered h n ∨ Unneeded h n
    | _, _ => True

theorem cluster_marks {N T : Type} [DecidableEq N] (cfg : Settings) (node : T → N) :
    (cluster cfg node).Follows (marks cfg) := by
  intro q
  show (body cfg q).Conforms ((marks cfg).may q) [] ((marks cfg).done q)
  have hready : ∀ t, Ready t [⟨.env .now, t⟩] := fun t => ⟨rfl, rfl, by simp [Overwrote]⟩
  have hweaken : ∀ {α : Type} {p : M α} {h : History} {Q : History → α → Prop},
      p.Conforms (mayMark cfg q) h Q → p.Conforms ((marks cfg).may q) h Q :=
    fun hp => hp.weaken fun _ _ ho _ => ho
  cases q with
  | replaceCertificateKey d =>
      have hcalls := (replaceCertificateKey_staging cfg d).mono fun _ ho => ho.unmarking
      exact Prog.conforms_map.2 (hweaken ((unmarking_marks hcalls).mono fun _ _ _ => trivial))
  | activateCertificateKey d force =>
      exact Prog.conforms_map.2 (hweaken (activateCertificateKey_marks d force))
  | reconcileCeremony d =>
      refine Prog.conforms_map.2 (within_conforms (fun _ => trivial) fun t => hweaken ?_)
      exact reconcileCeremony_marks d (hready t) rfl
  | cleanupExpiredRetiring =>
      simp only [body]
      split
      · trivial
      · refine Prog.conforms_map.2 (within_conforms (fun _ => trivial) fun t => hweaken ?_)
        exact cleanupExpiredRetiring_marks _ _ (hready t).mu
  | desiredRecords =>
      simp only [body]
      split
      · rename_i hnone
        intro d hd
        simp [hnone] at hd
      · rename_i d hd
        refine Prog.conforms_map.2 (within_conforms (fun _ => trivial) fun t => hweaken ?_)
        refine (desiredFrom_marks d _ d.mxHosts).mono fun h r hr => ?_
        cases r with
        | error err => trivial
        | ok recs =>
            intro d' hd'
            obtain rfl : d = d' := by simpa [hd] using hd'
            exact hr recs rfl
  | flushHeldChains =>
      refine Prog.conforms_map.2 (within_conforms (fun _ => trivial) fun t => hweaken ?_)
      exact (unmarking_marks (flushHeldChains_unmarking cfg _)).mono fun _ _ _ => trivial
  | _ => exact Prog.conforms_of_all (fun _ _ hq => by cases hq) fun _ _ => trivial

end CertsManager
