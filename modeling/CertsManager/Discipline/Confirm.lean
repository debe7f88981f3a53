import CertsManager.Discipline.Know

/-!
# Confirm — what is put in memory and in the local copy, and what it rests on

A certificate goes into memory because its chain was read from storage or written to it, or because
an order's chain could not be written and is held: then it is set aside by the very next call.  What
was read was read with the key it is bound to by the two calls before; what was written, or tried,
is the chain of an order or one that was held.  The local copy takes a certificate whose chain was
read or written, with one exception: `flushOne` writes the chain it was handed, lets go of whatever
is held, and copies whatever memory has.

`mayConfirm` states this of the calls just made.  It is a protocol of its own beside `mayKeep`: no
knowledge of locks is needed to follow it.
-/

namespace CertsManager

open Interleave

/-! ## The calls just made -/

/-- Storage answered with the chain, or took it. -/
def SeenStored (h : History) (n : Name) (c : ChainPEM) : Prop :=
  ∃ ctx, (⟨.storage ctx (.getChain n), .ok c⟩ : Event) ∈ h ∨
    (⟨.storage ctx (.putChain n c), .ok ()⟩ : Event) ∈ h

/-- The certificate put in memory last, when nothing was done since but to confirm it. -/
def lastSet : History → Option (Name × Certificate)
  | ⟨.mem (.memSet n cert), _⟩ :: _ => some (n, cert)
  | ⟨.mem (.fromLocalDelete _), _⟩ :: h => lastSet h
  | ⟨.mem (.localSave _ _), _⟩ :: h => lastSet h
  | _ => none

/-- The name of the chain that was written, or tried, when nothing was done since but to wait or to
charge the failure. -/
def triedPut : History → Option Name
  | ⟨.storage _ (.putChain n _), _⟩ :: _ => some n
  | ⟨.env (.sleep _ _), _⟩ :: h => triedPut h
  | ⟨.mem (.retriesRecordFailure _), _⟩ :: h => triedPut h
  | _ => none

/-- The chain whose write was the last call and succeeded. -/
def justPut : History → Option (Name × ChainPEM)
  | ⟨.storage _ (.putChain n c), .ok ()⟩ :: _ => some (n, c)
  | _ => none

def justDropped : History → Option Name
  | ⟨.mem (.pendingDelete n), _⟩ :: _ => some n
  | _ => none

/-- The chain that was read last, and after it, by the last call, the live key it is bound to. -/
def pairRead : History → Option (Name × Leaf)
  | ⟨.storage _ (.getKey (.live n)), .ok (.key k)⟩ ::
      ⟨.storage _ (.getChain m), .ok (.chain leaf)⟩ :: _ =>
      if m = n ∧ k.public = leaf.pub then some (n, leaf) else none
  | _ => none

/-- The chain the CA, or the memory of held chains, answered with, when nothing was done since but to
write a chain, to wait or to charge the failure. -/
def chainGiven : History → Option (Name × ChainPEM)
  | ⟨.env (.issue _ n _), .ok c⟩ :: _ => some (n, c)
  | ⟨.mem (.pendingGet n), some p⟩ :: _ => some (n, p.chainPEM)
  | ⟨.storage _ (.putChain _ _), _⟩ :: h => chainGiven h
  | ⟨.env (.sleep _ _), _⟩ :: h => chainGiven h
  | ⟨.mem (.retriesRecordFailure _), _⟩ :: h => chainGiven h
  | _ => none

/-- The certificate the last call put in memory, when its chain could not be written. -/
def holding : History → Option (Name × Certificate)
  | ⟨.mem (.memSet n cert), _⟩ :: h =>
      if triedPut h = some n ∧ justPut h = none then some (n, cert) else none
  | _ => none

/-- What memory answered right after the held chain was dropped. -/
def lookedUp : History → Option (Name × Certificate)
  | ⟨.mem (.memGet n), some cert⟩ :: h => if justDropped h = some n then some (n, cert) else none
  | ⟨.mem (.fromLocalDelete _), _⟩ :: h => lookedUp h
  | _ => none

section

variable {e : Event} {h : History} {n : Name} {c : ChainPEM} {cert : Certificate}

/-- Calls that confirm a certificate, wait or charge a failure. -/
def Op.Following : Op → Prop
  | .mem (.fromLocalDelete _) => True
  | .mem (.localSave _ _) => True
  | .env (.sleep _ _) => True
  | .mem (.retriesRecordFailure _) => True
  | _ => False

theorem Op.Following.unguarded {o : Op} (ho : o.Following) : ¬o.Guarding := by
  cases o with
  | mem o => cases o <;> first | exact id | cases ho
  | storage ctx o => exact id
  | env o => cases o <;> first | exact id | cases ho

theorem lastSet_cons (hset : lastSet (e :: h) = some (n, cert)) :
    e.op = .mem (.memSet n cert) ∨ e.op.Following ∧ lastSet h = some (n, cert) := by
  unfold lastSet at hset
  split at hset
  · rename_i heq
    cases heq
    cases hset
    exact .inl rfl
  · rename_i heq
    cases heq
    exact .inr ⟨trivial, hset⟩
  · rename_i heq
    cases heq
    exact .inr ⟨trivial, hset⟩
  · cases hset

theorem triedPut_cons (htried : triedPut (e :: h) = some n) :
    (∃ ctx c, e.op = .storage ctx (.putChain n c)) ∨ e.op.Following ∧ triedPut h = some n := by
  unfold triedPut at htried
  split at htried
  · rename_i heq
    cases heq
    cases htried
    exact .inl ⟨_, _, rfl⟩
  · rename_i heq
    cases heq
    exact .inr ⟨trivial, htried⟩
  · rename_i heq
    cases heq
    exact .inr ⟨trivial, htried⟩
  · cases htried

theorem justPut_cons (hput : justPut (e :: h) = some (n, c)) :
    ∃ ctx, e.op = .storage ctx (.putChain n c) := by
  unfold justPut at hput
  split at hput
  · rename_i heq
    cases heq
    cases hput
    exact ⟨_, rfl⟩
  · cases hput

theorem triedPut_of_justPut (hput : justPut h = some (n, c)) : triedPut h = some n := by
  unfold justPut at hput
  split at hput
  · cases hput
    rfl
  · cases hput

theorem pairRead_cons {leaf : Leaf} (hpair : pairRead (e :: h) = some (n, leaf)) :
    ∃ ctx, e.op = .storage ctx (.getKey (.live n)) := by
  unfold pairRead at hpair
  split at hpair
  · rename_i heq
    cases heq
    split at hpair <;> cases hpair
    exact ⟨_, rfl⟩
  · cases hpair

theorem holding_cons (hholding : holding (e :: h) = some (n, cert)) :
    e.op = .mem (.memSet n cert) ∧ triedPut h = some n := by
  unfold holding at hholding
  split at hholding
  · rename_i heq
    cases heq
    split at hholding
    · rename_i htried
      cases hholding
      exact ⟨rfl, htried.1⟩
    · cases hholding
  · cases hholding

theorem lastSet_of_holding (hholding : holding h = some (n, cert)) : lastSet h = some (n, cert) := by
  unfold holding at hholding
  split at hholding
  · split at hholding <;> cases hholding
    rfl
  · cases hholding

theorem justDropped_cons (hdropped : justDropped (e :: h) = some n) :
    e.op = .mem (.pendingDelete n) := by
  unfold justDropped at hdropped
  split at hdropped
  · rename_i heq
    cases heq
    cases hdropped
    rfl
  · cases hdropped

theorem lookedUp_cons (hlooked : lookedUp (e :: h) = some (n, cert)) :
    e = ⟨.mem (.memGet n), some cert⟩ ∧ justDropped h = some n ∨ lookedUp h = some (n, cert) := by
  unfold lookedUp at hlooked
  split at hlooked
  · rename_i heq
    cases heq
    split at hlooked
    · rename_i hdropped
      cases hlooked
      exact .inl ⟨rfl, hdropped⟩
    · cases hlooked
  · rename_i heq
    cases heq
    exact .inr hlooked
  · cases hlooked

end

/-- What was put in memory last is not a chain still to be set aside. -/
def Free (h : History) : Prop :=
  ∀ n cert, lastSet h = some (n, cert) → SeenStored h n (encodeChainPEM cert)

/-- The requests that write back chains. -/
def Call.flushes : Call → Bool
  | .flushHeldChains => true
  | .restoreMissingChains => true
  | _ => false

/-- What a call needs besides: certificates are put in memory and in the copy for a reason, and the
held chain is dropped for one. -/
def Justified (q : Call) (h : History) : Op → Prop
  | .mem (.memSet n cert) =>
      (SeenStored h n (encodeChainPEM cert) ∨ triedPut h = some n) ∧
        (pairRead h = some (n, cert.leaf) ∨
          triedPut h = some n ∧ chainGiven h = some (n, encodeChainPEM cert))
  | .mem (.localSave n cert) => SeenStored h n (encodeChainPEM cert) ∨ lookedUp h = some (n, cert)
  | .mem (.pendingDelete n) =>
      (∃ cert, lastSet h = some (n, cert)) ∨ q.flushes = true ∧ ∃ c, justPut h = some (n, c)
  | _ => True

def mayConfirm (q : Call) (h : History) : Op → Prop
  | .mem (.pendingSet n p) => ∃ cert, holding h = some (n, cert) ∧ p.chainPEM = encodeChainPEM cert
  | o => Free h ∧ Justified q h o

theorem mayConfirm_cases {q : Call} {h : History} {o : Op} (hmay : mayConfirm q h o) :
    (∃ n p cert, o = .mem (.pendingSet n p) ∧ lastSet h = some (n, cert) ∧
      p.chainPEM = encodeChainPEM cert) ∨ Free h ∧ Justified q h o := by
  cases o with
  | mem o =>
      cases o with
      | pendingSet n p =>
          obtain ⟨cert, hset, hp⟩ := hmay
          exact .inl ⟨n, p, cert, rfl, lastSet_of_holding hset, hp⟩
      | _ => exact .inr hmay
  | storage ctx o => exact .inr hmay
  | env o => exact .inr hmay

theorem seenStored_of_justPut {h : History} {n : Name} {c : ChainPEM}
    (hput : justPut h = some (n, c)) : SeenStored h n c := by
  unfold justPut at hput
  split at hput
  · cases hput
    exact ⟨_, .inr List.mem_cons_self⟩
  · cases hput

/-! ## Calls that need no reason -/

def Op.Bland : Op → Prop
  | .mem (.memSet _ _) => False
  | .mem (.localSave _ _) => False
  | .mem (.pendingSet _ _) => False
  | .mem (.pendingDelete _) => False
  | _ => True

theorem SeenStored.extend {h h' : History} {n : Name} {c : ChainPEM} (hc : SeenStored h n c)
    (hs : h <:+ h') : SeenStored h' n c := by
  obtain ⟨ctx, hmem⟩ := hc
  exact ⟨ctx, hmem.imp (hs.subset ·) (hs.subset ·)⟩

section

variable {q : Call} {h : History} {n : Name}

theorem Free.of_none (hh : lastSet h = none) : Free h := by
  intro n cert hset
  rw [hh] at hset
  cases hset

theorem Free.of_seen {cert : Certificate} (hset : lastSet h = some (n, cert))
    (hseen : SeenStored h n (encodeChainPEM cert)) : Free h := by
  intro n' cert' hset'
  rw [hset] at hset'
  cases hset'
  exact hseen

theorem Op.Bland.free {o : Op} (ho : o.Bland) (hh : Free h) (r : Res o) : Free (⟨o, r⟩ :: h) := by
  cases o with
  | mem o =>
      cases o with
      | memSet n cert | localSave n cert | pendingSet n p | pendingDelete n => cases ho
      | fromLocalDelete n =>
          intro n' cert hset
          exact (hh n' cert hset).extend (List.suffix_cons _ h)
      | _ => exact Free.of_none rfl
  | storage ctx o => exact Free.of_none rfl
  | env o => exact Free.of_none rfl

theorem Op.Bland.may {o : Op} (ho : o.Bland) (hh : Free h) : mayConfirm q h o := by
  cases o with
  | mem o =>
      cases o with
      | memSet n cert | localSave n cert | pendingSet n p | pendingDelete n => cases ho
      | _ => exact ⟨hh, trivial⟩
  | storage ctx o => exact ⟨hh, trivial⟩
  | env o => exact ⟨hh, trivial⟩

theorem Op.Aside.bland {o : Op} (h : o.Aside) : o.Bland := by
  cases o with
  | mem o => cases o <;> trivial
  | _ => trivial

theorem Op.Lookup.bland {o : Op} (h : o.Lookup) : o.Bland := by
  cases o with
  | mem o => cases o <;> trivial
  | _ => trivial

theorem Op.Staging.bland {o : Op} (h : o.Staging) : o.Bland := by
  cases o with
  | mem o => cases o <;> trivial
  | _ => trivial

theorem bland_confirms {α : Type} {p : M α} (hp : p.Calls Op.Bland) :
    p.Keeps (mayConfirm q) Free :=
  fun _ hh => hp.keeps (fun _ _ hI ho => ⟨ho.may hI, ho.free hI⟩) hh

theorem aside_confirms {α : Type} {p : M α} (hp : p.Calls Op.Aside) :
    p.Keeps (mayConfirm q) Free :=
  bland_confirms (hp.mono fun _ ho => ho.bland)

theorem quiet_confirms {α : Type} {p : M α} (hp : p.Calls Op.Quiet) :
    p.Keeps (mayConfirm q) Free :=
  aside_confirms (aside_of_quiet hp)

theorem perform_confirms {o : Op} (ho : o.Bland) :
    (Prog.perform o : M (Res o)).Keeps (mayConfirm q) Free :=
  .perform fun _ hh => ⟨ho.may hh, ho.free hh⟩

/-! ## Confirming -/

/-- A certificate in memory whose chain storage has is confirmed. -/
theorem confirmed_confirms (cfg : Settings) {cert : Certificate} (hset : lastSet h = some (n, cert))
    (hseen : SeenStored h n (encodeChainPEM cert)) :
    (CertCache.confirmed cfg n cert).Conforms (mayConfirm q) h fun h' _ =>
      lastSet h' = some (n, cert) ∧ SeenStored h' n (encodeChainPEM cert) := by
  refine confirmed_conforms
    (I := fun h' => lastSet h' = some (n, cert) ∧ SeenStored h' n (encodeChainPEM cert)) ?_ ?_
    ⟨hset, hseen⟩
  · rintro h' ⟨hset', hseen'⟩
    exact ⟨⟨Free.of_seen hset' hseen', trivial⟩, hset', hseen'.extend (List.suffix_cons _ _)⟩
  · rintro h' saved ⟨hset', hseen'⟩
    exact ⟨⟨Free.of_seen hset' hseen', .inl hseen'⟩, hset', hseen'.extend (List.suffix_cons _ _)⟩

theorem refresh_confirms (cfg : Settings) (ctx : Time) (hh : Free h) :
    (CertCache.refresh cfg ctx n).Conforms (mayConfirm q) h fun h' r =>
      Free h' ∧ ∀ cert, r = .ok cert → lastSet h' = some (n, cert) := by
  simp only [CertCache.refresh, CertCache.loadChain, KeyStore.loadCertKey, KeyStore.load, onStorage,
    Prog.conforms_bind, Prog.conforms_perform]
  refine ⟨⟨hh, trivial⟩, fun r => ?_⟩
  cases r with
  | error f => exact ⟨Free.of_none rfl, by simp⟩
  | ok c =>
      simp only [Prog.conforms_pure, Prog.conforms_bind, Prog.conforms_perform]
      refine ⟨⟨Free.of_none rfl, trivial⟩, fun r => ?_⟩
      rcases r with (_ | ⟨inBody, reason⟩) | (k | _)
      · exact ⟨Free.of_none rfl, by simp⟩
      · cases inBody <;> exact ⟨Free.of_none rfl, by simp⟩
      · simp only [parseKeyPEM, Prog.conforms_pure]
        cases hb : buildCertificate c k with
        | error err => exact ⟨Free.of_none rfl, by simp⟩
        | ok cert =>
            obtain ⟨rfl, rfl⟩ := buildCertificate_ok hb
            have hseen : SeenStored (⟨.storage ctx (.getKey (.live n)), .ok (.key cert.privateKey)⟩ ::
                ⟨.storage ctx (.getChain n), .ok (encodeChainPEM cert)⟩ :: h) n (encodeChainPEM cert) :=
              ⟨ctx, .inl (List.mem_cons_of_mem _ List.mem_cons_self)⟩
            have hpair : pairRead (⟨.storage ctx (.getKey (.live n)), .ok (.key cert.privateKey)⟩ ::
                ⟨.storage ctx (.getChain n), .ok (encodeChainPEM cert)⟩ :: h) = some (n, cert.leaf) :=
              if_pos ⟨rfl, cert.matching⟩
            simp only [CertCache.set, onMem, Prog.conforms_bind, Prog.conforms_perform]
            refine ⟨⟨Free.of_none rfl, .inl hseen, .inl hpair⟩, fun _ => ?_⟩
            refine (confirmed_confirms cfg rfl (hseen.extend (List.suffix_cons _ _))).mono ?_
            rintro h₂ _ ⟨hset, hseen₂⟩
            refine ⟨Free.of_seen hset hseen₂, ?_⟩
            rintro _ ⟨⟩
            exact hset
      · exact ⟨Free.of_none rfl, by simp⟩

theorem refresh_keepsFree (cfg : Settings) (ctx : Time) (n : Name) :
    (CertCache.refresh cfg ctx n).Keeps (mayConfirm q) Free :=
  fun _ hh => (refresh_confirms cfg ctx hh).mono fun _ _ hr => hr.1

/-! ## Writing and holding -/

theorem persistFrom_confirms (ctx : Time) (c : ChainPEM) (left attempt : Nat) (hh : Free h) :
    (CertCache.persistFrom ctx n c left attempt).Conforms (mayConfirm q) h fun h' r =>
      Free h' ∧ triedPut h' = some n ∧ chainGiven h' = chainGiven h ∧
        justPut h' = if r = .ok () then some (n, c) else none := by
  induction left generalizing attempt h with
  | zero =>
      simp only [CertCache.persistFrom, onStorage, Prog.conforms_bind, Prog.conforms_perform]
      refine ⟨⟨hh, trivial⟩, fun r => ?_⟩
      cases r with
      | error f => exact ⟨Free.of_none rfl, rfl, rfl, rfl⟩
      | ok _ => exact ⟨Free.of_none rfl, rfl, rfl, rfl⟩
  | succ left ih =>
      simp only [CertCache.persistFrom, onStorage, onEnv, Prog.conforms_bind, Prog.conforms_perform]
      refine ⟨⟨hh, trivial⟩, fun r => ?_⟩
      cases r with
      | ok _ => exact ⟨Free.of_none rfl, rfl, rfl, rfl⟩
      | error f =>
          simp only [Prog.conforms_bind, Prog.conforms_perform]
          refine ⟨⟨Free.of_none rfl, trivial⟩, fun slept => ?_⟩
          cases slept with
          | false => exact ⟨Free.of_none rfl, rfl, rfl, rfl⟩
          | true => exact ih (attempt + 1) (Free.of_none rfl)

/-- A chain that builds and could not be written is left for the caller to hold. -/
theorem store_confirms (cfg : Settings) (ctx : Time) (c : ChainPEM) (k : Key) (hh : Free h)
    (hc : chainGiven h = some (n, c)) :
    (CertCache.store cfg ctx n c k).Conforms (mayConfirm q) h fun h' r =>
      Free h' ∧ ∀ cert err, r = .unstored cert err → c = encodeChainPEM cert ∧
        triedPut h' = some n ∧ chainGiven h' = some (n, c) ∧ justPut h' = none := by
  simp only [CertCache.store]
  cases hb : buildCertificate c k with
  | error err => exact ⟨hh, by simp⟩
  | ok cert =>
      obtain ⟨rfl, -⟩ := buildCertificate_ok hb
      refine (persistFrom_confirms ctx _ _ _ hh).bind fun h₁ r _ ⟨hfree, htried, hsame, hput⟩ => ?_
      rw [← hsame] at hc
      cases r with
      | error err =>
          refine ⟨hfree, ?_⟩
          rintro _ _ ⟨⟩
          exact ⟨rfl, htried, hc, hput⟩
      | ok _ =>
          have hseen := seenStored_of_justPut hput
          have hseen₁ := hseen.extend (List.suffix_cons ⟨.mem (.memSet n cert), ()⟩ h₁)
          simp only [CertCache.set, CertCache.dropPending, onMem, Prog.conforms_bind,
            Prog.conforms_perform]
          refine ⟨⟨hfree, .inl hseen, .inr ⟨htried, hc⟩⟩,
            fun _ => ⟨⟨Free.of_seen rfl hseen₁, .inl ⟨cert, rfl⟩⟩, fun _ => ?_⟩⟩
          -- the copy follows the drop of the held chain
          refine (confirmed_conforms
            (I := fun h' => Free h' ∧ SeenStored h' n (encodeChainPEM cert)) ?_ ?_
            ⟨Free.of_none rfl, hseen₁.extend (List.suffix_cons _ _)⟩).mono ?_
          · rintro h' ⟨hfree', hseen'⟩
            exact ⟨⟨hfree', trivial⟩, Op.Bland.free (o := .mem (.fromLocalDelete n)) trivial hfree' (),
              hseen'.extend (List.suffix_cons _ _)⟩
          · rintro h' saved ⟨hfree', hseen'⟩
            refine ⟨⟨hfree', .inl hseen'⟩, ?_, hseen'.extend (List.suffix_cons _ _)⟩
            exact fun n' cert' hset => (hfree' n' cert' hset).extend (List.suffix_cons _ _)
          · rintro h' _ ⟨hfree', -⟩
            exact ⟨hfree', by simp⟩

theorem hold_confirms {cert : Certificate} (hh : Free h) (htried : triedPut h = some n)
    (hc : chainGiven h = some (n, encodeChainPEM cert)) (hput : justPut h = none) :
    (CertCache.hold n cert (encodeChainPEM cert)).Conforms (mayConfirm q) h fun h' _ => Free h' := by
  simp only [CertCache.hold, CertCache.set, onMem, Prog.conforms_bind, Prog.conforms_perform]
  exact ⟨⟨hh, .inr htried, .inr ⟨htried, hc⟩⟩,
    fun _ => ⟨⟨cert, if_pos ⟨htried, hput⟩, rfl⟩, fun _ => Free.of_none rfl⟩⟩

/-! ## Ordering -/

theorem noteRateLimit_confirms (n : Name) (f : IssueFault) :
    (Manager.noteRateLimit n f).Keeps (mayConfirm q) Free := by
  unfold Manager.noteRateLimit
  split
  · exact .pure _
  · exact .bind (perform_confirms trivial) fun _ => perform_confirms trivial

theorem placeOrder_confirms (cfg : Settings) (ctx : Time) (n : Name) (k : Key) :
    (Manager.placeOrder cfg ctx n k).Keeps (mayConfirm q) Free := by
  refine .bind (quiet_confirms (ensureIssuer_quiet cfg ctx)) fun r => ?_
  cases r with
  | error err => exact .bind (perform_confirms trivial) fun _ => .pure _
  | ok _ =>
      intro h hh
      simp only [onEnv, Prog.conforms_bind, Prog.conforms_perform]
      refine ⟨⟨hh, trivial⟩, fun r => ?_⟩
      cases r with
      | error f =>
          simp only [onMem, Prog.conforms_bind, Prog.conforms_perform]
          refine ⟨⟨Free.of_none rfl, trivial⟩, fun _ => ?_⟩
          exact (noteRateLimit_confirms n f _ (Free.of_none rfl)).mono fun _ _ hfree => hfree
      | ok c =>
          refine (store_confirms cfg ctx c k (Free.of_none rfl) rfl).bind ?_
          rintro h₁ r - ⟨hfree, hunstored⟩
          cases r with
          | unusable err | stored cert =>
              simp only [onMem, Prog.conforms_bind, Prog.conforms_perform]
              exact ⟨⟨hfree, trivial⟩, fun _ => Free.of_none rfl⟩
          | unstored cert err =>
              obtain ⟨rfl, htried, hhanded, -⟩ := hunstored cert err rfl
              simp only [onMem, Prog.conforms_bind, Prog.conforms_perform]
              refine ⟨⟨hfree, trivial⟩, fun u => ?_⟩
              split
              · exact Free.of_none rfl
              · refine (hold_confirms (h := ⟨.mem (.retriesRecordFailure n), u⟩ :: h₁)
                  (Free.of_none rfl) htried hhanded rfl).bind fun _ _ _ hfree₂ => ?_
                exact hfree₂

theorem issueUnderLease_confirms (cfg : Settings) (ctx : Time) (n : Name) (k : Key) (force : Bool) :
    (Manager.issueUnderLease cfg ctx n k force).Keeps (mayConfirm q) Free := by
  refine .bind (refresh_keepsFree cfg ctx n) fun r => ?_
  cases r with
  | error err =>
      dsimp only
      split
      · exact placeOrder_confirms cfg ctx n k
      · exact .pure _
  | ok stored =>
      cases force with
      | true => exact placeOrder_confirms cfg ctx n k
      | false =>
          refine .bind (.bind (perform_confirms trivial) fun _ => .pure _) fun r => ?_
          cases r with
          | none => exact placeOrder_confirms cfg ctx n k
          | some notAfter =>
              refine .bind (perform_confirms trivial) fun t => ?_
              split
              · exact .pure _
              · exact placeOrder_confirms cfg ctx n k

theorem issueWithKey_confirms (cfg : Settings) (ctx : Time) (n : Name) (k : Key) (force : Bool) :
    (Manager.issueWithKey cfg ctx n k force).Keeps (mayConfirm q) Free := by
  refine .bind (perform_confirms trivial) fun r => ?_
  cases r with
  | error wait => exact .pure _
  | ok _ =>
      refine .bind (perform_confirms trivial) fun ok => ?_
      cases ok with
      | false =>
          refine .bind (refresh_keepsFree cfg ctx n) fun r => ?_
          cases r with
          | error err => exact .pure _
          | ok cert => cases force <;> exact .pure _
      | true =>
          refine .bind (issueUnderLease_confirms cfg ctx n k force) fun _ => ?_
          exact .bind (perform_confirms trivial) fun _ => .pure _

/-! ## Obtaining and renewing -/

theorem loadOrCreate_confirms (cfg : Settings) (ctx : Time) (slot : KeySlot) (keyType : KeyType) :
    (KeyStore.loadOrCreate cfg ctx slot keyType).Keeps (mayConfirm q) Free :=
  bland_confirms (loadOrCreate_calls cfg ctx slot keyType (fun _ ho => ho.aside.bland) fun _ => trivial)

theorem passes_confirms : Passes (mayConfirm q) Free :=
  fun _ _ hh ho => ⟨ho.bland.may hh, ho.bland.free hh⟩

theorem issuing_confirms (cfg : Settings) :
    Issuing cfg (mayConfirm q) Free (fun _ => Free) fun _ _ _ => True where
  free := passes_confirms
  locked _ := passes_confirms
  lock _ _ hh := ⟨⟨hh, trivial⟩, fun _ => Free.of_none rfl⟩
  tryLock _ _ hh := ⟨⟨hh, trivial⟩, Free.of_none rfl, Free.of_none rfl⟩
  unlock _ _ hh := ⟨⟨hh, trivial⟩, fun _ => Free.of_none rfl⟩
  refresh := refresh_keepsFree cfg
  key ctx _ h hh :=
    (loadOrCreate_confirms cfg ctx _ _ h hh).mono fun _ _ hfree => ⟨hfree, fun _ _ => trivial⟩
  order ctx n k h hh _ := issueWithKey_confirms cfg ctx n k false h hh

/-! ## Held and lost chains -/

/-- The write, the drop, and the copy of what memory has. -/
theorem writeHeld_confirms (cfg : Settings) (ctx : Time) (n : Name) (p : PendingPersist)
    (hq : q.flushes = true) : (Manager.writeHeld cfg ctx n p).Keeps (mayConfirm q) Free := by
  intro h hh
  refine (persistFrom_confirms ctx p.chainPEM _ _ hh).bind fun h₁ r _ ⟨hfree, _, _, hput⟩ => ?_
  cases r with
  | error err => exact hfree
  | ok _ =>
      simp only [CertCache.dropPending, CertCache.get, onMem, Prog.conforms_bind,
        Prog.conforms_perform]
      refine ⟨⟨hfree, .inr ⟨hq, p.chainPEM, hput⟩⟩, fun _ => ⟨⟨Free.of_none rfl, trivial⟩,
        fun r => ?_⟩⟩
      cases r with
      | none => exact Free.of_none rfl
      | some cert =>
          have hlooked : lookedUp (⟨.mem (.fromLocalDelete n), ()⟩ :: ⟨.mem (.memGet n), some cert⟩ ::
              ⟨.mem (.pendingDelete n), ()⟩ :: h₁) = some (n, cert) := by
            simp [lookedUp, justDropped]
          simp only [CertCache.confirmed, onMem, Prog.conforms_bind, Prog.conforms_perform]
          refine ⟨⟨Free.of_none rfl, trivial⟩, fun _ => ?_⟩
          split
          · exact ⟨⟨Free.of_none rfl, .inr hlooked⟩, fun _ => Free.of_none rfl⟩
          · exact Free.of_none rfl

theorem flushLeased_confirms (cfg : Settings) (ctx : Time) (n : Name) (p : PendingPersist)
    (hq : q.flushes = true) : (Manager.flushLeased cfg ctx n p).Keeps (mayConfirm q) Free := by
  have hread : (CertCache.storedNotAfter ctx n).Keeps (mayConfirm q) Free := by
    refine .bind (.bind (perform_confirms trivial) fun r => ?_) fun r => ?_
    · rcases r with f | c <;> exact .pure _
    · rcases r with err | (leaf | _) <;> exact .pure _
  refine .bind hread fun r => ?_
  cases r with
  | error err =>
      dsimp only
      split
      · exact writeHeld_confirms cfg ctx n p hq
      · exact .pure _
  | ok notAfter =>
      dsimp only
      split
      · -- storage is ahead: what it has is in memory before the held chain is dropped
        intro h hh
        refine (refresh_confirms cfg ctx hh).bind fun h₁ r _ ⟨hfree, hset⟩ => ?_
        cases r with
        | error err => exact hfree
        | ok cert =>
            simp only [CertCache.dropPending, onMem, Prog.conforms_bind, Prog.conforms_perform]
            exact ⟨⟨hfree, .inl ⟨cert, hset cert rfl⟩⟩, fun _ => Free.of_none rfl⟩
      · exact writeHeld_confirms cfg ctx n p hq

theorem flushOne_confirms (cfg : Settings) (ctx : Time) (n : Name) (p : PendingPersist)
    (hq : q.flushes = true) : (Manager.flushOne cfg ctx n p).Keeps (mayConfirm q) Free := by
  have hlocked : (Manager.flushLocked cfg ctx n p).Keeps (mayConfirm q) Free := by
    refine .bind (perform_confirms trivial) fun ok => ?_
    cases ok with
    | false => exact .pure _
    | true =>
        refine .bind (flushLeased_confirms cfg ctx n p hq) fun _ => ?_
        exact .bind (perform_confirms trivial) fun _ => .pure _
  refine .bind (perform_confirms trivial) fun free => ?_
  cases free with
  | false => exact .pure _
  | true => exact .bind hlocked fun _ => .bind (perform_confirms trivial) fun _ => .pure _

theorem flushHeldChains_confirms (cfg : Settings) (ctx : Time) (hq : q.flushes = true) :
    (Manager.flushHeldChains cfg ctx).Keeps (mayConfirm q) Free := by
  refine flushHeldChains_keeps_of (E := fun _ _ _ => True) (fun _ _ => trivial)
    (fun h hh => passes_confirms h _ hh trivial) (fun h hh => ?_) (fun h n hh => ?_)
    fun h n p hh _ => flushOne_confirms cfg ctx n p hq h hh
  · exact ⟨⟨hh, trivial⟩, fun held => ⟨Free.of_none rfl, fun _ _ => trivial⟩⟩
  · exact ⟨⟨hh, trivial⟩, fun _ => Free.of_none rfl⟩

theorem restoreMissingChains_confirms (cfg : Settings) (ctx : Time) (hq : q.flushes = true) :
    (Manager.restoreMissingChains cfg ctx).Keeps (mayConfirm q) Free := by
  refine passes_confirms.restoreMissingChains (K := fun _ _ _ => True) (fun h n hh => ?_)
    fun h n _ _ _ hh _ _ => flushOne_confirms cfg ctx n _ hq h hh
  refine (quiet_confirms (load_quiet cfg ctx (.live n)) h hh).mono fun _ _ hfree => ?_
  exact ⟨hfree, fun _ _ => trivial⟩

/-! ## The ceremony -/

theorem promoteNextCertKey_confirms (cfg : Settings) (ctx : Time) (n : Name) :
    (KeyStore.promoteNextCertKey cfg ctx n).Keeps (mayConfirm q) Free := by
  refine .bind (perform_confirms trivial) fun may => ?_
  cases may with
  | false => exact .pure _
  | true =>
      refine .bind (quiet_confirms (load_quiet cfg ctx (.next n))) fun r => ?_
      cases r with
      | error err => exact .pure _
      | ok k =>
          refine .bind (perform_confirms trivial) fun r => ?_
          cases r with
          | error f => exact .pure _
          | ok _ => exact .bind (perform_confirms trivial) fun _ => .pure _

theorem reconcileCeremony_confirms (cfg : Settings) (ctx : Time) (n : Name) :
    (Manager.reconcileCeremony cfg ctx n).Keeps (mayConfirm q) Free := by
  refine .bind (quiet_confirms (load_quiet cfg ctx (.next n))) fun r => ?_
  cases r with
  | error err => exact .pure _
  | ok nextKey =>
      have hread : (CertCache.storedLeafSPKI ctx n).Keeps (mayConfirm q) Free := by
        refine .bind (.bind (perform_confirms trivial) fun r => ?_) fun r => ?_
        · rcases r with f | c <;> exact .pure _
        · rcases r with err | (leaf | _) <;> exact .pure _
      refine .bind hread fun r => ?_
      cases r with
      | error err => exact .pure _
      | ok leafSPKI =>
          refine .bind (quiet_confirms (load_quiet cfg ctx (.live n))) fun r => ?_
          cases r with
          | error err => exact .pure _
          | ok liveKey =>
              dsimp only
              split
              · refine .bind (aside_confirms (markOutgoing_aside cfg ctx n)) fun r => ?_
                cases r with
                | error err => exact .pure _
                | ok _ =>
                    refine .bind (promoteNextCertKey_confirms cfg ctx n) fun r => ?_
                    cases r with
                    | error err => exact .pure _
                    | ok _ => exact .bind (refresh_keepsFree cfg ctx n) fun _ => .pure _
              · exact .pure _

/-- The chain to activate is the one that is held, or a new order's. -/
theorem chainForActivation_confirms (cfg : Settings) (ctx : Time) (k : Key) (hh : Free h) :
    (Manager.chainForActivation cfg ctx n k).Conforms (mayConfirm q) h fun h' r =>
      Free h' ∧ ∀ c, r = .ok c → chainGiven h' = some (n, c) := by
  have horder : ∀ h, Free h → (Manager.orderForActivation cfg ctx n k).Conforms (mayConfirm q) h
      fun h' r => Free h' ∧ ∀ c, r = .ok c → chainGiven h' = some (n, c) := by
    intro h hh
    refine (quiet_confirms (ensureIssuer_quiet cfg ctx) h hh).bind fun h₁ r _ hfree => ?_
    cases r with
    | error err => exact ⟨hfree, by simp⟩
    | ok _ =>
        simp only [onEnv, Prog.conforms_bind, Prog.conforms_perform]
        refine ⟨⟨hfree, trivial⟩, fun r => ?_⟩
        cases r with
        | error f => exact ⟨Free.of_none rfl, by simp⟩
        | ok c =>
            refine ⟨Free.of_none rfl, ?_⟩
            rintro c' ⟨⟩
            rfl
  simp only [Manager.chainForActivation, CertCache.heldChainFor, onMem, Prog.conforms_bind,
    Prog.conforms_perform]
  refine ⟨⟨hh, trivial⟩, fun r => ?_⟩
  cases r with
  | none => exact horder _ (Free.of_none rfl)
  | some p =>
      simp only
      cases buildCertificate p.chainPEM k with
      | error err => exact horder _ (Free.of_none rfl)
      | ok cert =>
          refine ⟨Free.of_none rfl, ?_⟩
          rintro c ⟨⟩
          rfl

theorem activateLeased_confirms (cfg : Settings) (ctx : Time) (n : Name) (force : Bool) :
    (Manager.activateLeased cfg ctx n force).Keeps (mayConfirm q) Free := by
  have hpromote : (Manager.promoteStored cfg ctx n).Keeps (mayConfirm q) Free := by
    refine .bind (aside_confirms (markOutgoing_aside cfg ctx n)) fun r => ?_
    cases r with
    | error err => exact .pure _
    | ok _ =>
        refine .bind (perform_confirms trivial) fun leader => ?_
        cases leader with
        | false => exact .pure _
        | true =>
            refine .bind (promoteNextCertKey_confirms cfg ctx n) fun r => ?_
            cases r <;> exact .pure _
  refine .bind (quiet_confirms (load_quiet cfg ctx (.next n))) fun r => ?_
  cases r with
  | error err => exact .pure _
  | ok nextKey =>
      refine .bind (quiet_confirms (activationGate_quiet cfg ctx n nextKey force)) fun r => ?_
      cases r with
      | error err => exact .pure _
      | ok _ =>
          refine fun h hh => (chainForActivation_confirms cfg ctx nextKey hh).bind ?_
          rintro h₀ r - ⟨hfree, hhanded⟩
          cases r with
          | error err => exact hfree
          | ok c =>
              refine (store_confirms cfg ctx c nextKey hfree (hhanded c rfl)).bind ?_
              rintro h₁ r - ⟨hfree, hunstored⟩
              cases r with
              | unusable err => exact hfree
              | stored cert => exact hpromote h₁ hfree
              | unstored cert err =>
                  obtain ⟨rfl, htried, hhanded₁, hput⟩ := hunstored cert err rfl
                  dsimp only
                  split
                  · exact hfree
                  · exact (hold_confirms hfree htried hhanded₁ hput).bind fun _ _ _ hfree₂ => hfree₂

theorem activateCertificateKey_confirms (cfg : Settings) (n : Name) (force : Bool) :
    (Manager.activateCertificateKey cfg n force).Keeps (mayConfirm q) Free := by
  have hlocked : ∀ ctx, (Manager.activateLocked cfg ctx n force).Keeps (mayConfirm q) Free := by
    intro ctx
    refine .bind (perform_confirms trivial) fun ok => ?_
    cases ok with
    | false => exact .pure _
    | true =>
        refine .bind (activateLeased_confirms cfg ctx n force) fun _ => ?_
        exact .bind (perform_confirms trivial) fun _ => .pure _
  refine .bind (perform_confirms trivial) fun leader => ?_
  cases leader with
  | false => exact .pure _
  | true =>
      simp only [Bool.not_true, Bool.false_eq_true, if_false]
      split
      · exact .pure _
      · refine .bind (perform_confirms trivial) fun t => .bind (perform_confirms trivial) fun _ => ?_
        refine .bind (hlocked _) fun r => ?_
        exact .bind (perform_confirms trivial) fun _ => .pure _

/-! ## Every request -/

theorem within_confirms {α : Type} {timeout : Time} {f : Time → M α}
    (hf : ∀ ctx, (f ctx).Keeps (mayConfirm q) Free) :
    (within timeout f).Keeps (mayConfirm q) Free :=
  .bind (perform_confirms trivial) fun _ => hf _

theorem map_confirms {α β : Type} {f : α → β} {p : M α} (hp : p.Keeps (mayConfirm q) Free) :
    (f <$> p).Keeps (mayConfirm q) Free :=
  fun h hh => Prog.conforms_map.2 (hp h hh)

theorem body_confirms (cfg : Settings) (q : Call) : (body cfg q).Keeps (mayConfirm q) Free := by
  cases q with
  | loadCertKey d => exact map_confirms (within_confirms fun ctx => quiet_confirms (load_quiet cfg ctx _))
  | loadOrCreateCertKey d =>
      exact map_confirms (within_confirms fun ctx => loadOrCreate_confirms cfg ctx _ _)
  | refresh d => exact map_confirms (within_confirms fun ctx => refresh_keepsFree cfg ctx d)
  | obtain d => exact map_confirms (within_confirms fun ctx => (issuing_confirms cfg).obtain ctx d)
  | requestIssue d onDemandHost =>
      exact map_confirms ((issuing_confirms cfg).requestIssue d onDemandHost)
  | renewIfNeeded d =>
      exact map_confirms (within_confirms fun ctx => (issuing_confirms cfg).renewIfNeeded ctx d)
  | renewCertificate d =>
      exact map_confirms ((issuing_confirms cfg).renewCertificate d fun ctx k h hh _ =>
        issueWithKey_confirms cfg ctx d k true h hh)
  | flushHeldChains =>
      exact map_confirms (within_confirms fun ctx => flushHeldChains_confirms cfg ctx rfl)
  | restoreMissingChains =>
      exact map_confirms (within_confirms fun ctx => restoreMissingChains_confirms cfg ctx rfl)
  | reconcileCeremony d =>
      exact map_confirms (within_confirms fun ctx => reconcileCeremony_confirms cfg ctx d)
  | replaceCertificateKey d =>
      exact map_confirms (bland_confirms ((replaceCertificateKey_staging cfg d).mono fun _ ho => ho.bland))
  | activateCertificateKey d force => exact map_confirms (activateCertificateKey_confirms cfg d force)
  | cleanupExpiredRetiring =>
      simp only [body]
      cases cfg.dane with
      | none => exact .pure _
      | some d =>
          exact map_confirms (within_confirms fun ctx =>
            aside_confirms (cleanupExpiredRetiring_aside d ctx))
  | desiredRecords =>
      simp only [body]
      cases cfg.dane with
      | none => exact .pure _
      | some d =>
          exact map_confirms (within_confirms fun ctx =>
            aside_confirms (desiredFrom_aside cfg d ctx d.mxHosts))
  | maintainFollower => exact map_confirms (passes_confirms.maintainFollower (refresh_keepsFree cfg))
  | planLeader => exact map_confirms (passes_confirms.planLeader (refresh_keepsFree cfg))
  | runHost host isRenewal => exact map_confirms ((issuing_confirms cfg).runHost host isRenewal)

end

def confirms : Protocol Op Res Call Out where
  may := mayConfirm
  done _ _ _ := True

theorem cluster_confirms {N T : Type} [DecidableEq N] (cfg : Settings) (node : T → N) :
    (cluster cfg node).Follows confirms :=
  fun q => (body_confirms cfg q [] (Free.of_none rfl)).mono fun _ _ _ => trivial

end CertsManager
