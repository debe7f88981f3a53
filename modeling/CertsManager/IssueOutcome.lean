import CertsManager.Effects
import CertsManager.Footprint
import CertsManager.Interleave.Solo

/-!
# IssueOutcome — the ways `issueWithKey` can end

One run of `issueWithKey`, alone, from any state.  Storage and the lease answer as everywhere in the
development; the CA may in addition answer an order with any bytes, so that a chain need not be for
the key it was asked for (`Answers`).

`Exit` lists the ways out of the function with everything each of them leaves behind: the orders,
the writes of chains and the failures charged on the way, and the memory, the held chains, the
budget and the storage at the end.  What is promised to callers (`Contract`) is read off that list.
-/

namespace CertsManager
namespace IssueOutcome

open Interleave

section

variable {N T : Type} [DecidableEq N]

/-- What a call is answered, and what it does, when no other thread moves. -/
inductive Answers (maxRetries : Nat) (node : T → N) (t : T) (w : World N T) :
    Event → World N T → Prop
  | given {o : Op} {a : Answer} {r : Res o} {w' : World N T}
      (h : exec maxRetries node w t o a = some (r, w')) : Answers maxRetries node t w ⟨o, r⟩ w'
  | ordered (ctx : Time) (n : Name) (key : Key) (wait : Time) (r : Except IssueFault ChainPEM) :
      Answers maxRetries node t w ⟨.env (.issue ctx n key), r⟩ (w.tick wait)

end

/-! ## What is counted in a run -/

/-- The orders, with the CA's answers. -/
def orders (h : List Event) : List (Name × Key × Except IssueFault ChainPEM) :=
  h.filterMap fun e =>
    match e with
    | ⟨.env (.issue _ n key), r⟩ => some (n, key, r)
    | _ => none

/-- The writes of chains, with storage's answers. -/
def chainPuts (h : List Event) : List (Name × ChainPEM × Except PutFault Unit) :=
  h.filterMap fun e =>
    match e with
    | ⟨.storage _ (.putChain n c), r⟩ => some (n, c, r)
    | _ => none

/-- The failures charged. -/
def charges (h : List Event) : List Name :=
  h.filterMap fun e =>
    match e with
    | ⟨.mem (.retriesRecordFailure n), _⟩ => some n
    | _ => none

/-- The put was answered with an error. -/
def Failed (p : Name × ChainPEM × Except PutFault Unit) : Prop :=
  p.2.2 ≠ .ok ()

section

variable (h h' : List Event)

@[simp] theorem orders_append : orders (h ++ h') = orders h ++ orders h' :=
  List.filterMap_append

@[simp] theorem chainPuts_append : chainPuts (h ++ h') = chainPuts h ++ chainPuts h' :=
  List.filterMap_append

@[simp] theorem charges_append : charges (h ++ h') = charges h ++ charges h' :=
  List.filterMap_append

end

/-- A call that is counted nowhere, leaves the held chains alone and forgets no failure. -/
def Plain : Op → Prop
  | .env (.issue _ _ _) => False
  | .storage _ (.putChain _ _) => False
  | .mem (.retriesRecordFailure _) => False
  | .mem (.retriesReset _) => False
  | .mem (.pendingSet _ _) => False
  | .mem (.pendingDelete _) => False
  | _ => True

/-- A plain call other than the one `ensureIssuer` starts with. -/
def Aloof (o : Op) : Prop :=
  Plain o ∧ o ≠ .mem .issuerLock

section

variable {h : List Event}

theorem orders_eq_nil (hh : ∀ e ∈ h, ∀ ctx n key, e.op ≠ .env (.issue ctx n key)) :
    orders h = [] := by
  refine List.filterMap_eq_nil_iff.2 fun e he => ?_
  have hop := hh e he
  obtain ⟨o, r⟩ := e
  cases o with
  | env o => cases o <;> first | rfl | exact absurd rfl (hop _ _ _)
  | _ => rfl

theorem chainPuts_eq_nil (hh : ∀ e ∈ h, ∀ ctx n c, e.op ≠ .storage ctx (.putChain n c)) :
    chainPuts h = [] := by
  refine List.filterMap_eq_nil_iff.2 fun e he => ?_
  have hop := hh e he
  obtain ⟨o, r⟩ := e
  cases o with
  | storage ctx o => cases o <;> first | rfl | exact absurd rfl (hop _ _ _)
  | _ => rfl

theorem charges_eq_nil (hh : ∀ e ∈ h, ∀ n, e.op ≠ .mem (.retriesRecordFailure n)) :
    charges h = [] := by
  refine List.filterMap_eq_nil_iff.2 fun e he => ?_
  have hop := hh e he
  obtain ⟨o, r⟩ := e
  cases o with
  | mem o => cases o <;> first | rfl | exact absurd rfl (hop _)
  | _ => rfl

/-- Plain calls are counted nowhere. -/
theorem counts_of_plain (hh : ∀ e ∈ h, Plain e.op) :
    orders h = [] ∧ chainPuts h = [] ∧ charges h = [] := by
  refine ⟨orders_eq_nil fun e he ctx n key ho => ?_, chainPuts_eq_nil fun e he ctx n c ho => ?_,
    charges_eq_nil fun e he n ho => ?_⟩
  all_goals
    have hop := hh e he
    rw [ho] at hop
    exact hop

end

/-! ## What each function calls -/

theorem load_calls {P : Op → Prop} {cfg : Settings} {ctx : Time} {slot : KeySlot}
    (hget : P (.storage ctx (.getKey slot))) : (KeyStore.load cfg ctx slot).Calls P := by
  refine Prog.Calls.bind (.perform hget) fun r => ?_
  rcases r with (_ | ⟨inBody, reason⟩) | pem
  · exact .pure _
  · cases inBody <;> exact .pure _
  · exact .pure _

theorem refresh_calls {P : Op → Prop} {cfg : Settings} {ctx : Time} {n : Name}
    (hchain : P (.storage ctx (.getChain n))) (hkey : P (.storage ctx (.getKey (.live n))))
    (hset : ∀ cert, P (.mem (.memSet n cert))) (hdelete : P (.mem (.fromLocalDelete n)))
    (hsave : ∀ cert, P (.mem (.localSave n cert))) : (CertCache.refresh cfg ctx n).Calls P := by
  refine Prog.Calls.bind (Prog.Calls.bind (.perform hchain) fun r => ?_) fun r => ?_
  · cases r <;> exact .pure _
  · cases r with
    | error err => exact .pure _
    | ok c =>
        refine Prog.Calls.bind (load_calls hkey) fun r => ?_
        cases r with
        | error err => exact .pure _
        | ok key =>
            dsimp only
            cases buildCertificate c key with
            | error err => exact .pure _
            | ok cert =>
                refine Prog.Calls.bind (.perform (hset cert)) fun _ => ?_
                exact Prog.Calls.bind (confirmed_calls hdelete (hsave cert)) fun _ => .pure _

theorem refresh_aloof (cfg : Settings) (ctx : Time) (n : Name) :
    (CertCache.refresh cfg ctx n).Calls Aloof :=
  refresh_calls ⟨trivial, nofun⟩ ⟨trivial, nofun⟩ (fun _ => ⟨trivial, nofun⟩) ⟨trivial, nofun⟩
    fun _ => ⟨trivial, nofun⟩

theorem loadOrCreate_aloof (cfg : Settings) (ctx : Time) (slot : KeySlot) (keyType : KeyType) :
    (KeyStore.loadOrCreate cfg ctx slot keyType).Calls Aloof := by
  have hload : (KeyStore.load cfg ctx slot).Calls Aloof := load_calls ⟨trivial, nofun⟩
  refine Prog.Calls.bind hload fun r => ?_
  cases r with
  | ok signer => exact .pure _
  | error err =>
      dsimp only
      split
      · exact .pure _
      · refine Prog.Calls.bind (.perform ⟨trivial, nofun⟩) fun may => ?_
        cases may with
        | false => exact .pure _
        | true =>
            refine Prog.Calls.bind ?_ fun r => ?_
            · cases keyType <;>
                first
                | exact .pure _
                | exact Prog.Calls.bind (.perform ⟨trivial, nofun⟩) fun _ => .pure _
            · cases r with
              | error err => exact .pure _
              | ok signer =>
                  refine Prog.Calls.bind (.perform ⟨trivial, nofun⟩) fun r => ?_
                  rcases r with (_ | reason) | _
                  · exact hload
                  · exact .pure _
                  · refine Prog.Calls.bind hload fun r => ?_
                    cases r <;> exact .pure _

theorem ensureIssuerLocked_aloof (cfg : Settings) (ctx : Time) :
    (Manager.ensureIssuerLocked cfg ctx).Calls Aloof := by
  refine Prog.Calls.bind (.perform ⟨trivial, nofun⟩) fun ready => ?_
  cases ready with
  | true => exact .pure _
  | false =>
      refine Prog.Calls.bind (loadOrCreate_aloof cfg ctx .account .ecdsaP256) fun r => ?_
      cases r with
      | error err => exact .pure _
      | ok key => exact Prog.Calls.bind (.perform ⟨trivial, nofun⟩) fun _ => .pure _

/-! ## Errors that are not the one of a held chain -/

theorem load_error {h : History} (cfg : Settings) (ctx : Time) (slot : KeySlot) :
    (KeyStore.load cfg ctx slot).Conforms (fun _ _ => True) h fun _ r =>
      ∀ err, r = .error err → err.is .orderNotPersisted = false := by
  refine ⟨trivial, fun r => ?_⟩
  rcases r with (_ | ⟨inBody, reason⟩) | pem
  · rintro err ⟨⟩
    rfl
  · cases inBody <;>
    · rintro err ⟨⟩
      rfl
  · cases pem with
    | key k => nofun
    | garbage =>
        rintro err ⟨⟩
        rfl

theorem loadOrCreate_error {h : History} (cfg : Settings) (ctx : Time) (slot : KeySlot)
    (keyType : KeyType) :
    (KeyStore.loadOrCreate cfg ctx slot keyType).Conforms (fun _ _ => True) h fun _ r =>
      ∀ err, r = .error err → err.is .orderNotPersisted = false := by
  refine (load_error cfg ctx slot).bind fun h₁ r _ hr => ?_
  cases r with
  | ok signer => rintro err ⟨⟩
  | error err =>
      dsimp only
      split
      · exact hr
      · simp only [KeyStore.canCreate, isLeader, onEnv, Prog.conforms_bind, Prog.conforms_perform]
        refine ⟨trivial, fun may => ?_⟩
        cases may with
        | false =>
            rintro err ⟨⟩
            rfl
        | true =>
            have hgenerate : ∀ h, (KeyStore.generateSigner keyType).Conforms (fun _ _ => True) h
                fun _ r => ∀ err, r = .error err → err.is .orderNotPersisted = false := by
              intro h
              cases keyType with
              | other text =>
                  rintro err ⟨⟩
                  rfl
              | _ =>
                  refine ⟨trivial, fun _ => ?_⟩
                  rintro err ⟨⟩
            refine (hgenerate _).bind fun h₂ r _ hr => ?_
            cases r with
            | error err => exact hr
            | ok signer =>
                simp only [onStorage, Prog.conforms_bind, Prog.conforms_perform]
                refine ⟨trivial, fun r => ?_⟩
                rcases r with (_ | reason) | _
                · exact load_error cfg ctx slot
                · rintro err ⟨⟩
                  rfl
                · refine (load_error cfg ctx slot).bind fun h₃ r _ hr => ?_
                  cases r with
                  | ok stored => rintro err ⟨⟩
                  | error err =>
                      rintro err' ⟨⟩
                      exact hr err rfl

theorem ensureIssuer_error {h : History} (cfg : Settings) (ctx : Time) :
    (Manager.ensureIssuer cfg ctx).Conforms (fun _ _ => True) h fun _ r =>
      ∀ err, r = .error err → err.is .orderNotPersisted = false := by
  simp only [Manager.ensureIssuer, Manager.ensureIssuerLocked, onMem, Prog.conforms_bind,
    Prog.conforms_perform]
  refine ⟨trivial, fun _ => ⟨trivial, fun ready => ?_⟩⟩
  cases ready with
  | true =>
      refine ⟨trivial, fun _ => ?_⟩
      rintro err ⟨⟩
  | false =>
      refine (loadOrCreate_error cfg ctx .account .ecdsaP256).bind fun h₁ r _ hr => ?_
      cases r with
      | error err =>
          refine ⟨trivial, fun _ => ?_⟩
          rintro err' ⟨⟩
          exact hr err rfl
      | ok key =>
          refine ⟨trivial, fun _ => ⟨trivial, fun _ => ?_⟩⟩
          rintro err ⟨⟩

theorem buildCertificate_error {chainPEM : ChainPEM} {key : Key} {err : Err}
    (h : buildCertificate chainPEM key = .error err) : err.is .orderNotPersisted = false := by
  cases chainPEM with
  | garbage =>
      cases h
      rfl
  | chain leaf =>
      by_cases hk : key.public = leaf.pub
      · simp [buildCertificate, hk] at h
      · rw [buildCertificate, dif_neg hk] at h
        cases h
        rfl

/-! ## What a call leaves alone -/

section

variable {N T : Type} [DecidableEq N] {maxRetries : Nat} {node : T → N} {t : T} {w w' : World N T}
  {e : Event}

theorem Answers.frame (h : Answers maxRetries node t w e w') :
    (w'.storage = w.storage ∧ w'.node = w.node) ∨
      ∃ a, exec maxRetries node w t e.op a = some (e.res, w') := by
  cases h with
  | given h => exact .inr ⟨_, h⟩
  | ordered ctx n key wait r => exact .inl ⟨rfl, rfl⟩

theorem Answers.chain (h : Answers maxRetries node t w e w') {n : Name}
    (he : ∀ ctx c, e.op ≠ .storage ctx (.putChain n c)) :
    w'.storage.chain n = w.storage.chain n := by
  rcases h.frame with ⟨hst, -⟩ | ⟨a, hexec⟩
  · rw [hst]
  · rcases exec_chain hexec n with hsame | ⟨ctx, c, ho, -⟩
    · exact hsame
    · exact absurd ho (he ctx c)

theorem Answers.key (h : Answers maxRetries node t w e w') {slot : KeySlot}
    (hput : ∀ ctx k createOnly, e.op ≠ .storage ctx (.putKey slot k createOnly))
    (hremove : ∀ ctx, e.op ≠ .storage ctx (.removeKey slot)) :
    w'.storage.key slot = w.storage.key slot := by
  rcases h.frame with ⟨hst, -⟩ | ⟨a, hexec⟩
  · rw [hst]
  · rcases exec_key hexec slot with hsame | ⟨ctx, k, createOnly, ho, -⟩ | ⟨ctx, ho, -⟩
    · exact hsame
    · exact absurd ho (hput ctx k createOnly)
    · exact absurd ho (hremove ctx)

theorem Answers.mem (h : Answers maxRetries node t w e w') {n : Name}
    (he : ∀ cert, e.op ≠ .mem (.memSet n cert)) (i : N) :
    (w'.node i).mem n = (w.node i).mem n := by
  rcases h.frame with ⟨-, hnode⟩ | ⟨a, hexec⟩
  · rw [hnode]
  · rcases exec_cert hexec i n with hsame | ⟨cert, ho, -⟩
    · exact hsame
    · exact absurd ho (he cert)

theorem Answers.pending (h : Answers maxRetries node t w e w') {n : Name}
    (hset : ∀ p, e.op ≠ .mem (.pendingSet n p)) (hdelete : e.op ≠ .mem (.pendingDelete n)) (i : N) :
    (w'.node i).pending.lookup n = (w.node i).pending.lookup n := by
  rcases h.frame with ⟨-, hnode⟩ | ⟨a, hexec⟩
  · rw [hnode]
  · rcases exec_pending hexec i n with hsame | ⟨p, ho, -⟩ | ⟨ho, -⟩
    · exact hsame
    · exact absurd ho (hset p)
    · exact absurd ho hdelete

theorem Answers.env {o : EnvOp} {r : o.Res} (h : Answers maxRetries node t w ⟨.env o, r⟩ w') :
    w'.storage = w.storage ∧ w'.node = w.node := by
  rcases h.frame with hframe | ⟨a, hexec⟩
  · exact hframe
  · exact execEnv_frame (w := w.tick a.wait) hexec

/-- Only an order can be answered with what the world does not allow. -/
theorem Answers.exec_of {o : Op} {r : Res o} (h : Answers maxRetries node t w ⟨o, r⟩ w')
    (ho : ∀ ctx n key, o ≠ .env (.issue ctx n key)) :
    ∃ a, exec maxRetries node w t o a = some (r, w') := by
  cases h with
  | given h => exact ⟨_, h⟩
  | ordered ctx n key wait r => exact absurd rfl (ho ctx n key)

theorem Answers.clock (h : Answers maxRetries node t w e w') : w.clock ≤ w'.clock := by
  cases h with
  | given h => exact exec_clock h
  | ordered ctx n key wait r => exact Nat.le_add_right _ _

/-! ## The chain held and the budget -/

/-- The failures on record for a hostname where the run is. -/
abbrev failures (node : T → N) (t : T) (host : String) (w : World N T) : List Time :=
  (w.node (node t)).retries.failures host

/-- What calls that hold and charge nothing leave: the chain held for the name, and of its hostname's
failures those that are recent from then on. -/
structure Kept (node : T → N) (t : T) (n : Name) (w w' : World N T) : Prop where
  pending : (w'.node (node t)).pending.lookup n = (w.node (node t)).pending.lookup n
  clock : w.clock ≤ w'.clock
  recent : ∀ now, w'.clock ≤ now →
    (w'.node (node t)).retries.recent now (RetryBudget.budgetKey n) =
      (w.node (node t)).retries.recent now (RetryBudget.budgetKey n)

omit [DecidableEq N] in
theorem Kept.refl (n : Name) (w : World N T) : Kept node t n w w :=
  ⟨rfl, le_rfl, fun _ _ => rfl⟩

omit [DecidableEq N] in
theorem Kept.trans {n : Name} {w₁ : World N T} (h : Kept node t n w w₁) (h' : Kept node t n w₁ w') :
    Kept node t n w w' :=
  ⟨h'.pending.trans h.pending, h.clock.trans h'.clock,
    fun now hnow => (h'.recent now hnow).trans (h.recent now (h'.clock.trans hnow))⟩

theorem Answers.kept (h : Answers maxRetries node t w e w') (he : Plain e.op) (n : Name) :
    Kept node t n w w' := by
  have hpending : (w'.node (node t)).pending.lookup n = (w.node (node t)).pending.lookup n := by
    refine h.pending (fun p ho => ?_) (fun ho => ?_) _
    all_goals
      rw [ho] at he
      exact he
  refine ⟨hpending, h.clock, fun now hnow => ?_⟩
  rcases h.frame with ⟨-, hnode⟩ | ⟨a, hexec⟩
  · rw [hnode]
  · rcases exec_failures hexec (node t) (RetryBudget.budgetKey n) with
      ⟨-, hf | hf⟩ | ⟨m, ho, -⟩ | ⟨m, ho, -⟩
    · simp only [RetryBudget.recent, hf]
    · -- what was pruned had aged out before
      simp only [RetryBudget.recent, hf, List.filter_filter]
      refine List.filter_congr fun x _ => ?_
      have hage : now < x + retryBudgetWindow → w'.clock < x + retryBudgetWindow := hnow.trans_lt
      simpa using hage
    all_goals
      rw [ho] at he
      exact he.elim

theorem runs_of_plain {α : Type} {p : M α} {h : List Event} {out : α} (n : Name)
    (hh : ∀ e ∈ h, Plain e.op) (hrun : p.Runs (Answers maxRetries node t) w h out w') :
    Kept node t n w w' :=
  hrun.relates (R := Kept node t n) (Kept.refl n) Kept.trans
    (fun _ _ _ hnext he => hnext.kept he n) hh

/-- A call that leaves the failures of every hostname alone. -/
def Lasting : Op → Prop
  | .mem (.retriesAllow _) => False
  | .mem (.retriesRecordFailure _) => False
  | .mem (.retriesReset _) => False
  | _ => True

theorem Answers.failures (h : Answers maxRetries node t w e w') (he : Lasting e.op) (host : String) :
    failures node t host w' = failures node t host w := by
  rcases h.frame with ⟨-, hnode⟩ | ⟨a, hexec⟩
  · rw [IssueOutcome.failures, hnode]
  · rcases exec_node hexec (node t) with hsame | ⟨mo, ho, -, hafter⟩
    · rw [IssueOutcome.failures, hsame]
    · rw [IssueOutcome.failures, hafter]
      rw [ho] at he
      cases mo <;> first | rfl | exact he.elim

theorem runs_of_lasting {α : Type} {p : M α} {h : List Event} {out : α} (host : String)
    (hp : p.Calls Lasting) (hrun : p.Runs (Answers maxRetries node t) w h out w') :
    w.clock ≤ w'.clock ∧ failures node t host w' = failures node t host w :=
  hrun.relates (R := fun w w' => w.clock ≤ w'.clock ∧ failures node t host w' = failures node t host w)
    (fun _ => ⟨le_rfl, rfl⟩) (fun h₁ h₂ => ⟨h₁.1.trans h₂.1, h₂.2.trans h₁.2⟩)
    (fun _ _ _ hnext he => ⟨hnext.clock, hnext.failures he host⟩) (hp.mem_runs hrun)

/-- One failure more is on record for the hostname of `n`: after those that the hour still covers,
the time of the charge. -/
def Charged (node : T → N) (t : T) (n : Name) (w w' : World N T) : Prop :=
  ∃ now, w.clock ≤ now ∧ now ≤ w'.clock ∧ failures node t (RetryBudget.budgetKey n) w' =
    (w.node (node t)).retries.recent now (RetryBudget.budgetKey n) ++ [now]

/-- The charge of a failure. -/
theorem Kept.charged {n : Name} {w₁ w₂ : World N T} (hkept : Kept node t n w w₁)
    (hlasts : w₁.clock ≤ w₂.clock ∧ failures node t (RetryBudget.budgetKey n) w₂ =
      failures node t (RetryBudget.budgetKey n) w₁)
    (hcharge : Answers maxRetries node t w₂ ⟨.mem (.retriesRecordFailure n), ()⟩ w') :
    Charged node t n w w' := by
  have hclock : w₁.clock ≤ w'.clock := hlasts.1.trans hcharge.clock
  obtain ⟨a, hexec⟩ := hcharge.exec_of nofun
  refine ⟨w'.clock, hkept.clock.trans hclock, le_rfl, ?_⟩
  rw [← hkept.recent _ hclock]
  rcases exec_failures hexec (node t) (RetryBudget.budgetKey n) with
    ⟨hnot, -⟩ | ⟨m, -, -, -, hf⟩ | ⟨m, ho, -⟩
  · exact absurd rfl (hnot n rfl rfl)
  · simpa only [failures, RetryBudget.recent, ← hlasts.2] using hf
  · cases ho

omit [DecidableEq N] in
theorem Charged.trans {n : Name} {w₁ : World N T} (hcharged : Charged node t n w w₁)
    (hlasts : w₁.clock ≤ w'.clock ∧ failures node t (RetryBudget.budgetKey n) w' =
      failures node t (RetryBudget.budgetKey n) w₁) : Charged node t n w w' := by
  obtain ⟨now, hfrom, hto, hf⟩ := hcharged
  exact ⟨now, hfrom, hto.trans hlasts.1, hlasts.2.trans hf⟩

omit [DecidableEq N] in
theorem Charged.of_kept {n : Name} {w₀ : World N T} (hcharged : Charged node t n w w')
    (hkept : Kept node t n w₀ w) : Charged node t n w₀ w' := by
  obtain ⟨now, hfrom, hto, hf⟩ := hcharged
  exact ⟨now, hkept.clock.trans hfrom, hto, by rw [hf, hkept.recent now hfrom]⟩

omit [DecidableEq N] in
/-- A charge is seen: the time of it stands once more in the record than before. -/
theorem Charged.not_sublist {n : Name} (hcharged : Charged node t n w w') :
    ¬ (failures node t (RetryBudget.budgetKey n) w').Sublist
      (failures node t (RetryBudget.budgetKey n) w) := by
  obtain ⟨now, -, -, hf⟩ := hcharged
  intro hsub
  have hle := hsub.count_le now
  have hrecent : now < now + retryBudgetWindow := Nat.lt_add_of_pos_right (by decide)
  rw [hf, List.count_append, RetryBudget.recent, List.count_filter (by simpa using hrecent)] at hle
  simp at hle

/-- Where nothing is charged the record does not grow. -/
theorem runs_uncharged {α : Type} {p : M α} {h : List Event} {out : α} {host : String}
    (hh : ∀ m ∈ charges h, RetryBudget.budgetKey m ≠ host)
    (hrun : p.Runs (Answers maxRetries node t) w h out w') :
    (failures node t host w').Sublist (failures node t host w) := by
  refine hrun.relates (P := fun o => ∀ m, o = .mem (.retriesRecordFailure m) →
      RetryBudget.budgetKey m ≠ host)
    (R := fun w w' => (failures node t host w').Sublist (failures node t host w))
    (fun _ => .refl _) (fun h₁ h₂ => h₂.trans h₁) (fun w e w' hnext he => ?_) fun e he m ho => ?_
  · rcases hnext.frame with ⟨-, hnode⟩ | ⟨a, hexec⟩
    · rw [failures, hnode]
    · rcases exec_failures hexec (node t) host with ⟨-, hf | hf⟩ | ⟨m, ho, -, hm, -⟩ | ⟨m, -, -, -, hf⟩
      · rw [failures, hf]
      · rw [failures, hf]
        exact List.filter_sublist
      · exact absurd hm (he m ho)
      · rw [failures, hf]
        exact List.nil_sublist _
  · refine hh m (List.mem_filterMap.2 ⟨e, he, ?_⟩)
    obtain ⟨o, r⟩ := e
    cases ho
    rfl

/-! ## Refresh and the issuer -/

theorem load_runs_ok {cfg : Settings} {ctx : Time} {slot : KeySlot} {h : List Event} {key : Key}
    (hrun : (KeyStore.load cfg ctx slot).Runs (Answers maxRetries node t) w h (.ok key) w') :
    w.storage.key slot = some (marshalKeyPEM key) := by
  obtain ⟨r, w₁, h', rfl, hget, hrest⟩ := Prog.runs_perform_bind.1 hrun
  rcases r with (_ | ⟨inBody, reason⟩) | pem
  · cases hrest.2.1
  · cases inBody <;> cases hrest.2.1
  · obtain ⟨-, hkey, -⟩ := hrest
    obtain ⟨a, hexec⟩ := hget.exec_of nofun
    have hstored := exec_getKey_ok hexec
    cases pem with
    | garbage => cases hkey
    | key k =>
        cases hkey
        exact hstored

/-- What `Refresh` returns is what storage holds: the chain, and the key it is bound to. -/
theorem refresh_runs_ok {cfg : Settings} {ctx : Time} {n : Name} {h : List Event}
    {cert : Certificate}
    (hrun : (CertCache.refresh cfg ctx n).Runs (Answers maxRetries node t) w h (.ok cert) w') :
    w.storage.chain n = some (encodeChainPEM cert) ∧
      w.storage.key (.live n) = some (marshalKeyPEM cert.privateKey) := by
  obtain ⟨h₁, r, w₁, h₂, rfl, hchain, hrest⟩ := Prog.runs_bind.1 hrun
  obtain ⟨f, w₂, h₃, rfl, hget, hret⟩ := Prog.runs_perform_bind.1 hchain
  obtain ⟨a, hexec⟩ := hget.exec_of nofun
  cases f with
  | error f =>
      obtain ⟨-, rfl, -⟩ := hret
      cases hrest.2.1
  | ok c =>
      obtain ⟨rfl, rfl, rfl⟩ := hret
      obtain ⟨h₄, r, w₂, h₅, rfl, hload, hrest⟩ := Prog.runs_bind.1 hrest
      cases r with
      | error err => cases hrest.2.1
      | ok key =>
          dsimp only at hrest
          cases hbuild : buildCertificate c key with
          | error err =>
              rw [hbuild] at hrest
              cases hrest.2.1
          | ok built =>
              rw [hbuild] at hrest
              obtain ⟨_, w₃, h₆, rfl, -, hrest⟩ := Prog.runs_perform_bind.1 hrest
              obtain ⟨h₇, _, w₄, h₈, rfl, -, hret⟩ := Prog.runs_bind.1 hrest
              obtain ⟨-, hout, -⟩ := hret
              cases hout
              obtain ⟨rfl, rfl⟩ := buildCertificate_ok hbuild
              have hkey := load_runs_ok hload
              rw [hget.key nofun nofun] at hkey
              exact ⟨exec_getChain_ok hexec, hkey⟩

/-- A run of `ensureIssuer` starts with taking its lock, and takes it once. -/
theorem ensureIssuer_runs {cfg : Settings} {ctx : Time} {h : List Event} {out : Except Err Unit}
    (hrun : (Manager.ensureIssuer cfg ctx).Runs (Answers maxRetries node t) w h out w') :
    ∃ tail, h = ⟨.mem .issuerLock, ()⟩ :: tail ∧ ∀ e ∈ tail, Aloof e.op := by
  obtain ⟨_, w₁, h₁, rfl, -, hrest⟩ := Prog.runs_perform_bind.1 hrun
  refine ⟨h₁, rfl, ?_⟩
  refine Prog.Calls.mem_runs (Prog.Calls.bind (ensureIssuerLocked_aloof cfg ctx) fun r => ?_) hrest
  exact Prog.Calls.bind (.perform ⟨trivial, nofun⟩) fun _ => .pure _

/-- Without the lock of the issuer there was no run of `ensureIssuer`. -/
theorem not_occurs_ensureIssuer {cfg : Settings} {ctx : Time} {h : List Event}
    {out : Except Err Unit} (hh : ∀ e ∈ h, e.op ≠ .mem .issuerLock) :
    ¬ (Manager.ensureIssuer cfg ctx).Occurs (Answers maxRetries node t) h out := by
  rintro ⟨before, sub, after, w, w', rfl, hrun⟩
  obtain ⟨tail, rfl, -⟩ := ensureIssuer_runs hrun
  exact hh ⟨.mem .issuerLock, ()⟩ (by simp) rfl

/-! ## Writing a chain -/

theorem lasting_of_storing {n : Name} {c : ChainPEM} {o : Op} (h : Storing n c o) : Lasting o := by
  cases h <;> trivial

/-- Storing orders nothing, charges nothing and does not ask for the issuer. -/
theorem counts_of_storing {n : Name} {c : ChainPEM} {h : List Event}
    (hh : ∀ e ∈ h, Storing n c e.op) :
    orders h = [] ∧ charges h = [] ∧ ∀ e ∈ h, e.op ≠ .mem .issuerLock := by
  refine ⟨orders_eq_nil fun e he ctx m key ho => ?_, charges_eq_nil fun e he m ho => ?_,
    fun e he ho => ?_⟩
  all_goals
    have hop := hh e he
    rw [ho] at hop
    cases hop

/-- The attempts to write the chain: the last one succeeded, or none did. -/
theorem persistFrom_runs {ctx : Time} {n : Name} {c : ChainPEM} {left attempt : Nat}
    {h : List Event} {r : Except Err Unit}
    (hrun : (CertCache.persistFrom ctx n c left attempt).Runs (Answers maxRetries node t) w h r w') :
    (r = .ok () ∧ (n, c, .ok ()) ∈ chainPuts h ∧ w'.storage.chain n = some c) ∨
      ∃ err, r = .error err ∧ err.is .persistFailed = true ∧ ∀ p ∈ chainPuts h, Failed p := by
  induction left generalizing attempt w h with
  | zero =>
      obtain ⟨put, w₁, h₁, rfl, hput, hrest⟩ := Prog.runs_perform_bind.1 hrun
      cases put with
      | ok _ =>
          obtain ⟨rfl, rfl, rfl⟩ := hrest
          obtain ⟨a, hexec⟩ := hput.exec_of nofun
          exact .inl ⟨rfl, List.mem_cons_self, exec_putChain_ok hexec⟩
      | error f =>
          obtain ⟨rfl, rfl, rfl⟩ := hrest
          exact .inr ⟨_, rfl, rfl, by simp [chainPuts, Failed]⟩
  | succ left ih =>
      obtain ⟨put, w₁, h₁, rfl, hput, hrest⟩ := Prog.runs_perform_bind.1 hrun
      cases put with
      | ok _ =>
          obtain ⟨rfl, rfl, rfl⟩ := hrest
          obtain ⟨a, hexec⟩ := hput.exec_of nofun
          exact .inl ⟨rfl, List.mem_cons_self, exec_putChain_ok hexec⟩
      | error f =>
          obtain ⟨slept, w₂, h₂, rfl, -, hrest⟩ := Prog.runs_perform_bind.1 hrest
          -- the put that failed stands before those of the later attempts
          have hputs : chainPuts (⟨.storage ctx (.putChain n c), .error f⟩ ::
              ⟨.env (.sleep ctx (attempt * CertCache.persistBackoff)), slept⟩ :: h₂) =
                (n, c, .error f) :: chainPuts h₂ := rfl
          rw [hputs]
          cases slept with
          | false =>
              obtain ⟨rfl, rfl, rfl⟩ := hrest
              exact .inr ⟨_, rfl, rfl, by simp [chainPuts, Failed]⟩
          | true =>
              rcases ih hrest with ⟨rfl, hmem, hchain⟩ | ⟨err, rfl, herr, hfailed⟩
              · exact .inl ⟨rfl, List.mem_cons_of_mem _ hmem, hchain⟩
              · exact .inr ⟨err, rfl, herr, List.forall_mem_cons.2 ⟨nofun, hfailed⟩⟩

theorem confirmed_runs {cfg : Settings} {n : Name} {cert : Certificate} {h : List Event} {r : Unit}
    (hrun : (CertCache.confirmed cfg n cert).Runs (Answers maxRetries node t) w h r w') :
    w'.storage.chain n = w.storage.chain n ∧
      (w'.node (node t)).mem n = (w.node (node t)).mem n ∧
      (w'.node (node t)).pending.lookup n = (w.node (node t)).pending.lookup n := by
  let P : Op → Prop := fun o => o = .mem (.fromLocalDelete n) ∨ o = .mem (.localSave n cert)
  have hcalls : ∀ e ∈ h, P e.op := (confirmed_calls (.inl rfl) (.inr rfl)).mem_runs hrun
  refine ⟨hrun.keeps (P := P) (fun w => w.storage.chain n) (fun w e w' he hop => he.chain ?_) hcalls,
    hrun.keeps (P := P) (fun w => (w.node (node t)).mem n) (fun w e w' he hop => he.mem ?_ _) hcalls,
    hrun.keeps (P := P) (fun w => (w.node (node t)).pending.lookup n)
      (fun w e w' he hop => he.pending ?_ ?_ _) hcalls⟩
  all_goals rcases hop with ho | ho <;> simp [ho]

/-- What becomes of a chain that is to be stored. -/
theorem store_runs {cfg : Settings} {ctx : Time} {n : Name} {c : ChainPEM} {key : Key}
    {h : List Event} {r : CertCache.StoreResult}
    (hrun : (CertCache.store cfg ctx n c key).Runs (Answers maxRetries node t) w h r w') :
    (∃ err, r = .unusable err ∧ buildCertificate c key = .error err ∧ h = [] ∧ w' = w) ∨
      (∃ cert err, r = .unstored cert err ∧ buildCertificate c key = .ok cert ∧
        err.is .persistFailed = true ∧ ∀ p ∈ chainPuts h, Failed p) ∨
      ∃ cert, r = .stored cert ∧ buildCertificate c key = .ok cert ∧
        (n, c, .ok ()) ∈ chainPuts h ∧ w'.storage.chain n = some c ∧
        (w'.node (node t)).mem n = some cert ∧ (w'.node (node t)).pending.lookup n = none := by
  unfold CertCache.store at hrun
  cases hbuild : buildCertificate c key with
  | error err =>
      rw [hbuild] at hrun
      obtain ⟨rfl, rfl, rfl⟩ := hrun
      exact .inl ⟨err, rfl, rfl, rfl, rfl⟩
  | ok cert =>
      rw [hbuild] at hrun
      obtain ⟨h₁, put, w₁, h₂, rfl, hpersist, hrest⟩ := Prog.runs_bind.1 hrun
      rcases persistFrom_runs hpersist with ⟨rfl, hmem, hchain⟩ | ⟨err, rfl, herr, hfailed⟩
      · obtain ⟨_, w₂, h₃, rfl, hset, hrest⟩ := Prog.runs_perform_bind.1 hrest
        obtain ⟨_, w₃, h₄, rfl, hdrop, hrest⟩ := Prog.runs_perform_bind.1 hrest
        obtain ⟨h₅, _, w₄, h₆, rfl, hconfirm, rfl, rfl, rfl⟩ := Prog.runs_bind.1 hrest
        obtain ⟨_, hsetExec⟩ := hset.exec_of nofun
        obtain ⟨_, hdropExec⟩ := hdrop.exec_of nofun
        obtain ⟨hchain', hmem', hpending'⟩ := confirmed_runs hconfirm
        refine .inr (.inr ⟨cert, rfl, rfl, ?_, ?_, ?_, ?_⟩)
        · rw [chainPuts_append]
          exact List.mem_append_left _ hmem
        · rw [hchain', hdrop.chain nofun, hset.chain nofun, hchain]
        · rw [hmem', hdrop.mem nofun, exec_memSet hsetExec]
        · rw [hpending', exec_pendingDelete hdropExec]
      · obtain ⟨rfl, rfl, rfl⟩ := hrest
        exact .inr (.inl ⟨cert, err, rfl, rfl, herr, by simpa using hfailed⟩)

/-! ## Placing an order -/

/-- The ways out of the part of `issueWithKey` that asks for the issuer and places the order, from
`w` by the calls `h` to `w'`. -/
inductive Placed (cfg : Settings) (node : T → N) (t : T) (ctx : Time) (n : Name) (key : Key)
    (w : World N T) (h : List Event) (w' : World N T) : Manager.Returned → Prop
  | noIssuer {err : Err}
      (issuer : (Manager.ensureIssuer cfg ctx).Occurs (Answers cfg.maxRetries node t) h (.error err))
      (orders : orders h = []) (puts : chainPuts h = []) (charges : charges h = [n])
      (other : err.is .orderNotPersisted = false)
      (pending : (w'.node (node t)).pending.lookup n = (w.node (node t)).pending.lookup n)
      (charged : Charged node t n w w') :
      Placed cfg node t ctx n key w h w' (none, some err)
  | orderFailed {f : IssueFault} {err : Err}
      (orders : orders h = [(n, key, .error f)]) (puts : chainPuts h = [])
      (charges : charges h = [n]) (other : err.is .orderNotPersisted = false)
      (pending : (w'.node (node t)).pending.lookup n = (w.node (node t)).pending.lookup n)
      (charged : Charged node t n w w') :
      Placed cfg node t ctx n key w h w' (none, some err)
  | unusable {c : ChainPEM} {err : Err}
      (orders : orders h = [(n, key, .ok c)]) (build : buildCertificate c key = .error err)
      (puts : chainPuts h = []) (charges : charges h = [n])
      (other : err.is .orderNotPersisted = false)
      (pending : (w'.node (node t)).pending.lookup n = (w.node (node t)).pending.lookup n)
      (charged : Charged node t n w w') :
      Placed cfg node t ctx n key w h w' (none, some err)
  | held {c : ChainPEM} {cert : Certificate} {err : Err}
      (orders : orders h = [(n, key, .ok c)]) (build : buildCertificate c key = .ok cert)
      (puts : ∀ p ∈ chainPuts h, Failed p) (charges : charges h = [n])
      (notPersisted : err.is .orderNotPersisted = true)
      (mem : (w'.node (node t)).mem n = some cert)
      (pending : (w'.node (node t)).pending.lookup n = some ⟨c, cert.leaf.notAfter⟩)
      (charged : Charged node t n w w') :
      Placed cfg node t ctx n key w h w' (some cert, some err)
  | stored {c : ChainPEM} {cert : Certificate}
      (issuer : ∃ before tail after w₁ w₂, h = before ++ (⟨.mem .issuerLock, ()⟩ :: tail) ++ after ∧
        (Manager.ensureIssuer cfg ctx).Runs (Answers cfg.maxRetries node t) w₁
          (⟨.mem .issuerLock, ()⟩ :: tail) (.ok ()) w₂ ∧
        (∀ e ∈ before, e.op ≠ .mem .issuerLock) ∧ ∀ e ∈ tail ++ after, e.op ≠ .mem .issuerLock)
      (orders : orders h = [(n, key, .ok c)]) (build : buildCertificate c key = .ok cert)
      (put : (n, c, .ok ()) ∈ chainPuts h) (charges : charges h = [])
      (chain : w'.storage.chain n = some c) (mem : (w'.node (node t)).mem n = some cert)
      (pending : (w'.node (node t)).pending.lookup n = none)
      (failures : failures node t (RetryBudget.budgetKey n) w' = []) :
      Placed cfg node t ctx n key w h w' (some cert, none)

theorem noteRateLimit_calls {P : Op → Prop} {n : Name} {f : IssueFault} (hnow : P (.env .now))
    (hblock : ∀ liftsAt, P (.mem (.retriesBlock n liftsAt))) :
    (Manager.noteRateLimit n f).Calls P := by
  unfold Manager.noteRateLimit
  cases f.rateLimit with
  | none => exact .pure _
  | some wait => exact Prog.Calls.bind (.perform hnow) fun _ => .perform (hblock _)

theorem exec_reset {a : Answer} {n : Name} {r : Unit}
    (h : exec maxRetries node w t (.mem (.retriesReset n)) a = some (r, w')) :
    failures node t (RetryBudget.budgetKey n) w' = [] := by
  obtain ⟨m', hm, rfl⟩ := exec_onMem h
  cases hm
  simp [failures, RetryBudget.reset]

omit [DecidableEq N] in
/-- What is counted in a run up to an order and the store of its chain, and after. -/
theorem counts_ordered (ctx : Time) {n : Name} (key : Key) {c : ChainPEM}
    {before h : List Event} (hbefore : ∀ e ∈ before, Plain e.op)
    (hh : ∀ e ∈ h, Storing n c e.op) (rest : List Event) :
    orders (before ++ ⟨.env (.issue ctx n key), .ok c⟩ :: (h ++ rest)) =
        (n, key, .ok c) :: orders rest ∧
      chainPuts (before ++ ⟨.env (.issue ctx n key), .ok c⟩ :: (h ++ rest)) =
        chainPuts h ++ chainPuts rest ∧
      charges (before ++ ⟨.env (.issue ctx n key), .ok c⟩ :: (h ++ rest)) = charges rest := by
  obtain ⟨horders, hputs, hcharges⟩ := counts_of_plain hbefore
  obtain ⟨horders', hcharges', -⟩ := counts_of_storing hh
  have hord : orders (h ++ rest) = orders rest := by rw [orders_append, horders', List.nil_append]
  have hch : charges (h ++ rest) = charges rest := by
    rw [charges_append, hcharges', List.nil_append]
  refine ⟨?_, ?_, ?_⟩
  · rw [orders_append, horders, List.nil_append, ← hord]
    rfl
  · rw [chainPuts_append, hputs, List.nil_append, ← chainPuts_append]
    rfl
  · rw [charges_append, hcharges, List.nil_append, ← hch]
    rfl

theorem hold_lasting (n : Name) (cert : Certificate) (c : ChainPEM) :
    (CertCache.hold n cert c).Calls Lasting :=
  Prog.Calls.bind (.perform trivial) fun _ => .perform trivial

theorem hold_runs {n : Name} {cert : Certificate} {c : ChainPEM} {h : List Event} {r : Unit}
    (hrun : (CertCache.hold n cert c).Runs (Answers maxRetries node t) w h r w') :
    orders h = [] ∧ chainPuts h = [] ∧ charges h = [] ∧
      (w'.node (node t)).mem n = some cert ∧
      (w'.node (node t)).pending.lookup n = some ⟨c, cert.leaf.notAfter⟩ := by
  obtain ⟨_, w₁, h₁, rfl, hset, hrest⟩ := Prog.runs_perform_bind.1 hrun
  obtain ⟨rfl, hpend⟩ := Prog.runs_perform.1 hrest
  obtain ⟨_, hsetExec⟩ := hset.exec_of nofun
  obtain ⟨_, hpendExec⟩ := hpend.exec_of nofun
  refine ⟨rfl, rfl, rfl, ?_, exec_pendingSet hpendExec⟩
  rw [hpend.mem nofun, exec_memSet hsetExec]

theorem placeOrder_runs {cfg : Settings} {ctx : Time} {n : Name} {key : Key} {h : List Event}
    {out : Manager.Returned}
    (hrun : (Manager.placeOrder cfg ctx n key).Runs (Answers cfg.maxRetries node t) w h out w') :
    Placed cfg node t ctx n key w h w' out := by
  obtain ⟨h₁, r, w₁, h₂, rfl, hissuer, hrest₁⟩ := Prog.runs_bind.1 hrun
  obtain ⟨tail, rfl, htail⟩ := ensureIssuer_runs hissuer
  have hplain : ∀ e ∈ (⟨.mem .issuerLock, ()⟩ :: tail : List Event), Plain e.op :=
    List.forall_mem_cons.2 ⟨trivial, fun e he => (htail e he).1⟩
  obtain ⟨horders, hputs, hcharges⟩ := counts_of_plain hplain
  have hkept := runs_of_plain n hplain hissuer
  cases r with
  | error err =>
      obtain ⟨_, w₂, h₃, rfl, hcharge, rfl, rfl, rfl⟩ := Prog.runs_perform_bind.1 hrest₁
      refine .noIssuer ?_ ?_ ?_ ?_ ((ensureIssuer_error (h := []) cfg ctx).runs hissuer err rfl) ?_
        (hkept.charged ⟨le_rfl, rfl⟩ hcharge)
      · exact hissuer.occurs.of_infix []
      · rw [orders_append, horders]
        rfl
      · rw [chainPuts_append, hputs]
        rfl
      · rw [charges_append, hcharges]
        rfl
      · rw [hcharge.pending nofun nofun, hkept.pending]
  | ok _ =>
      obtain ⟨answer, w₂, h₃, rfl, hissue, hrest₂⟩ := Prog.runs_perform_bind.1 hrest₁
      have hordered : Kept node t n w₁ w₂ := by
        refine ⟨by rw [hissue.env.2], hissue.clock, fun now _ => ?_⟩
        rw [hissue.env.2]
      have hkept₂ := hkept.trans hordered
      cases answer with
      | error f =>
          obtain ⟨_, w₃, h₄, rfl, hcharge, hrest₃⟩ := Prog.runs_perform_bind.1 hrest₂
          obtain ⟨h₅, _, w₄, h₆, rfl, hnote, rfl, rfl, rfl⟩ := Prog.runs_bind.1 hrest₃
          have hplain₅ : ∀ e ∈ h₅, Plain e.op :=
            (noteRateLimit_calls trivial fun _ => trivial).mem_runs hnote
          obtain ⟨horders₅, hputs₅, hcharges₅⟩ := counts_of_plain hplain₅
          have hlasts := runs_of_lasting (RetryBudget.budgetKey n)
            (noteRateLimit_calls trivial fun _ => trivial) hnote
          refine .orderFailed (f := f) ?_ ?_ ?_ rfl ?_
            ((hkept₂.charged ⟨le_rfl, rfl⟩ hcharge).trans hlasts)
          · rw [orders_append, horders, List.append_nil]
            exact congrArg ((n, key, .error f) :: ·) horders₅
          · rw [chainPuts_append, hputs, List.append_nil]
            exact hputs₅
          · rw [charges_append, hcharges, List.append_nil]
            exact congrArg (n :: ·) hcharges₅
          · rw [(runs_of_plain n hplain₅ hnote).pending, hcharge.pending nofun nofun, hkept₂.pending]
      | ok c =>
          obtain ⟨h₄, r, w₃, h₅, rfl, hstore, hrest₃⟩ := Prog.runs_bind.1 hrest₂
          have hstores := store_storing cfg ctx n c key
          have hstoring := hstores.mem_runs hstore
          obtain ⟨hord, hputs', hch⟩ := counts_ordered ctx key hplain hstoring h₅
          rcases store_runs hstore with ⟨err, rfl, hbuild, rfl, rfl⟩ |
            ⟨cert, err, rfl, hbuild, herr, hfailed⟩ | ⟨cert, rfl, hbuild, hput, hchain, hmem, hdropped⟩
          · obtain ⟨_, w₄, h₆, rfl, hcharge, rfl, rfl, rfl⟩ := Prog.runs_perform_bind.1 hrest₃
            refine .unusable hord hbuild hputs' hch (buildCertificate_error hbuild) ?_
              (hkept₂.charged ⟨le_rfl, rfl⟩ hcharge)
            rw [hcharge.pending nofun nofun, hkept₂.pending]
          · obtain ⟨_, w₄, h₆, rfl, hcharge, hrest₄⟩ := Prog.runs_perform_bind.1 hrest₃
            rw [herr] at hrest₄
            obtain ⟨h₇, _, w₅, h₈, rfl, hhold, rfl, rfl, rfl⟩ := Prog.runs_bind.1 hrest₄
            obtain ⟨horders₇, hputs₇, hcharges₇, hmem, hheld⟩ := hold_runs hhold
            have hcharged := hkept₂.charged
              (runs_of_lasting _ (hstores.mono fun _ => lasting_of_storing) hstore) hcharge
            have hlasts := runs_of_lasting (RetryBudget.budgetKey n) (hold_lasting n cert c) hhold
            refine .held (hord.trans ?_) hbuild ?_ (hch.trans ?_) rfl hmem hheld
              (hcharged.trans hlasts)
            · exact congrArg (_ :: ·) ((orders_append h₇ []).trans (by rw [horders₇]; rfl))
            · have hnone : chainPuts (⟨.mem (.retriesRecordFailure n), ()⟩ :: (h₇ ++ [])) = [] :=
                (chainPuts_append h₇ []).trans (by rw [hputs₇]; rfl)
              rw [hputs', hnone, List.append_nil]
              exact hfailed
            · exact congrArg (n :: ·) ((charges_append h₇ []).trans (by rw [hcharges₇]; rfl))
          · obtain ⟨_, w₄, h₆, rfl, hreset, rfl, rfl, rfl⟩ := Prog.runs_perform_bind.1 hrest₃
            obtain ⟨_, hresetExec⟩ := hreset.exec_of nofun
            refine .stored ⟨[], tail, _, w, w₁, rfl, hissuer, nofun, ?_⟩ hord hbuild ?_ hch ?_ ?_ ?_
              (exec_reset hresetExec)
            · -- only `ensureIssuer` takes the lock
              intro e he
              rcases List.mem_append.1 he with he | he
              · exact (htail e he).2
              · rcases List.mem_cons.1 he with rfl | he
                · nofun
                · rcases List.mem_append.1 he with he | he
                  · exact (counts_of_storing hstoring).2.2 e he
                  · rw [List.mem_singleton.1 he]
                    nofun
            · rw [hputs']
              exact List.mem_append_left _ hput
            · rw [hreset.chain nofun, hchain]
            · rw [hreset.mem nofun, hmem]
            · rw [hreset.pending nofun nofun, hdropped]

/-- Plain calls before and after, which leave alone what the order left, change nothing. -/
theorem Placed.around {cfg : Settings} {ctx : Time} {n : Name} {key : Key} {h before after : List Event}
    {out : Manager.Returned} {w₀ w₁ : World N T} (hplaced : Placed cfg node t ctx n key w h w' out)
    (hbefore : ∀ e ∈ before, Aloof e.op) (hafter : ∀ e ∈ after, Aloof e.op)
    (hkept : Kept node t n w₀ w)
    (hend : w₁.storage = w'.storage ∧ w₁.node = w'.node ∧ w'.clock ≤ w₁.clock) :
    Placed cfg node t ctx n key w₀ (before ++ h ++ after) w₁ out := by
  obtain ⟨horders, hputs, hcharges⟩ := counts_of_plain fun e he => (hbefore e he).1
  obtain ⟨horders', hputs', hcharges'⟩ := counts_of_plain fun e he => (hafter e he).1
  have hcounts : orders (before ++ h ++ after) = orders h ∧
      chainPuts (before ++ h ++ after) = chainPuts h ∧ charges (before ++ h ++ after) = charges h := by
    simp [horders, hputs, hcharges, horders', hputs', hcharges']
  obtain ⟨hord, hput, hch⟩ := hcounts
  obtain ⟨hstorage, hnode, hclock⟩ := hend
  have hcharged : Charged node t n w w' → Charged node t n w₀ w₁ := fun h =>
    (h.of_kept hkept).trans ⟨hclock, by rw [IssueOutcome.failures, hnode]⟩
  cases hplaced with
  | noIssuer issuer orders puts charges other pending charged =>
      refine .noIssuer (issuer.of_infix _) (hord.trans orders) (hput.trans puts) (hch.trans charges) other
        ?_ (hcharged charged)
      rw [hnode, pending, hkept.pending]
  | orderFailed orders puts charges other pending charged =>
      refine .orderFailed (hord.trans orders) (hput.trans puts) (hch.trans charges) other ?_
        (hcharged charged)
      rw [hnode, pending, hkept.pending]
  | unusable orders build puts charges other pending charged =>
      refine .unusable (hord.trans orders) build (hput.trans puts) (hch.trans charges) other ?_
        (hcharged charged)
      rw [hnode, pending, hkept.pending]
  | held orders build puts charges notPersisted mem pending charged =>
      refine .held (hord.trans orders) build (hput.symm ▸ puts) (hch.trans charges) notPersisted ?_ ?_
        (hcharged charged)
      · rw [hnode, mem]
      · rw [hnode, pending]
  | stored issuer orders build put charges chain mem pending failures =>
      obtain ⟨before', tail, after', w₂, w₃, rfl, hrun, hnotBefore, hnotAfter⟩ := issuer
      refine .stored ⟨before ++ before', tail, after' ++ after, w₂, w₃, by simp, hrun, ?_, ?_⟩
        (hord.trans orders) build (hput.symm ▸ put) (hch.trans charges) ?_ ?_ ?_ ?_
      · intro e he
        rcases List.mem_append.1 he with he | he
        · exact (hbefore e he).2
        · exact hnotBefore e he
      · intro e he
        rw [← List.append_assoc] at he
        rcases List.mem_append.1 he with he | he
        · exact hnotAfter e he
        · exact (hafter e he).2
      · rw [hstorage, chain]
      · rw [hnode, mem]
      · rw [hnode, pending]
      · rw [IssueOutcome.failures, hnode]
        exact failures

/-! ## The ways out -/

/-- The ways out of `issueWithKey`: what storage holds is taken over, nothing is done, or an order
is placed. -/
inductive Exit (cfg : Settings) (node : T → N) (t : T) (ctx : Time) (n : Name) (key : Key)
    (force : Bool) (w : World N T) (h : List Event) (w' : World N T) : Manager.Returned → Prop
  | adopted {cert : Certificate} (unforced : force = false) (aloof : ∀ e ∈ h, Aloof e.op)
      (refresh : (CertCache.refresh cfg ctx n).Occurs (Answers cfg.maxRetries node t) h (.ok cert))
      (chain : w.storage.chain n = some (encodeChainPEM cert))
      (liveKey : w.storage.key (.live n) = some (marshalKeyPEM cert.privateKey)) :
      Exit cfg node t ctx n key force w h w' (some cert, none)
  | refused {err : Err} (aloof : ∀ e ∈ h, Aloof e.op) (other : err.is .orderNotPersisted = false)
      (pending : (w'.node (node t)).pending.lookup n = (w.node (node t)).pending.lookup n) :
      Exit cfg node t ctx n key force w h w' (none, some err)
  | placed {out : Manager.Returned} (placed : Placed cfg node t ctx n key w h w' out) :
      Exit cfg node t ctx n key force w h w' out

theorem Exit.around {cfg : Settings} {ctx : Time} {n : Name} {key : Key} {force : Bool}
    {h before after : List Event} {out : Manager.Returned} {w₀ w₁ : World N T}
    (hexit : Exit cfg node t ctx n key force w h w' out)
    (hbefore : ∀ e ∈ before, Aloof e.op) (hafter : ∀ e ∈ after, Aloof e.op)
    (hstart : w.storage = w₀.storage) (hkept : Kept node t n w₀ w)
    (hend : w₁.storage = w'.storage ∧ w₁.node = w'.node ∧ w'.clock ≤ w₁.clock) :
    Exit cfg node t ctx n key force w₀ (before ++ h ++ after) w₁ out := by
  have haloof : (∀ e ∈ h, Aloof e.op) → ∀ e ∈ before ++ h ++ after, Aloof e.op := by
    intro hh e he
    rcases List.mem_append.1 he with he | he
    · rcases List.mem_append.1 he with he | he
      · exact hbefore e he
      · exact hh e he
    · exact hafter e he
  cases hexit with
  | adopted unforced aloof refresh chain liveKey =>
      exact .adopted unforced (haloof aloof) (refresh.of_infix _) (hstart ▸ chain) (hstart ▸ liveKey)
  | refused aloof other pending =>
      refine .refused (haloof aloof) other ?_
      rw [hend.2.1, pending, hkept.pending]
  | placed placed => exact .placed (placed.around hbefore hafter hkept hend)

theorem issueUnderLease_runs {cfg : Settings} {ctx : Time} {n : Name} {key : Key} {force : Bool}
    {h : List Event} {out : Manager.Returned}
    (hrun : (Manager.issueUnderLease cfg ctx n key force).Runs (Answers cfg.maxRetries node t) w h out
      w') : Exit cfg node t ctx n key force w h w' out := by
  obtain ⟨h₁, r, w₁, h₂, rfl, hrefresh, hrest₁⟩ := Prog.runs_bind.1 hrun
  have haloof := (refresh_aloof cfg ctx n).mem_runs hrefresh
  have hkept := runs_of_plain n (fun e he => (haloof e he).1) hrefresh
  -- what is placed after the look at storage
  have hplaced : ∀ (before : List Event) {h w₂}, (∀ e ∈ before, Aloof e.op) →
      Kept node t n w₁ w₂ →
      (Manager.placeOrder cfg ctx n key).Runs (Answers cfg.maxRetries node t) w₂ h out w' →
      Exit cfg node t ctx n key force w (h₁ ++ (before ++ h)) w' out := by
    intro before h w₂ hbefore hsame hplace
    have hboth : ∀ e ∈ h₁ ++ before, Aloof e.op := List.forall_mem_append.2 ⟨haloof, hbefore⟩
    have hnone : ∀ e ∈ ([] : List Event), Aloof e.op := nofun
    have haround := (placeOrder_runs hplace).around hboth hnone (hkept.trans hsame)
      ⟨rfl, rfl, le_rfl⟩
    rw [List.append_nil, List.append_assoc] at haround
    exact .placed haround
  cases r with
  | error rerr =>
      dsimp only at hrest₁
      split at hrest₁
      · exact hplaced [] nofun (.refl n w₁) hrest₁
      · obtain ⟨rfl, rfl, rfl⟩ := hrest₁
        rw [List.append_nil]
        exact .refused haloof rfl hkept.pending
  | ok stored =>
      cases force with
      | true => exact hplaced [] nofun (.refl n w₁) hrest₁
      | false =>
          obtain ⟨h₃, notAfter, w₂, h₄, rfl, hnotAfter, hrest₂⟩ := Prog.runs_bind.1 hrest₁
          obtain ⟨cert, w₃, h₅, rfl, hget, rfl, rfl, rfl⟩ := Prog.runs_perform_bind.1 hnotAfter
          have hkept₂ := hget.kept trivial n
          cases cert with
          | none =>
              exact hplaced [_] (List.forall_mem_singleton.2 ⟨trivial, nofun⟩)
                hkept₂ hrest₂
          | some cert =>
              obtain ⟨now, w₄, h₆, rfl, hnow, hrest₃⟩ := Prog.runs_perform_bind.1 hrest₂
              have hkept₃ := hnow.kept trivial n
              split at hrest₃
              · obtain ⟨rfl, rfl, rfl⟩ := hrest₃
                obtain ⟨hchain, hkey⟩ := refresh_runs_ok hrefresh
                refine .adopted rfl (List.forall_mem_append.2 ⟨haloof, ?_⟩) ?_ hchain hkey
                · simp [Aloof, Plain]
                · exact hrefresh.occurs.of_infix []
              · refine hplaced [_, _] ?_ (hkept₂.trans hkept₃) hrest₃
                simp [Aloof, Plain]

theorem issueWithKey_exit {cfg : Settings} {ctx : Time} {n : Name} {key : Key} {force : Bool}
    {h : List Event} {out : Manager.Returned}
    (hrun : (Manager.issueWithKey cfg ctx n key force).Runs (Answers cfg.maxRetries node t) w h out w') :
    Exit cfg node t ctx n key force w h w' out := by
  obtain ⟨allowed, w₁, h₁, rfl, hallow, hrest₁⟩ := Prog.runs_perform_bind.1 hrun
  have hkept₁ := hallow.kept trivial n
  obtain ⟨_, hallowExec⟩ := hallow.exec_of nofun
  have hstorage₁ : w₁.storage = w.storage := by
    obtain ⟨m', -, rfl⟩ := exec_onMem hallowExec
    rfl
  cases allowed with
  | error wait =>
      obtain ⟨rfl, rfl, rfl⟩ := hrest₁
      exact .refused (List.forall_mem_singleton.2 ⟨trivial, nofun⟩) rfl hkept₁.pending
  | ok _ =>
      obtain ⟨ok, w₂, h₂, rfl, hlease, hrest₂⟩ := Prog.runs_perform_bind.1 hrest₁
      have hstart : w₂.storage = w.storage := hlease.env.1.trans hstorage₁
      have hkept₂ := hkept₁.trans (hlease.kept trivial n)
      have hbefore : ∀ e ∈ ([⟨.mem (.retriesAllow n), .ok ()⟩,
          ⟨.env (.acquireLease ctx n), ok⟩] : List Event), Aloof e.op := by
        simp [Aloof, Plain]
      cases ok with
      | false =>
          obtain ⟨h₃, r, w₃, h₄, rfl, hrefresh, hrest₃⟩ := Prog.runs_bind.1 hrest₂
          have haloof := (refresh_aloof cfg ctx n).mem_runs hrefresh
          have hkept₃ := runs_of_plain n (fun e he => (haloof e he).1) hrefresh
          have haround : ∀ {h}, Exit cfg node t ctx n key force w₂ h w' out →
              Exit cfg node t ctx n key force w
                (⟨.mem (.retriesAllow n), .ok ()⟩ :: ⟨.env (.acquireLease ctx n), false⟩ :: h) w' out := by
            intro h hexit
            have hnone : ∀ e ∈ ([] : List Event), Aloof e.op := nofun
            have haround := hexit.around hbefore hnone hstart hkept₂ ⟨rfl, rfl, le_rfl⟩
            rwa [List.append_nil] at haround
          -- the peer's order is not this node's: what storage holds, or nothing
          refine haround ?_
          cases r with
          | error err =>
              obtain ⟨rfl, rfl, rfl⟩ := hrest₃
              rw [List.append_nil]
              exact .refused haloof rfl hkept₃.pending
          | ok cert =>
              cases force with
              | false =>
                  obtain ⟨rfl, rfl, rfl⟩ := hrest₃
                  obtain ⟨hchain, hkey⟩ := refresh_runs_ok hrefresh
                  rw [List.append_nil]
                  exact .adopted rfl haloof hrefresh.occurs hchain hkey
              | true =>
                  obtain ⟨rfl, rfl, rfl⟩ := hrest₃
                  rw [List.append_nil]
                  exact .refused haloof rfl hkept₃.pending
      | true =>
          obtain ⟨h₃, r, w₃, h₄, rfl, hunder, hrest₃⟩ := Prog.runs_bind.1 hrest₂
          obtain ⟨_, w₄, h₅, rfl, hrelease, rfl, rfl, rfl⟩ := Prog.runs_perform_bind.1 hrest₃
          have hafter : ∀ e ∈ ([⟨.env (.releaseLease n), ()⟩] : List Event), Aloof e.op := by
            simp [Aloof, Plain]
          have hexit := (issueUnderLease_runs hunder).around hbefore hafter hstart hkept₂
            ⟨hrelease.env.1, hrelease.env.2, hrelease.clock⟩
          simpa using hexit

/-! ## The contract -/

/-- The budget against the calls: at most one failure is charged, the record of the name's hostname
grows by exactly it, and no record grows otherwise. -/
structure Accounted (node : T → N) (t : T) (n : Name) (w : World N T) (h : List Event)
    (w' : World N T) : Prop where
  once : charges h = [] ∨ charges h = [n]
  charged : charges h = [n] ↔ Charged node t n w w'
  uncharged : ∀ host, (∀ m ∈ charges h, RetryBudget.budgetKey m ≠ host) →
    (failures node t host w').Sublist (failures node t host w)

/-- What callers of `issueWithKey` are promised of a run from `w` to `w'` that made the calls `h` and
returned `out`. -/
structure Contract (cfg : Settings) (node : T → N) (t : T) (ctx : Time) (n : Name) (key : Key)
    (force : Bool) (w : World N T) (h : List Event) (w' : World N T) (out : Manager.Returned) :
    Prop where
  /-- No error: storage's certificate without an order, or an order that is stored and served. -/
  success : out.2 = none →
    (force = false ∧ orders h = [] ∧ ∃ cert, out.1 = some cert ∧
      (CertCache.refresh cfg ctx n).Occurs (Answers cfg.maxRetries node t) h (.ok cert) ∧
      w.storage.chain n = some (encodeChainPEM cert) ∧
      w.storage.key (.live n) = some (marshalKeyPEM cert.privateKey)) ∨
    ∃ c cert, orders h = [(n, key, .ok c)] ∧ buildCertificate c key = .ok cert ∧
      out.1 = some cert ∧ w'.storage.chain n = some c ∧ (w'.node (node t)).mem n = some cert ∧
      (w'.node (node t)).pending.lookup n = none ∧
      failures node t (RetryBudget.budgetKey n) w' = []
  /-- The error of a chain that could not be stored. -/
  held_iff : (∃ err, out.2 = some err ∧ err.is .orderNotPersisted = true) ↔
    ∃ c cert, orders h = [(n, key, .ok c)] ∧ buildCertificate c key = .ok cert ∧
      ∀ p ∈ chainPuts h, Failed p
  held : ∀ err c cert, out.2 = some err → err.is .orderNotPersisted = true →
    orders h = [(n, key, .ok c)] → buildCertificate c key = .ok cert →
      out.1 = some cert ∧ (w'.node (node t)).mem n = some cert ∧
      (w'.node (node t)).pending.lookup n = some ⟨c, cert.leaf.notAfter⟩
  /-- Any other error. -/
  other : ∀ err, out.2 = some err → err.is .orderNotPersisted = false →
    (w'.node (node t)).pending.lookup n = (w.node (node t)).pending.lookup n ∧ chainPuts h = []
  forced : force = true → out.2 = none → ∃ c, orders h = [(n, key, .ok c)]
  accounted : Accounted node t n w h w'
  charged_iff : Charged node t n w w' ↔
    (∃ err, (Manager.ensureIssuer cfg ctx).Occurs (Answers cfg.maxRetries node t) h (.error err)) ∨
    (∃ f, orders h = [(n, key, .error f)]) ∨
    ∃ c, orders h = [(n, key, .ok c)] ∧
      ((∃ err, buildCertificate c key = .error err) ∨ ∀ p ∈ chainPuts h, Failed p)

section

variable {cfg : Settings} {ctx : Time} {n : Name} {key : Key} {force : Bool} {h : List Event}
  {out : Manager.Returned}

/-- An order that was stored was not one for which the issuer failed. -/
theorem not_occurs_of_runs {before tail after : List Event} {w₁ w₂ : World N T} {err : Err}
    (hrun : (Manager.ensureIssuer cfg ctx).Runs (Answers cfg.maxRetries node t) w₁
      (⟨.mem .issuerLock, ()⟩ :: tail) (.ok ()) w₂)
    (hbefore : ∀ e ∈ before, e.op ≠ .mem .issuerLock)
    (hafter : ∀ e ∈ tail ++ after, e.op ≠ .mem .issuerLock) :
    ¬ (Manager.ensureIssuer cfg ctx).Occurs (Answers cfg.maxRetries node t)
      (before ++ (⟨.mem .issuerLock, ()⟩ :: tail) ++ after) (.error err) := by
  intro hocc
  have hout := hocc.unique hrun (fun hrun => ?_) (fun he => hbefore _ he rfl)
    fun he => hafter _ he rfl
  · cases hout
  · obtain ⟨tail', rfl, -⟩ := ensureIssuer_runs hrun
    exact ⟨tail', rfl⟩

/-- The exits with an error other than that of a held chain. -/
theorem Contract.of_other {err : Err} (other : err.is .orderNotPersisted = false)
    (pending : (w'.node (node t)).pending.lookup n = (w.node (node t)).pending.lookup n)
    (puts : chainPuts h = [])
    (unbuilt : ∀ c cert, orders h = [(n, key, .ok c)] → buildCertificate c key ≠ .ok cert)
    (accounted : Accounted node t n w h w')
    (charged : charges h = [n] ↔
      (∃ err, (Manager.ensureIssuer cfg ctx).Occurs (Answers cfg.maxRetries node t) h (.error err)) ∨
      (∃ f, orders h = [(n, key, .error f)]) ∨
      ∃ c, orders h = [(n, key, .ok c)] ∧
        ((∃ err, buildCertificate c key = .error err) ∨ ∀ p ∈ chainPuts h, Failed p)) :
    Contract cfg node t ctx n key force w h w' (none, some err) where
  success := nofun
  held_iff := by
    refine iff_of_false ?_ fun ⟨c, cert, horders, hbuild, _⟩ => unbuilt c cert horders hbuild
    rintro ⟨err, ⟨⟩, herr⟩
    cases other.symm.trans herr
  held := fun _ c cert _ _ horders hbuild => absurd hbuild (unbuilt c cert horders)
  other := fun _ _ _ => ⟨pending, puts⟩
  forced := nofun
  accounted := accounted
  charged_iff := accounted.charged.symm.trans charged

theorem Placed.contract (hplaced : Placed cfg node t ctx n key w h w' out)
    (haccounted : Accounted node t n w h w') : Contract cfg node t ctx n key force w h w' out := by
  cases hplaced with
  | noIssuer issuer orders puts charges other pending charged =>
      refine .of_other other pending puts (by simp [orders]) haccounted ?_
      exact iff_of_true charges (.inl ⟨_, issuer⟩)
  | orderFailed orders puts charges other pending charged =>
      refine .of_other other pending puts (by simp [orders]) haccounted ?_
      exact iff_of_true charges (.inr (.inl ⟨_, orders⟩))
  | unusable orders build puts charges other pending charged =>
      refine .of_other other pending puts ?_ haccounted ?_
      · intro c cert horders hbuild
        obtain ⟨rfl⟩ : c = _ := by simpa using horders.symm.trans orders
        cases hbuild.symm.trans build
      · exact iff_of_true charges (.inr (.inr ⟨_, orders, .inl ⟨_, build⟩⟩))
  | held orders build puts charges notPersisted mem pending charged =>
      refine ⟨nofun, ?_, ?_, ?_, nofun, haccounted, ?_⟩
      · exact iff_of_true ⟨_, rfl, notPersisted⟩ ⟨_, _, orders, build, puts⟩
      · rintro err c cert ⟨⟩ - horders hbuild
        -- the chain is the one that was ordered, and so is the certificate
        obtain ⟨rfl⟩ : c = _ := by simpa using horders.symm.trans orders
        obtain ⟨rfl⟩ : cert = _ := by simpa using hbuild.symm.trans build
        exact ⟨rfl, mem, pending⟩
      · simp [notPersisted]
      · exact iff_of_true charged (.inr (.inr ⟨_, orders, .inr puts⟩))
  | stored issuer orders build put charges chain mem pending failures =>
      have hput : ¬ ∀ p ∈ chainPuts h, Failed p := fun hfailed => hfailed _ put rfl
      refine ⟨fun _ => .inr ⟨_, _, orders, build, rfl, chain, mem, pending, failures⟩, ?_, nofun, nofun,
        fun _ _ => ⟨_, orders⟩, haccounted, haccounted.charged.symm.trans ?_⟩
      · exact iff_of_false nofun fun ⟨_, _, _, _, hfailed⟩ => hput hfailed
      · obtain ⟨before, tail, after, w₁, w₂, hevents, hrun, hbefore, hafter⟩ := issuer
        refine iff_of_false (by simp [charges]) ?_
        rintro (⟨err, hocc⟩ | ⟨f, horders⟩ | ⟨c, horders, ⟨err, hbuild⟩ | hfailed⟩)
        · exact not_occurs_of_runs hrun hbefore hafter (hevents ▸ hocc)
        · simp [orders] at horders
        · obtain ⟨rfl⟩ : c = _ := by simpa using horders.symm.trans orders
          cases hbuild.symm.trans build
        · exact hput hfailed

theorem Exit.contract (hexit : Exit cfg node t ctx n key force w h w' out)
    (haccounted : Accounted node t n w h w') : Contract cfg node t ctx n key force w h w' out := by
  -- plain calls order, write and charge nothing, and do not ask for the issuer
  have haloof : (∀ e ∈ h, Aloof e.op) → (orders h = [] ∧ chainPuts h = [] ∧ charges h = []) ∧
      ∀ err, ¬ (Manager.ensureIssuer cfg ctx).Occurs (Answers cfg.maxRetries node t) h (.error err) :=
    fun hh => ⟨counts_of_plain fun e he => (hh e he).1,
      fun err => not_occurs_ensureIssuer fun e he => (hh e he).2⟩
  cases hexit with
  | adopted unforced aloof refresh chain liveKey =>
      obtain ⟨⟨horders, hputs, hcharges⟩, hissuer⟩ := haloof aloof
      refine ⟨fun _ => .inl ⟨unforced, horders, _, rfl, refresh, chain, liveKey⟩, ?_, nofun, nofun, ?_,
        haccounted, haccounted.charged.symm.trans ?_⟩
      · simp [horders]
      · simp [unforced]
      · simp [hcharges, horders, hissuer]
  | refused aloof other pending =>
      obtain ⟨⟨horders, hputs, hcharges⟩, hissuer⟩ := haloof aloof
      refine .of_other other pending hputs (by simp [horders]) haccounted ?_
      simp [hcharges, horders, hissuer]
  | placed placed => exact placed.contract haccounted

theorem Exit.charged (hexit : Exit cfg node t ctx n key force w h w' out) :
    charges h = [] ∨ charges h = [n] ∧ Charged node t n w w' := by
  cases hexit with
  | adopted unforced aloof => exact .inl (counts_of_plain fun e he => (aloof e he).1).2.2
  | refused aloof => exact .inl (counts_of_plain fun e he => (aloof e he).1).2.2
  | placed placed =>
      cases placed with
      | noIssuer issuer orders puts charges other pending charged => exact .inr ⟨charges, charged⟩
      | orderFailed orders puts charges other pending charged => exact .inr ⟨charges, charged⟩
      | unusable orders build puts charges other pending charged => exact .inr ⟨charges, charged⟩
      | held orders build puts charges notPersisted mem pending charged =>
          exact .inr ⟨charges, charged⟩
      | stored issuer orders build put charges => exact .inl charges

theorem Exit.accounted {p : M Manager.Returned} (hexit : Exit cfg node t ctx n key force w h w' out)
    (hrun : p.Runs (Answers maxRetries node t) w h out w') : Accounted node t n w h w' := by
  rcases hexit.charged with hnone | ⟨hone, hcharged⟩
  · refine ⟨.inl hnone, iff_of_false (by simp [hnone]) fun hcharged => ?_, fun host hh =>
      runs_uncharged hh hrun⟩
    exact hcharged.not_sublist (runs_uncharged (by simp [hnone]) hrun)
  · exact ⟨.inr hone, iff_of_true hone hcharged, fun host hh => runs_uncharged hh hrun⟩

end

/-- Every run of `issueWithKey` keeps the contract. -/
theorem issueWithKey_contract (cfg : Settings) (node : T → N) (t : T) (ctx : Time) (n : Name)
    (key : Key) (force : Bool) (w : World N T) (h : List Event) (out : Manager.Returned)
    (w' : World N T)
    (hrun : (Manager.issueWithKey cfg ctx n key force).Runs (Answers cfg.maxRetries node t) w h out w') :
    Contract cfg node t ctx n key force w h w' out :=
  (issueWithKey_exit hrun).contract ((issueWithKey_exit hrun).accounted hrun)

end

/-- A first order, every answer a good one. -/
def firstOrder : Option (List Event × Manager.Returned × World (Fin 1) (Fin 1)) :=
  (Manager.issueWithKey (.plain ["mx.example.com"]) hour "mx.example.com" ⟨7⟩ false).answered
    (fun w o a => exec 5 (fun _ => 0) w 0 o a) (.empty (Fin 1) (Fin 1)) (List.replicate 30 {})

theorem issueWithKey_contract_firstOrder :
    ∃ h cert w', (Manager.issueWithKey (.plain ["mx.example.com"]) hour "mx.example.com" ⟨7⟩ false).Runs
        (Answers 5 (fun _ => 0) 0) (.empty (Fin 1) (Fin 1)) h (some cert, none) w' ∧
      orders h = [("mx.example.com", ⟨7⟩, .ok (encodeChainPEM cert))] ∧
      (w'.node 0).mem "mx.example.com" = some cert := by
  have hsome : firstOrder.isSome = true := by decide +kernel
  have hshape : firstOrder.map (fun x => (x.2.1.2, (orders x.1).length)) = some (none, 1) := by
    decide +kernel
  obtain ⟨⟨h, ⟨cert, err⟩, w'⟩, hfirst⟩ := Option.isSome_iff_exists.1 hsome
  rw [hfirst] at hshape
  obtain ⟨rfl, hlength⟩ : err = none ∧ (orders h).length = 1 := by simpa using hshape
  have hrun : Prog.Runs (Answers 5 (fun _ => 0) 0) _ _ h (cert, none) w' :=
    Prog.runs_of_answered .given hfirst
  have hcontract := issueWithKey_contract (.plain ["mx.example.com"]) (fun _ => 0) 0 hour
    "mx.example.com" ⟨7⟩ false _ _ _ _ hrun
  rcases hcontract.success rfl with ⟨-, horders, -⟩ | ⟨c, cert', horders, hbuild, rfl, -, hmem, -⟩
  · simp [horders] at hlength
  · exact ⟨h, cert', w', hrun, (buildCertificate_ok hbuild).1 ▸ horders, hmem⟩

end IssueOutcome
end CertsManager
