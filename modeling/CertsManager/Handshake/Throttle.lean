import CertsManager.Handshake.Calls
import CertsManager.Interleave.Ledger

/-!
# Handshake.Throttle — how often a follower reads storage for a name it does not have

Anyone can make a follower look for a certificate the leader has not issued yet, with one
ClientHello.  `getCertificate` reads storage under a lock of the name, and not within
`certMissNegativeTTL` of a read that found nothing.

A read under the lock is followed through the stages of that locked section (`Stage`), and what all
handshakes together can do to one name on one node is an abstract machine of four phases (`Slot`).
Its credit grows with the time and pays for the reads (`reads_bounded`).
-/

namespace CertsManager
namespace Handshake

open Interleave

/-! ## The locked section -/

/-- Where a handshake stands in the section: with the lock, with nothing in memory, past the check
for a recent miss, with the chain asked for, and done with it. -/
inductive Stage where
  | out
  | held (d : Name)
  | missed (d : Name)
  | checked (d : Name)
  | reading (d : Name)
  | settled (d : Name)
  deriving DecidableEq, Repr

namespace Stage

def name? : Stage → Option Name
  | .out => none
  | .held d => some d
  | .missed d => some d
  | .checked d => some d
  | .reading d => some d
  | .settled d => some d

variable {τ : Type}

def after (s : Stage) : Event τ → Stage
  | ⟨.refreshLock d, _⟩ => .held d
  | ⟨.refreshUnlock _, _⟩ => .out
  | ⟨.inner (.mem (.memGet n)), none⟩ => if s = .held n then .missed n else s
  | ⟨.recentMiss n, true⟩ => if s = .missed n then .settled n else s
  | ⟨.recentMiss n, false⟩ => if s = .missed n then .checked n else s
  | ⟨.inner (.storage _ (.getChain n)), _⟩ => if s = .checked n then .reading n else s
  | ⟨.inner (.mem (.memSet n _)), _⟩ => if s = .reading n then .settled n else s
  | ⟨.noteMiss n, _⟩ => if s = .reading n then .settled n else s
  | _ => s

/-- A section is entered through its lock. -/
theorem name?_after {s : Stage} {e : Event τ} {d : Name} (h : (s.after e).name? = some d) :
    s.name? = some d ∨ e.op = .refreshLock d := by
  unfold after at h
  split at h
  case h_1 => exact .inr (by cases h; rfl)
  case h_2 => cases h
  case h_9 => exact .inl h
  all_goals
    split at h
    · rename_i hs
      exact .inl (by rw [hs]; exact h)
    · exact .inl h

theorem out_after {e : Event τ} (he : ∀ d, e.op ≠ .refreshLock d) : out.after e = .out := by
  unfold after
  split
  case h_1 => exact absurd rfl (he _)
  case h_2 => rfl
  case h_9 => rfl
  all_goals simp

end Stage

section Protocol

variable {τ ω : Type}

def stage (h : History τ) : Stage :=
  h.foldr (fun e s => s.after e) .out

@[simp] theorem stage_nil : stage ([] : History τ) = .out := rfl

@[simp] theorem stage_cons (e : Event τ) (h : History τ) : stage (e :: h) = (stage h).after e := rfl

/-- What a request may do to the section after `h`: it reads the name's chain once, past the check,
and a miss is forgotten for an installed name. -/
def mayRead (h : History τ) : Op → Prop
  | .refreshLock _ => stage h = .out
  | .recentMiss d => stage h = .missed d
  | .noteMiss d => stage h = .reading d
  | .refreshUnlock d => stage h = .held d ∨ stage h = .settled d
  | .negDelete d => ∃ e ∈ h, ∃ cert, e.op = .inner (.mem (.memSet d cert))
  | .inner (.storage _ (.getChain d)) => (stage h).name? = some d → stage h = .checked d
  | _ => True

def reading : Protocol Op (Res τ) (Call ω) (Out τ) where
  may _ := mayRead
  done _ h _ := stage h = .out

/-! ### Every program keeps to it -/

theorem onNode_out (o : CertsManager.Op) :
    (onNode o : P τ _).Keeps mayRead fun h => stage h = .out := by
  intro h hh
  unfold onNode
  split
  · simp only [call, Prog.conforms_bind, Prog.conforms_perform]
    refine ⟨trivial, fun r => ⟨⟨_, List.mem_cons_self, _, rfl⟩, fun _ => ?_⟩⟩
    simp [hh, Stage.after]
  · simp only [call, Prog.conforms_perform]
    refine ⟨?_, fun r => ?_⟩
    · cases o with
      | storage ctx o =>
          cases o with
          | getChain d =>
              intro hd
              rw [hh] at hd
              cases hd
          | _ => trivial
      | _ => trivial
    · rw [stage_cons, hh]
      exact Stage.out_after fun d hd => by cases hd

theorem inner_out (α : Type) (p : M α) :
    (inner p : P τ α).Keeps mayRead fun h => stage h = .out :=
  Prog.Keeps.via onNode_out p

theorem call_out (o : Op) (ho : ∀ h : History τ, mayRead h o) (hlock : ∀ d, o ≠ .refreshLock d) :
    (call o : P τ _).Keeps mayRead fun h => stage h = .out := by
  intro h hh
  simp only [call, Prog.conforms_perform]
  refine ⟨ho h, fun r => ?_⟩
  rw [stage_cons, hh]
  exact Stage.out_after hlock

/-- The stage of a section that loads a key, whatever it is. -/
theorem quiet_stage {α : Type} {p : M α} (hp : p.Calls CertsManager.Op.Quiet) {h : History τ} :
    (inner p : P τ α).Conforms mayRead h fun h' _ => stage h' = stage h := by
  refine (inner_calls hp).keeps (I := fun h' => stage h' = stage h) ?_ rfl
  intro h₁ o hstage ho
  cases o with
  | inner o =>
      cases o with
      | storage ctx o =>
          cases o with
          | getChain n => exact ho.elim
          | _ => exact ⟨trivial, fun _ => hstage⟩
      | mem o =>
          cases o with
          | memGet n => exact ho.elim
          | memSet n cert => exact ho.elim
          | _ => exact ⟨trivial, fun _ => hstage⟩
      | env o => exact ⟨trivial, fun _ => hstage⟩
  | negDelete n =>
      obtain ⟨cert, hset⟩ := ho
      exact hset.elim
  | _ => exact ho.elim

/-- A read in the section settles it when it finds a certificate, and only then. -/
theorem refresh_reads (cfg : Settings) (ctx : Time) {d : Name} {h : History τ}
    (hd : stage h = .checked d) :
    (inner (CertCache.refresh cfg ctx d) : P τ _).Conforms mayRead h fun h' r =>
      match r with
      | .error _ => stage h' = .reading d
      | .ok _ => stage h' = .settled d := by
  simp only [CertCache.refresh, CertCache.loadChain, inner_bind, inner_getChain, call,
    Prog.conforms_bind, Prog.conforms_perform]
  refine ⟨fun _ => hd, fun r => ?_⟩
  have hread : stage (⟨.inner (.storage ctx (.getChain d)), r⟩ :: h : History τ) = .reading d := by
    simp [Stage.after, hd]
  cases r with
  | error f => exact hread
  | ok c =>
      simp only [inner_pure, Prog.conforms_pure, inner_bind, Prog.conforms_bind]
      refine (quiet_stage (load_quiet cfg ctx (.live d))).mono fun h₁ r hr₁ => ?_
      rw [hread] at hr₁
      cases r with
      | error err => exact hr₁
      | ok key =>
          dsimp only
          cases hb : buildCertificate c key with
          | error err => exact hr₁
          | ok cert =>
              dsimp only
              simp only [CertCache.set, inner_bind, inner_memSet, call, Prog.conforms_bind,
                Prog.conforms_perform]
              refine ⟨trivial, fun _ => ⟨⟨_, List.mem_cons_self, _, rfl⟩, fun _ => ?_⟩⟩
              -- the copy of the certificate leaves the section as it is
              have hconfirmed : (CertCache.confirmed cfg d cert).Calls fun o =>
                  o = .mem (.fromLocalDelete d) ∨ o = .mem (.localSave d cert) :=
                confirmed_calls (.inl rfl) (.inr rfl)
              refine ((inner_calls hconfirmed).keeps (I := fun h' => stage h' = .settled d) ?_
                ?_).mono fun h₂ _ hr₂ => hr₂
              · intro h₂ o hstage ho
                cases o with
                | inner o =>
                    rcases ho with rfl | rfl
                    · exact ⟨trivial, fun _ => hstage⟩
                    · exact ⟨trivial, fun _ => hstage⟩
                | negDelete n =>
                    obtain ⟨cert', hset | hset⟩ := ho
                    · cases hset
                    · cases hset
                | _ => exact ho.elim
              · simp [Stage.after, hr₁]

theorem refreshThrottled_reads (L : Listener ω) (d : Name) :
    (refreshThrottled L d : P τ _).Keeps mayRead fun h => stage h = .out := by
  intro h hout
  simp only [refreshThrottled, CertCache.get, inner_memGet, call, Prog.conforms_bind,
    Prog.conforms_perform]
  refine ⟨hout, fun _ => ⟨trivial, fun r => ?_⟩⟩
  cases r with
  | some cert =>
      -- populated while this handshake waited for the lock
      exact ⟨.inl rfl, fun _ => rfl⟩
  | none =>
      simp only [Prog.conforms_bind, Prog.conforms_perform]
      have hmissed : stage (⟨.inner (.mem (.memGet d)), none⟩ :: ⟨.refreshLock d, ()⟩ :: h :
          History τ) = .missed d := by
        simp [Stage.after]
      refine ⟨hmissed, fun recent => ?_⟩
      cases recent with
      | true =>
          refine ⟨.inr ?_, fun _ => rfl⟩
          rw [stage_cons, hmissed]
          simp [Stage.after]
      | false =>
          simp only [Bool.false_eq_true, if_false, inner_now, call, Prog.conforms_bind,
            Prog.conforms_perform]
          refine ⟨trivial, fun t => ?_⟩
          refine (refresh_reads L.cfg _ (d := d) ?_).mono fun h₁ r hr₁ => ?_
          · rw [stage_cons, stage_cons, hmissed]
            simp [Stage.after]
          · cases r with
            | error err =>
                -- every failure is noted as a miss, an unreadable store as much as an absent chain
                simp only [Prog.conforms_bind, Prog.conforms_perform, Prog.conforms_pure]
                refine ⟨hr₁, fun _ => ⟨.inr ?_, fun _ => rfl⟩⟩
                simp [Stage.after, hr₁]
            | ok cert =>
                exact ⟨.inr hr₁, fun _ => rfl⟩

theorem requestIssue_out (n : Name) (onDemandHost : Bool) :
    (requestIssue n onDemandHost : P τ Unit).Keeps mayRead fun h => stage h = .out := by
  refine (call_out (.issuingLoadOrStore n) (fun _ => trivial) (by simp)).bind fun inFlight => ?_
  cases inFlight with
  | true => exact Prog.Keeps.pure _
  | false => exact call_out (.spawn n onDemandHost) (fun _ => trivial) (by simp)

theorem listeners_reading {N T : Type} [DecidableEq N] (L : Listener ω) (node : T → N) :
    (listeners L node : Machine Op (Res τ) (World N T) T (Call ω) (Out τ) (Answer τ)).Follows
      reading := by
  intro q
  suffices h : (body L q : P τ _).Keeps mayRead fun h => stage h = .out from h [] rfl
  cases q with
  | hello hello =>
      refine Prog.Keeps.bind ?_ fun r => Prog.Keeps.pure _
      refine tlsGetCertificate_keeps inner_out
        (fun n => call_out (.getALPN n) (fun _ => trivial) (by simp)) (fun n => ?_) hello
      refine getCertificate_keeps inner_out (requestIssue_out _ _) (refreshThrottled_reads L n)
        fun err => awaitOr_keeps inner_out ?_ ?_ _ _ _
      · exact fun d => call_out (.pause d) (fun _ => trivial) (by simp)
      · exact call_out .overrun (fun _ => trivial) (by simp)
  | goroutine =>
      refine (call_out .spawned (fun _ => trivial) (by simp)).bind fun job => ?_
      refine (inner_out _ _).bind fun _ => ?_
      exact (call_out (.issuingDelete job.1) (fun _ => trivial) (by simp)).bind fun _ =>
        Prog.Keeps.pure _
  | refreshAllowSet hosts =>
      exact (call_out (.setHosts hosts) (fun _ => trivial) (by simp)).bind fun _ =>
        Prog.Keeps.pure _
  | other q => exact (inner_out _ _).bind fun out => Prog.Keeps.pure _

end Protocol

/-! ## One name on one node

What the handshakes of a node do to one name, with the programs forgotten. -/

/-- The lock of the name: nobody's or that of a handshake that has nothing more to read, that of one
that may still read, that of one that has asked for the chain, and one that nobody will give back. -/
inductive Phase where
  | idle
  | trying
  | reading
  | dead
  deriving DecidableEq, Repr

structure Slot where
  phase : Phase
  installed : Bool
  neg : Option Time
  clock : Time

/-- One step, and whether it asked storage for the chain. -/
inductive Slot.Step : Bool → Slot → Slot → Prop where
  | pass {s : Slot} {clock : Time} : s.clock ≤ clock → Step false s { s with clock := clock }
  | attempt {s : Slot} {clock : Time} : s.clock ≤ clock → s.phase = .idle → s.installed = false →
      Step false s { s with phase := .trying, clock := clock }
  | refrain {s : Slot} {clock : Time} : s.clock ≤ clock → s.phase = .trying →
      Step false s { s with phase := .idle, clock := clock }
  | read {s : Slot} {clock : Time} : s.clock ≤ clock → s.phase = .trying →
      (s.installed = false → ∀ missedAt ∈ s.neg, missedAt + certMissNegativeTTL ≤ clock) →
      Step true s { s with phase := .reading, clock := clock }
  | note {s : Slot} {clock : Time} : s.clock ≤ clock → s.phase = .reading →
      Step false s { s with phase := .idle, neg := some clock, clock := clock }
  | install {s : Slot} {phase : Phase} {clock : Time} : s.clock ≤ clock →
      (phase = s.phase ∨ s.phase = .reading ∧ phase = .idle) →
      Step false s { s with phase := phase, installed := true, clock := clock }
  | clear {s : Slot} {clock : Time} : s.clock ≤ clock → s.installed = true →
      Step false s { s with neg := none, clock := clock }
  | die {s : Slot} {clock : Time} : s.clock ≤ clock →
      Step false s { s with phase := .dead, clock := clock }

namespace Slot

/-- How many whole `certMissNegativeTTL` have passed at `t` since `start`. -/
def windows (start t : Time) : Nat :=
  (t - start) / certMissNegativeTTL

theorem windows_mono {start t t' : Time} (h : t ≤ t') : windows start t ≤ windows start t' :=
  Nat.div_le_div_right (Nat.sub_le_sub_right h start)

theorem windows_add {start t : Time} (h : start ≤ t) :
    windows start (t + certMissNegativeTTL) = windows start t + 1 := by
  rw [windows, windows, Nat.sub_add_comm h]
  exact Nat.add_div_right _ (by decide)

/-- How many reads the time since `start` has paid for, with what is left for later taken off. -/
def credit (start : Time) (s : Slot) : Nat :=
  match s.phase, s.installed with
  | .dead, _ => 2 + windows start s.clock
  | .reading, true => 2 + windows start s.clock
  | .reading, false => 1 + windows start s.clock
  | .idle, true => 2 + windows start s.clock
  | .trying, true => 1 + windows start s.clock
  | _, false => (s.neg.map fun missedAt => 1 + windows start missedAt).getD 0

/-- Misses are noted between `start` and now. -/
structure Dated (start : Time) (s : Slot) : Prop where
  began : start ≤ s.clock
  neg : ∀ missedAt ∈ s.neg, start ≤ missedAt ∧ missedAt ≤ s.clock

variable {start : Time} {s s' : Slot} {asked : Bool}

theorem Dated.step (hs : s.Dated start) (h : Step asked s s') : s'.Dated start := by
  have hlater : ∀ {clock : Time}, s.clock ≤ clock →
      ∀ missedAt ∈ s.neg, start ≤ missedAt ∧ missedAt ≤ clock :=
    fun hle missedAt hm => ⟨(hs.neg missedAt hm).1, (hs.neg missedAt hm).2.trans hle⟩
  cases h with
  | note hle _ =>
      refine ⟨hs.began.trans hle, ?_⟩
      rintro missedAt ⟨⟩
      exact ⟨hs.began.trans hle, le_rfl⟩
  | clear hle _ =>
      refine ⟨hs.began.trans hle, ?_⟩
      rintro missedAt ⟨⟩
  | pass hle | attempt hle | refrain hle | read hle | install hle | die hle =>
      exact ⟨hs.began.trans hle, hlater hle⟩

/-- Before a certificate is there, the credit is that of the last miss. -/
theorem neg_credit_le (hs : s.Dated start) :
    (s.neg.map fun missedAt => 1 + windows start missedAt).getD 0 ≤ 1 + windows start s.clock := by
  cases hneg : s.neg with
  | none => exact Nat.zero_le _
  | some missedAt => exact Nat.add_le_add_left (windows_mono (hs.neg missedAt hneg).2) 1

theorem credit_le (hs : s.Dated start) : s.credit start ≤ 2 + windows start s.clock := by
  obtain ⟨phase, installed, neg, clock⟩ := s
  have hneg : (neg.map fun missedAt => 1 + windows start missedAt).getD 0 ≤
      1 + windows start clock := neg_credit_le hs
  cases phase <;> cases installed <;> simp only [credit] <;> omega

/-- A read that may be made has been paid for. -/
theorem read_paid (hs : s.Dated start) {clock : Time}
    (hage : ∀ missedAt ∈ s.neg, missedAt + certMissNegativeTTL ≤ clock) :
    (s.neg.map fun missedAt => 1 + windows start missedAt).getD 0 + 1 ≤
      1 + windows start clock := by
  cases hneg : s.neg with
  | none => exact Nat.le_add_right 1 _
  | some missedAt =>
      have hpaid : windows start (missedAt + certMissNegativeTTL) ≤ windows start clock :=
        windows_mono (hage missedAt hneg)
      rw [windows_add (hs.neg missedAt hneg).1] at hpaid
      show 1 + windows start missedAt + 1 ≤ 1 + windows start clock
      omega

/-- The credit never falls, and a read costs one. -/
theorem credit_step (hs : s.Dated start) (h : Step asked s s') :
    asked.toNat + s.credit start ≤ s'.credit start := by
  obtain ⟨phase, installed, neg, clock⟩ := s
  have hneg : (neg.map fun missedAt => 1 + windows start missedAt).getD 0 ≤
      1 + windows start clock := neg_credit_le hs
  have hlater : ∀ {clock' : Time}, clock ≤ clock' → windows start clock ≤ windows start clock' :=
    fun hle => windows_mono hle
  cases h with
  | pass hle =>
      have hmono := hlater hle
      cases phase <;> cases installed <;> simp only [credit, Bool.toNat_false] <;> omega
  | attempt hle hphase hfalse =>
      cases hphase
      cases hfalse
      simp [credit]
  | refrain hle hphase =>
      have hmono := hlater hle
      cases hphase
      cases installed <;> simp only [credit, Bool.toNat_false] <;> omega
  | @read _ clock' hle hphase hage =>
      have hmono := hlater hle
      cases hphase
      cases installed with
      | true =>
          simp only [credit, Bool.toNat_true]
          omega
      | false =>
          have hpaid : (neg.map fun missedAt => 1 + windows start missedAt).getD 0 + 1 ≤
              1 + windows start clock' := read_paid hs (hage rfl)
          simp only [credit, Bool.toNat_true]
          omega
  | note hle hphase =>
      have hmono := hlater hle
      cases hphase
      cases installed <;>
        simp only [credit, Bool.toNat_false, Option.map_some, Option.getD_some] <;> omega
  | install hle hphase =>
      have hmono := hlater hle
      rcases hphase with hsame | ⟨hreading, rfl⟩
      · rw [hsame]
        cases phase <;> cases installed <;> simp only [credit, Bool.toNat_false] <;> omega
      · cases hreading
        cases installed <;> simp only [credit, Bool.toNat_false] <;> omega
  | clear hle htrue =>
      have hmono := hlater hle
      cases htrue
      cases phase <;> simp only [credit, Bool.toNat_false] <;> omega
  | die hle =>
      have hmono := hlater hle
      have htop : credit start ⟨phase, installed, neg, clock⟩ ≤ 2 + windows start clock :=
        credit_le hs
      simp only [Bool.toNat_false, Nat.zero_add]
      refine htop.trans ?_
      simp only [credit]
      omega

end Slot

/-! ## The slot of a state -/

/-- The phase of a name whose lock a handshake in stage `s` holds. -/
def Stage.phase (d : Name) (s : Stage) : Phase :=
  if s = .held d ∨ s = .settled d then .idle
  else if s = .missed d ∨ s = .checked d then .trying
  else if s = .reading d then .reading
  else .dead

theorem Stage.phase_dead {d : Name} {s : Stage} (h : s.name? ≠ some d) : s.phase d = .dead := by
  have hne : ∀ s' : Stage, s'.name? = some d → s ≠ s' := by
    rintro s' hs' rfl
    exact h hs'
  simp [phase, hne (.held d) rfl, hne (.settled d) rfl, hne (.missed d) rfl,
    hne (.checked d) rfl, hne (.reading d) rfl]

@[simp] theorem Stage.phase_held (d : Name) : (Stage.held d).phase d = .idle := by simp [phase]

@[simp] theorem Stage.phase_settled (d : Name) : (Stage.settled d).phase d = .idle := by
  simp [phase]

@[simp] theorem Stage.phase_missed (d : Name) : (Stage.missed d).phase d = .trying := by
  simp [phase]

@[simp] theorem Stage.phase_checked (d : Name) : (Stage.checked d).phase d = .trying := by
  simp [phase]

@[simp] theorem Stage.phase_reading (d : Name) : (Stage.reading d).phase d = .reading := by
  simp [phase]

section Slots

variable {τ ω N T : Type} {node : T → N} {i : N} {d : Name}

def phase (i : N) (d : Name) (v : ListenersView τ ω N T) : Phase :=
  match (v.shared.node i).refreshing d with
  | none => .idle
  | some t =>
      match v.task t with
      | some (_, h) => (stage h).phase d
      | none => .dead

def slot (i : N) (d : Name) (v : ListenersView τ ω N T) : Slot where
  phase := phase i d v
  installed := ((v.shared.cluster.node i).mem d).isSome
  neg := (v.shared.node i).neg d
  clock := v.shared.cluster.clock

/-- The chain of `d` is asked for by a handshake of node `i` that has the name's lock: anywhere
between `refreshLock` and `refreshUnlock`. -/
def asks [DecidableEq N] (node : T → N) (i : N) (d : Name) (v : ListenersView τ ω N T) :
    ListenersLabel τ ω T → ListenersView τ ω N T → Bool
  | .did t ⟨.inner (.storage _ (.getChain n)), _⟩, _ =>
      decide (n = d ∧ node t = i) &&
        (v.task t).any fun x => decide ((stage x.2).name? = some d)
  | _, _ => false

/-- Who is in the section holds its lock; a name that was installed is in memory; a check that found
no recent miss still stands. -/
structure Sections (node : T → N) (i : N) (d : Name) (v : ListenersView τ ω N T) : Prop where
  owner : ∀ t q h, v.task t = some (q, h) → node t = i → (stage h).name? = some d →
    (v.shared.node i).refreshing d = some t
  home : ∀ t, (v.shared.node i).refreshing d = some t → node t = i
  installed : ∀ t q h, v.task t = some (q, h) → node t = i →
    (∃ e ∈ h, ∃ cert, e.op = .inner (.mem (.memSet d cert))) →
      ((v.shared.cluster.node i).mem d).isSome = true
  aged : ∀ t q h, v.task t = some (q, h) → node t = i → stage h = .checked d →
    ((v.shared.cluster.node i).mem d).isSome = false →
      ∀ missedAt ∈ (v.shared.node i).neg d,
        missedAt + certMissNegativeTTL ≤ v.shared.cluster.clock

variable [DecidableEq N] [DecidableEq T] {L : Listener ω}

variable {v v' : ListenersView τ ω N T} {l : ListenersLabel τ ω T}

/-- Who gives the lock of a name back is in its section. -/
theorem name?_unlock {h : History τ} (hmay : mayRead h (.refreshUnlock d)) :
    (stage h).name? = some d := by
  rcases (hmay : stage h = .held d ∨ stage h = .settled d) with hs | hs
  · rw [hs]; rfl
  · rw [hs]; rfl

theorem sections_owner (hv : Sections node i d v) (hmove : ListenersMove L node reading v l v') :
    ∀ t q h, v'.task t = some (q, h) → node t = i → (stage h).name? = some d →
      (v'.shared.node i).refreshing d = some t := by
  refine listeners_tasks hmove (J := fun s t _ h => node t = i → (stage h).name? = some d →
    (s.node i).refreshing d = some t) hv.owner ?_ ?_ ?_
  · intro t q _ hname
    cases hname
  · intro t q h o a r s ht hmay he hi hname
    rcases Stage.name?_after hname with hin | hlock
    · -- it was in the section, and has not given the lock back
      have hown := hv.owner t q h ht hi hin
      rcases exec_refreshing he i d with hsame | ⟨-, -, hfree, -⟩ | ⟨rfl, -, -⟩
      · exact hsame.trans hown
      · exact absurd (hfree.symm.trans hown) (by simp)
      · cases hname
    · obtain rfl : o = .refreshLock d := hlock
      rw [← hi]
      exact (exec_refreshLock he).2
  · intro t q h o a r s ht hmay he u q' h' hut hu hi hname
    have hown := hv.owner u q' h' hu hi hname
    rcases exec_refreshing he i d with hsame | ⟨-, -, hfree, -⟩ | ⟨rfl, hnode, -⟩
    · exact hsame.trans hown
    · exact absurd (hfree.symm.trans hown) (by simp)
    · -- only the owner gives the lock back
      have hown' := hv.owner t q h ht hnode.symm (name?_unlock hmay)
      exact absurd (Option.some.inj (hown.symm.trans hown')) hut

theorem sections_home (hv : Sections node i d v) (hmove : ListenersMove L node reading v l v') :
    ∀ t, (v'.shared.node i).refreshing d = some t → node t = i := by
  intro t ht
  cases hmove with
  | start _ => exact hv.home t ht
  | finish _ _ => exact hv.home t ht
  | crash => exact hv.home t ht
  | did _ _ he =>
      rcases exec_refreshing he i d with hsame | ⟨-, hi, -, hnew⟩ | ⟨-, -, hnone⟩
      · exact hv.home t (hsame.symm.trans ht)
      · obtain rfl := Option.some.inj (hnew.symm.trans ht)
        exact hi.symm
      · exact absurd (hnone.symm.trans ht) (by simp)

section Kept

variable {w w' : World N T} {t : T} {o : Op} {r : Res τ o} {a : Answer τ}

omit [DecidableEq T]

theorem refreshing_kept (he : exec L.cfg.maxRetries node w t o a = some (r, w'))
    (ho : o ≠ .refreshLock d ∧ o ≠ .refreshUnlock d) :
    (w'.node i).refreshing d = (w.node i).refreshing d := by
  rcases exec_refreshing he i d with hsame | ⟨heq, -⟩ | ⟨heq, -⟩
  · exact hsame
  · exact absurd heq ho.1
  · exact absurd heq ho.2

theorem neg_kept (he : exec L.cfg.maxRetries node w t o a = some (r, w'))
    (ho : o ≠ .noteMiss d ∧ o ≠ .negDelete d) : (w'.node i).neg d = (w.node i).neg d := by
  rcases exec_neg he i d with hsame | ⟨heq, -⟩ | ⟨heq, -⟩
  · exact hsame
  · exact absurd heq ho.2
  · exact absurd heq ho.1

theorem mem_kept (he : exec L.cfg.maxRetries node w t o a = some (r, w'))
    (ho : ∀ cert, o ≠ .inner (.mem (.memSet d cert))) :
    (w'.cluster.node i).mem d = (w.cluster.node i).mem d := by
  rcases exec_mem he i d with hsame | ⟨cert, heq, -⟩
  · exact hsame
  · exact absurd heq (ho cert)

/-- What is in memory stays there. -/
theorem installed_stays (he : exec L.cfg.maxRetries node w t o a = some (r, w'))
    (h : ((w.cluster.node i).mem d).isSome = true) :
    ((w'.cluster.node i).mem d).isSome = true := by
  rcases exec_mem he i d with hsame | ⟨cert, -, -, hnew⟩
  · rw [hsame]; exact h
  · rw [hnew]; rfl

theorem uninstalled_before (he : exec L.cfg.maxRetries node w t o a = some (r, w'))
    (h : ((w'.cluster.node i).mem d).isSome = false) :
    ((w.cluster.node i).mem d).isSome = false := by
  rw [← Bool.not_eq_true] at h ⊢
  exact fun hsome => h (installed_stays he hsome)

end Kept

theorem sections_installed (hv : Sections node i d v) (hmove : ListenersMove L node reading v l v') :
    ∀ t q h, v'.task t = some (q, h) → node t = i →
      (∃ e ∈ h, ∃ cert, e.op = .inner (.mem (.memSet d cert))) →
        ((v'.shared.cluster.node i).mem d).isSome = true := by
  refine listeners_tasks hmove (J := fun s t _ h => node t = i →
    (∃ e ∈ h, ∃ cert, e.op = .inner (.mem (.memSet d cert))) →
      ((s.cluster.node i).mem d).isSome = true) hv.installed ?_ ?_ ?_
  · rintro t q - ⟨e, he, -⟩
    cases he
  · intro t q h o a r s ht _ he hi hset
    obtain ⟨e, hmem, cert, hop⟩ := hset
    rcases List.mem_cons.1 hmem with rfl | hmem
    · obtain rfl : o = .inner (.mem (.memSet d cert)) := hop
      rw [← hi, exec_memSet he]
      rfl
    · exact installed_stays he (hv.installed t q h ht hi ⟨e, hmem, cert, hop⟩)
  · intro t q h o a r s _ _ he u q' h' _ hu hi hset
    exact installed_stays he (hv.installed u q' h' hu hi hset)

theorem sections_aged (hv : Sections node i d v) (hmove : ListenersMove L node reading v l v') :
    ∀ t q h, v'.task t = some (q, h) → node t = i → stage h = .checked d →
      ((v'.shared.cluster.node i).mem d).isSome = false →
        ∀ missedAt ∈ (v'.shared.node i).neg d,
          missedAt + certMissNegativeTTL ≤ v'.shared.cluster.clock := by
  refine listeners_tasks hmove (J := fun s t _ h => node t = i → stage h = .checked d →
    ((s.cluster.node i).mem d).isSome = false → ∀ missedAt ∈ (s.node i).neg d,
      missedAt + certMissNegativeTTL ≤ s.cluster.clock) hv.aged ?_ ?_ ?_
  · intro t q _ hstage
    cases hstage
  · intro t q h o a r s ht hmay he hi hstage hmem missedAt hmiss
    have hmem₀ := uninstalled_before he hmem
    by_cases hbefore : stage h = .checked d
    · -- no miss is noted before the read
      rcases exec_neg he i d with hsame | ⟨-, -, hnone⟩ | ⟨rfl, -, -⟩
      · rw [hsame] at hmiss
        exact (hv.aged t q h ht hi hbefore hmem₀ missedAt hmiss).trans (exec_clock he)
      · rw [hnone] at hmiss
        cases hmiss
      · have hreading : stage h = .reading d := hmay
        exact absurd (hbefore.symm.trans hreading) (by simp)
    · -- the check itself
      have hcheck : (⟨o, r⟩ : Event τ) = ⟨.recentMiss d, false⟩ := by
        rw [stage_cons] at hstage
        unfold Stage.after at hstage
        split at hstage
        case h_5 =>
          rename_i n heq
          split at hstage
          · cases hstage
            exact heq
          · exact absurd hstage hbefore
        case h_1 => cases hstage
        case h_2 => cases hstage
        case h_9 => exact absurd hstage hbefore
        all_goals
          split at hstage
          · cases hstage
          · exact absurd hstage hbefore
      cases hcheck
      have hage := exec_recentMiss_false he
      rw [hi] at hage
      rw [neg_kept he (by simp)] at hmiss
      exact hage missedAt hmiss
  · intro t q h o a r s ht hmay he u q' h' hut hu hi hstage hmem missedAt hmiss
    have hmem₀ := uninstalled_before he hmem
    have hown := hv.owner u q' h' hu hi (by rw [hstage]; rfl)
    rcases exec_neg he i d with hsame | ⟨-, -, hnone⟩ | ⟨rfl, hnode, -⟩
    · rw [hsame] at hmiss
      exact (hv.aged u q' h' hu hi hstage hmem₀ missedAt hmiss).trans (exec_clock he)
    · rw [hnone] at hmiss
      cases hmiss
    · -- a miss is noted by the owner of the lock
      have hreading : stage h = .reading d := hmay
      have hown' := hv.owner t q h ht hnode.symm (by rw [hreading]; rfl)
      exact absurd (Option.some.inj (hown.symm.trans hown')) hut

theorem sections_move (hv : Sections node i d v) (hmove : ListenersMove L node reading v l v') :
    Sections node i d v' :=
  ⟨sections_owner hv hmove, sections_home hv hmove, sections_installed hv hmove,
    sections_aged hv hmove⟩

/-! ## Every move is a step of the slot -/

section Did

variable {t : T} {q : Call ω} {h : History τ} {o : Op} {r : Res τ o} {a : Answer τ} {s : World N T}

omit [DecidableEq T] in
theorem asks_did (ht : v.task t = some (q, h)) (hasks : asks node i d v (.did t ⟨o, r⟩) v' = true) :
    node t = i ∧ (stage h).name? = some d := by
  cases o with
  | inner o =>
      cases o with
      | storage ctx o =>
          cases o with
          | getChain n =>
              simp only [asks, ht, Option.any_some, Bool.and_eq_true, decide_eq_true_eq] at hasks
              exact ⟨hasks.1.2, hasks.2⟩
          | _ => cases hasks
      | mem o => cases hasks
      | env o => cases hasks
  | _ => cases hasks

/-- A call of a handshake that is not in the section of the name. -/
theorem slot_foreign (hv : Sections node i d v) (ht : v.task t = some (q, h)) (hmay : mayRead h o)
    (he : exec L.cfg.maxRetries node v.shared t o a = some (r, s))
    (hforeign : (v.shared.node i).refreshing d ≠ some t) :
    Slot.Step false (slot i d v) (slot i d (v.put t s (some (q, ⟨o, r⟩ :: h)))) := by
  -- on this node, it is in no stage of the name
  have hout : node t = i → (stage h).name? ≠ some d :=
    fun hi hname => hforeign (hv.owner t q h ht hi hname)
  have hclock := exec_clock he
  have hphase : phase i d (v.put t s (some (q, ⟨o, r⟩ :: h))) = phase i d v := by
    cases hr : (v.shared.node i).refreshing d with
    | none =>
        rcases exec_refreshing he i d with hsame | ⟨rfl, -, -, hnew⟩ | ⟨-, -, hnone⟩
        · simp [phase, hr, hsame.trans hr]
        · simp [phase, hr, hnew, Stage.after]
        · simp [phase, hr, hnone]
    | some u =>
        have hut : u ≠ t := by
          rintro rfl
          exact hforeign hr
        rcases exec_refreshing he i d with hsame | ⟨-, -, hfree, -⟩ | ⟨rfl, hi, -⟩
        · simp only [phase, View.put_shared, hsame, hr, View.put_other v s _ hut]
        · exact absurd (hfree.symm.trans hr) (by simp)
        · exact absurd (name?_unlock hmay) (hout hi.symm)
  rcases exec_mem he i d with hmem | ⟨cert, rfl, hi, hmem⟩
  · rcases exec_neg he i d with hneg | ⟨rfl, hi, hneg⟩ | ⟨rfl, hi, -⟩
    · have hslot : slot i d (v.put t s (some (q, ⟨o, r⟩ :: h))) =
          { slot i d v with clock := s.cluster.clock } := by
        simp [slot, hphase, hmem, hneg]
      rw [hslot]
      exact .pass hclock
    · have hslot : slot i d (v.put t s (some (q, ⟨.negDelete d, r⟩ :: h))) =
          { slot i d v with neg := none, clock := s.cluster.clock } := by
        simp [slot, hphase, hmem, hneg]
      rw [hslot]
      exact .clear hclock (hv.installed t q h ht hi.symm hmay)
    · refine absurd ?_ (hout hi.symm)
      rw [(hmay : stage h = .reading d)]
      rfl
  · -- an issuer installs outside every section
    have hneg := neg_kept (i := i) (d := d) he (by simp)
    have hslot : slot i d (v.put t s (some (q, ⟨.inner (.mem (.memSet d cert)), r⟩ :: h))) =
        { slot i d v with phase := phase i d v, installed := true, clock := s.cluster.clock } := by
      simp [slot, hphase, hmem, hneg]
    rw [hslot]
    exact .install hclock (.inl rfl)

omit [DecidableEq N] in
/-- The slot after a call of the lock's owner that keeps the lock. -/
theorem slot_owner (ho : (v.shared.node i).refreshing d = some t)
    (hlock : (s.node i).refreshing d = (v.shared.node i).refreshing d) :
    slot i d (v.put t s (some (q, ⟨o, r⟩ :: h))) =
      ⟨((stage h).after ⟨o, r⟩).phase d, ((s.cluster.node i).mem d).isSome, (s.node i).neg d,
        s.cluster.clock⟩ := by
  simp [slot, phase, hlock, ho]

/-- A call of the owner of the lock. -/
theorem slot_own (hv : Sections node i d v) (ht : v.task t = some (q, h)) (hmay : mayRead h o)
    (he : exec L.cfg.maxRetries node v.shared t o a = some (r, s))
    (hown : (v.shared.node i).refreshing d = some t) :
    Slot.Step (asks node i d v (.did t ⟨o, r⟩) (v.put t s (some (q, ⟨o, r⟩ :: h)))) (slot i d v)
      (slot i d (v.put t s (some (q, ⟨o, r⟩ :: h)))) := by
  have hi : node t = i := hv.home t hown
  have hclock := exec_clock he
  have hslot : slot i d v = ⟨(stage h).phase d, ((v.shared.cluster.node i).mem d).isSome,
      (v.shared.node i).neg d, v.shared.cluster.clock⟩ := by
    simp [slot, phase, hown, ht]
  have untouched : (o ≠ .refreshLock d ∧ o ≠ .refreshUnlock d ∧ o ≠ .noteMiss d ∧
      o ≠ .negDelete d ∧ ∀ cert, o ≠ .inner (.mem (.memSet d cert))) →
      (s.node i).refreshing d = (v.shared.node i).refreshing d ∧
        (s.node i).neg d = (v.shared.node i).neg d ∧
        (s.cluster.node i).mem d = (v.shared.cluster.node i).mem d := by
    intro ho
    exact ⟨refreshing_kept he ⟨ho.1, ho.2.1⟩, neg_kept he ⟨ho.2.2.1, ho.2.2.2.1⟩,
      mem_kept he ho.2.2.2.2⟩
  -- a call that touches nothing and leaves the phase as it is
  have hpass : (o ≠ .refreshLock d ∧ o ≠ .refreshUnlock d ∧ o ≠ .noteMiss d ∧ o ≠ .negDelete d ∧
      ∀ cert, o ≠ .inner (.mem (.memSet d cert))) →
      ((stage h).after ⟨o, r⟩).phase d = (stage h).phase d →
      Slot.Step false (slot i d v) (slot i d (v.put t s (some (q, ⟨o, r⟩ :: h)))) := by
    intro hplain hphase
    obtain ⟨hlock, hneg, hmem⟩ := untouched hplain
    rw [slot_owner hown hlock, hslot, hphase, hneg, hmem]
    exact .pass hclock
  have hdead : ∀ {s₁ s₂ : Stage} {n : Name}, n ≠ d → s₁.name? = some n → s₂.name? = some n →
      s₁.phase d = s₂.phase d := by
    intro s₁ s₂ n hn h₁ h₂
    rw [Stage.phase_dead (by rw [h₁]; simpa using hn), Stage.phase_dead (by rw [h₂]; simpa using hn)]
  cases o with
  | refreshLock n =>
      -- a lock that is held is not handed out again
      have hn : n ≠ d := by
        rintro rfl
        have hfree := (exec_refreshLock he).1
        rw [hi, hown] at hfree
        cases hfree
      refine hpass (by simp [hn]) ?_
      rw [(hmay : stage h = .out), Stage.phase_dead (s := .out) (by simp [Stage.name?])]
      exact Stage.phase_dead (by simpa [Stage.after, Stage.name?] using hn)
  | refreshUnlock n =>
      by_cases hn : n = d
      · subst hn
        have hfree := exec_refreshUnlock he
        rw [hi] at hfree
        have hidle : (stage h).phase n = .idle := by
          rcases (hmay : stage h = .held n ∨ stage h = .settled n) with hs | hs
          · simp [hs]
          · simp [hs]
        have hneg := neg_kept (i := i) (d := n) he (by simp)
        have hmem := mem_kept (i := i) (d := n) he (by simp)
        have hnext : slot i n (v.put t s (some (q, ⟨.refreshUnlock n, r⟩ :: h))) =
            { slot i n v with clock := s.cluster.clock } := by
          rw [hslot, hidle]
          simp [slot, phase, hfree, hneg, hmem]
        rw [hnext]
        exact .pass hclock
      · refine hpass (by simp [hn]) ?_
        rw [Stage.phase_dead (s := stage h) (by rw [name?_unlock hmay]; simpa using hn)]
        exact Stage.phase_dead (by simp [Stage.after, Stage.name?])
  | recentMiss n =>
      have hs : stage h = .missed n := hmay
      by_cases hn : n = d
      · subst hn
        cases r with
        | false => exact hpass (by simp) (by simp [hs, Stage.after])
        | true =>
            obtain ⟨hlock, hneg, hmem⟩ := untouched (by simp)
            rw [slot_owner hown hlock, hslot, hneg, hmem, hs]
            simp only [Stage.after, if_true, Stage.phase_missed, Stage.phase_settled]
            exact .refrain hclock rfl
      · refine hpass (by simp) (hdead hn (n := n) ?_ (by rw [hs]; rfl))
        cases r <;> simp [hs, Stage.after, Stage.name?]
  | noteMiss n =>
      have hs : stage h = .reading n := hmay
      by_cases hn : n = d
      · subst hn
        have hnote := exec_noteMiss he
        rw [hi] at hnote
        have hlock := refreshing_kept (i := i) (d := n) he (by simp)
        have hmem := mem_kept (i := i) (d := n) he (by simp)
        rw [slot_owner hown hlock, hslot, hnote, hmem, hs]
        simp only [Stage.after, if_true, Stage.phase_reading, Stage.phase_settled]
        exact .note hclock rfl
      · refine hpass (by simp [hn]) (hdead hn (n := n) ?_ (by rw [hs]; rfl))
        simp [hs, Stage.after, Stage.name?]
  | negDelete n =>
      by_cases hn : n = d
      · subst hn
        -- the second half of `set`, so the certificate is in memory
        have hinstalled := hv.installed t q h ht hi hmay
        have hlock := refreshing_kept (i := i) (d := n) he (by simp)
        have hmem := mem_kept (i := i) (d := n) he (by simp)
        rcases exec_neg he i n with hneg | ⟨-, -, hneg⟩ | ⟨ho, -⟩
        · rw [slot_owner hown hlock, hslot, hneg, hmem]
          exact .pass hclock
        · rw [slot_owner hown hlock, hslot, hneg, hmem]
          exact .clear hclock hinstalled
        · cases ho
      · exact hpass (by simp [hn]) rfl
  | inner o =>
      cases o with
      | storage ctx o =>
          cases o with
          | getChain n =>
              by_cases hread : stage h = .checked n ∧ n = d
              · obtain ⟨hs, rfl⟩ := hread
                obtain ⟨hlock, hneg, hmem⟩ := untouched (by simp)
                have hasks : asks node i n v (.did t ⟨.inner (.storage ctx (.getChain n)), r⟩)
                    (v.put t s (some (q, ⟨.inner (.storage ctx (.getChain n)), r⟩ :: h))) =
                      true := by
                  simp [asks, hi, ht, hs, Stage.name?]
                rw [hasks, slot_owner hown hlock, hslot, hneg, hmem, hs]
                simp only [Stage.after, if_true, Stage.phase_checked, Stage.phase_reading]
                refine .read hclock rfl fun hfalse missedAt hm => ?_
                exact (hv.aged t q h ht hi hs hfalse missedAt hm).trans hclock
              · have hasks : asks node i d v (.did t ⟨.inner (.storage ctx (.getChain n)), r⟩)
                    (v.put t s (some (q, ⟨.inner (.storage ctx (.getChain n)), r⟩ :: h))) =
                      false := by
                  simp only [asks, ht, Option.any_some, Bool.and_eq_false_iff, decide_eq_false_iff_not]
                  by_cases hn : n = d
                  · subst hn
                    exact .inr fun hs => hread ⟨hmay hs, rfl⟩
                  · exact .inl fun h => hn h.1
                rw [hasks]
                refine hpass (by simp) ?_
                by_cases hs : stage h = .checked n
                · refine hdead (fun hn => hread ⟨hs, hn⟩) (n := n) ?_ (by rw [hs]; rfl)
                  simp [Stage.after, hs, Stage.name?]
                · simp [Stage.after, hs]
          | _ => exact hpass (by simp) rfl
      | mem o =>
          cases o with
          | memGet n =>
              cases r with
              | some cert => exact hpass (by simp) rfl
              | none =>
                  by_cases hs : stage h = .held n
                  · by_cases hn : n = d
                    · subst hn
                      obtain ⟨hlock, hneg, hmem⟩ := untouched (by simp)
                      have hnone := exec_memGet he
                      rw [hi] at hnone
                      rw [slot_owner hown hlock, hslot, hneg, hmem, hs]
                      simp only [Stage.after, if_true, Stage.phase_held, Stage.phase_missed]
                      exact .attempt hclock rfl (by simp [← hnone])
                    · refine hpass (by simp) (hdead hn (n := n) ?_ (by rw [hs]; rfl))
                      simp [Stage.after, hs, Stage.name?]
                  · exact hpass (by simp) (by simp [Stage.after, hs])
          | memSet n cert =>
              by_cases hn : n = d
              · subst hn
                have hset := exec_memSet he
                rw [hi] at hset
                have hlock := refreshing_kept (i := i) (d := n) he (by simp)
                have hneg := neg_kept (i := i) (d := n) he (by simp)
                rw [slot_owner hown hlock, hslot, hset, hneg]
                refine .install hclock ?_
                by_cases hs : stage h = .reading n
                · exact .inr ⟨by simp [hs], by simp [hs, Stage.after]⟩
                · exact .inl (by simp [hs, Stage.after])
              · refine hpass (by simp [hn]) ?_
                by_cases hs : stage h = .reading n
                · refine hdead hn (n := n) ?_ (by rw [hs]; rfl)
                  simp [Stage.after, hs, Stage.name?]
                · simp [Stage.after, hs]
          | _ => exact hpass (by simp) rfl
      | env o => exact hpass (by simp) rfl
  | _ => exact hpass (by simp) rfl

end Did

omit [DecidableEq N] in
/-- A handshake that starts or ends, and is in no section of the name. -/
theorem slot_put {t : T} {x : Option (Call ω × History τ)}
    (hdead : (v.shared.node i).refreshing d = some t →
      phase i d (v.put t v.shared x) = phase i d v) :
    Slot.Step false (slot i d v) (slot i d (v.put t v.shared x)) := by
  have hphase : phase i d (v.put t v.shared x) = phase i d v := by
    by_cases hown : (v.shared.node i).refreshing d = some t
    · exact hdead hown
    · cases hr : (v.shared.node i).refreshing d with
      | none => simp only [phase, View.put_shared, hr]
      | some u =>
          have hut : u ≠ t := by
            rintro rfl
            exact hown hr
          simp only [phase, View.put_shared, hr, View.put_other v _ _ hut]
  have hslot : slot i d (v.put t v.shared x) =
      { slot i d v with clock := v.shared.cluster.clock } := by
    simp [slot, hphase]
  rw [hslot]
  exact .pass le_rfl

/-- Refinement: whatever the handshakes of the node do, its slot for the name takes a step. -/
theorem slot_step (hv : Sections node i d v) (hmove : ListenersMove L node reading v l v') :
    Slot.Step (asks node i d v l v') (slot i d v) (slot i d v') := by
  cases hmove with
  | @start t q ht =>
      refine slot_put fun hown => ?_
      simp [phase, hown, ht, Stage.phase]
  | @did t q h o a r s ht hmay he =>
      by_cases hown : (v.shared.node i).refreshing d = some t
      · exact slot_own hv ht hmay he hown
      · have hasks : asks node i d v (.did t ⟨o, r⟩) (v.put t s (some (q, ⟨o, r⟩ :: h))) = false := by
          rw [← Bool.not_eq_true]
          intro hasks
          obtain ⟨hi, hstage⟩ := asks_did ht hasks
          exact hown (hv.owner t q h ht hi hstage)
        rw [hasks]
        exact slot_foreign hv ht hmay he hown
  | @finish t q h out ht hdone =>
      refine slot_put fun hown => ?_
      have hout : stage h = .out := hdone
      simp [phase, hown, ht, hout, Stage.phase]
  | @crash t =>
      by_cases hown : (v.shared.node i).refreshing d = some t
      · have hslot : slot i d (v.put t v.shared none) =
            { slot i d v with phase := .dead, clock := v.shared.cluster.clock } := by
          simp [slot, phase, hown]
        rw [hslot]
        exact .die le_rfl
      · exact slot_put fun h => absurd h hown

/-! ## Whole runs -/

/-- However many clients connect, and whatever else the cluster does meanwhile: under the name's lock
the handshakes of a node ask storage for the chain of a name it does not have at most twice, and once
more for every `certMissNegativeTTL` that passes.  A client of an on-demand host that then waits
(`awaitCertificate`, when `handshakeWait` is not 0) looks once a second without the lock; those reads
are not counted. -/
theorem reads_bounded (L : Listener ω) (node : T → N) (i : N) (d : Name) (w : World N T)
    (hfree : (w.node i).refreshing d = none) (hneg : (w.node i).neg d = none)
    {as : List (Action T (Call ω) (Answer τ))} {c' : Config Op (Res τ) (World N T) T (Call ω) (Out τ)}
    (hrun : (listeners L node).run (Config.idle w) as = some c') :
    (listeners L node).count (asks node i d) (Config.idle w) as ≤
      2 + (c'.shared.cluster.clock - w.cluster.clock) / certMissNegativeTTL := by
  -- every move is a step of the slot, from a dated one
  have hsteps := Machine.run_meets (A := fun _ _ _ => True)
    (I := fun v => Sections node i d v ∧ (slot i d v).Dated w.cluster.clock)
    (listeners_reading (τ := τ) L node)
    (fun v l v' hv hmove _ => ⟨sections_move hv.1 hmove, hv.2.step (slot_step hv.1 hmove)⟩)
    as (Config.idle w) (Machine.onTrack_idle w) ⟨⟨by simp [Config.idle, Config.view],
      by simp [Config.idle, Config.view, hfree], by simp [Config.idle, Config.view],
      by simp [Config.idle, Config.view]⟩, ⟨le_rfl, by simp [slot, Config.idle, Config.view, hneg]⟩⟩
    (Machine.meets_of_all fun _ _ _ => trivial)
  have hlast := Machine.meets_le_last (m := (listeners L node :
    Machine Op (Res τ) (World N T) T (Call ω) (Out τ) (Answer τ)))
    (f := fun s => s.cluster.clock) (fun he => exec_clock he) hrun
  have hpaid : (listeners L node).count (asks node i d) (Config.idle w) as = 0 ∨
      (listeners L node).count (asks node i d) (Config.idle w) as +
        (slot i d (Config.idle w : Config Op (Res τ) (World N T) T (Call ω) (Out τ)).view).credit
          w.cluster.clock ≤ 2 + Slot.windows w.cluster.clock c'.shared.cluster.clock :=
    Machine.count_le_of_potential (fun v => (slot i d v).credit w.cluster.clock)
      ((hsteps.and hlast).mono fun v l v' hmove => ?_)
  · rcases hpaid with hnone | hsome
    · rw [hnone]
      exact Nat.zero_le _
    · exact (Nat.le_add_right _ _).trans hsome
  · obtain ⟨⟨hmove, -, hv, hv'⟩, hle⟩ := hmove
    refine ⟨Slot.credit_step hv.2 (slot_step hv.1 hmove), fun _ => ?_⟩
    calc (slot i d v').credit w.cluster.clock
        ≤ 2 + Slot.windows w.cluster.clock v'.shared.cluster.clock := Slot.credit_le hv'.2
      _ ≤ 2 + Slot.windows w.cluster.clock c'.shared.cluster.clock :=
          Nat.add_le_add_left (Slot.windows_mono hle) 2

end Slots

/-! ## Three clients, two reads -/

/-- A client connects and is answered after `steps` calls, the first of them `wait` later. -/
def connecting {n : Nat} (t : Fin n) (wait : Time) (steps : Nat) : Schedule n :=
  [.start t (.hello ⟨"a", [], [], ()⟩), .step t { cluster := { wait := wait, yes := false } }] ++
    List.replicate steps (.step t { cluster := { yes := false } }) ++ [.finish t]

/-- The second client comes too soon after the first, the third does not. -/
def threeClients : Schedule 1 :=
  connecting 0 0 8 ++ connecting 0 0 5 ++ connecting 0 certMissNegativeTTL 8

theorem reads_bounded_threeClients :
    ∃ c', (listeners plainListener fun _ : Fin 1 => ()).run (Config.idle (World.empty Unit (Fin 1)))
        threeClients = some c' ∧
      (listeners plainListener fun _ : Fin 1 => ()).count (asks (fun _ => ()) () "a")
        (Config.idle (World.empty Unit (Fin 1))) threeClients = 2 ∧
      (listeners plainListener fun _ : Fin 1 => ()).count (asks (fun _ => ()) () "a")
        (Config.idle (World.empty Unit (Fin 1))) threeClients ≤
          2 + (c'.shared.cluster.clock - 0) / certMissNegativeTTL := by
  have hcount : (listeners plainListener fun _ : Fin 1 => ()).count (asks (fun _ => ()) () "a")
      (Config.idle (World.empty Unit (Fin 1))) threeClients = 2 := by decide +kernel
  have hsome : ((listeners plainListener fun _ : Fin 1 => ()).run
      (Config.idle (World.empty Unit (Fin 1))) threeClients).isSome = true := by decide +kernel
  obtain ⟨c', hrun⟩ := Option.isSome_iff_exists.1 hsome
  exact ⟨c', hrun, hcount, reads_bounded plainListener (fun _ => ()) () "a" (World.empty Unit (Fin 1))
    rfl rfl hrun⟩

end Handshake
end CertsManager
