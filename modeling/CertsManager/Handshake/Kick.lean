import CertsManager.Handshake.Calls

/-!
# Handshake.Kick — one goroutine for a name, however many clients wait for it

`requestIssue` marks a name in `issuing` and starts a goroutine; the goroutine takes the mark away
when it returns.  The mark is carried by one party at a time: the handshake that has made it, the
goroutine that waits to be scheduled, the one that runs (`Desk`).

No name has two of them, in any run.  And a mark always has one, so that no name stays marked with
nothing under way, unless a goroutine is cut off; a panic is not a way to be cut off, for the mark
is taken away by a `defer`.
-/

namespace CertsManager
namespace Handshake

open Interleave

/-! ## The abstract machine -/

/-- The marks, the goroutines that wait, and what each thread carries. -/
structure Desk (T : Type) where
  issuing : Finset Name
  jobs : List (Name × Bool)
  holder : T → Option Name

namespace Desk

variable {T : Type}

def queued (k : Desk T) : List Name :=
  k.jobs.map Prod.fst

variable [DecidableEq T]

/-- A thread marks a name, starts its goroutine, becomes one, is done with one, or vanishes. -/
inductive Step : Desk T → Desk T → Prop where
  | pass {k : Desk T} : Step k k
  | claim {k : Desk T} {t : T} {n : Name} : k.holder t = none → n ∉ k.issuing →
      Step k { k with issuing := insert n k.issuing, holder := Function.update k.holder t (some n) }
  | queue {k : Desk T} {t : T} {n : Name} {onDemandHost : Bool} : k.holder t = some n →
      Step k { k with
        jobs := k.jobs ++ [(n, onDemandHost)], holder := Function.update k.holder t none }
  | take {k : Desk T} {t : T} {j : Nat} {job : Name × Bool} : k.holder t = none →
      k.jobs[j]? = some job →
      Step k { k with
        jobs := k.jobs.eraseIdx j, holder := Function.update k.holder t (some job.1) }
  | release {k : Desk T} {t : T} {n : Name} : k.holder t = some n →
      Step k { k with issuing := k.issuing.erase n, holder := Function.update k.holder t none }

/-- A thread that vanishes takes nothing with it but what it carried. -/
def drop (k : Desk T) (t : T) : Desk T :=
  { k with holder := Function.update k.holder t none }

omit [DecidableEq T] in
/-- Everything that is under way is marked, and no name is under way twice. -/
structure Exclusive (k : Desk T) : Prop where
  held : ∀ t n, k.holder t = some n → n ∈ k.issuing ∧ n ∉ k.queued
  unique : ∀ t u n, k.holder t = some n → k.holder u = some n → t = u
  nodup : k.queued.Nodup
  marked : ∀ n ∈ k.queued, n ∈ k.issuing

omit [DecidableEq T] in
/-- Every mark stands for something under way. -/
def Accounted (k : Desk T) : Prop :=
  ∀ n ∈ k.issuing, n ∈ k.queued ∨ ∃ t, k.holder t = some n

variable {k k' : Desk T}

/-- Who holds what after one thread's hands have changed. -/
theorem holder_update {t u : T} {x : Option Name} {n : Name}
    (h : Function.update k.holder t x u = some n) :
    (u = t ∧ x = some n) ∨ (u ≠ t ∧ k.holder u = some n) := by
  by_cases hut : u = t
  · subst hut
    exact .inl ⟨rfl, by simpa using h⟩
  · exact .inr ⟨hut, by simpa [hut] using h⟩

/-- What a thread takes into its hands was in nobody's. -/
theorem Exclusive.unique_update (hk : k.Exclusive) {t : T} {x : Option Name}
    (hx : ∀ n, x = some n → ∀ u, k.holder u ≠ some n) :
    ∀ u u' n, Function.update k.holder t x u = some n →
      Function.update k.holder t x u' = some n → u = u' := by
  intro u u' n hu hu'
  rcases holder_update hu with ⟨rfl, hn⟩ | ⟨-, hku⟩
  · rcases holder_update hu' with ⟨rfl, -⟩ | ⟨-, hku'⟩
    · rfl
    · exact absurd hku' (hx n hn u')
  · rcases holder_update hu' with ⟨rfl, hn⟩ | ⟨-, hku'⟩
    · exact absurd hku (hx n hn u)
    · exact hk.unique u u' n hku hku'

omit [DecidableEq T] in
theorem mem_queued_take {j : Nat} {n : Name} :
    n ∈ (k.jobs.eraseIdx j).map Prod.fst ↔ ∃ i, i ≠ j ∧ k.queued[i]? = some n := by
  rw [← List.eraseIdx_map, List.mem_eraseIdx_iff_getElem?, queued]

theorem Exclusive.drop (hk : k.Exclusive) (t : T) : (k.drop t).Exclusive where
  held u n hu := by
    rcases holder_update hu with ⟨-, ⟨⟩⟩ | ⟨-, hu⟩
    exact hk.held u n hu
  unique := hk.unique_update (by simp)
  nodup := hk.nodup
  marked := hk.marked

theorem Exclusive.step (hk : k.Exclusive) (h : Step k k') : k'.Exclusive := by
  cases h with
  | pass => exact hk
  | @claim t n hnone hnew =>
      refine ⟨?_, ?_, hk.nodup, fun m hm => Finset.mem_insert_of_mem (hk.marked m hm)⟩
      · intro u m hu
        rcases holder_update hu with ⟨-, ⟨⟩⟩ | ⟨-, hku⟩
        · exact ⟨Finset.mem_insert_self _ _, fun hq => hnew (hk.marked n hq)⟩
        · exact ⟨Finset.mem_insert_of_mem (hk.held u m hku).1, (hk.held u m hku).2⟩
      · -- nobody holds a name that was not marked
        refine hk.unique_update ?_
        rintro m ⟨⟩ u hku
        exact hnew (hk.held u n hku).1
  | @queue t n onDemandHost hheld =>
      have hqueued : ∀ {m}, m ∈ (k.jobs ++ [(n, onDemandHost)]).map Prod.fst ↔
          m ∈ k.queued ∨ m = n := by
        simp [queued]
      refine ⟨?_, ?_, ?_, ?_⟩
      · intro u m hu
        rcases holder_update hu with ⟨-, ⟨⟩⟩ | ⟨hut, hku⟩
        refine ⟨(hk.held u m hku).1, fun hq => ?_⟩
        rcases hqueued.1 hq with hq | rfl
        · exact (hk.held u m hku).2 hq
        · exact hut (hk.unique u t m hku hheld)
      · exact hk.unique_update (by simp)
      · show ((k.jobs ++ [(n, onDemandHost)]).map Prod.fst).Nodup
        rw [List.map_append]
        exact hk.nodup.append (List.nodup_singleton n)
          (List.disjoint_singleton.2 (hk.held t n hheld).2)
      · intro m hm
        rcases hqueued.1 hm with hm | rfl
        · exact hk.marked m hm
        · exact (hk.held t m hheld).1
  | @take t j job hnone hjob =>
      have hsub : ((k.jobs.eraseIdx j).map Prod.fst).Sublist k.queued :=
        (List.eraseIdx_sublist _ _).map _
      have hin : job.1 ∈ k.queued := List.mem_map_of_mem (List.mem_of_getElem? hjob)
      have hgone : job.1 ∉ (k.jobs.eraseIdx j).map Prod.fst := by
        -- a name is queued once, and that was at `j`
        rw [mem_queued_take]
        rintro ⟨i, hij, hi⟩
        have hat : k.queued[j]? = some job.1 := by
          simp [queued, hjob]
        have hlt : i < k.queued.length := (List.getElem?_eq_some_iff.1 hi).1
        exact hij ((List.getElem?_inj hlt hk.nodup).1 (hi.trans hat.symm))
      refine ⟨?_, ?_, hk.nodup.sublist hsub, fun m hm => hk.marked m (hsub.subset hm)⟩
      · intro u m hu
        rcases holder_update hu with ⟨-, ⟨⟩⟩ | ⟨-, hku⟩
        · exact ⟨hk.marked _ hin, hgone⟩
        · exact ⟨(hk.held u m hku).1, fun hq => (hk.held u m hku).2 (hsub.subset hq)⟩
      · refine hk.unique_update ?_
        rintro m ⟨⟩ u hku
        exact (hk.held u _ hku).2 hin
  | @release t n hheld =>
      refine ⟨?_, ?_, hk.nodup, ?_⟩
      · intro u m hu
        rcases holder_update hu with ⟨-, ⟨⟩⟩ | ⟨hut, hku⟩
        refine ⟨Finset.mem_erase.2 ⟨?_, (hk.held u m hku).1⟩, (hk.held u m hku).2⟩
        rintro rfl
        exact hut (hk.unique u t m hku hheld)
      · exact hk.unique_update (by simp)
      · intro m hm
        refine Finset.mem_erase.2 ⟨?_, hk.marked m hm⟩
        rintro rfl
        exact (hk.held t m hheld).2 hm

theorem Accounted.step (ha : k.Accounted) (h : Step k k') : k'.Accounted := by
  -- a holder whose hands do not change still holds
  have hkeep : ∀ {t u : T} {x : Option Name} {n : Name}, k.holder t ≠ some n →
      k.holder u = some n → Function.update k.holder t x u = some n := by
    intro t u x n ht hu
    have hut : u ≠ t := by
      rintro rfl
      exact ht hu
    simpa [hut] using hu
  cases h with
  | pass => exact ha
  | @claim t n hnone hnew =>
      intro m hm
      rcases Finset.mem_insert.1 hm with rfl | hm
      · exact .inr ⟨t, by simp⟩
      · rcases ha m hm with hq | ⟨u, hu⟩
        · exact .inl hq
        · exact .inr ⟨u, hkeep (by simp [hnone]) hu⟩
  | @queue t n onDemandHost hheld =>
      intro m hm
      rcases ha m hm with hq | ⟨u, hu⟩
      · exact .inl (by simpa [queued] using Or.inl hq)
      · by_cases hmn : m = n
        · exact .inl (by simp [queued, hmn])
        · exact .inr ⟨u, hkeep (by simpa [hheld] using Ne.symm hmn) hu⟩
  | @take t j job hnone hjob =>
      intro m hm
      by_cases hmj : m = job.1
      · exact .inr ⟨t, by simp [hmj]⟩
      · rcases ha m hm with hq | ⟨u, hu⟩
        · -- another name's goroutine stays where it is
          refine .inl ?_
          obtain ⟨i, hi⟩ := List.mem_iff_getElem?.1 hq
          refine mem_queued_take.2 ⟨i, ?_, hi⟩
          rintro rfl
          rw [queued, List.getElem?_map, hjob] at hi
          exact hmj (Option.some.inj hi).symm
        · exact .inr ⟨u, hkeep (by simp [hnone]) hu⟩
  | @release t n hheld =>
      intro m hm
      obtain ⟨hne, hm⟩ := Finset.mem_erase.1 hm
      rcases ha m hm with hq | ⟨u, hu⟩
      · exact .inl hq
      · exact .inr ⟨u, hkeep (by simpa [hheld] using Ne.symm hne) hu⟩

end Desk

/-! ## What a thread carries -/

section Duty

variable {τ ω : Type}

/-- The name an execution is answerable for, after one more call. -/
def dutyAfter (x : Option Name) : Event τ → Option Name
  | ⟨.issuingLoadOrStore n, false⟩ => some n
  | ⟨.spawn _ _, _⟩ => none
  | ⟨.spawned, job⟩ => some job.1
  | ⟨.issuingDelete _, _⟩ => none
  | _ => x

def duty (h : History τ) : Option Name :=
  h.foldr (fun e x => dutyAfter x e) none

@[simp] theorem duty_nil : duty ([] : History τ) = none := rfl

@[simp] theorem duty_cons (e : Event τ) (h : History τ) : duty (e :: h) = dutyAfter (duty h) e := rfl

def mayKick (h : History τ) : Op → Prop
  | .issuingLoadOrStore _ => duty h = none
  | .spawn n _ => duty h = some n
  | .spawned => duty h = none
  | .issuingDelete n => duty h = some n
  | _ => True

/-- A request ends with nothing in its hands. -/
def kicking : Protocol Op (Res τ) (Call ω) (Out τ) where
  may _ := mayKick
  done _ h _ := duty h = none

/-- Calls that hand nothing on. -/
def Op.Idle : Op → Prop
  | .issuingLoadOrStore _ => False
  | .spawn _ _ => False
  | .spawned => False
  | .issuingDelete _ => False
  | _ => True

theorem idle_may {o : Op} (ho : o.Idle) (h : History τ) :
    mayKick h o ∧ ∀ r, duty (⟨o, r⟩ :: h) = duty h := by
  cases o with
  | issuingLoadOrStore n => exact ho.elim
  | spawn n onDemandHost => exact ho.elim
  | spawned => exact ho.elim
  | issuingDelete n => exact ho.elim
  | _ => exact ⟨trivial, fun _ => rfl⟩

theorem inner_idle {α : Type} (p : M α) : (inner p : P τ α).Calls Op.Idle := by
  refine (inner_calls (all_calls p)).mono fun o ho => ?_
  cases o with
  | inner o => trivial
  | negDelete n => trivial
  | _ => exact ho.elim

/-- A program of idle calls keeps what it carries. -/
theorem idle_keeps {α : Type} {p : P τ α} (hp : p.Calls Op.Idle) (x : Option Name) :
    p.Keeps mayKick fun h => duty h = x :=
  fun _ hh => hp.keeps (fun h _ hI ho => ⟨(idle_may ho h).1, fun r => ((idle_may ho h).2 r).trans hI⟩)
    hh

theorem requestIssue_kicks (n : Name) (onDemandHost : Bool) :
    (requestIssue n onDemandHost : P τ Unit).Keeps mayKick fun h => duty h = none := by
  intro h hh
  simp only [requestIssue, call, Prog.conforms_bind, Prog.conforms_perform]
  refine ⟨hh, fun inFlight => ?_⟩
  cases inFlight with
  | true => exact hh
  | false => exact ⟨rfl, fun _ => rfl⟩

theorem listeners_kicking {N T : Type} [DecidableEq N] (L : Listener ω) (node : T → N) :
    (listeners L node : Machine Op (Res τ) (World N T) T (Call ω) (Out τ) (Answer τ)).Follows
      kicking := by
  intro q
  have hinner : ∀ (α : Type) (p : M α), (inner p : P τ α).Keeps mayKick fun h => duty h = none :=
    fun _ p => idle_keeps (inner_idle p) none
  have hidle : ∀ o : Op, o.Idle → (call o : P τ _).Keeps mayKick fun h => duty h = none :=
    fun _ ho => idle_keeps (Prog.Calls.perform ho) none
  cases q with
  | hello hello =>
      suffices hkeeps : (body L (.hello hello) : P τ _).Keeps mayKick fun h => duty h = none from
        hkeeps [] rfl
      refine Prog.Keeps.bind ?_ fun r => Prog.Keeps.pure _
      refine tlsGetCertificate_keeps hinner (fun n => hidle (.getALPN n) trivial) (fun n => ?_) hello
      refine getCertificate_keeps hinner (requestIssue_kicks _ _) ?_
        fun err => awaitOr_keeps hinner (fun d => hidle (.pause d) trivial)
          (hidle .overrun trivial) _ _ _
      exact refreshThrottled_keeps hinner (hidle (.refreshLock n) trivial)
        (hidle (.recentMiss n) trivial) (hidle (.noteMiss n) trivial)
        (hidle (.refreshUnlock n) trivial)
  | goroutine =>
      simp only [listeners, body, call, Prog.conforms_bind, Prog.conforms_perform]
      refine ⟨rfl, fun job => ?_⟩
      refine (idle_keeps (inner_idle _) (some job.1) _ rfl).mono fun h₁ _ hduty => ?_
      exact ⟨hduty, fun _ => rfl⟩
  | refreshAllowSet hosts =>
      exact ⟨trivial, fun _ => rfl⟩
  | other q =>
      suffices hkeeps : (body L (.other q) : P τ _).Keeps mayKick fun h => duty h = none from
        hkeeps [] rfl
      exact (hinner _ _).bind fun out => Prog.Keeps.pure _

end Duty

/-! ## The desk of a node -/

section Runs

variable {τ ω N T : Type} [DecidableEq N] [DecidableEq T] {L : Listener ω} {node : T → N} {i : N}

omit [DecidableEq T] in
def desk (node : T → N) (i : N) (v : ListenersView τ ω N T) : Desk T where
  issuing := (v.shared.node i).issuing
  jobs := (v.shared.node i).jobs
  holder t := if node t = i then (v.task t).bind fun x => duty x.2 else none

variable {v v' : ListenersView τ ω N T} {l : ListenersLabel τ ω T}

/-- The desk after a move of `t`: only its own hands can have changed. -/
theorem desk_put (t : T) (s : World N T) (x : Option (Call ω × History τ)) :
    desk node i (v.put t s x) = ⟨(s.node i).issuing, (s.node i).jobs,
      Function.update (desk node i v).holder t
        (if node t = i then x.bind fun y => duty y.2 else none)⟩ := by
  simp only [desk, View.put_shared, Desk.mk.injEq, true_and]
  funext u
  by_cases hut : u = t
  · subst hut
    simp
  · simp [hut, View.put_other v s x hut]

/-- A move that changes nothing of what the node keeps, and nothing in the mover's hands. -/
theorem desk_same {t : T} {s : World N T} {x : Option (Call ω × History τ)}
    (hissuing : (s.node i).issuing = (v.shared.node i).issuing)
    (hjobs : (s.node i).jobs = (v.shared.node i).jobs)
    (hx : (if node t = i then x.bind fun y => duty y.2 else none) = (desk node i v).holder t) :
    desk node i (v.put t s x) = desk node i v := by
  rw [desk_put, hissuing, hjobs, hx, Function.update_eq_self]
  rfl

omit [DecidableEq T] in
/-- Calls that hand nothing on leave marks and jobs alone. -/
theorem exec_idle {w w' : World N T} {t : T} {o : Op} {r : Res τ o} {a : Answer τ}
    (he : exec L.cfg.maxRetries node w t o a = some (r, w')) (ho : o.Idle) :
    (w'.node i).issuing = (w.node i).issuing ∧ (w'.node i).jobs = (w.node i).jobs := by
  rcases exec_state he i with hsame | ⟨-, -, hm⟩
  · rw [hsame]
    exact ⟨rfl, rfl⟩
  · generalize w'.node i = m' at hm
    cases o with
    | issuingLoadOrStore n => exact ho.elim
    | spawn n onDemandHost => exact ho.elim
    | spawned => exact ho.elim
    | issuingDelete n => exact ho.elim
    | recentMiss n | refreshLock n =>
        simp only [execNode] at hm
        split at hm <;> cases hm <;> exact ⟨rfl, rfl⟩
    | _ => cases hm <;> exact ⟨rfl, rfl⟩

omit [DecidableEq T] in
/-- What a thread of another node does stays there. -/
theorem exec_elsewhere {w w' : World N T} {t : T} {o : Op} {r : Res τ o} {a : Answer τ}
    (he : exec L.cfg.maxRetries node w t o a = some (r, w')) (hi : node t ≠ i) :
    w'.node i = w.node i := by
  rcases exec_state he i with hsame | ⟨-, hnode, -⟩
  · exact hsame
  · exact absurd hnode.symm hi

/-- Refinement: every call is a step of the desk. -/
theorem desk_did {t : T} {q : Call ω} {h : History τ} {o : Op} {r : Res τ o} {a : Answer τ}
    {s : World N T} (ht : v.task t = some (q, h)) (hmay : mayKick h o)
    (he : exec L.cfg.maxRetries node v.shared t o a = some (r, s)) :
    Desk.Step (desk node i v) (desk node i (v.put t s (some (q, ⟨o, r⟩ :: h)))) := by
  by_cases hi : node t = i
  · have hholder : (desk node i v).holder t = duty h := by simp [desk, hi, ht]
    by_cases hidle : o.Idle
    · obtain ⟨hissuing, hjobs⟩ := exec_idle (i := i) he hidle
      rw [desk_same hissuing hjobs]
      · exact .pass
      · rw [hholder, if_pos hi]
        exact (idle_may hidle h).2 r
    · have hown : o.Own := by
        cases o with
        | inner o => exact absurd trivial hidle
        | setHosts hosts => exact absurd trivial hidle
        | _ => trivial
      obtain ⟨m', hm, rfl⟩ := exec_own he hown
      rw [desk_put, if_pos hi]
      subst hi
      simp only [World.setNode, Function.update_self, World.pass] at hm ⊢
      cases o with
      | issuingLoadOrStore n =>
          simp only [execNode] at hm
          split at hm
          · cases hm
            have hsame : Function.update (desk node (node t) v).holder t (duty h) =
                (desk node (node t) v).holder := by
              rw [← hholder, Function.update_eq_self]
            show Desk.Step (desk node (node t) v) ⟨_, _, Function.update _ t (duty h)⟩
            rw [hsame]
            exact .pass
          · rename_i hnew
            cases hm
            exact .claim (hholder.trans hmay) hnew
      | spawn n onDemandHost =>
          cases hm
          exact .queue (hholder.trans hmay)
      | spawned =>
          simp only [execNode] at hm
          split at hm
          · rename_i job hjob
            cases hm
            exact .take (hholder.trans hmay) hjob
          · cases hm
      | issuingDelete n =>
          cases hm
          exact .release (hholder.trans hmay)
      | _ => exact absurd trivial hidle
  · have hsame := exec_elsewhere he hi
    rw [desk_same (by rw [hsame]) (by rw [hsame])]
    · exact .pass
    · simp [desk, hi]

/-- And a move that is no call changes nothing, unless it is the end of a thread. -/
theorem desk_move (hmove : ListenersMove L node kicking v l v') :
    Desk.Step (desk node i v) (desk node i v') ∨
      ∃ t, l = .crash t ∧ desk node i v' = (desk node i v).drop t := by
  cases hmove with
  | @start t q ht =>
      refine .inl ?_
      rw [desk_same rfl rfl]
      · exact .pass
      · simp [desk, ht]
  | did ht hmay he => exact .inl (desk_did ht hmay he)
  | @finish t q h out ht hdone =>
      refine .inl ?_
      rw [desk_same rfl rfl]
      · exact .pass
      · have hnone : duty h = none := hdone
        simp [desk, ht, hnone]
  | @crash t =>
      refine .inr ⟨t, rfl, ?_⟩
      rw [desk_put]
      simp only [Option.bind_none, ite_self]
      rfl

/-- No thread vanishes. -/
def Unbroken (_ : ListenersView τ ω N T) (l : ListenersLabel τ ω T) (_ : ListenersView τ ω N T) :
    Prop :=
  match l with
  | .crash _ => False
  | _ => True

instance (v : ListenersView τ ω N T) (l : ListenersLabel τ ω T) (v' : ListenersView τ ω N T) :
    Decidable (Unbroken v l v') := by
  cases l
  · exact isTrue trivial
  · exact isTrue trivial
  · exact isTrue trivial
  · exact isFalse id

/-- However many clients ask for a name a node cannot serve yet: it is marked, queued or worked on
by one party at a time, which is what bounds the orders a handshake can cause.  And unless a thread
vanishes, a marked name has a party that carries the mark on: the handshake that has just made it and
is about to start the goroutine, or the goroutine, waiting or running, that will take it away. -/
theorem kicked_once (L : Listener ω) (node : T → N) (i : N) (w : World N T)
    (hw : w.node i = .empty) {as : List (Action T (Call ω) (Answer τ))}
    {c' : Config Op (Res τ) (World N T) T (Call ω) (Out τ)}
    (hrun : (listeners L node).run (Config.idle w) as = some c') :
    (desk node i c'.view).Exclusive ∧
      ((listeners L node).Meets Unbroken (Config.idle w) as → (desk node i c'.view).Accounted) := by
  have hidle : desk node i (Config.idle w : Config Op (Res τ) (World N T) T (Call ω) (Out τ)).view =
      ⟨∅, [], fun _ => none⟩ := by
    simp [desk, Config.idle, Config.view, hw, NodeState.empty]
  have hexclusive : (desk node i
      (Config.idle w : Config Op (Res τ) (World N T) T (Call ω) (Out τ)).view).Exclusive := by
    rw [hidle]
    exact ⟨by simp, by simp, by simp [Desk.queued], by simp [Desk.queued]⟩
  constructor
  · refine (Machine.run_invariant (A := fun _ _ _ => True)
      (I := fun v => (desk node i v).Exclusive) (listeners_kicking (τ := τ) L node) ?_ as _ c'
      (Machine.onTrack_idle w) hexclusive (Machine.meets_of_all fun _ _ _ => trivial) hrun).1
    intro v l v' hv hmove _
    rcases desk_move (i := i) hmove with hstep | ⟨t, -, heq⟩
    · exact hv.step hstep
    · rw [heq]
      exact hv.drop t
  · intro hunbroken
    refine (Machine.run_invariant (A := Unbroken) (I := fun v => (desk node i v).Accounted)
      (listeners_kicking (τ := τ) L node) ?_ as _ c' (Machine.onTrack_idle w) ?_ hunbroken hrun).1
    · intro v l v' hv hmove hA
      rcases desk_move (i := i) hmove with hstep | ⟨t, rfl, -⟩
      · exact hv.step hstep
      · exact hA.elim
    · rw [hidle]
      intro n hn
      simp at hn

end Runs

/-- Two clients ask the leader for "a", and the goroutine of the first begins. -/
def twoClients : Schedule 2 :=
  [.start 0 (.hello ⟨"a", [], [], ()⟩), .start 1 (.hello ⟨"a", [], [], ()⟩)] ++
    (List.replicate 4 (.step 0 {}) : Schedule 2) ++ (List.replicate 3 (.step 1 {}) : Schedule 2) ++
    [.finish 0, .finish 1, .start 0 .goroutine, .step 0 {}]

theorem kicked_once_twoClients :
    ∃ c' : Config Op (Res Unit) (World Unit (Fin 2)) (Fin 2) (Call Unit) (Out Unit),
      (desk (fun _ => ()) () c'.view).holder 0 = some "a" ∧
        (desk (fun _ => ()) () c'.view).Exclusive ∧ (desk (fun _ => ()) () c'.view).Accounted := by
  have hheld : ∃ c' ∈ (listeners plainListener fun _ : Fin 2 => ()).run
      (Config.idle (World.empty Unit (Fin 2))) twoClients,
      (desk (fun _ => ()) () c'.view).holder 0 = some "a" := by decide +kernel
  have hunbroken : (listeners plainListener fun _ : Fin 2 => ()).Meets Unbroken
      (Config.idle (World.empty Unit (Fin 2))) twoClients := by decide +kernel
  obtain ⟨c', hrun, hheld⟩ := hheld
  have hdesk := kicked_once plainListener (fun _ => ()) () (World.empty Unit (Fin 2)) rfl hrun
  exact ⟨c', hheld, hdesk.1, hdesk.2 hunbroken⟩

end Handshake
end CertsManager
