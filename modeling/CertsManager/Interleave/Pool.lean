import CertsManager.Interleave.Prog

/-!
# Pool — threads interleaved call by call, and the protocol they follow

A `Machine` runs any number of threads over one shared state.  A thread is idle or executes the
body of one request; a schedule (`List Action`) says which thread moves next and what its
environment answers, so every interleaving is a schedule and every schedule can be evaluated.

A `Protocol` is the abstract side: it says which calls a request may make after a given history
and how it may end, and nothing about program text.  The link between the two is

* `Machine.Follows` — every body conforms to the protocol (argued per program, with no state);
* `Machine.run_invariant` — an invariant of shared state and histories that every move *the
  protocol allows* preserves holds after every run of the machine.

`Machine.Meets` restricts runs to those whose moves satisfy a side condition, for results that
hold under an assumption on the schedule.
-/

namespace CertsManager
namespace Interleave

variable {Op : Type} {Res : Op → Type} {σ T Req Out Ans : Type}

/-! ## Machines and their runs -/

/-- What threads do to the shared state, and the program each request runs.
`exec s t o a` is the effect of thread `t` performing `o` in `s` when the environment answers `a`;
`none` when that answer is impossible there. -/
structure Machine (Op : Type) (Res : Op → Type) (σ T Req Out Ans : Type) where
  exec : σ → T → (o : Op) → Ans → Option (Res o × σ)
  body : Req → Prog Op Res Out

/-- A request in progress: what it was asked, what it has seen, what is left of its body. -/
structure Task (Op : Type) (Res : Op → Type) (Req Out : Type) where
  req : Req
  hist : Hist Op Res
  prog : Prog Op Res Out

structure Config (Op : Type) (Res : Op → Type) (σ T Req Out : Type) where
  shared : σ
  task : T → Option (Task Op Res Req Out)

/-! Runs that are written out number their threads in `Fin 1` or `Fin 2`.  The library's instances
are named here for those two sizes, so that every such numeral carries the same proof. -/

instance neZero_one : NeZero 1 := inferInstance

instance neZero_two : NeZero 2 := inferInstance

inductive Action (T Req Ans : Type) where
  | start (t : T) (q : Req)
  | step (t : T) (a : Ans)
  | finish (t : T)
  | crash (t : T)

/-- What a move was, as an observer sees it. -/
inductive Label (Op : Type) (Res : Op → Type) (T Req Out : Type) where
  | start (t : T) (q : Req)
  | did (t : T) (e : Ev Op Res)
  | finish (t : T) (q : Req) (out : Out)
  | crash (t : T)

/-- A configuration with the program text forgotten. -/
structure View (Op : Type) (Res : Op → Type) (σ T Req : Type) where
  shared : σ
  task : T → Option (Req × Hist Op Res)

def Config.view (c : Config Op Res σ T Req Out) : View Op Res σ T Req where
  shared := c.shared
  task t := (c.task t).map fun k => (k.req, k.hist)

@[simp] theorem Config.view_shared (c : Config Op Res σ T Req Out) :
    c.view.shared = c.shared :=
  rfl

/-- No thread is executing anything. -/
def Config.idle (s : σ) : Config Op Res σ T Req Out where
  shared := s
  task _ := none

namespace Machine

variable [DecidableEq T] (m : Machine Op Res σ T Req Out Ans)

def step (c : Config Op Res σ T Req Out) :
    Action T Req Ans → Option (Label Op Res T Req Out × Config Op Res σ T Req Out)
  | .start t q =>
      match c.task t with
      | none => some (.start t q, { c with task := Function.update c.task t (some ⟨q, [], m.body q⟩) })
      | some _ => none
  | .step t a =>
      match c.task t with
      | some ⟨q, h, .call o k⟩ =>
          match m.exec c.shared t o a with
          | some (r, s) =>
              some (.did t ⟨o, r⟩,
                ⟨s, Function.update c.task t (some ⟨q, ⟨o, r⟩ :: h, k r⟩)⟩)
          | none => none
      | _ => none
  | .finish t =>
      match c.task t with
      | some ⟨q, _, .ret out⟩ => some (.finish t q out, { c with task := Function.update c.task t none })
      | _ => none
  | .crash t => some (.crash t, { c with task := Function.update c.task t none })

/-- Follow a schedule to its end; `none` when some action was not possible. -/
def run (c : Config Op Res σ T Req Out) :
    List (Action T Req Ans) → Option (Config Op Res σ T Req Out)
  | [] => some c
  | a :: as =>
      match m.step c a with
      | some (_, c') => run c' as
      | none => none

/-- Every move of the run satisfies `A`. -/
def Meets (A : View Op Res σ T Req → Label Op Res T Req Out → View Op Res σ T Req → Prop)
    (c : Config Op Res σ T Req Out) : List (Action T Req Ans) → Prop
  | [] => True
  | a :: as =>
      match m.step c a with
      | some (l, c') => A c.view l c'.view ∧ Meets A c' as
      | none => True

instance decidableMeets
    (A : View Op Res σ T Req → Label Op Res T Req Out → View Op Res σ T Req → Prop)
    [∀ v l v', Decidable (A v l v')] :
    ∀ (c : Config Op Res σ T Req Out) (as : List (Action T Req Ans)), Decidable (m.Meets A c as)
  | _, [] => isTrue trivial
  | c, a :: as =>
      match h : m.step c a with
      | none => isTrue (by simp [Meets, h])
      | some (l, c') =>
          have := decidableMeets A c' as
          decidable_of_iff (A c.view l c'.view ∧ m.Meets A c' as) (by simp [Meets, h])

/-- Every move of the run satisfies `A`, which may refer to what earlier moves left a note of. -/
def MeetsNoting {α : Type} (note : Label Op Res T Req Out → List α)
    (A : List α → View Op Res σ T Req → Label Op Res T Req Out → View Op Res σ T Req → Prop) :
    List α → Config Op Res σ T Req Out → List (Action T Req Ans) → Prop
  | _, _, [] => True
  | noted, c, a :: as =>
      match m.step c a with
      | some (l, c') =>
          A noted c.view l c'.view ∧ MeetsNoting note A (note l ++ noted) c' as
      | none => True

instance decidableMeetsNoting {α : Type} (note : Label Op Res T Req Out → List α)
    (A : List α → View Op Res σ T Req → Label Op Res T Req Out → View Op Res σ T Req → Prop)
    [∀ noted v l v', Decidable (A noted v l v')] :
    ∀ (noted : List α) (c : Config Op Res σ T Req Out) (as : List (Action T Req Ans)),
      Decidable (m.MeetsNoting note A noted c as)
  | _, _, [] => isTrue trivial
  | noted, c, a :: as =>
      match h : m.step c a with
      | none => isTrue (by simp [MeetsNoting, h])
      | some (l, c') =>
          have := decidableMeetsNoting note A (note l ++ noted) c' as
          decidable_of_iff (A noted c.view l c'.view ∧ m.MeetsNoting note A (note l ++ noted) c' as)
            (by simp [MeetsNoting, h])

/-- The run passes through a state where `P` holds. -/
def Passes (P : σ → Prop) (c : Config Op Res σ T Req Out) (as : List (Action T Req Ans)) : Prop :=
  ∃ as₀ ∈ as.inits, ∃ c₀ ∈ m.run c as₀, P c₀.shared

instance (P : σ → Prop) [DecidablePred P] (c : Config Op Res σ T Req Out)
    (as : List (Action T Req Ans)) : Decidable (m.Passes P c as) :=
  inferInstanceAs (Decidable (∃ as₀ ∈ as.inits, ∃ c₀ ∈ m.run c as₀, P c₀.shared))

theorem run_append (c : Config Op Res σ T Req Out) (as bs : List (Action T Req Ans)) :
    m.run c (as ++ bs) = (m.run c as).bind fun c' => m.run c' bs := by
  induction as generalizing c with
  | nil => rfl
  | cons a as ih =>
      simp only [List.cons_append, run]
      cases m.step c a with
      | none => rfl
      | some p => exact ih p.2

theorem passes_of_run {P : σ → Prop} {c c₁ : Config Op Res σ T Req Out}
    {as bs : List (Action T Req Ans)} (hrun : m.run c as = some c₁) (hP : P c₁.shared) :
    m.Passes P c (as ++ bs) :=
  ⟨as, (List.mem_inits _ _).2 (List.prefix_append as bs), c₁, hrun, hP⟩

/-- Every state that is reached is one the run passes through. -/
theorem meets_passes {c : Config Op Res σ T Req Out} (bs : List (Action T Req Ans)) :
    ∀ (as : List (Action T Req Ans)) (c₁ : Config Op Res σ T Req Out), m.run c as = some c₁ →
      m.Meets (fun _ _ v' => ∀ P : σ → Prop, P v'.shared → m.Passes P c (as ++ bs)) c₁ bs := by
  induction bs with
  | nil => intros; trivial
  | cons b bs ih =>
      intro as c₁ hrun
      simp only [Meets]
      cases hs : m.step c₁ b with
      | none => trivial
      | some p =>
          obtain ⟨l, c₂⟩ := p
          have hrun₂ : m.run c (as ++ [b]) = some c₂ := by
            simp [run_append, hrun, run, hs]
          rw [show as ++ b :: bs = (as ++ [b]) ++ bs by simp]
          exact ⟨fun P hP => passes_of_run m hrun₂ hP, ih (as ++ [b]) c₂ hrun₂⟩

end Machine

/-! ## Protocols -/

/-- What a request may call after a history, and how it may end. -/
structure Protocol (Op : Type) (Res : Op → Type) (Req Out : Type) where
  may : Req → Hist Op Res → Op → Prop
  done : Req → Hist Op Res → Out → Prop

/-- Both protocols at once. -/
def Protocol.and (P Q : Protocol Op Res Req Out) : Protocol Op Res Req Out where
  may q h o := P.may q h o ∧ Q.may q h o
  done q h out := P.done q h out ∧ Q.done q h out

namespace View

variable [DecidableEq T]

/-- Thread `t` now stands at `x`, over the shared state `s`. -/
def put (v : View Op Res σ T Req) (t : T) (s : σ) (x : Option (Req × Hist Op Res)) :
    View Op Res σ T Req where
  shared := s
  task := Function.update v.task t x

@[simp] theorem put_shared (v : View Op Res σ T Req) (t : T) (s : σ)
    (x : Option (Req × Hist Op Res)) : (v.put t s x).shared = s :=
  rfl

@[simp] theorem put_self (v : View Op Res σ T Req) (t : T) (s : σ)
    (x : Option (Req × Hist Op Res)) : (v.put t s x).task t = x := by
  simp [put]

theorem put_other (v : View Op Res σ T Req) {t u : T} (s : σ)
    (x : Option (Req × Hist Op Res)) (h : u ≠ t) : (v.put t s x).task u = v.task u := by
  simp [put, h]

/-- Who stands where after a move: the mover at its new place, everyone else where they were. -/
theorem put_cases {v : View Op Res σ T Req} {t u : T} {s : σ} {x : Option (Req × Hist Op Res)}
    {y : Req × Hist Op Res} (h : (v.put t s x).task u = some y) :
    (u = t ∧ x = some y) ∨ (u ≠ t ∧ v.task u = some y) := by
  by_cases hut : u = t
  · subst hut
    exact Or.inl ⟨rfl, by simpa using h⟩
  · exact Or.inr ⟨hut, by simpa [put_other v s x hut] using h⟩

end View

/-- One move the protocol allows: the abstract transition system a machine refines. -/
inductive Move [DecidableEq T] (m : Machine Op Res σ T Req Out Ans) (P : Protocol Op Res Req Out) :
    View Op Res σ T Req → Label Op Res T Req Out → View Op Res σ T Req → Prop where
  | start {v : View Op Res σ T Req} {t : T} {q : Req} :
      v.task t = none → Move m P v (.start t q) (v.put t v.shared (some (q, [])))
  | did {v : View Op Res σ T Req} {t : T} {q : Req} {h : Hist Op Res} {o : Op} {a : Ans}
      {r : Res o} {s : σ} :
      v.task t = some (q, h) → P.may q h o → m.exec v.shared t o a = some (r, s) →
      Move m P v (.did t ⟨o, r⟩) (v.put t s (some (q, ⟨o, r⟩ :: h)))
  | finish {v : View Op Res σ T Req} {t : T} {q : Req} {h : Hist Op Res} {out : Out} :
      v.task t = some (q, h) → P.done q h out →
      Move m P v (.finish t q out) (v.put t v.shared none)
  | crash {v : View Op Res σ T Req} {t : T} : Move m P v (.crash t) (v.put t v.shared none)

theorem Move.start_cases [DecidableEq T] {m : Machine Op Res σ T Req Out Ans}
    {P : Protocol Op Res Req Out} {v v' : View Op Res σ T Req} {t : T} {q : Req}
    (h : Move m P v (.start t q) v') : v' = v.put t v.shared (some (q, [])) := by
  cases h with
  | start ht => rfl

/-- A call that was made: by whom, after what, and to which effect. -/
theorem Move.did_cases [DecidableEq T] {m : Machine Op Res σ T Req Out Ans}
    {P : Protocol Op Res Req Out} {v v' : View Op Res σ T Req} {t : T} {o : Op} {r : Res o}
    (h : Move m P v (.did t ⟨o, r⟩) v') :
    ∃ q hist a, v.task t = some (q, hist) ∧ P.may q hist o ∧
      m.exec v.shared t o a = some (r, v'.shared) := by
  cases h with
  | did ht hmay he => exact ⟨_, _, _, ht, hmay, he⟩

theorem Move.did_task [DecidableEq T] {m : Machine Op Res σ T Req Out Ans}
    {P : Protocol Op Res Req Out} {v v' : View Op Res σ T Req} {t : T} {e : Ev Op Res} {q : Req}
    {hist : Hist Op Res} (h : Move m P v (.did t e) v') (ht : v.task t = some (q, hist)) :
    v'.task t = some (q, e :: hist) := by
  cases h with
  | did ht' hmay he =>
      cases ht'.symm.trans ht
      exact View.put_self _ _ _ _

/-- The rule for a fact about each task: it holds when a task starts, a call keeps it for the task
that makes it, and what the call does to the shared state keeps it for the others. -/
theorem Move.tasks [DecidableEq T] {m : Machine Op Res σ T Req Out Ans}
    {P : Protocol Op Res Req Out} {v v' : View Op Res σ T Req} {l : Label Op Res T Req Out}
    {J : σ → T → Req → Hist Op Res → Prop} (hmove : Move m P v l v')
    (hJ : ∀ t q h, v.task t = some (q, h) → J v.shared t q h)
    (hstart : ∀ {t q}, l = .start t q → J v.shared t q [])
    (hself : ∀ {t q h o a r s}, l = .did t ⟨o, r⟩ → v.task t = some (q, h) → P.may q h o →
      m.exec v.shared t o a = some (r, s) → J s t q (⟨o, r⟩ :: h))
    (hothers : ∀ {t q h o a r s}, l = .did t ⟨o, r⟩ → v.task t = some (q, h) → P.may q h o →
      m.exec v.shared t o a = some (r, s) → ∀ u q' h', u ≠ t → v.task u = some (q', h') →
        J s u q' h') :
    ∀ t q h, v'.task t = some (q, h) → J v'.shared t q h := by
  intro u q' h' hu
  cases hmove with
  | start _ =>
      rcases View.put_cases hu with ⟨rfl, ⟨⟩⟩ | ⟨-, hu⟩
      · exact hstart rfl
      · exact hJ u q' h' hu
  | did ht hmay he =>
      rcases View.put_cases hu with ⟨rfl, ⟨⟩⟩ | ⟨hut, hu⟩
      · exact hself rfl ht hmay he
      · exact hothers rfl ht hmay he u q' h' hut hu
  | finish _ _ =>
      rcases View.put_cases hu with ⟨-, ⟨⟩⟩ | ⟨-, hu⟩
      exact hJ u q' h' hu
  | crash =>
      rcases View.put_cases hu with ⟨-, ⟨⟩⟩ | ⟨-, hu⟩
      exact hJ u q' h' hu

theorem Move.left [DecidableEq T] {m : Machine Op Res σ T Req Out Ans}
    {P Q : Protocol Op Res Req Out} {v v' : View Op Res σ T Req} {l : Label Op Res T Req Out}
    (h : Move m (P.and Q) v l v') : Move m P v l v' := by
  cases h with
  | start ht => exact .start ht
  | did ht hmay he => exact .did ht hmay.1 he
  | finish ht hdone => exact .finish ht hdone.1
  | crash => exact .crash

theorem Move.right [DecidableEq T] {m : Machine Op Res σ T Req Out Ans}
    {P Q : Protocol Op Res Req Out} {v v' : View Op Res σ T Req} {l : Label Op Res T Req Out}
    (h : Move m (P.and Q) v l v') : Move m Q v l v' := by
  cases h with
  | start ht => exact .start ht
  | did ht hmay he => exact .did ht hmay.2 he
  | finish ht hdone => exact .finish ht hdone.2
  | crash => exact .crash

namespace Machine

variable [DecidableEq T] {m : Machine Op Res σ T Req Out Ans} {P : Protocol Op Res Req Out}

/-- Every body of the machine keeps to the protocol. -/
def Follows (m : Machine Op Res σ T Req Out Ans) (P : Protocol Op Res Req Out) : Prop :=
  ∀ q, (m.body q).Conforms (P.may q) [] (P.done q)

omit [DecidableEq T] in
theorem Follows.and {Q : Protocol Op Res Req Out} (hP : m.Follows P) (hQ : m.Follows Q) :
    m.Follows (P.and Q) :=
  fun q => (hP q).and (hQ q)

/-- Whatever each thread still has to run keeps to the protocol from here. -/
def OnTrack (P : Protocol Op Res Req Out) (c : Config Op Res σ T Req Out) : Prop :=
  ∀ t k, c.task t = some k → k.prog.Conforms (P.may k.req) k.hist (P.done k.req)

omit [DecidableEq T] in
theorem onTrack_idle (s : σ) : OnTrack P (Config.idle s : Config Op Res σ T Req Out) := by
  intro t k hk
  cases hk

theorem onTrack_update {c : Config Op Res σ T Req Out} {t : T} {s : σ}
    {x : Option (Task Op Res Req Out)} (hc : OnTrack P c)
    (hx : ∀ k, x = some k → k.prog.Conforms (P.may k.req) k.hist (P.done k.req)) :
    OnTrack P ⟨s, Function.update c.task t x⟩ := by
  intro u k hk
  by_cases hut : u = t
  · subst hut
    exact hx k (by simpa using hk)
  · exact hc u k (by simpa [hut] using hk)

theorem view_update (c : Config Op Res σ T Req Out) (t : T) (s : σ)
    (x : Option (Task Op Res Req Out)) :
    (⟨s, Function.update c.task t x⟩ : Config Op Res σ T Req Out).view =
      c.view.put t s (x.map fun k => (k.req, k.hist)) := by
  simp only [Config.view, View.put, View.mk.injEq, true_and]
  funext u
  by_cases hut : u = t
  · subst hut
    simp
  · simp [hut]

/-- The machine refines its protocol: each concrete move is an allowed one, and leaves every
thread on track. -/
theorem step_refines (hP : m.Follows P) {c c' : Config Op Res σ T Req Out}
    {a : Action T Req Ans} {l : Label Op Res T Req Out} (hc : OnTrack P c)
    (h : m.step c a = some (l, c')) : Move m P c.view l c'.view ∧ OnTrack P c' := by
  cases a with
  | start t q =>
      cases ht : c.task t with
      | some k => simp [step, ht] at h
      | none =>
          obtain ⟨rfl, rfl⟩ : Label.start t q = l ∧ _ = c' := by simpa [step, ht] using h
          refine ⟨?_, onTrack_update hc ?_⟩
          · rw [view_update]
            exact Move.start (by simp [Config.view, ht])
          · intro k hk
            cases hk
            exact hP q
  | step t a =>
      cases ht : c.task t with
      | none => simp [step, ht] at h
      | some k =>
          obtain ⟨q, hist, prog⟩ := k
          cases prog with
          | ret out => simp [step, ht] at h
          | call o k =>
              cases he : m.exec c.shared t o a with
              | none => simp [step, ht, he] at h
              | some p =>
                  obtain ⟨r, s⟩ := p
                  obtain ⟨rfl, rfl⟩ : Label.did t ⟨o, r⟩ = l ∧ _ = c' := by
                    simpa [step, ht, he] using h
                  have hk := hc t _ ht
                  refine ⟨?_, onTrack_update hc ?_⟩
                  · rw [view_update]
                    exact Move.did (by simp [Config.view, ht]) hk.1 he
                  · intro k' hk'
                    cases hk'
                    exact hk.2 r
  | finish t =>
      cases ht : c.task t with
      | none => simp [step, ht] at h
      | some k =>
          obtain ⟨q, hist, prog⟩ := k
          cases prog with
          | call o k => simp [step, ht] at h
          | ret out =>
              obtain ⟨rfl, rfl⟩ : Label.finish t q out = l ∧ _ = c' := by
                simpa [step, ht] using h
              refine ⟨?_, onTrack_update hc ?_⟩
              · rw [view_update]
                exact Move.finish (by simp [Config.view, ht]) (hc t _ ht)
              · intro k hk
                cases hk
  | crash t =>
      obtain ⟨rfl, rfl⟩ : Label.crash t = l ∧ _ = c' := by simpa [step] using h
      refine ⟨?_, onTrack_update hc ?_⟩
      · rw [view_update]
        exact Move.crash
      · intro k hk
        cases hk

/-- The invariant rule.  `I` speaks of shared state and histories only, and is checked against the
moves of the protocol only; it then holds after every run of the machine whose moves meet `A`. -/
theorem run_invariant (hP : m.Follows P)
    {A : View Op Res σ T Req → Label Op Res T Req Out → View Op Res σ T Req → Prop}
    {I : View Op Res σ T Req → Prop}
    (hI : ∀ v l v', I v → Move m P v l v' → A v l v' → I v') :
    ∀ (as : List (Action T Req Ans)) (c c' : Config Op Res σ T Req Out),
      OnTrack P c → I c.view → m.Meets A c as → m.run c as = some c' →
        I c'.view ∧ OnTrack P c' := by
  intro as
  induction as with
  | nil =>
      intro c c' hc hv _ h
      obtain rfl : c = c' := by simpa [run] using h
      exact ⟨hv, hc⟩
  | cons a as ih =>
      intro c c' hc hv hA h
      cases hs : m.step c a with
      | none => simp [run, hs] at h
      | some p =>
          obtain ⟨l, d⟩ := p
          obtain ⟨hmove, hd⟩ := step_refines hP hc hs
          simp only [Meets, hs] at hA
          simp only [run, hs] at h
          exact ih d c' hd (hI _ _ _ hv hmove hA.1) hA.2 h

/-- The invariant rule for the moves themselves: every move of a run that meets `A` is one the
protocol allows, from a state that satisfies `I` to another. -/
theorem run_meets (hP : m.Follows P)
    {A : View Op Res σ T Req → Label Op Res T Req Out → View Op Res σ T Req → Prop}
    {I : View Op Res σ T Req → Prop}
    (hI : ∀ v l v', I v → Move m P v l v' → A v l v' → I v') :
    ∀ (as : List (Action T Req Ans)) (c : Config Op Res σ T Req Out),
      OnTrack P c → I c.view → m.Meets A c as →
        m.Meets (fun v l v' => Move m P v l v' ∧ A v l v' ∧ I v ∧ I v') c as := by
  intro as
  induction as with
  | nil => intros; trivial
  | cons a as ih =>
      intro c hc hv hA
      simp only [Meets] at hA ⊢
      cases hs : m.step c a with
      | none => trivial
      | some p =>
          obtain ⟨l, d⟩ := p
          rw [hs] at hA
          obtain ⟨hmove, hd⟩ := step_refines hP hc hs
          have hI' := hI _ _ _ hv hmove hA.1
          exact ⟨⟨hmove, hA.1, hv, hI'⟩, ih d hd hI' hA.2⟩

/-- The same where the condition refers to notes: the invariant may speak of them too, and what it
gives for each move holds of the run. -/
theorem MeetsNoting.meets (hP : m.Follows P) {α : Type} {note : Label Op Res T Req Out → List α}
    {A : List α → View Op Res σ T Req → Label Op Res T Req Out → View Op Res σ T Req → Prop}
    {B : View Op Res σ T Req → Label Op Res T Req Out → View Op Res σ T Req → Prop}
    {I : List α → View Op Res σ T Req → Prop}
    (hI : ∀ noted v l v', I noted v → Move m P v l v' → A noted v l v' →
      I (note l ++ noted) v' ∧ B v l v') :
    ∀ (as : List (Action T Req Ans)) (noted : List α) (c : Config Op Res σ T Req Out),
      OnTrack P c → I noted c.view → m.MeetsNoting note A noted c as → m.Meets B c as := by
  intro as
  induction as with
  | nil => intros; trivial
  | cons a as ih =>
      intro noted c hc hv hA
      simp only [Meets, MeetsNoting] at hA ⊢
      cases hs : m.step c a with
      | none => trivial
      | some p =>
          obtain ⟨l, d⟩ := p
          rw [hs] at hA
          obtain ⟨hmove, hd⟩ := step_refines hP hc hs
          obtain ⟨hI', hB⟩ := hI _ _ _ _ hv hmove hA.1
          exact ⟨hB, ih _ d hd hI' hA.2⟩

/-- The invariant rule with notes, for what each move satisfies given the notes before it. -/
theorem run_noting (hP : m.Follows P) {α : Type} {note : Label Op Res T Req Out → List α}
    {B : List α → View Op Res σ T Req → Label Op Res T Req Out → View Op Res σ T Req → Prop}
    {I : List α → View Op Res σ T Req → Prop}
    (hI : ∀ noted v l v', I noted v → Move m P v l v' → I (note l ++ noted) v' ∧ B noted v l v') :
    ∀ (as : List (Action T Req Ans)) (noted : List α) (c : Config Op Res σ T Req Out),
      OnTrack P c → I noted c.view → m.MeetsNoting note B noted c as := by
  intro as
  induction as with
  | nil => intros; trivial
  | cons a as ih =>
      intro noted c hc hv
      simp only [MeetsNoting]
      cases hs : m.step c a with
      | none => trivial
      | some p =>
          obtain ⟨l, d⟩ := p
          obtain ⟨hmove, hd⟩ := step_refines hP hc hs
          obtain ⟨hI', hB⟩ := hI _ _ _ _ hv hmove
          exact ⟨hB, ih _ d hd hI'⟩

theorem Meets.mono {A B : View Op Res σ T Req → Label Op Res T Req Out → View Op Res σ T Req → Prop}
    (hAB : ∀ v l v', A v l v' → B v l v') :
    ∀ {as : List (Action T Req Ans)} {c : Config Op Res σ T Req Out},
      m.Meets A c as → m.Meets B c as := by
  intro as
  induction as with
  | nil => intros; trivial
  | cons a as ih =>
      intro c hA
      simp only [Meets] at hA ⊢
      cases hs : m.step c a with
      | none => trivial
      | some p =>
          rw [hs] at hA
          exact ⟨hAB _ _ _ hA.1, ih hA.2⟩

/-- A condition every move satisfies is met by every run. -/
theorem meets_of_all
    {A : View Op Res σ T Req → Label Op Res T Req Out → View Op Res σ T Req → Prop}
    (hA : ∀ v l v', A v l v') :
    ∀ {as : List (Action T Req Ans)} {c : Config Op Res σ T Req Out}, m.Meets A c as := by
  intro as
  induction as with
  | nil => intros; trivial
  | cons a as ih =>
      intro c
      simp only [Meets]
      cases m.step c a with
      | none => trivial
      | some p => exact ⟨hA _ _ _, ih⟩

theorem Meets.and
    {A B : View Op Res σ T Req → Label Op Res T Req Out → View Op Res σ T Req → Prop} :
    ∀ {as : List (Action T Req Ans)} {c : Config Op Res σ T Req Out},
      m.Meets A c as → m.Meets B c as → m.Meets (fun v l v' => A v l v' ∧ B v l v') c as := by
  intro as
  induction as with
  | nil => intros; trivial
  | cons a as ih =>
      intro c hA hB
      simp only [Meets] at hA hB ⊢
      cases hs : m.step c a with
      | none => trivial
      | some p =>
          rw [hs] at hA hB
          exact ⟨⟨hA.1, hB.1⟩, ih hA.2 hB.2⟩

/-- What the moves of a run meet, those of its two parts meet. -/
theorem meets_append
    {A : View Op Res σ T Req → Label Op Res T Req Out → View Op Res σ T Req → Prop} :
    ∀ {as bs : List (Action T Req Ans)} {c : Config Op Res σ T Req Out}, m.Meets A c (as ++ bs) →
      m.Meets A c as ∧ ∀ c', m.run c as = some c' → m.Meets A c' bs := by
  intro as bs
  induction as with
  | nil =>
      intro c hA
      refine ⟨trivial, fun c' hc' => ?_⟩
      obtain rfl : c = c' := by simpa [run] using hc'
      exact hA
  | cons a as ih =>
      intro c hA
      simp only [List.cons_append, Meets, run] at hA ⊢
      cases hs : m.step c a with
      | none => simp
      | some p =>
          rw [hs] at hA
          obtain ⟨hleft, hright⟩ := ih hA.2
          exact ⟨⟨hA.1, hleft⟩, hright⟩

end Machine

end Interleave
end CertsManager
