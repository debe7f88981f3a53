import CertsManager.Interleave.Pool
import CertsManager.Interleave.Solo

/-!
# Linear — runs that are as good as one call at a time

* `Executes R s xs s'` — a list of steps, each related to what it does to a state by `R`;
* `Call`, `Book`, `Machine.record` — the calls a run finished, with what each was asked, saw and
  reported and when it began and ended;
* `Linearizable alone s calls s'` — the calls, executed one at a time in some order that puts none
  before a call that ended before it began, lead from `s` to `s'`;
* `Machine.linearizable_of_points` — the proof rule.  Each call has a moment, its point, at which
  everything it has seen could have been seen in one go and after which it no longer touches what
  `abs` shows of the shared state; a call that never has one must not have looked at all.

The rule keeps the calls in the order of their points.  A call past its point stands in that order
before it has ended, so the order never changes and a call that ends takes its own place.
-/

namespace CertsManager
namespace Interleave

/-! ## Executing one after another -/

section Executes

variable {α β ς : Type} {R R' : α → ς → ς → Prop}

/-- The steps of a list, in order. -/
def Executes (R : α → ς → ς → Prop) : ς → List α → ς → Prop
  | s, [], s' => s' = s
  | s, x :: xs, s' => ∃ s₁, R x s s₁ ∧ Executes R s₁ xs s'

theorem executes_append {s s' : ς} {xs ys : List α} :
    Executes R s (xs ++ ys) s' ↔ ∃ s₁, Executes R s xs s₁ ∧ Executes R s₁ ys s' := by
  induction xs generalizing s with
  | nil => simp [Executes]
  | cons x xs ih =>
      simp only [List.cons_append, Executes, ih]
      constructor
      · rintro ⟨s₁, hx, s₂, hxs, hys⟩
        exact ⟨s₂, ⟨s₁, hx, hxs⟩, hys⟩
      · rintro ⟨s₂, ⟨s₁, hx, hxs⟩, hys⟩
        exact ⟨s₁, hx, s₂, hxs, hys⟩

theorem executes_singleton {s s' : ς} {x : α} : Executes R s [x] s' ↔ R x s s' := by
  simp [Executes]

theorem Executes.mono {s s' : ς} {xs : List α} (h : Executes R s xs s')
    (hR : ∀ x ∈ xs, ∀ s s', R x s s' → R' x s s') : Executes R' s xs s' := by
  induction xs generalizing s with
  | nil => exact h
  | cons x xs ih =>
      obtain ⟨s₁, hx, hxs⟩ := h
      exact ⟨s₁, hR x List.mem_cons_self s s₁ hx,
        ih hxs fun y hy => hR y (List.mem_cons_of_mem x hy)⟩

theorem Executes.mem {s s' : ς} {xs : List α} (h : Executes R s xs s') {x : α} (hx : x ∈ xs) :
    ∃ s₁ s₂, R x s₁ s₂ := by
  induction xs generalizing s with
  | nil => cases hx
  | cons y ys ih =>
      obtain ⟨s₁, hy, hys⟩ := h
      rcases List.mem_cons.1 hx with rfl | hx
      · exact ⟨s, s₁, hy⟩
      · exact ih hys hx

theorem executes_map {f : β → α} {s s' : ς} {xs : List β} :
    Executes R s (xs.map f) s' ↔ Executes (fun x => R (f x)) s xs s' := by
  induction xs generalizing s with
  | nil => exact Iff.rfl
  | cons x xs ih => simp only [List.map_cons, Executes, ih]

/-- Steps that leave one state as it is lead nowhere else from it. -/
theorem executes_of_still {s : ς} {xs : List α} (h : ∀ x ∈ xs, R x s s) : Executes R s xs s := by
  induction xs with
  | nil => rfl
  | cons x xs ih =>
      exact ⟨s, h x List.mem_cons_self, ih fun y hy => h y (List.mem_cons_of_mem x hy)⟩

end Executes

variable {Op : Type} {Res : Op → Type} {σ ς T Req Out Ans α : Type}

/-! ## The calls a program makes, and what they do -/

namespace Prog

/-- `h` is one of the paths of the program, and `out` its end. -/
def Path (p : Prog Op Res α) (h : List (Ev Op Res)) (out : α) : Prop :=
  p.Runs (fun (_ : Unit) _ _ => True) () h out ()

/-- A run is a path whose replies the states it goes through can give. -/
theorem runs_of_path {next : ς → Ev Op Res → ς → Prop} {p : Prog Op Res α} {s s' : ς}
    {h : List (Ev Op Res)} {out : α} (hpath : p.Path h out)
    (hexec : Executes (fun e s s' => next s e s') s h s') : p.Runs next s h out s' := by
  induction p generalizing s h with
  | ret a =>
      obtain ⟨rfl, rfl, -⟩ := hpath
      exact ⟨rfl, rfl, hexec⟩
  | call o k ih =>
      obtain ⟨r, _, h', rfl, _, hrest⟩ := hpath
      obtain ⟨s₁, hnext, hexec⟩ := hexec
      exact ⟨r, s₁, h', rfl, hnext, ih r hrest hexec⟩

/-- Whatever is replied, a program goes along one of its paths. -/
theorem conforms_path (p : Prog Op Res α) (h₀ : Hist Op Res) :
    p.Conforms (fun _ _ => True) h₀ fun h out => ∃ h₁, h = h₁.reverse ++ h₀ ∧ p.Path h₁ out := by
  induction p generalizing h₀ with
  | ret a => exact ⟨[], rfl, rfl, rfl, rfl⟩
  | call o k ih =>
      refine ⟨trivial, fun r => (ih r (⟨o, r⟩ :: h₀)).mono ?_⟩
      rintro h out ⟨h₁, rfl, hpath⟩
      exact ⟨⟨o, r⟩ :: h₁, by simp, r, (), h₁, rfl, trivial, hpath⟩

end Prog

/-! ## What a run did -/

/-- A call that has ended: what was asked, what it saw (newest first), what it reported, and when
it began and ended. -/
structure Call (Op : Type) (Res : Op → Type) (Req Out : Type) where
  req : Req
  hist : Hist Op Res
  out : Out
  started : Nat
  finished : Nat

/-- A record kept beside a run. -/
structure Book (Op : Type) (Res : Op → Type) (T Req Out : Type) where
  now : Nat
  began : T → Nat
  calls : List (Call Op Res Req Out)

namespace Book

def empty : Book Op Res T Req Out where
  now := 0
  began _ := 0
  calls := []

variable [DecidableEq T]

def note (b : Book Op Res T Req Out) (v : View Op Res σ T Req) :
    Label Op Res T Req Out → Book Op Res T Req Out
  | .start t _ => ⟨b.now + 1, Function.update b.began t b.now, b.calls⟩
  | .finish t q out =>
      ⟨b.now + 1, b.began,
        ⟨q, ((v.task t).map Prod.snd).getD [], out, b.began t, b.now⟩ :: b.calls⟩
  | .did _ _ | .crash _ => { b with now := b.now + 1 }

end Book

namespace Machine

variable [DecidableEq T] (m : Machine Op Res σ T Req Out Ans)

/-- The book at the end of a schedule. -/
def record (b : Book Op Res T Req Out) (c : Config Op Res σ T Req Out) :
    List (Action T Req Ans) → Book Op Res T Req Out
  | [] => b
  | a :: as =>
      match m.step c a with
      | some (l, c') => record (b.note c.view l) c' as
      | none => b

/-- The calls that ended during a schedule, the last one first. -/
def completed (c : Config Op Res σ T Req Out) (as : List (Action T Req Ans)) :
    List (Call Op Res Req Out) :=
  (m.record Book.empty c as).calls

variable {m} {P : Protocol Op Res Req Out}

/-- The invariant rule with a book. -/
theorem run_record (hP : m.Follows P)
    {A : View Op Res σ T Req → Label Op Res T Req Out → View Op Res σ T Req → Prop}
    {I : Book Op Res T Req Out → View Op Res σ T Req → Prop}
    (hI : ∀ b v l v', I b v → Move m P v l v' → A v l v' → I (b.note v l) v') :
    ∀ (as : List (Action T Req Ans)) (b : Book Op Res T Req Out)
      (c c' : Config Op Res σ T Req Out),
      OnTrack P c → I b c.view → m.Meets A c as → m.run c as = some c' →
        I (m.record b c as) c'.view := by
  intro as
  induction as with
  | nil =>
      intro b c c' _ hv _ h
      obtain rfl : c = c' := by simpa [run] using h
      exact hv
  | cons a as ih =>
      intro b c c' hc hv hA h
      cases hs : m.step c a with
      | none => simp [run, hs] at h
      | some p =>
          obtain ⟨l, d⟩ := p
          obtain ⟨hmove, hd⟩ := step_refines hP hc hs
          simp only [Meets, hs] at hA
          simp only [run, hs] at h
          simp only [record, hs]
          exact ih _ d c' hd (hI _ _ _ _ hv hmove hA.1) hA.2 h

/-- The protocol that lets a call do what its program says and nothing else. -/
def scripted (m : Machine Op Res σ T Req Out Ans) : Protocol Op Res Req Out where
  may _ _ _ := True
  done q h out := (m.body q).Path h.reverse out

omit [DecidableEq T] in
theorem follows_scripted : m.Follows m.scripted := by
  intro q
  refine ((m.body q).conforms_path []).mono ?_
  rintro h out ⟨h₁, rfl, hpath⟩
  simpa [scripted] using hpath

end Machine

/-! ## Linearizability -/

/-- Executed one at a time in some order consistent with which call ended before which began, the
calls lead from `s` to `s'`; `alone c s s'` says what a call does by itself. -/
def Linearizable (alone : Call Op Res Req Out → ς → ς → Prop) (s : ς)
    (calls : List (Call Op Res Req Out)) (s' : ς) : Prop :=
  ∃ order : List (Call Op Res Req Out), order.Perm calls ∧ Executes alone s order s' ∧
    order.Pairwise fun a b => ¬ b.finished < a.started

theorem Linearizable.mono {alone alone' : Call Op Res Req Out → ς → ς → Prop} {s s' : ς}
    {calls : List (Call Op Res Req Out)} (h : Linearizable alone s calls s')
    (hle : ∀ c s s', alone c s s' → alone' c s s') : Linearizable alone' s calls s' := by
  obtain ⟨order, hperm, hexec, htime⟩ := h
  exact ⟨order, hperm, hexec.mono fun c _ => hle c, htime⟩

/-! ## Linearization points -/

section Points

variable [DecidableEq T]

/-- Where each call takes effect.  `abs` is the part of the shared state the calls are about, `next`
what one step does to it when nobody else moves, `passed q h` that a call asked `q` has had its
point once it has seen `h`. -/
structure Points (m : Machine Op Res σ T Req Out Ans) (P : Protocol Op Res Req Out)
    (A : View Op Res σ T Req → Label Op Res T Req Out → View Op Res σ T Req → Prop)
    (I : View Op Res σ T Req → Prop) (abs : σ → ς) (next : ς → Ev Op Res → ς → Prop)
    (passed : Req → Hist Op Res → Prop) : Prop where
  /-- No call has had its point when it starts, and none loses it. -/
  fresh : ∀ q, ¬ passed q []
  stays : ∀ {q h e}, passed q h → passed q (e :: h)
  /-- Nobody is cut off in the middle. -/
  alive : ∀ {v t v'}, ¬ A v (.crash t) v'
  /-- Before its point a call changes nothing. -/
  before : ∀ {v t e v' q h}, I v → Move m P v (.did t e) v' → A v (.did t e) v' →
    v.task t = some (q, h) → ¬ passed q (e :: h) → abs v'.shared = abs v.shared
  /-- At its point, all it has seen could be seen now. -/
  point : ∀ {v t e v' q h}, I v → Move m P v (.did t e) v' → A v (.did t e) v' →
    v.task t = some (q, h) → ¬ passed q h → passed q (e :: h) →
    Executes (fun e s s' => next s e s') (abs v.shared) (e :: h).reverse (abs v'.shared)
  /-- After its point it changes nothing and depends on nothing. -/
  after : ∀ {v t e v' q h}, I v → Move m P v (.did t e) v' → A v (.did t e) v' →
    v.task t = some (q, h) → passed q h → abs v'.shared = abs v.shared ∧ ∀ s, next s e s
  /-- A call that ends without a point has neither looked nor changed anything. -/
  none : ∀ {v t q h out}, I v → v.task t = some (q, h) → P.done q h out → ¬ passed q h →
    Executes (fun e s s' => next s e s') (abs v.shared) h.reverse (abs v.shared)

/-- A place in the order of points: a call that has ended, or the call a thread is executing. -/
inductive Slot (Op : Type) (Res : Op → Type) (T Req Out : Type) where
  | ended (c : Call Op Res Req Out)
  | open (t : T)

namespace Slot

def ended? : Slot Op Res T Req Out → Option (Call Op Res Req Out)
  | .ended c => some c
  | .open _ => none

def open? : Slot Op Res T Req Out → Option T
  | .ended _ => none
  | .open t => some t

def started (b : Book Op Res T Req Out) : Slot Op Res T Req Out → Nat
  | .ended c => c.started
  | .open t => b.began t

/-- The second slot holds no call that ended before the one in the first began. -/
def InTime (b : Book Op Res T Req Out) (x y : Slot Op Res T Req Out) : Prop :=
  ∀ c, y = .ended c → ¬ c.finished < x.started b

/-- What the call in a slot has done, as far as it has come. -/
def Effect (P : Protocol Op Res Req Out) (next : ς → Ev Op Res → ς → Prop)
    (passed : Req → Hist Op Res → Prop) (v : View Op Res σ T Req) :
    Slot Op Res T Req Out → ς → ς → Prop
  | .ended c, s, s' =>
      P.done c.req c.hist c.out ∧ Executes (fun e s s' => next s e s') s c.hist.reverse s'
  | .open t, s, s' =>
      ∃ q h, v.task t = some (q, h) ∧ passed q h ∧
        Executes (fun e s s' => next s e s') s h.reverse s'

end Slot

/-- The calls in the order of their points, up to here. -/
structure Ordered (P : Protocol Op Res Req Out) (next : ς → Ev Op Res → ς → Prop)
    (passed : Req → Hist Op Res → Prop) (s₀ s : ς) (b : Book Op Res T Req Out)
    (v : View Op Res σ T Req) (order : List (Slot Op Res T Req Out)) : Prop where
  ended : (order.filterMap Slot.ended?).Perm b.calls
  distinct : (order.filterMap Slot.open?).Nodup
  here : ∀ t q h, v.task t = some (q, h) → passed q h → Slot.open t ∈ order
  effects : Executes (Slot.Effect P next passed v) s₀ order s
  begun : ∀ x ∈ order, x.started b ≤ b.now
  running : ∀ t q h, v.task t = some (q, h) → b.began t ≤ b.now
  inTime : order.Pairwise (Slot.InTime b)

variable {m : Machine Op Res σ T Req Out Ans} {P : Protocol Op Res Req Out}
  {A : View Op Res σ T Req → Label Op Res T Req Out → View Op Res σ T Req → Prop}
  {I : View Op Res σ T Req → Prop} {abs : σ → ς} {next : ς → Ev Op Res → ς → Prop}
  {passed : Req → Hist Op Res → Prop} {s₀ s : ς} {b : Book Op Res T Req Out}
  {v : View Op Res σ T Req} {order : List (Slot Op Res T Req Out)}

namespace Slot

omit [DecidableEq T] in
theorem mem_open? {t : T} : t ∈ order.filterMap Slot.open? ↔ Slot.open t ∈ order := by
  rw [List.mem_filterMap]
  constructor
  · rintro ⟨x, hx, hxt⟩
    cases x with
    | ended c => cases hxt
    | «open» u =>
        cases hxt
        exact hx
  · intro ht
    exact ⟨_, ht, rfl⟩

theorem Effect.put {x : Slot Op Res T Req Out} {s s' : ς} {t : T} {s₁ : σ}
    {y : Option (Req × Hist Op Res)} (h : x.Effect P next passed v s s') (hx : x ≠ .open t) :
    x.Effect P next passed (v.put t s₁ y) s s' := by
  cases x with
  | ended c => exact h
  | «open» u =>
      have hut : u ≠ t := fun h => hx (h ▸ rfl)
      obtain ⟨q, hist, hu, hrest⟩ := h
      exact ⟨q, hist, by rwa [View.put_other _ _ _ hut], hrest⟩

end Slot

namespace Ordered

omit [DecidableEq T] in
/-- Only a call past its point stands open in the order. -/
theorem of_open (ho : Ordered P next passed s₀ s b v order) {t : T} (ht : Slot.open t ∈ order) :
    ∃ q h, v.task t = some (q, h) ∧ passed q h := by
  obtain ⟨_, _, q, h, hq, hp, -⟩ := ho.effects.mem ht
  exact ⟨q, h, hq, hp⟩

omit [DecidableEq T] in
theorem open_notMem (ho : Ordered P next passed s₀ s b v order) {t : T}
    (ht : ∀ q h, v.task t = some (q, h) → ¬ passed q h) : Slot.open t ∉ order := by
  intro hmem
  obtain ⟨q, h, hq, hp⟩ := ho.of_open hmem
  exact ht q h hq hp

theorem start (hpts : Points m P A I abs next passed)
    (ho : Ordered P next passed s₀ s b v order) {t : T} (q : Req) (ht : v.task t = none) :
    Ordered P next passed s₀ s (b.note v (.start t q : Label Op Res T Req Out))
      (v.put t v.shared (some (q, []))) order := by
  have hno : Slot.open t ∉ order := ho.open_notMem (by simp [ht])
  have hbegan : ∀ x ∈ order, x.started (b.note v (.start t q)) = x.started b := by
    intro x hx
    cases x with
    | ended c => rfl
    | «open» u =>
        have hut : u ≠ t := fun h => hno (h ▸ hx)
        exact Function.update_of_ne hut _ _
  refine ⟨ho.ended, ho.distinct, ?_, ?_, ?_, ?_, ?_⟩
  · intro u q' h' hu hp
    rcases View.put_cases hu with ⟨rfl, ⟨⟩⟩ | ⟨-, hu⟩
    · exact absurd hp (hpts.fresh q)
    · exact ho.here u q' h' hu hp
  · exact ho.effects.mono fun x hx s s' h => h.put fun hxt => hno (hxt ▸ hx)
  · intro x hx
    rw [hbegan x hx]
    exact Nat.le_succ_of_le (ho.begun x hx)
  · intro u q' h' hu
    rcases View.put_cases hu with ⟨rfl, -⟩ | ⟨hut, hu⟩
    · simp [Book.note]
    · have hle := ho.running u q' h' hu
      simp only [Book.note, Function.update_of_ne hut]
      exact Nat.le_succ_of_le hle
  · refine ho.inTime.imp_of_mem fun {x y} hx _ h c hy => ?_
    rw [hbegan x hx]
    exact h c hy

/-- A step of a call that leaves its place in the order as it is. -/
theorem same (ho : Ordered P next passed s₀ s b v order) {t : T} {q : Req} {h : Hist Op Res}
    {e : Ev Op Res} {s₁ : σ} {s' : ς} (ht : v.task t = some (q, h))
    (hhere : passed q (e :: h) → Slot.open t ∈ order)
    (heff : Executes (Slot.Effect P next passed (v.put t s₁ (some (q, e :: h)))) s₀ order s') :
    Ordered P next passed s₀ s' (b.note v (.did t e : Label Op Res T Req Out))
      (v.put t s₁ (some (q, e :: h))) order := by
  refine ⟨ho.ended, ho.distinct, ?_, heff, fun x hx => Nat.le_succ_of_le (ho.begun x hx), ?_,
    ho.inTime⟩
  · intro u q' h' hu hp
    rcases View.put_cases hu with ⟨rfl, ⟨⟩⟩ | ⟨-, hu⟩
    · exact hhere hp
    · exact ho.here u q' h' hu hp
  · intro u q' h' hu
    rcases View.put_cases hu with ⟨rfl, -⟩ | ⟨-, hu⟩
    · exact Nat.le_succ_of_le (ho.running u q h ht)
    · exact Nat.le_succ_of_le (ho.running u q' h' hu)

omit [DecidableEq T] in
/-- What is put at the end of the order has ended after everything in it began, or not yet. -/
theorem inTime_concat (ho : Ordered P next passed s₀ s b v order) {x : Slot Op Res T Req Out}
    (hx : ∀ c, x = .ended c → b.now ≤ c.finished) : (order ++ [x]).Pairwise (Slot.InTime b) := by
  refine List.pairwise_append.2 ⟨ho.inTime, List.pairwise_singleton _ _, fun y hy z hz c hc => ?_⟩
  obtain rfl : z = x := List.mem_singleton.1 hz
  exact Nat.not_lt.2 ((ho.begun y hy).trans (hx c hc))

/-- A call reaches its point: it goes to the end of the order. -/
theorem reaches (ho : Ordered P next passed s₀ s b v order) {t : T} {q : Req} {h : Hist Op Res}
    {e : Ev Op Res} {s₁ : σ} {s' : ς} (ht : v.task t = some (q, h)) (hno : Slot.open t ∉ order)
    (hp : passed q (e :: h))
    (hexec : Executes (fun e s s' => next s e s') s (e :: h).reverse s') :
    Ordered P next passed s₀ s' (b.note v (.did t e : Label Op Res T Req Out))
      (v.put t s₁ (some (q, e :: h))) (order ++ [.open t]) := by
  refine ⟨?_, ?_, ?_, ?_, ?_, ?_, ho.inTime_concat fun c hc => by cases hc⟩
  · rw [List.filterMap_append]
    exact (List.append_nil _).symm ▸ ho.ended
  · rw [List.filterMap_append]
    refine List.nodup_append.2 ⟨ho.distinct, List.nodup_singleton t, ?_⟩
    rintro u hu _ hu' rfl
    obtain rfl : u = t := List.mem_singleton.1 hu'
    exact hno (Slot.mem_open?.1 hu)
  · intro u q' h' hu hpu
    rcases View.put_cases hu with ⟨rfl, -⟩ | ⟨-, hu⟩
    · exact List.mem_append_right _ (List.mem_singleton_self _)
    · exact List.mem_append_left _ (ho.here u q' h' hu hpu)
  · have hothers : Executes (Slot.Effect P next passed (v.put t s₁ (some (q, e :: h)))) s₀ order s :=
      ho.effects.mono fun x hx s s' h => h.put fun hxt => hno (hxt ▸ hx)
    exact executes_append.2 ⟨s, hothers,
      executes_singleton.2 ⟨q, e :: h, View.put_self _ _ _ _, hp, hexec⟩⟩
  · intro x hx
    rcases List.mem_append.1 hx with hx | hx
    · exact Nat.le_succ_of_le (ho.begun x hx)
    · obtain rfl := List.mem_singleton.1 hx
      exact Nat.le_succ_of_le (ho.running t q h ht)
  · intro u q' h' hu
    rcases View.put_cases hu with ⟨rfl, -⟩ | ⟨-, hu⟩
    · exact Nat.le_succ_of_le (ho.running u q h ht)
    · exact Nat.le_succ_of_le (ho.running u q' h' hu)

theorem did (hpts : Points m P A I abs next passed) {t : T} {e : Ev Op Res}
    {v' : View Op Res σ T Req} (ho : Ordered P next passed s₀ (abs v.shared) b v order) (hI : I v)
    (hmove : Move m P v (.did t e) v') (hA : A v (.did t e) v') :
    ∃ order', Ordered P next passed s₀ (abs v'.shared) (b.note v (.did t e)) v' order' := by
  obtain ⟨q, h, s₁, ht, rfl⟩ : ∃ q h s₁, v.task t = some (q, h) ∧
      v' = v.put t s₁ (some (q, e :: h)) := by
    cases hmove with
    | did ht _ _ => exact ⟨_, _, _, ht, rfl⟩
  by_cases hp : passed q h
  · -- past its point: what it saw now it could have seen right after it
    obtain ⟨hsame, hframe⟩ := hpts.after hI hmove hA ht hp
    refine ⟨order, ho.same ht (fun _ => ho.here t q h ht hp) ?_⟩
    rw [hsame]
    refine ho.effects.mono fun x _ s s' hx => ?_
    by_cases hxt : x = .open t
    · subst hxt
      obtain ⟨q', h', ht', -, hexec⟩ := hx
      cases ht.symm.trans ht'
      refine ⟨q, e :: h, View.put_self _ _ _ _, hpts.stays hp, ?_⟩
      rw [List.reverse_cons]
      exact executes_append.2 ⟨s', hexec, executes_singleton.2 (hframe s')⟩
    · exact hx.put hxt
  · have hno : Slot.open t ∉ order := ho.open_notMem fun q' h' ht' => by
      cases ht.symm.trans ht'
      exact hp
    by_cases hp' : passed q (e :: h)
    · exact ⟨_, ho.reaches ht hno hp' (hpts.point hI hmove hA ht hp hp')⟩
    · refine ⟨order, ho.same ht (fun hp'' => absurd hp'' hp') ?_⟩
      rw [hpts.before hI hmove hA ht hp']
      exact ho.effects.mono fun x hx s s' h => h.put fun hxt => hno (hxt ▸ hx)

/-- A call that has had its point ends where it stands. -/
theorem ends (ho : Ordered P next passed s₀ s b v order) {t : T} {q : Req} {h : Hist Op Res}
    {out : Out} (ht : v.task t = some (q, h)) (hdone : P.done q h out) (hp : passed q h) :
    ∃ order', Ordered P next passed s₀ s (b.note v (.finish t q out)) (v.put t v.shared none)
      order' := by
  obtain ⟨before, after, rfl⟩ := List.append_of_mem (ho.here t q h ht hp)
  obtain ⟨c, hc, hcalls⟩ : ∃ c : Call Op Res Req Out, c = ⟨q, h, out, b.began t, b.now⟩ ∧
      (b.note v (.finish t q out)).calls = c :: b.calls :=
    ⟨_, rfl, by simp [Book.note, ht]⟩
  -- no other slot is this thread's
  have hdistinct := ho.distinct
  simp only [List.filterMap_append, List.filterMap_cons, Slot.open?] at hdistinct
  obtain ⟨hbefore, hafter, hapart⟩ := List.nodup_append.1 hdistinct
  obtain ⟨htafter, hafter⟩ := List.nodup_cons.1 hafter
  have hnob : Slot.open t ∉ before := fun hmem =>
    hapart t (Slot.mem_open?.2 hmem) t List.mem_cons_self rfl
  have hnoa : Slot.open t ∉ after := fun hmem => htafter (Slot.mem_open?.2 hmem)
  refine ⟨before ++ .ended c :: after, ?_, ?_, ?_, ?_, ?_, ?_, ?_⟩
  · have hended := ho.ended
    simp only [List.filterMap_append, List.filterMap_cons, Slot.ended?] at hended ⊢
    rw [hcalls]
    exact List.perm_middle.trans (hended.cons c)
  · simp only [List.filterMap_append, List.filterMap_cons, Slot.open?]
    exact List.nodup_append.2
      ⟨hbefore, hafter, fun u hu w hw => hapart u hu w (List.mem_cons_of_mem t hw)⟩
  · intro u q' h' hu hpu
    rcases View.put_cases hu with ⟨-, ⟨⟩⟩ | ⟨hut, hu⟩
    have hopen := ho.here u q' h' hu hpu
    simp only [List.mem_append, List.mem_cons, Slot.open.injEq, hut, false_or] at hopen ⊢
    exact hopen.imp id .inr
  · obtain ⟨s₁, hfirst, s₂, ⟨q', h', ht', -, hexec⟩, hlast⟩ := executes_append.1 ho.effects
    cases ht.symm.trans ht'
    refine executes_append.2 ⟨s₁, ?_, s₂, ?_, ?_⟩
    · exact hfirst.mono fun x hx s s' h => h.put fun hxt => hnob (hxt ▸ hx)
    · subst hc
      exact ⟨hdone, hexec⟩
    · exact hlast.mono fun x hx s s' h => h.put fun hxt => hnoa (hxt ▸ hx)
  · intro x hx
    refine Nat.le_succ_of_le ?_
    rcases List.mem_append.1 hx with hx | hx
    · exact ho.begun x (List.mem_append_left _ hx)
    · rcases List.mem_cons.1 hx with rfl | hx
      · rw [hc]
        exact ho.running t q h ht
      · exact ho.begun x (List.mem_append_right _ (List.mem_cons_of_mem _ hx))
  · intro u q' h' hu
    rcases View.put_cases hu with ⟨-, ⟨⟩⟩ | ⟨-, hu⟩
    exact Nat.le_succ_of_le (ho.running u q' h' hu)
  · -- it ends now, after everything before it began; its own beginning is what it was
    obtain ⟨hb, hta, hba⟩ := List.pairwise_append.1 ho.inTime
    obtain ⟨hta, ha⟩ := List.pairwise_cons.1 hta
    refine List.pairwise_append.2 ⟨hb, List.pairwise_cons.2 ⟨fun y hy c' hc' => ?_, ha⟩,
      fun x hx y hy c' hc' => ?_⟩
    · have hstarted := hta y hy c' hc'
      rw [hc]
      exact hstarted
    · rcases List.mem_cons.1 hy with rfl | hy
      · cases hc'
        rw [hc]
        exact Nat.not_lt.2 (ho.begun x (List.mem_append_left _ hx))
      · exact hba x hx y (List.mem_cons_of_mem _ hy) c' hc'

/-- A call that ends without a point goes to the end of the order. -/
theorem ends_unseen (ho : Ordered P next passed s₀ s b v order) {t : T} {q : Req}
    {h : Hist Op Res} {out : Out} (ht : v.task t = some (q, h)) (hdone : P.done q h out)
    (hp : ¬ passed q h) (hexec : Executes (fun e s s' => next s e s') s h.reverse s) :
    ∃ order', Ordered P next passed s₀ s (b.note v (.finish t q out)) (v.put t v.shared none)
      order' := by
  obtain ⟨c, hc, hcalls⟩ : ∃ c : Call Op Res Req Out, c = ⟨q, h, out, b.began t, b.now⟩ ∧
      (b.note v (.finish t q out)).calls = c :: b.calls :=
    ⟨_, rfl, by simp [Book.note, ht]⟩
  have hno : Slot.open t ∉ order := ho.open_notMem fun q' h' ht' => by
    cases ht.symm.trans ht'
    exact hp
  refine ⟨order ++ [.ended c], ?_, ?_, ?_, ?_, ?_, ?_, ho.inTime_concat fun c' hc' => ?_⟩
  · rw [List.filterMap_append, hcalls]
    exact (List.perm_append_singleton c _).trans (ho.ended.cons c)
  · rw [List.filterMap_append]
    exact (List.append_nil _).symm ▸ ho.distinct
  · intro u q' h' hu hpu
    rcases View.put_cases hu with ⟨-, ⟨⟩⟩ | ⟨-, hu⟩
    exact List.mem_append_left _ (ho.here u q' h' hu hpu)
  · have hothers : Executes (Slot.Effect P next passed (v.put t v.shared none)) s₀ order s :=
      ho.effects.mono fun x hx s s' h => h.put fun hxt => hno (hxt ▸ hx)
    refine executes_append.2 ⟨s, hothers, executes_singleton.2 ?_⟩
    subst hc
    exact ⟨hdone, hexec⟩
  · intro x hx
    refine Nat.le_succ_of_le ?_
    rcases List.mem_append.1 hx with hx | hx
    · exact ho.begun x hx
    · obtain rfl := List.mem_singleton.1 hx
      rw [hc]
      exact ho.running t q h ht
  · intro u q' h' hu
    rcases View.put_cases hu with ⟨-, ⟨⟩⟩ | ⟨-, hu⟩
    exact Nat.le_succ_of_le (ho.running u q' h' hu)
  · cases hc'
    rw [hc]

theorem move (hpts : Points m P A I abs next passed) {l : Label Op Res T Req Out}
    {v' : View Op Res σ T Req} (ho : Ordered P next passed s₀ (abs v.shared) b v order) (hI : I v)
    (hmove : Move m P v l v') (hA : A v l v') :
    ∃ order', Ordered P next passed s₀ (abs v'.shared) (b.note v l) v' order' := by
  cases l with
  | start t q =>
      cases hmove with
      | start ht => exact ⟨order, ho.start hpts q ht⟩
  | did t e => exact ho.did hpts hI hmove hA
  | finish t q out =>
      cases hmove with
      | finish ht hdone =>
          rename_i h
          by_cases hp : passed q h
          · exact ho.ends ht hdone hp
          · exact ho.ends_unseen ht hdone hp (hpts.none hI ht hdone hp)
  | crash t => exact absurd hA hpts.alive

omit [DecidableEq T] in
/-- When nobody is executing anything, the order is one of calls that have ended. -/
theorem linearizable (ho : Ordered P next passed s₀ s b v order) (hidle : ∀ t, v.task t = none) :
    Linearizable (fun c s s' => P.done c.req c.hist c.out ∧
      Executes (fun e s s' => next s e s') s c.hist.reverse s') s₀ b.calls s := by
  have hclosed : ∀ x ∈ order, x ∈ Set.range (Slot.ended (T := T)) := by
    intro x hx
    cases x with
    | ended c => exact ⟨c, rfl⟩
    | «open» t =>
        obtain ⟨q, h, ht, -⟩ := ho.of_open hx
        rw [hidle t] at ht
        cases ht
  obtain ⟨calls, rfl⟩ : order ∈ Set.range (List.map Slot.ended) := by
    rw [Set.range_list_map]
    exact hclosed
  refine ⟨calls, ?_, executes_map.1 ho.effects, List.pairwise_map.1 ho.inTime |>.imp fun h => ?_⟩
  · have hended := ho.ended
    rw [List.filterMap_map, show Slot.ended? ∘ Slot.ended = some from rfl,
      List.filterMap_some] at hended
    exact hended
  · exact h _ rfl

end Ordered

/-- The proof rule: a machine whose calls have points is linearizable. -/
theorem Machine.linearizable_of_points (hP : m.Follows P)
    (hI : ∀ v l v', I v → Move m P v l v' → A v l v' → I v')
    (hpts : Points m P A I abs next passed) {s : σ} {as : List (Action T Req Ans)}
    {c' : Config Op Res σ T Req Out} (hinit : I (Config.idle s : Config Op Res σ T Req Out).view)
    (hA : m.Meets A (Config.idle s) as) (hrun : m.run (Config.idle s) as = some c')
    (hidle : ∀ t, c'.task t = none) :
    Linearizable (fun c s s' => P.done c.req c.hist c.out ∧
        Executes (fun e s s' => next s e s') s c.hist.reverse s')
      (abs s) (m.completed (Config.idle s) as) (abs c'.shared) := by
  have hall := Machine.run_record hP
    (I := fun b v => I v ∧ ∃ order, Ordered P next passed (abs s) (abs v.shared) b v order)
    (fun b v l v' h hmove hA => ?_) as Book.empty (Config.idle s) c' (Machine.onTrack_idle s) ?_ hA
    hrun
  · obtain ⟨-, order, ho⟩ := hall
    exact ho.linearizable fun t => by simp [Config.view, hidle t]
  · obtain ⟨hv, order, ho⟩ := h
    exact ⟨hI v l v' hv hmove hA, ho.move hpts hv hmove hA⟩
  · refine ⟨hinit, [], List.Perm.nil, List.nodup_nil, ?_, rfl, ?_, ?_, List.Pairwise.nil⟩
    · intro t q h ht
      cases ht
    · intro x hx
      cases hx
    · intro t q h ht
      cases ht

end Points

end Interleave
end CertsManager
