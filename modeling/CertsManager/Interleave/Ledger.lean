import CertsManager.Interleave.Pool

/-!
# Ledger — counting calls along a run

A request earns by some of its calls and spends by others.  When no request ever spends more than
it has earned by then, no run does: `Machine.calls` lists the calls of a run with who made them after
what, and `Machine.calls_balance` bounds the spending calls of any group of threads by the earning
calls of the same group.

`Machine.count_le_of_potential` bounds the moves of one kind by a quantity each of them raises.
-/

namespace CertsManager
namespace Interleave

variable {Op : Type} {Res : Op → Type} {σ T Req Out Ans : Type}

/-- A call of a run: who made it, for which request and after which history. -/
structure Made (Op : Type) (Res : Op → Type) (T Req : Type) where
  thread : T
  req : Req
  hist : Hist Op Res
  ev : Ev Op Res

/-- How many events of a request's history `f` counts, each judged after what was before it. -/
def tally (f : Req → Hist Op Res → Ev Op Res → Bool) (q : Req) : Hist Op Res → Nat
  | [] => 0
  | e :: h => tally f q h + (f q h e).toNat

/-- The same of the calls of a run. -/
def Made.counts (f : Req → Hist Op Res → Ev Op Res → Bool) (x : Made Op Res T Req) : Bool :=
  f x.req x.hist x.ev

/-- A count is bounded by another when it is for each thread. -/
theorem countP_le_of_threads {α : Type} [DecidableEq T] (thread : α → T) {p q : α → Bool}
    (n : Nat) {l : List α} (hn : l.length ≤ n)
    (hle : ∀ t, l.countP (fun x => p x && decide (thread x = t)) ≤
      l.countP fun x => q x && decide (thread x = t)) : l.countP p ≤ l.countP q := by
  induction n generalizing l with
  | zero =>
      obtain rfl : l = [] := List.length_eq_zero_iff.1 (Nat.le_zero.1 hn)
      exact Nat.le_refl 0
  | succ n ih =>
      cases l with
      | nil => exact Nat.le_refl 0
      | cons x l =>
          -- the thread of the first call apart, the other threads by induction
          have hrest : (l.filter fun y => !decide (thread y = thread x)).countP p ≤
              (l.filter fun y => !decide (thread y = thread x)).countP q := by
            refine ih (Nat.le_trans (List.length_filter_le _ _) (Nat.le_of_succ_le_succ hn)) fun t => ?_
            by_cases ht : t = thread x
            · have hnone : ∀ r : α → Bool, (l.filter fun y => !decide (thread y = thread x)).countP
                  (fun y => r y && decide (thread y = t)) = 0 := by
                intro r
                simp +contextual [List.countP_eq_zero, ht]
              rw [hnone p]
              exact Nat.zero_le _
            · have hsame : ∀ r : α → Bool, (l.filter fun y => !decide (thread y = thread x)).countP
                  (fun y => r y && decide (thread y = t)) =
                  (x :: l).countP fun y => r y && decide (thread y = t) := by
                intro r
                rw [List.countP_filter, List.countP_cons_of_neg (by simp [Ne.symm ht])]
                refine List.countP_congr fun y _ => ?_
                by_cases hy : thread y = t
                · simp [hy, ht]
                · simp [hy]
              rw [hsame, hsame]
              exact hle t
          have hsplit : ∀ r : α → Bool, (x :: l).countP r =
              (x :: l).countP (fun y => r y && decide (thread y = thread x)) +
                (l.filter fun y => !decide (thread y = thread x)).countP r := by
            intro r
            rw [List.countP_eq_countP_filter_add (x :: l) r fun y => decide (thread y = thread x),
              List.countP_filter, List.filter_cons_of_neg (by simp)]
          rw [hsplit p, hsplit q]
          exact Nat.add_le_add (hle (thread x)) hrest

namespace Machine

variable [DecidableEq T] {m : Machine Op Res σ T Req Out Ans} {P : Protocol Op Res Req Out}

/-- The calls a run makes, oldest first. -/
def calls (m : Machine Op Res σ T Req Out Ans) (c : Config Op Res σ T Req Out) :
    List (Action T Req Ans) → List (Made Op Res T Req)
  | [] => []
  | a :: as =>
      match m.step c a with
      | some (.did t e, c') =>
          match c.view.task t with
          | some (q, h) => ⟨t, q, h, e⟩ :: calls m c' as
          | none => calls m c' as
      | some (_, c') => calls m c' as
      | none => []

/-- What a thread's request in progress has counted so far. -/
def inHand (f : Req → Hist Op Res → Ev Op Res → Bool) (v : View Op Res σ T Req) (t : T) : Nat :=
  match v.task t with
  | some (q, h) => tally f q h
  | none => 0

variable {f spend earn : Req → Hist Op Res → Ev Op Res → Bool} {J : Req → Hist Op Res → Prop}
  {v v' : View Op Res σ T Req} {t u : T} {s : σ}

theorem inHand_other (x : Option (Req × Hist Op Res)) (hut : t ≠ u) :
    inHand f (v.put u s x) t = inHand f v t := by
  unfold inHand
  rw [View.put_other v s x hut]

omit [DecidableEq T] in
theorem inHand_some {q : Req} {h : Hist Op Res} (ht : v.task t = some (q, h)) :
    inHand f v t = tally f q h := by
  simp [inHand, ht]

omit [DecidableEq T] in
theorem inHand_none (ht : v.task t = none) : inHand f v t = 0 := by
  simp [inHand, ht]

omit [DecidableEq T] in
theorem inHand_le (hle : ∀ q h, J q h → tally spend q h ≤ tally earn q h)
    (hv : ∀ t q h, v.task t = some (q, h) → J q h) (t : T) : inHand spend v t ≤ inHand earn v t := by
  unfold inHand
  split
  · rename_i q h ht
    exact hle q h (hv t q h ht)
  · exact Nat.le_refl 0

/-- One thread: what it spends in a run, with what the request in progress had spent before, is
bounded by what it earns, likewise. -/
theorem calls_thread (hP : m.Follows P) (hJ₀ : ∀ q, J q [])
    (hJ : ∀ q h o r, J q h → P.may q h o → J q (⟨o, r⟩ :: h))
    (hle : ∀ q h, J q h → tally spend q h ≤ tally earn q h) (t : T) :
    ∀ (as : List (Action T Req Ans)) (c : Config Op Res σ T Req Out), OnTrack P c →
      (∀ u q h, c.view.task u = some (q, h) → J q h) →
      (m.calls c as).countP (fun x => x.counts spend && decide (x.thread = t)) +
          inHand spend c.view t ≤
        (m.calls c as).countP (fun x => x.counts earn && decide (x.thread = t)) +
          inHand earn c.view t := by
  intro as
  induction as with
  | nil =>
      intro c _ hc
      simpa [calls] using inHand_le hle hc t
  | cons a as ih =>
      intro c htrack hc
      cases hs : m.step c a with
      | none => simpa [calls, hs] using inHand_le hle hc t
      | some x =>
          obtain ⟨l, c'⟩ := x
          obtain ⟨hmove, htrack'⟩ := step_refines hP htrack hs
          have hc' : ∀ u q h, c'.view.task u = some (q, h) → J q h :=
            hmove.tasks (J := fun _ _ q h => J q h) hc (fun _ => hJ₀ _)
              (fun {_ q h o _ r _} _ hu hmay _ => hJ q h o r (hc _ _ _ hu) hmay)
              fun _ _ _ _ u q' h' _ hu => hc u q' h' hu
          have hnext := ih c' htrack' hc'
          generalize c'.view = v' at hmove hnext
          -- a request that starts has counted nothing; one that ends was balanced
          cases hmove with
          | @start u q hu =>
              simp only [calls, hs]
              by_cases hut : t = u
              · subst hut
                rw [inHand_some (View.put_self _ _ _ _), inHand_some (View.put_self _ _ _ _)] at hnext
                rw [inHand_none hu, inHand_none hu]
                exact hnext
              · rwa [inHand_other _ hut, inHand_other _ hut] at hnext
          | @did u q h o a r s hu hmay he =>
              simp only [calls, hs, hu, List.countP_cons]
              by_cases hut : t = u
              · subst hut
                rw [inHand_some (View.put_self _ _ _ _), inHand_some (View.put_self _ _ _ _)] at hnext
                rw [inHand_some hu, inHand_some hu]
                simp only [tally, Made.counts, decide_true, Bool.and_true] at hnext ⊢
                have hbit : ∀ b : Bool, (if b = true then 1 else 0) = b.toNat := by decide
                rw [hbit, hbit]
                omega
              · rw [inHand_other _ hut, inHand_other _ hut] at hnext
                simpa [Ne.symm hut] using hnext
          | @finish u q h out hu hdone =>
              simp only [calls, hs]
              by_cases hut : t = u
              · subst hut
                rw [inHand_none (View.put_self _ _ _ _), inHand_none (View.put_self _ _ _ _)] at hnext
                exact Nat.add_le_add hnext (inHand_le hle hc t)
              · rwa [inHand_other _ hut, inHand_other _ hut] at hnext
          | @crash u =>
              simp only [calls, hs]
              by_cases hut : t = u
              · subst hut
                rw [inHand_none (View.put_self _ _ _ _), inHand_none (View.put_self _ _ _ _)] at hnext
                exact Nat.add_le_add hnext (inHand_le hle hc t)
              · rwa [inHand_other _ hut, inHand_other _ hut] at hnext

/-- Any group of threads: from an idle start, what it spends in a run is bounded by what it
earns. -/
theorem calls_balance (hP : m.Follows P) (hJ₀ : ∀ q, J q [])
    (hJ : ∀ q h o r, J q h → P.may q h o → J q (⟨o, r⟩ :: h))
    (hle : ∀ q h, J q h → tally spend q h ≤ tally earn q h) (group : T → Bool) (s : σ)
    (as : List (Action T Req Ans)) :
    (m.calls (.idle s) as).countP (fun x => x.counts spend && group x.thread) ≤
      (m.calls (.idle s) as).countP fun x => x.counts earn && group x.thread := by
  refine countP_le_of_threads Made.thread _ (Nat.le_refl _) fun t => ?_
  have hthread := calls_thread hP hJ₀ hJ hle t as (.idle s) (onTrack_idle s) nofun
  by_cases ht : group t = true
  · have hgroup : ∀ f : Req → Hist Op Res → Ev Op Res → Bool,
        (m.calls (.idle s) as).countP
            (fun x => (x.counts f && group x.thread) && decide (x.thread = t)) =
          (m.calls (.idle s) as).countP fun x => x.counts f && decide (x.thread = t) := by
      intro f
      refine List.countP_congr fun x _ => ?_
      by_cases hx : x.thread = t
      · simp [hx, ht]
      · simp [hx]
    rw [hgroup, hgroup]
    exact hthread
  · have hnone : (m.calls (.idle s) as).countP
        (fun x => (x.counts spend && group x.thread) && decide (x.thread = t)) = 0 := by
      refine List.countP_eq_zero.2 fun x _ => ?_
      by_cases hx : x.thread = t
      · simp [hx, ht]
      · simp [hx]
    rw [hnone]
    exact Nat.zero_le _

/-! ## A bounded potential -/

/-- How many moves of a run satisfy `p`. -/
def count (m : Machine Op Res σ T Req Out Ans)
    (p : View Op Res σ T Req → Label Op Res T Req Out → View Op Res σ T Req → Bool)
    (c : Config Op Res σ T Req Out) : List (Action T Req Ans) → Nat
  | [] => 0
  | a :: as =>
      match m.step c a with
      | some (l, c') => (p c.view l c'.view).toNat + count m p c' as
      | none => 0

/-- When every move that counts raises `φ`, no move lowers it, and it is at most `max` after a move
that counts, at most `max` moves count. -/
theorem count_le_of_potential {max : Nat} (φ : View Op Res σ T Req → Nat)
    {p : View Op Res σ T Req → Label Op Res T Req Out → View Op Res σ T Req → Bool} :
    ∀ {as : List (Action T Req Ans)} {c : Config Op Res σ T Req Out},
      m.Meets (fun v l v' => (p v l v').toNat + φ v ≤ φ v' ∧ (p v l v' = true → φ v' ≤ max)) c as →
      m.count p c as = 0 ∨ m.count p c as + φ c.view ≤ max := by
  intro as
  induction as with
  | nil => intros; exact .inl rfl
  | cons a as ih =>
      intro c hmeets
      simp only [Meets, count] at hmeets ⊢
      cases hs : m.step c a with
      | none => exact .inl rfl
      | some x =>
          obtain ⟨l, c'⟩ := x
          rw [hs] at hmeets
          obtain ⟨⟨hraise, hmax⟩, hrest⟩ := hmeets
          dsimp only at hraise hmax ⊢
          rcases ih hrest with hnone | hsome
          · cases hp : p c.view l c'.view with
            | false => simp [hnone]
            | true =>
                have hle := hmax hp
                rw [hp] at hraise
                simp only [Bool.toNat_true] at hraise ⊢
                exact .inr (by omega)
          · exact .inr (by omega)

/-! ## A measure that only grows -/

/-- What no call lowers is not lower at the end of a run. -/
theorem step_le {f : σ → Nat}
    (hf : ∀ {s t o a r s'}, m.exec s t o a = some (r, s') → f s ≤ f s')
    {c c' : Config Op Res σ T Req Out} {a : Action T Req Ans} {l : Label Op Res T Req Out}
    (h : m.step c a = some (l, c')) : f c.shared ≤ f c'.shared := by
  have hmove := (step_refines (P := ⟨fun _ _ _ => True, fun _ _ _ => True⟩)
    (fun q => Prog.conforms_of_all (fun _ _ => trivial) fun _ _ => trivial)
    (fun _ _ _ => Prog.conforms_of_all (fun _ _ => trivial) fun _ _ => trivial) h).1
  rw [← Config.view_shared c, ← Config.view_shared c']
  generalize c.view = v at hmove
  generalize c'.view = v' at hmove
  cases hmove with
  | did _ _ he => exact hf he
  | start _ => exact le_rfl
  | finish _ _ => exact le_rfl
  | crash => exact le_rfl

theorem run_le {f : σ → Nat} (hf : ∀ {s t o a r s'}, m.exec s t o a = some (r, s') → f s ≤ f s') :
    ∀ {as : List (Action T Req Ans)} {c c' : Config Op Res σ T Req Out},
      m.run c as = some c' → f c.shared ≤ f c'.shared := by
  intro as
  induction as with
  | nil =>
      intro c c' h
      obtain rfl : c = c' := by simpa [run] using h
      exact le_rfl
  | cons a as ih =>
      intro c c' h
      cases hs : m.step c a with
      | none => simp [run, hs] at h
      | some x =>
          simp only [run, hs] at h
          exact (step_le hf hs).trans (ih h)

/-- On the way it was nowhere higher than at the end. -/
theorem meets_le_last {f : σ → Nat}
    (hf : ∀ {s t o a r s'}, m.exec s t o a = some (r, s') → f s ≤ f s') :
    ∀ {as : List (Action T Req Ans)} {c c' : Config Op Res σ T Req Out},
      m.run c as = some c' → m.Meets (fun _ _ v' => f v'.shared ≤ f c'.shared) c as := by
  intro as
  induction as with
  | nil => intros; trivial
  | cons a as ih =>
      intro c c' h
      simp only [Meets]
      cases hs : m.step c a with
      | none => trivial
      | some x =>
          simp only [run, hs] at h
          exact ⟨run_le hf h, ih h⟩

end Machine

end Interleave
end CertsManager
