import CertsManager.Interleave.Prog

/-!
# Solo — one program run alone

A run of a program from a state, with the replies `next` allows: the calls it made, oldest first,
the value it returned and the state it left.  Two runs of one program that start with the same calls
and replies are the same run, whatever states they went through (`Runs.unique`).
-/

namespace CertsManager
namespace Interleave

variable {Op : Type} {Res : Op → Type} {σ α β : Type}

namespace Prog

/-- `next s e s'`: in `s` the call of `e` may be given the reply of `e`, and leaves `s'`. -/
def Runs (next : σ → Ev Op Res → σ → Prop) :
    Prog Op Res α → σ → List (Ev Op Res) → α → σ → Prop
  | .ret a, s, h, out, s' => h = [] ∧ out = a ∧ s' = s
  | .call o k, s, h, out, s' =>
      ∃ r s₁ h', h = ⟨o, r⟩ :: h' ∧ next s ⟨o, r⟩ s₁ ∧ (k r).Runs next s₁ h' out s'

variable {next : σ → Ev Op Res → σ → Prop} {s s' : σ} {h : List (Ev Op Res)}

@[simp] theorem runs_pure {a out : α} :
    (pure a : Prog Op Res α).Runs next s h out s' ↔ h = [] ∧ out = a ∧ s' = s :=
  Iff.rfl

@[simp] theorem runs_perform {o : Op} {out : Res o} :
    (perform o : Prog Op Res (Res o)).Runs next s h out s' ↔
      h = [⟨o, out⟩] ∧ next s ⟨o, out⟩ s' := by
  constructor
  · rintro ⟨r, s₁, h', rfl, hnext, rfl, rfl, rfl⟩
    exact ⟨rfl, hnext⟩
  · rintro ⟨rfl, hnext⟩
    exact ⟨out, s', [], rfl, hnext, rfl, rfl, rfl⟩

/-- A run of a sequence is a run of its first part and one of what follows. -/
theorem runs_bind {p : Prog Op Res α} {f : α → Prog Op Res β} {out : β} :
    (p >>= f).Runs next s h out s' ↔
      ∃ h₁ a s₁ h₂, h = h₁ ++ h₂ ∧ p.Runs next s h₁ a s₁ ∧ (f a).Runs next s₁ h₂ out s' := by
  show (p.bind f).Runs next s h out s' ↔ _
  induction p generalizing s h with
  | ret a =>
      constructor
      · intro hrun
        exact ⟨[], a, s, h, rfl, ⟨rfl, rfl, rfl⟩, hrun⟩
      · rintro ⟨h₁, a', s₁, h₂, rfl, ⟨rfl, rfl, rfl⟩, hrun⟩
        exact hrun
  | call o k ih =>
      constructor
      · rintro ⟨r, s₁, h', rfl, hnext, hrun⟩
        obtain ⟨h₁, a, s₂, h₂, rfl, hfirst, hrest⟩ := (ih r).1 hrun
        exact ⟨⟨o, r⟩ :: h₁, a, s₂, h₂, rfl, ⟨r, s₁, h₁, rfl, hnext, hfirst⟩, hrest⟩
      · rintro ⟨h₁, a, s₂, h₂, rfl, ⟨r, s₁, h', rfl, hnext, hfirst⟩, hrest⟩
        exact ⟨r, s₁, h' ++ h₂, rfl, hnext, (ih r).2 ⟨h', a, s₂, h₂, rfl, hfirst, hrest⟩⟩

/-- A run of one call and what follows it. -/
theorem runs_perform_bind {o : Op} {f : Res o → Prog Op Res β} {out : β} :
    (perform o >>= f).Runs next s h out s' ↔
      ∃ r s₁ h', h = ⟨o, r⟩ :: h' ∧ next s ⟨o, r⟩ s₁ ∧ (f r).Runs next s₁ h' out s' :=
  Iff.rfl

variable {p : Prog Op Res α} {out : α}

theorem Calls.mem_runs {P : Op → Prop} (hp : p.Calls P) (hrun : p.Runs next s h out s') :
    ∀ e ∈ h, P e.op := by
  induction p generalizing s h with
  | ret a =>
      obtain ⟨rfl, -, -⟩ := hrun
      simp
  | call o k ih =>
      obtain ⟨r, s₁, h', rfl, -, hrest⟩ := hrun
      have hcall := hp []
      exact List.forall_mem_cons.2 ⟨hcall.1, ih r (calls_of_conforms (hcall.2 r)) hrest⟩

/-- What every path of the program ends in, its run ends in. -/
theorem Conforms.runs {may : Hist Op Res → Op → Prop} {h₀ : Hist Op Res}
    {Q : Hist Op Res → α → Prop} (hp : p.Conforms may h₀ Q) (hrun : p.Runs next s h out s') :
    Q (h.reverse ++ h₀) out := by
  induction p generalizing s h h₀ with
  | ret a =>
      obtain ⟨rfl, rfl, -⟩ := hrun
      exact hp
  | call o k ih =>
      obtain ⟨r, s₁, h', rfl, -, hrest⟩ := hrun
      simpa using ih r (hp.2 r) hrest

/-- How each call relates the states around it, the run relates its ends. -/
theorem Runs.relates {P : Op → Prop} {R : σ → σ → Prop} (hrefl : ∀ s, R s s)
    (htrans : ∀ {s₁ s₂ s₃}, R s₁ s₂ → R s₂ s₃ → R s₁ s₃)
    (hstep : ∀ s e s', next s e s' → P e.op → R s s') (hP : ∀ e ∈ h, P e.op)
    (hrun : p.Runs next s h out s') : R s s' := by
  induction p generalizing s h with
  | ret a =>
      obtain ⟨-, -, rfl⟩ := hrun
      exact hrefl _
  | call o k ih =>
      obtain ⟨r, s₁, h', rfl, hnext, hrest⟩ := hrun
      obtain ⟨he, hP⟩ := List.forall_mem_cons.1 hP
      exact htrans (hstep s _ s₁ hnext he) (ih r hP hrest)

/-- What no call changes is as it was at the end. -/
theorem Runs.keeps {γ : Type} {P : Op → Prop} (f : σ → γ)
    (hf : ∀ s e s', next s e s' → P e.op → f s' = f s) (hP : ∀ e ∈ h, P e.op)
    (hrun : p.Runs next s h out s') : f s' = f s :=
  hrun.relates (R := fun s s' => f s' = f s) (fun _ => rfl) (fun h₁ h₂ => h₂.trans h₁) hf hP

/-- The replies determine the run. -/
theorem Runs.unique {s₁ s₁' : σ} {h₁ rest rest₁ : List (Ev Op Res)} {out₁ : α}
    (hrun : p.Runs next s h out s') (hrun₁ : p.Runs next s₁ h₁ out₁ s₁')
    (heq : h ++ rest = h₁ ++ rest₁) : h = h₁ ∧ out = out₁ := by
  induction p generalizing s s₁ h h₁ with
  | ret a =>
      obtain ⟨rfl, rfl, -⟩ := hrun
      obtain ⟨rfl, rfl, -⟩ := hrun₁
      exact ⟨rfl, rfl⟩
  | call o k ih =>
      obtain ⟨r, s₂, h', rfl, -, hrest⟩ := hrun
      obtain ⟨r₁, s₃, h₁', rfl, -, hrest₁⟩ := hrun₁
      rw [List.cons_append, List.cons_append, List.cons.injEq] at heq
      obtain ⟨hev, heq⟩ := heq
      cases hev
      obtain ⟨rfl, rfl⟩ := ih r hrest hrest₁ heq
      exact ⟨rfl, rfl⟩

/-- Somewhere in the calls `h` there is a run of the program that returned `out`. -/
def Occurs (next : σ → Ev Op Res → σ → Prop) (p : Prog Op Res α) (h : List (Ev Op Res)) (out : α) :
    Prop :=
  ∃ before sub after s s', h = before ++ sub ++ after ∧ p.Runs next s sub out s'

theorem Occurs.of_infix (h₁ : List (Ev Op Res)) {h₂ : List (Ev Op Res)} (hocc : p.Occurs next h out) :
    p.Occurs next (h₁ ++ h ++ h₂) out := by
  obtain ⟨before, sub, after, s, s', rfl, hrun⟩ := hocc
  exact ⟨h₁ ++ before, sub, after ++ h₂, s, s', by simp, hrun⟩

theorem Runs.occurs (hrun : p.Runs next s h out s') : p.Occurs next h out :=
  ⟨[], h, [], s, s', by simp, hrun⟩

/-- A program that starts with a call made only once has one run. -/
theorem Occurs.unique {e : Ev Op Res} {before tail after : List (Ev Op Res)} {out₁ : α}
    (hocc : p.Occurs next (before ++ (e :: tail) ++ after) out₁)
    (hrun : p.Runs next s (e :: tail) out s')
    (hfirst : ∀ {s h out s'}, p.Runs next s h out s' → ∃ h', h = e :: h')
    (hbefore : e ∉ before) (hafter : e ∉ tail ++ after) : out₁ = out := by
  obtain ⟨before₁, sub, after₁, s₁, s₁', heq, hrun₁⟩ := hocc
  obtain ⟨tail₁, rfl⟩ := hfirst hrun₁
  have hsplit : before ++ e :: (tail ++ after) = before₁ ++ e :: (tail₁ ++ after₁) := by
    simpa using heq
  obtain ⟨-, -, htail⟩ := (List.append_cons_inj_of_notMem hbefore hafter).1 hsplit
  have heq : e :: tail₁ ++ after₁ = e :: tail ++ after := by simp [htail]
  exact (hrun₁.unique hrun heq).2

end Prog

/-! ## Running with given answers -/

/-- Run the program, taking the environment's answers from a list. -/
def Prog.answered {Ans : Type} (exec : σ → (o : Op) → Ans → Option (Res o × σ)) :
    Prog Op Res α → σ → List Ans → Option (List (Ev Op Res) × α × σ)
  | .ret a, s, _ => some ([], a, s)
  | .call _ _, _, [] => none
  | .call o k, s, a :: as =>
      match exec s o a with
      | none => none
      | some (r, s') =>
          match (k r).answered exec s' as with
          | none => none
          | some (h, out) => some (⟨o, r⟩ :: h, out)

theorem Prog.runs_of_answered {Ans : Type} {exec : σ → (o : Op) → Ans → Option (Res o × σ)}
    {next : σ → Ev Op Res → σ → Prop}
    (hexec : ∀ {s o a r s'}, exec s o a = some (r, s') → next s ⟨o, r⟩ s')
    {p : Prog Op Res α} {s s' : σ} {as : List Ans} {h : List (Ev Op Res)} {out : α}
    (hrun : p.answered exec s as = some (h, out, s')) : p.Runs next s h out s' := by
  induction p generalizing s as h with
  | ret a =>
      cases hrun
      exact ⟨rfl, rfl, rfl⟩
  | call o k ih =>
      cases as with
      | nil => cases hrun
      | cons a as =>
          simp only [Prog.answered] at hrun
          split at hrun
          · cases hrun
          · rename_i r s₁ hstep
            split at hrun
            · cases hrun
            · rename_i h' out' hrest
              cases hrun
              exact ⟨r, s₁, h', rfl, hexec hstep, ih r hrest⟩

end Interleave
end CertsManager
