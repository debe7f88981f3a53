import Mathlib

/-!
# Prog — programs that call an environment, and what they may call when

A concurrent program is written once, as a tree of calls to its environment; every point at which
another thread may run is a call of that tree.  This file provides:

* `Prog Op Res α` — a program whose operations are `Op`, whose replies to `o` have type `Res o`
  and which returns an `α`, with its monad structure;
* `Hist` — the calls one execution has made and the replies it got, newest first;
* `Prog.Conforms may p h Q` — along every path of `p` (every reply of every call), started after
  the history `h`, each call is one that `may` allows after what was seen before it, and the
  history and the value at the end satisfy `Q`.

`Conforms` mentions no state and no other thread.  It is the whole of the reasoning about program
text: what a pool of such programs does together is then argued on histories alone.
-/

namespace CertsManager
namespace Interleave

variable {Op : Type} {Res : Op → Type} {α β : Type}

/-! ## Programs -/

inductive Prog (Op : Type) (Res : Op → Type) (α : Type) where
  | ret (a : α) : Prog Op Res α
  | call (o : Op) (k : Res o → Prog Op Res α) : Prog Op Res α

namespace Prog

protected def bind : Prog Op Res α → (α → Prog Op Res β) → Prog Op Res β
  | .ret a, f => f a
  | .call o k, f => .call o fun r => (k r).bind f

instance : Monad (Prog Op Res) where
  pure := .ret
  bind := Prog.bind

/-- One call, returning its reply. -/
def perform (o : Op) : Prog Op Res (Res o) :=
  .call o .ret

end Prog

/-! ## Histories -/

/-- One call an execution made, with the reply it got. -/
structure Ev (Op : Type) (Res : Op → Type) where
  op : Op
  res : Res op

/-- The calls an execution has made so far, newest first. -/
abbrev Hist (Op : Type) (Res : Op → Type) : Type :=
  List (Ev Op Res)

/-! ## Conformance -/

namespace Prog

/-- Every path of the program keeps to `may` and ends in `Q`. -/
def Conforms (may : Hist Op Res → Op → Prop) :
    Prog Op Res α → Hist Op Res → (Hist Op Res → α → Prop) → Prop
  | .ret a, h, Q => Q h a
  | .call o k, h, Q => may h o ∧ ∀ r, (k r).Conforms may (⟨o, r⟩ :: h) Q

variable {may : Hist Op Res → Op → Prop} {h : Hist Op Res}

@[simp] theorem conforms_ret {a : α} {Q : Hist Op Res → α → Prop} :
    (Prog.ret a : Prog Op Res α).Conforms may h Q ↔ Q h a :=
  Iff.rfl

@[simp] theorem conforms_pure {a : α} {Q : Hist Op Res → α → Prop} :
    (pure a : Prog Op Res α).Conforms may h Q ↔ Q h a :=
  Iff.rfl

@[simp] theorem conforms_perform {o : Op} {Q : Hist Op Res → Res o → Prop} :
    (perform o : Prog Op Res (Res o)).Conforms may h Q ↔
      may h o ∧ ∀ r, Q (⟨o, r⟩ :: h) r :=
  Iff.rfl

@[simp] theorem conforms_bind {p : Prog Op Res α} {f : α → Prog Op Res β}
    {Q : Hist Op Res → β → Prop} :
    (p >>= f).Conforms may h Q ↔ p.Conforms may h fun h' a => (f a).Conforms may h' Q := by
  show (p.bind f).Conforms may h Q ↔ _
  induction p generalizing h with
  | ret a => exact Iff.rfl
  | call o k ih =>
      constructor
      · rintro ⟨hmay, hk⟩
        exact ⟨hmay, fun r => (ih r).1 (hk r)⟩
      · rintro ⟨hmay, hk⟩
        exact ⟨hmay, fun r => (ih r).2 (hk r)⟩

@[simp] theorem conforms_map {p : Prog Op Res α} {f : α → β} {Q : Hist Op Res → β → Prop} :
    (f <$> p).Conforms may h Q ↔ p.Conforms may h fun h' a => Q h' (f a) :=
  conforms_bind

/-- The rule of consequence: a conforming program conforms to every weaker end condition. -/
theorem Conforms.mono {p : Prog Op Res α} {Q Q' : Hist Op Res → α → Prop}
    (hp : p.Conforms may h Q) (hQ : ∀ h' a, Q h' a → Q' h' a) : p.Conforms may h Q' := by
  induction p generalizing h with
  | ret a => exact hQ h a hp
  | call o k ih => exact ⟨hp.1, fun r => ih r (hp.2 r)⟩

/-- A program conforms to every more permissive protocol. -/
theorem Conforms.weaken {may' : Hist Op Res → Op → Prop} {p : Prog Op Res α}
    {Q : Hist Op Res → α → Prop} (hp : p.Conforms may h Q) (hmay : ∀ h o, may h o → may' h o) :
    p.Conforms may' h Q := by
  induction p generalizing h with
  | ret a => exact hp
  | call o k ih => exact ⟨hmay h o hp.1, fun r => ih r (hp.2 r)⟩

/-- Every program conforms to a protocol that allows everything. -/
theorem conforms_of_all {p : Prog Op Res α} {Q : Hist Op Res → α → Prop} (hmay : ∀ h o, may h o)
    (hQ : ∀ h a, Q h a) : p.Conforms may h Q := by
  induction p generalizing h with
  | ret a => exact hQ h a
  | call o k ih => exact ⟨hmay h o, fun r => ih r⟩

/-- A program only adds to the history it started after. -/
theorem Conforms.extends {p : Prog Op Res α} {Q : Hist Op Res → α → Prop}
    (hp : p.Conforms may h Q) : p.Conforms may h fun h' a => h <:+ h' ∧ Q h' a := by
  induction p generalizing h with
  | ret a => exact ⟨List.suffix_refl h, hp⟩
  | call o k ih =>
      refine ⟨hp.1, fun r => (ih r (hp.2 r)).mono fun h' a hQ => ⟨?_, hQ.2⟩⟩
      exact (List.suffix_cons _ h).trans hQ.1

/-- Sequencing, with the knowledge that the second part runs after an extension of `h`. -/
theorem Conforms.bind {p : Prog Op Res α} {f : α → Prog Op Res β} {R : Hist Op Res → α → Prop}
    {Q : Hist Op Res → β → Prop} (hp : p.Conforms may h R)
    (hf : ∀ h' a, h <:+ h' → R h' a → (f a).Conforms may h' Q) : (p >>= f).Conforms may h Q :=
  conforms_bind.2 (hp.extends.mono fun h' a hR => hf h' a hR.1 hR.2)

/-- Conforming to two protocols is conforming to both at once. -/
theorem Conforms.and {may' : Hist Op Res → Op → Prop} {p : Prog Op Res α}
    {Q Q' : Hist Op Res → α → Prop} (hp : p.Conforms may h Q) (hp' : p.Conforms may' h Q') :
    p.Conforms (fun h o => may h o ∧ may' h o) h fun h' a => Q h' a ∧ Q' h' a := by
  induction p generalizing h with
  | ret a => exact ⟨hp, hp'⟩
  | call o k ih => exact ⟨⟨hp.1, hp'.1⟩, fun r => ih r (hp.2 r) (hp'.2 r)⟩

/-- Every call the program can make satisfies `P`. -/
def Calls (P : Op → Prop) (p : Prog Op Res α) : Prop :=
  ∀ h, p.Conforms (fun _ o => P o) h fun _ _ => True

theorem Calls.mono {P P' : Op → Prop} {p : Prog Op Res α} (hp : p.Calls P)
    (hPP' : ∀ o, P o → P' o) : p.Calls P' :=
  fun h => (hp h).weaken fun _ o => hPP' o

theorem Calls.pure {P : Op → Prop} (a : α) : (Pure.pure a : Prog Op Res α).Calls P :=
  fun _ => trivial

theorem Calls.perform {P : Op → Prop} {o : Op} (ho : P o) :
    (Prog.perform o : Prog Op Res (Res o)).Calls P :=
  fun _ => ⟨ho, fun _ => trivial⟩

theorem Calls.bind {P : Op → Prop} {p : Prog Op Res α} {f : α → Prog Op Res β} (hp : p.Calls P)
    (hf : ∀ a, (f a).Calls P) : (p >>= f).Calls P :=
  fun h => (hp h).bind fun h' a _ _ => hf a h'

/-- Calls of one kind keep what each of them keeps. -/
theorem Calls.keeps {P : Op → Prop} {I : Hist Op Res → Prop} {p : Prog Op Res α} (hp : p.Calls P)
    (hI : ∀ h o, I h → P o → may h o ∧ ∀ r, I (⟨o, r⟩ :: h)) (hh : I h) :
    p.Conforms may h fun h' _ => I h' := by
  replace hp := hp h
  induction p generalizing h with
  | ret a => exact hh
  | call o k ih =>
      obtain ⟨hmay, hnext⟩ := hI h o hh hp.1
      exact ⟨hmay, fun r => ih r (hnext r) (hp.2 r)⟩

/-- Started where `I` holds, the program makes permitted calls only and ends where it holds. -/
def Keeps (may : Hist Op Res → Op → Prop) (I : Hist Op Res → Prop) (p : Prog Op Res α) : Prop :=
  ∀ h, I h → p.Conforms may h fun h' _ => I h'

section Keeps

variable {I : Hist Op Res → Prop}

theorem Keeps.pure (a : α) : (Pure.pure a : Prog Op Res α).Keeps may I :=
  fun _ hh => hh

theorem Keeps.perform {o : Op} (ho : ∀ h, I h → may h o ∧ ∀ r, I (⟨o, r⟩ :: h)) :
    (Prog.perform o : Prog Op Res (Res o)).Keeps may I :=
  fun h hh => ho h hh

theorem Keeps.bind {p : Prog Op Res α} {f : α → Prog Op Res β} (hp : p.Keeps may I)
    (hf : ∀ a, (f a).Keeps may I) : (p >>= f).Keeps may I :=
  fun h hh => (hp h hh).bind fun h' a _ hI => hf a h' hI

end Keeps

/-- A program whose calls are all allowed conforms, and adds only such calls to the history. -/
theorem Calls.conforms {P : Op → Prop} {p : Prog Op Res α} (hp : p.Calls P)
    (hmay : ∀ h o, P o → may h o) :
    p.Conforms may h fun h' _ => ∃ l, h' = l ++ h ∧ ∀ e ∈ l, P e.op := by
  replace hp := hp h
  induction p generalizing h with
  | ret a => exact ⟨[], rfl, by simp⟩
  | call o k ih =>
      refine ⟨hmay h o hp.1, fun r => (ih r (hp.2 r)).mono ?_⟩
      rintro h' a ⟨l, rfl, hl⟩
      refine ⟨l ++ [⟨o, r⟩], by simp, ?_⟩
      intro e he
      rcases List.mem_append.1 he with he | he
      · exact hl e he
      · obtain rfl := List.mem_singleton.1 he
        exact hp.1

/-- What a program calls does not depend on what was called before it. -/
theorem calls_of_conforms {P : Op → Prop} {p : Prog Op Res α}
    (hp : p.Conforms (fun _ o => P o) h fun _ _ => True) : p.Calls P := by
  intro h'
  induction p generalizing h h' with
  | ret a => trivial
  | call o k ih => exact ⟨hp.1, fun r => ih r (hp.2 r) _⟩

/-! ## One call of another kind -/

/-- Every call satisfies `P`, except for at most one on each path, which satisfies `Q`. -/
def Once (P Q : Op → Prop) : Prog Op Res α → Prop
  | .ret _ => True
  | .call o k => (P o ∧ ∀ r, (k r).Once P Q) ∨ (Q o ∧ ∀ r, (k r).Calls P)

variable {P Q : Op → Prop}

theorem Calls.once {p : Prog Op Res α} (hp : p.Calls P) : p.Once P Q := by
  induction p with
  | ret a => trivial
  | call o k ih =>
      have hcall := hp []
      exact .inl ⟨hcall.1, fun r => ih r (calls_of_conforms (hcall.2 r))⟩

theorem Once.perform {o : Op} (ho : Q o) : (Prog.perform o : Prog Op Res (Res o)).Once P Q :=
  .inr ⟨ho, fun r => Calls.pure r⟩

/-- The call comes after. -/
theorem Calls.bind_once {p : Prog Op Res α} {f : α → Prog Op Res β} (hp : p.Calls P)
    (hf : ∀ a, (f a).Once P Q) : (p >>= f).Once P Q := by
  show (p.bind f).Once P Q
  induction p with
  | ret a => exact hf a
  | call o k ih =>
      have hcall := hp []
      exact .inl ⟨hcall.1, fun r => ih r (calls_of_conforms (hcall.2 r))⟩

/-- The call comes before. -/
theorem Once.bind {p : Prog Op Res α} {f : α → Prog Op Res β} (hp : p.Once P Q)
    (hf : ∀ a, (f a).Calls P) : (p >>= f).Once P Q := by
  show (p.bind f).Once P Q
  induction p with
  | ret a => exact (hf a).once
  | call o k ih =>
      rcases hp with ⟨ho, hk⟩ | ⟨ho, hk⟩
      · exact .inl ⟨ho, fun r => ih r (hk r)⟩
      · exact .inr ⟨ho, fun r => (hk r).bind hf⟩

theorem Once.mono {P' Q' : Op → Prop} {p : Prog Op Res α} (hp : p.Once P Q)
    (hPP' : ∀ o, P o → P' o) (hQQ' : ∀ o, Q o → Q' o) : p.Once P' Q' := by
  induction p with
  | ret a => trivial
  | call o k ih =>
      rcases hp with ⟨ho, hk⟩ | ⟨ho, hk⟩
      · exact .inl ⟨hPP' o ho, fun r => ih r (hk r)⟩
      · exact .inr ⟨hQQ' o ho, fun r => (hk r).mono hPP'⟩

/-- What all the calls have in common, the one included. -/
theorem Once.calls {R : Op → Prop} {p : Prog Op Res α} (hp : p.Once P Q)
    (hPR : ∀ o, P o → R o) (hQR : ∀ o, Q o → R o) : p.Calls R := by
  intro h
  induction p generalizing h with
  | ret a => trivial
  | call o k ih =>
      rcases hp with ⟨ho, hk⟩ | ⟨ho, hk⟩
      · exact ⟨hPR o ho, fun r => ih r (hk r) _⟩
      · exact ⟨hQR o ho, fun r => (hk r).mono hPR _⟩

/-- What holds of the history up to the one call allows it. -/
theorem Once.conforms {I : Hist Op Res → Prop} {p : Prog Op Res α} (hp : p.Once P Q)
    (hP : ∀ h o, P o → may h o) (hI : ∀ h o, I h → P o → ∀ r, I (⟨o, r⟩ :: h))
    (hQ : ∀ h o, I h → Q o → may h o) (hh : I h) : p.Conforms may h fun _ _ => True := by
  induction p generalizing h with
  | ret a => trivial
  | call o k ih =>
      rcases hp with ⟨ho, hk⟩ | ⟨ho, hk⟩
      · exact ⟨hP h o ho, fun r => ih r (hk r) (hI h o hh ho r)⟩
      · refine ⟨hQ h o hh ho, fun r => ?_⟩
        exact ((hk r).conforms hP).mono fun _ _ _ => trivial

/-! ## One run of a sub-program -/

theorem bind_assoc {γ : Type} (p : Prog Op Res α) (f : α → Prog Op Res β) (g : β → Prog Op Res γ) :
    (p >>= f) >>= g = p >>= fun a => f a >>= g := by
  show (p.bind f).bind g = p.bind fun a => (f a).bind g
  induction p with
  | ret a => rfl
  | call o k ih => exact congrArg (Prog.call o) (funext ih)

theorem bind_pure (p : Prog Op Res α) : (p >>= pure) = p := by
  show p.bind .ret = p
  induction p with
  | ret a => rfl
  | call o k ih => exact congrArg (Prog.call o) (funext ih)

/-- Calls that satisfy `P`, around at most one run of a program that satisfies `S`. -/
inductive Around (P : Op → Prop) (S : Prog Op Res β → Prop) : Prog Op Res α → Prop
  | calls {p : Prog Op Res α} (hp : p.Calls P) : Around P S p
  | before {γ : Type} {p : Prog Op Res γ} {f : γ → Prog Op Res α} (hp : p.Calls P)
      (hf : ∀ a, Around P S (f a)) : Around P S (p >>= f)
  | sub {s : Prog Op Res β} {f : β → Prog Op Res α} (hs : S s) (hf : ∀ b, (f b).Calls P) :
      Around P S (s >>= f)

namespace Around

variable {S : Prog Op Res β → Prop} {p : Prog Op Res α}

theorem bind {γ : Type} {f : α → Prog Op Res γ} (hp : p.Around P S) (hf : ∀ a, (f a).Calls P) :
    (p >>= f).Around P S := by
  induction hp with
  | calls hp => exact calls (hp.bind hf)
  | before hp _ ih =>
      rw [bind_assoc]
      exact before hp fun a => ih a
  | sub hs hg =>
      rw [bind_assoc]
      exact sub hs fun b => (hg b).bind hf

theorem weaken {S' : Prog Op Res β → Prop} (hp : p.Around P S) (hSS' : ∀ s, S s → S' s) :
    p.Around P S' := by
  induction hp with
  | calls hp => exact calls hp
  | before hp _ ih => exact before hp ih
  | sub hs hf => exact sub (hSS' _ hs) hf

/-- What the other calls keep is there when the sub-program runs. -/
theorem conforms {I : Hist Op Res → Prop} (hp : p.Around P S) (hP : ∀ h o, P o → may h o)
    (hI : ∀ h o, I h → P o → ∀ r, I (⟨o, r⟩ :: h))
    (hS : ∀ s h, S s → I h → s.Conforms may h fun _ _ => True) (hh : I h) :
    p.Conforms may h fun _ _ => True := by
  induction hp generalizing h with
  | calls hp => exact (hp.conforms hP).mono fun _ _ _ => trivial
  | before hp _ ih =>
      refine (hp.keeps (fun h o hi ho => ⟨hP h o ho, hI h o hi ho⟩) hh).bind fun h' a _ hi => ?_
      exact ih a hi
  | sub hs hf =>
      refine (hS _ _ hs hh).bind fun h' b _ _ => ?_
      exact ((hf b).conforms hP).mono fun _ _ _ => trivial

/-- A call the sub-program makes once is made once. -/
theorem once {P' : Op → Prop} (hp : p.Around P S) (hPP' : ∀ o, P o → P' o)
    (hS : ∀ s, S s → s.Once P' Q) : p.Once P' Q := by
  induction hp with
  | calls hp => exact (hp.mono hPP').once
  | before hp _ ih => exact (hp.mono hPP').bind_once ih
  | sub hs hf => exact (hS _ hs).bind fun b => (hf b).mono hPP'

end Around

end Prog

end Interleave
end CertsManager
