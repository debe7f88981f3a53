import CertsManager.Interleave.Pool

/-!
# Via — a program run on other calls than the ones it was written with

A component that was modelled on its own is used inside a larger one, where each of its calls is a
program of the larger one's calls.  `Prog.via f p` is `p` with every call `o` replaced by `f o`.

* `Calls.via` carries over what every call satisfies;
* `Keeps.via` carries over what every call keeps.
-/

namespace CertsManager
namespace Interleave

variable {Op Op' : Type} {Res : Op → Type} {Res' : Op' → Type} {α β : Type}

namespace Prog

/-- Every call of the program replaced by a program. -/
def via (f : (o : Op) → Prog Op' Res' (Res o)) : Prog Op Res α → Prog Op' Res' α
  | .ret a => .ret a
  | .call o k => (f o).bind fun r => (k r).via f

variable {f : (o : Op) → Prog Op' Res' (Res o)}

@[simp] theorem via_pure (a : α) : (pure a : Prog Op Res α).via f = pure a :=
  rfl

@[simp] theorem via_perform (o : Op) : (perform o : Prog Op Res (Res o)).via f = f o :=
  bind_pure (f o)

@[simp] theorem via_bind (p : Prog Op Res α) (g : α → Prog Op Res β) :
    (p >>= g).via f = p.via f >>= fun a => (g a).via f := by
  show (p.bind g).via f = (p.via f).bind fun a => (g a).via f
  induction p with
  | ret a => rfl
  | call o k ih =>
      calc ((Prog.call o k).bind g).via f
          = (f o).bind fun r => ((k r).bind g).via f := rfl
        _ = (f o).bind fun r => ((k r).via f).bind fun a => (g a).via f := by simp only [ih]
        _ = ((f o).bind fun r => (k r).via f).bind fun a => (g a).via f :=
            (bind_assoc (f o) (fun r => (k r).via f) fun a => (g a).via f).symm

theorem Calls.via {P : Op → Prop} {P' : Op' → Prop} {p : Prog Op Res α} (hp : p.Calls P)
    (hf : ∀ o, P o → (f o).Calls P') : (p.via f).Calls P' := by
  induction p with
  | ret a => exact Calls.pure a
  | call o k ih =>
      have hcall := hp []
      exact (hf o hcall.1).bind fun r => ih r (calls_of_conforms (hcall.2 r))

/-- What every replaced call keeps, the whole program keeps. -/
theorem Keeps.via {may : Hist Op' Res' → Op' → Prop} {I : Hist Op' Res' → Prop}
    (hf : ∀ o, (f o).Keeps may I) (p : Prog Op Res α) : (p.via f).Keeps may I := by
  induction p with
  | ret a => exact Keeps.pure a
  | call o k ih => exact (hf o).bind fun r => ih r

end Prog

end Interleave
end CertsManager
