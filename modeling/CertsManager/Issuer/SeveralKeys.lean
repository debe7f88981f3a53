import CertsManager.Issuer.OneKey

/-!
# Issuer/SeveralKeys — a paid order's record and the attempts of other keys

An order the CA has issued is paid for; its record is the only way to its certificate.
-/

namespace CertsManager
namespace Issuer

open Interleave

/-- The record of a paid order is overwritten or removed only by an attempt that has the order's
certificate. -/
def KeepsPaid (n : Name) (v : AttemptsView) (_ : AttemptsLabel) (v' : AttemptsView) : Prop :=
  ∀ rec ∈ v.shared.recordOf n, v'.shared.paid rec = true → v'.shared.recordOf n ≠ some rec →
    ∃ k ∈ v.task (), k.1.name = n ∧ ∃ e ∈ k.2, ∃ c ∈ certOf e, rec.orderURL = some c.1

instance (n : Name) (v : AttemptsView) (l : AttemptsLabel) (v' : AttemptsView) :
    Decidable (KeepsPaid n v l v') :=
  inferInstanceAs (Decidable (∀ rec ∈ v.shared.recordOf n, _))

/-- With no attempt for another key while an order is outstanding, and a CA that denies no order it
has, paid orders are kept for their owner. -/
theorem paid_orders_kept (n : Name) (w₀ : World) (as : List (Action Unit Attempt Answer))
    (hknown : w₀.Known n)
    (hrules : attempts.Meets (fun v l v' => Denies v l v' ∧ KeepsOff n v l v') (.idle w₀) as) :
    attempts.Meets (KeepsPaid n) (.idle w₀) as := by
  have hruns := Machine.run_meets attempts_journals
    (fun v l v' hI hm hA => working_move hI hm hA.1 hA.2) as (.idle w₀)
    (Machine.onTrack_idle w₀) (working_idle hknown) hrules
  refine hruns.mono fun v l v' hmove rec hrec hpaid hlost => ?_
  obtain ⟨hm, -, hI, -⟩ := hmove
  obtain ⟨q, h, u, leaf, ht, hname, hu, e, he, hc⟩ :=
    kept_move hI hm hrec (collectable_of_paid hpaid) hlost
  exact ⟨(q, h), ht, hname, e, he, (u, leaf), hc, hu⟩

/-! ## Two keys and one slot -/

theorem paid_orders_kept_collected :
    (attempts.run (.idle .empty) (cutOffAttempt ⟨"a", ⟨1⟩⟩ ++ collectingAttempt ⟨"a", ⟨1⟩⟩)).map
        (fun c => (c.shared.recordOf "a", c.shared.issued 0)) = some (none, true) ∧
      attempts.Meets (KeepsPaid "a") (.idle .empty)
        (cutOffAttempt ⟨"a", ⟨1⟩⟩ ++ collectingAttempt ⟨"a", ⟨1⟩⟩) := by
  refine ⟨by decide +kernel, ?_⟩
  exact paid_orders_kept "a" .empty _ nofun (by decide +kernel)

/-- An attempt for another key orders afresh and journals its own order. -/
def foreignAttempt (q : Attempt) : List (Action Unit Attempt Answer) :=
  .start () q :: replies [{}, {}, {}, { events := [.issued 0 100], authorized := true }, {}, {}]

/-- An attempt for the same key, whose query of the order meets a rate limit. -/
def limitedAttempt (q : Attempt) : List (Action Unit Attempt Answer) :=
  .start () q :: replies [{}, {}, {},
    { events := [.issued 0 100], outcome := .fail, statusCode := some 429 }, {}]

/-- Two ways to lose a paid order: another key's attempt writes its record over it, and a rate
limit on the query of the order is taken for the CA not knowing it. -/
theorem paid_order_lost :
    (attempts.Meets Denies (.idle .empty)
        (cutOffAttempt ⟨"a", ⟨1⟩⟩ ++ foreignAttempt ⟨"a", ⟨2⟩⟩) ∧
      ¬ attempts.Meets (KeepsPaid "a") (.idle .empty)
        (cutOffAttempt ⟨"a", ⟨1⟩⟩ ++ foreignAttempt ⟨"a", ⟨2⟩⟩)) ∧
    (attempts.Meets (KeepsOff "a") (.idle .empty)
        (cutOffAttempt ⟨"a", ⟨1⟩⟩ ++ limitedAttempt ⟨"a", ⟨1⟩⟩) ∧
      ¬ attempts.Meets (KeepsPaid "a") (.idle .empty)
        (cutOffAttempt ⟨"a", ⟨1⟩⟩ ++ limitedAttempt ⟨"a", ⟨1⟩⟩)) := by
  refine ⟨⟨?_, ?_⟩, ?_, ?_⟩ <;> decide +kernel

end Issuer
end CertsManager
