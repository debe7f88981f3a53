import CertsManager.Issuer.Outstanding

/-!
# Issuer/OneKey — attempts for one name and one key, each cut off anywhere

A sequence of attempts for one name with one key collects what it has paid for: a new order is
placed only when none is outstanding under the name's record, the record of an outstanding order
goes only with its certificate, and a certificate comes from the order that is journaled.

Age is counted as the journal counts it.  A record's time is cut to whole seconds, so seven days
later to the nanosecond it already counts as older than seven days; the runs here stay within seven
days of the whole second they begin in.
-/

namespace CertsManager
namespace Issuer

open Interleave

/-! ## The runs -/

def OnlyFor (q₀ : Attempt) (_ : AttemptsView) (l : AttemptsLabel) (_ : AttemptsView) : Prop :=
  ∀ q ∈ begun l, q = q₀

instance (q₀ : Attempt) (v : AttemptsView) (l : AttemptsLabel) (v' : AttemptsView) :
    Decidable (OnlyFor q₀ v l v') :=
  inferInstanceAs (Decidable (∀ q ∈ begun l, q = q₀))

def WritesSucceed (_ : AttemptsView) (l : AttemptsLabel) (_ : AttemptsView) : Prop :=
  ∀ e ∈ called l, writeFailed e = false

instance (v : AttemptsView) (l : AttemptsLabel) (v' : AttemptsView) :
    Decidable (WritesSucceed v l v') :=
  inferInstanceAs (Decidable (∀ e ∈ called l, writeFailed e = false))

/-- At most seven days pass from `t`. -/
def WithinWeekOf (t : Time) (_ : AttemptsView) (_ : AttemptsLabel) (v' : AttemptsView) : Prop :=
  v'.shared.clock ≤ t + orderMaxAge

instance (t : Time) (v : AttemptsView) (l : AttemptsLabel) (v' : AttemptsView) :
    Decidable (WithinWeekOf t v l v') :=
  inferInstanceAs (Decidable (v'.shared.clock ≤ t + orderMaxAge))

/-- Attempts for one name and key, at most seven days after `t`, whose journal writes succeed, with
a CA that denies no order it has. -/
def OneKeyRules (q₀ : Attempt) (t : Time) (v : AttemptsView) (l : AttemptsLabel)
    (v' : AttemptsView) : Prop :=
  OnlyFor q₀ v l v' ∧ WritesSucceed v l v' ∧ WithinWeekOf t v l v' ∧ Denies v l v'

instance (q₀ : Attempt) (t : Time) (v : AttemptsView) (l : AttemptsLabel) (v' : AttemptsView) :
    Decidable (OneKeyRules q₀ t v l v') :=
  inferInstanceAs (Decidable (_ ∧ _ ∧ _ ∧ _))

/-! ## What they keep to -/

def placed : AttemptsLabel → Option Name
  | .did _ ⟨.authorizeOrder domain, _⟩ => some domain
  | _ => none

/-- A new order is placed only when the name's record names no outstanding order. -/
def OrdersAfresh (n : Name) (v : AttemptsView) (l : AttemptsLabel) (_ : AttemptsView) : Prop :=
  ∀ _d ∈ placed l, ∀ rec ∈ v.shared.recordOf n, ∀ u ∈ rec.orderURL, v.shared.outstanding u = false

/-- The record of an outstanding order goes only when the attempt has the order's certificate. -/
def KeepsOutstanding (n : Name) (v : AttemptsView) (_ : AttemptsLabel) (v' : AttemptsView) : Prop :=
  ∀ rec ∈ v.shared.recordOf n, ∀ u ∈ rec.orderURL, v'.shared.outstanding u = true →
    v'.shared.recordOf n ≠ some rec →
      ∃ k ∈ v.task (), ∃ e ∈ k.2, ∃ c ∈ certOf e, c.1 = u

instance (n : Name) (v : AttemptsView) (l : AttemptsLabel) (v' : AttemptsView) :
    Decidable (KeepsOutstanding n v l v') :=
  inferInstanceAs (Decidable (∀ rec ∈ v.shared.recordOf n, ∀ u ∈ rec.orderURL, _))

/-- A certificate is that of the order journaled, and bound to the key. -/
def CollectsJournaled (q₀ : Attempt) (_ : AttemptsView) (l : AttemptsLabel) (v' : AttemptsView) :
    Prop :=
  ∀ e ∈ called l, ∀ c ∈ certOf e,
    c.2.pub = q₀.key.public ∧ ∃ rec ∈ v'.shared.recordOf q₀.name, rec.orderURL = some c.1

/-- The chain an attempt returned. -/
def returned : AttemptsLabel → Option ChainPEM
  | .finish _ _ (.ok pem) => some pem
  | _ => none

/-- An attempt that succeeds returns a certificate it got, bound to the key, and leaves no record. -/
def EndsClear (q₀ : Attempt) (v : AttemptsView) (l : AttemptsLabel) (v' : AttemptsView) : Prop :=
  ∀ pem ∈ returned l, v'.shared.journal q₀.name = none ∧
    ∃ k ∈ v.task (), ∃ e ∈ k.2, ∃ c ∈ certOf e, pem = .chain c.2 ∧ c.2.pub = q₀.key.public

def Collects (q₀ : Attempt) (v : AttemptsView) (l : AttemptsLabel) (v' : AttemptsView) : Prop :=
  OrdersAfresh q₀.name v l v' ∧ KeepsOutstanding q₀.name v l v' ∧ CollectsJournaled q₀ v l v' ∧
    EndsClear q₀ v l v'

/-! ## Orders keep their key -/

/-- Every order from the `b`-th on that has been finalized was finalized with the key `p`. -/
def BoundFrom (b : Nat) (p : PublicKey) (orders : List CAOrder) : Prop :=
  ∀ (u : URL) (o : CAOrder), b ≤ u → orders[u]? = some o → ∀ p', o.stage.boundTo = some p' → p' = p

theorem CAEvent.changes_boundTo {o : CAOrder} {e : CAEvent} {p : PublicKey}
    (h : (e.changes o).stage.boundTo = some p) : o.stage.boundTo = some p := by
  cases e with
  | authorized u => cases hs : o.stage <;> simp_all [CAEvent.changes, Stage.boundTo]
  | rejected u => cases hs : o.stage <;> simp_all [CAEvent.changes, Stage.boundTo]
  | issued u notAfter => cases hs : o.stage <;> simp_all [CAEvent.changes, Stage.boundTo]
  | forgotten u => exact h

theorem BoundFrom.modify {b : Nat} {p : PublicKey} {orders : List CAOrder} {i : URL}
    {f : CAOrder → CAOrder} (hb : BoundFrom b p orders)
    (hf : ∀ o p', (f o).stage.boundTo = some p' → o.stage.boundTo = some p' ∨ p' = p) :
    BoundFrom b p (orders.modify i f) := by
  intro u o hu ho p' hp'
  rw [List.getElem?_modify] at ho
  obtain ⟨x, hx, rfl⟩ := Option.map_eq_some_iff.1 ho
  by_cases hiu : i = u
  · simp only [hiu, if_true] at hp'
    rcases hf x p' hp' with hx' | rfl
    · exact hb u x hu hx p' hx'
    · rfl
  · simp only [hiu, if_false] at hp'
    exact hb u x hu hx p' hp'

theorem BoundFrom.events {b : Nat} {p : PublicKey} (events : List CAEvent) {orders : List CAOrder}
    (hb : BoundFrom b p orders) : BoundFrom b p (events.foldl CAEvent.apply orders) := by
  induction events generalizing orders with
  | nil => exact hb
  | cons e es ih => exact ih (hb.modify fun o p' hp' => .inl (CAEvent.changes_boundTo hp'))

theorem BoundFrom.append {b : Nat} {p : PublicKey} {orders : List CAOrder} {o : CAOrder}
    (hb : BoundFrom b p orders) (ho : o.stage.boundTo = none) : BoundFrom b p (orders ++ [o]) := by
  intro u x hu hx p' hp'
  by_cases hlt : u < orders.length
  · rw [List.getElem?_append_left hlt] at hx
    exact hb u x hu hx p' hp'
  · rw [List.getElem?_append_right (Nat.le_of_not_lt hlt)] at hx
    obtain rfl : x = o := List.mem_singleton.1 (List.mem_of_getElem? hx)
    simp [ho] at hp'

theorem bound_exec {b : Nat} {p : PublicKey} {w w' : World} {o : Op} {a : Answer} {r : Res o}
    (he : exec w o a = some (r, w')) (hb : BoundFrom b p w.orders)
    (hcsr : ∀ u csr, o = .createOrderCert u csr → csr = p) : BoundFrom b p w'.orders := by
  have hpass : BoundFrom b p (w.pass a).orders := hb.events a.events
  by_cases ho : o.Ordering
  · cases o with
    | authorizeOrder d =>
        rcases exec_authorizeOrder he with ⟨rfl, -⟩ | ⟨rfl, -⟩
        · refine hpass.append ?_
          cases ha : a.authorized <;> simp [newOrder, ha, Stage.boundTo]
        · exact hpass
    | createOrderCert u csr =>
        rcases exec_createOrderCert he with ⟨stage, rfl, hbound, -⟩ | ⟨rfl, -⟩
        · refine hpass.modify fun x p' hp' => .inr ?_
          obtain rfl : csr = p' := Option.some.inj (hbound.symm.trans hp')
          exact hcsr u csr rfl
        · exact hpass
    | _ => cases ho
  · by_cases hw : o.Writing
    · cases o with
      | putRecord n rec => rcases exec_put he with rfl | ⟨rfl, -⟩ <;> exact hpass
      | removeRecord n => rcases exec_remove he with rfl | ⟨rfl, -⟩ <;> exact hpass
      | _ => cases hw
    · obtain ⟨c, rfl⟩ := exec_still ho hw he
      exact hpass

/-- A certificate is bound to the key its order was finalized with. -/
theorem cert_exec {w w' : World} {o : Op} {a : Answer} {r : Res o} {u : URL} {leaf : Leaf}
    (he : exec w o a = some (r, w')) (hc : certOf ⟨o, r⟩ = some (u, leaf)) :
    o = .createOrderCert u leaf.pub ∨
      o = .fetchCert u ∧ ∃ x, (w.pass a).orders[u]? = some x ∧ x.stage = .valid leaf := by
  cases o with
  | createOrderCert u' csr =>
      cases r with
      | error f => cases hc
      | ok leaf' =>
          obtain ⟨rfl, rfl⟩ : u' = u ∧ leaf' = leaf := by simpa [certOf] using hc
          rcases exec_createOrderCert he with ⟨stage, -, -, -, hpub⟩ | ⟨-, f, hf⟩
          · exact .inl (by rw [hpub leaf' rfl])
          · cases hf
  | fetchCert u' =>
      cases r with
      | error f => cases hc
      | ok leaf' =>
          obtain ⟨rfl, rfl⟩ : u' = u ∧ leaf' = leaf := by simpa [certOf] using hc
          refine .inr ⟨rfl, ?_⟩
          simp only [exec, CA.fetchCert] at he
          split at he
          · split at he
            · rename_i hstage
              obtain ⟨x, hx, hvalid⟩ := Option.map_eq_some_iff.1 hstage
              obtain ⟨hget, -⟩ := Option.filter_eq_some_iff.1 hx
              obtain rfl := Except.ok.inj (Prod.ext_iff.1 (Option.some.inj he)).1
              exact ⟨x, hget, hvalid⟩
            · cases he
          · cases (Prod.ext_iff.1 (Option.some.inj he)).1
  | _ => cases hc

/-! ## The run -/

/-- What is true of each reply to an attempt of the run that began in `w₀`. -/
def InRun (q₀ : Attempt) (w₀ : World) : Ev Op Res → Prop
  | ⟨.now, t⟩ => w₀.clock ≤ t
  | ⟨.authorizeOrder _, .ok o⟩ => ∃ u, o.uri = some u ∧ w₀.orders.length ≤ u
  | ⟨.createOrderCert _ _, .ok leaf⟩ => leaf.pub = q₀.key.public
  | ⟨.fetchCert _, .ok leaf⟩ => leaf.pub = q₀.key.public
  | _ => True

theorem InRun.cert {q₀ : Attempt} {w₀ : World} {e : Ev Op Res} {c : URL × Leaf}
    (he : InRun q₀ w₀ e) (hc : certOf e = some c) : c.2.pub = q₀.key.public := by
  obtain ⟨o, r⟩ := e
  cases o with
  | createOrderCert u csr =>
      cases r with
      | error f => cases hc
      | ok leaf =>
          cases hc
          exact he
  | fetchCert u =>
      cases r with
      | error f => cases hc
      | ok leaf =>
          cases hc
          exact he
  | _ => cases hc

/-- A record of the run: for the key, not older than the run, and of one of its orders. -/
structure OwnRecord (q₀ : Attempt) (w₀ : World) (rec : OrderRecord) : Prop where
  spki : rec.spki = q₀.spki
  createdAt : unix w₀.clock ≤ rec.createdAt
  orderURL : ∃ u, rec.orderURL = some u ∧ w₀.orders.length ≤ u

structure OneKey (q₀ : Attempt) (w₀ : World) (v : AttemptsView) : Prop where
  working : Working q₀.name v
  later : w₀.Later v.shared
  own : ∀ rec, v.shared.recordOf q₀.name = some rec → OwnRecord q₀ w₀ rec
  bound : BoundFrom w₀.orders.length q₀.key.public v.shared.orders
  task : ∀ q h, v.task () = some (q, h) → q = q₀ ∧ Written h ∧ ∀ e ∈ h, InRun q₀ w₀ e

section

variable {q₀ : Attempt} {w₀ w' : World} {v v' : AttemptsView} {l : AttemptsLabel}
  {h : Hist Op Res} {o : Op} {a : Answer} {r : Res o} {order : Order} {rec : OrderRecord}

/-- Within the seven days of the run no record of it is too old. -/
theorem OwnRecord.not_tooOld {t : Time} (hown : OwnRecord q₀ w₀ rec)
    (ht : t ≤ unix w₀.clock * second + orderMaxAge) : rec.tooOld t = false := by
  simp only [OrderRecord.tooOld, decide_eq_false_iff_not, Nat.not_lt]
  calc t ≤ unix w₀.clock * second + orderMaxAge := ht
    _ ≤ rec.createdAt * second + orderMaxAge :=
        Nat.add_le_add_right (Nat.mul_le_mul_right _ hown.createdAt) _

/-- The order an attempt holds is the one its name's record names, an order of the run. -/
theorem OneKey.holding (hI : OneKey q₀ w₀ v) (ht : v.task () = some (q₀, h))
    (hold : Holding q₀ h order) :
    ∃ rec u, v.shared.recordOf q₀.name = some rec ∧ rec.orderURL = some u ∧ Told u order ∧
      w₀.orders.length ≤ u := by
  obtain ⟨rec, hrec, hn⟩ :=
    hold (hI.task _ _ ht).2.1 _ (hI.working.allows q₀ h ht rfl)
  obtain ⟨u, hu, htold⟩ := hn.told (hI.working.remains q₀ h ht rfl)
  have hrec' := recordOf_eq.2 hrec
  obtain ⟨u', hu', hle⟩ := (hI.own rec hrec').orderURL
  obtain rfl : u' = u := Option.some.inj (hu'.symm.trans hu)
  exact ⟨rec, u', hrec', hu, htold, hle⟩

/-- A certificate an attempt is about to get is that of the order journaled. -/
theorem OneKey.cert (hI : OneKey q₀ w₀ v) (ht : v.task () = some (q₀, h))
    (hmay : mayJournal q₀ h o) (he : exec v.shared o a = some (r, w')) {u : URL} {leaf : Leaf}
    (hc : certOf ⟨o, r⟩ = some (u, leaf)) :
    leaf.pub = q₀.key.public ∧
      ∃ rec, v.shared.recordOf q₀.name = some rec ∧ rec.orderURL = some u := by
  rcases cert_exec he hc with rfl | ⟨rfl, x, hx, hvalid⟩
  · obtain ⟨hcsr, order, hu, hold⟩ := hmay
    obtain ⟨rec, u', hrec, hu', htold, -⟩ := hI.holding ht hold
    obtain rfl : u' = u := htold.finalizeURL.symm.trans hu
    exact ⟨hcsr, rec, hrec, hu'⟩
  · obtain ⟨order, hat, hold⟩ := hmay
    obtain ⟨rec, u', hrec, hu', htold, hle⟩ := hI.holding ht hold
    obtain rfl := hat.told htold (hI.working.remains q₀ h ht rfl)
    refine ⟨?_, rec, hrec, hu'⟩
    exact (hI.bound.events a.events) u x hle hx leaf.pub (by simp [hvalid, Stage.boundTo])

theorem inRun_did (hI : OneKey q₀ w₀ v) (ht : v.task () = some (q₀, h))
    (hmay : mayJournal q₀ h o) (he : exec v.shared o a = some (r, w')) : InRun q₀ w₀ ⟨o, r⟩ := by
  cases o with
  | now =>
      obtain ⟨rfl, rfl⟩ := Prod.ext_iff.1 (Option.some.inj he)
      exact Nat.le_trans hI.later.clock (Nat.le_add_right _ _)
  | authorizeOrder d =>
      cases r with
      | error f => trivial
      | ok o =>
          rcases exec_authorizeOrder he with ⟨rfl, ho⟩ | ⟨-, f, hf⟩
          · obtain rfl := ho o rfl
            refine ⟨(v.shared.pass a).orders.length, rfl, ?_⟩
            by_contra hlt
            have := (hI.later.trans (v.shared.pass_later a)).length (Nat.lt_of_not_le hlt)
            exact Nat.lt_irrefl _ this
          · cases hf
  | createOrderCert u csr =>
      cases r with
      | error f => trivial
      | ok leaf => exact (hI.cert ht hmay he rfl).1
  | fetchCert u =>
      cases r with
      | error f => trivial
      | ok leaf => exact (hI.cert ht hmay he rfl).1
  | _ => trivial

theorem own_did (hI : OneKey q₀ w₀ v) (ht : v.task () = some (q₀, h)) (hmay : mayJournal q₀ h o)
    (he : exec v.shared o a = some (r, w')) (hrec : w'.recordOf q₀.name = some rec) :
    OwnRecord q₀ w₀ rec := by
  rcases recordOf_exec he hrec with hrec | rfl
  · exact hI.own rec hrec
  · obtain ⟨-, hspki, ⟨t, htime, hcreated⟩, ⟨d, order, horder, huri⟩, -⟩ := hmay
    obtain ⟨-, -, hrun⟩ := hI.task _ _ ht
    have hle : w₀.clock ≤ t := hrun _ htime
    obtain ⟨u, hu, hge⟩ : InRun q₀ w₀ ⟨.authorizeOrder d, .ok order⟩ := hrun _ horder
    exact ⟨hspki, hcreated ▸ unix_mono hle, u, huri.trans hu, hge⟩

theorem oneKey_move {t : Time} (hI : OneKey q₀ w₀ v) (hm : Move attempts journals v l v')
    (hA : OneKeyRules q₀ t v l v') : OneKey q₀ w₀ v' := by
  obtain ⟨honly, hwrites, -, hden⟩ := hA
  have hoff : KeepsOff q₀.name v l v' := by
    intro q hq _ rec hrec hspki
    rw [honly q hq] at hspki
    exact absurd (hI.own rec hrec).spki hspki
  have hworking := working_move hI.working hm hden hoff
  cases hm with
  | start ht =>
      refine ⟨hworking, hI.later, hI.own, hI.bound, fun q h hq => ?_⟩
      obtain ⟨rfl, rfl⟩ : _ = q ∧ [] = h := by simpa using hq
      exact ⟨honly _ rfl, nofun, nofun⟩
  | did ht hmay he =>
      obtain ⟨rfl, hwritten, hrun⟩ := hI.task _ _ ht
      refine ⟨hworking, hI.later.trans (exec_later he), fun rec hrec => own_did hI ht hmay he hrec,
        bound_exec he hI.bound ?_, fun q' h' hq => ?_⟩
      · rintro u csr rfl
        exact hmay.1
      · obtain ⟨rfl, rfl⟩ : _ = q' ∧ _ = h' := by simpa using hq
        exact ⟨rfl, written_cons.2 ⟨hwrites _ rfl, hwritten⟩,
          List.forall_mem_cons.2 ⟨inRun_did hI ht hmay he, hrun⟩⟩
  | finish ht hdone => exact ⟨hworking, hI.later, hI.own, hI.bound, by simp⟩
  | crash => exact ⟨hworking, hI.later, hI.own, hI.bound, by simp⟩

/-! ### The moves -/

theorem ordersAfresh_move (hI : OneKey q₀ w₀ v) (hm : Move attempts journals v l v') :
    OrdersAfresh q₀.name v l v' := by
  intro d hd rec hrec u hu
  cases hm with
  | start ht => cases hd
  | finish ht hdone => cases hd
  | crash => cases hd
  | @did t q h o a r w' ht hmay he =>
      cases o with
      | authorizeOrder d' =>
          obtain ⟨rfl, hwritten, -⟩ := hI.task _ _ ht
          -- whatever is in the slot would be another key's record
          obtain ⟨rec', ⟨⟩, hspki⟩ := hmay hwritten _ (hI.working.allows _ _ ht rfl) _
            (recordOf_eq.1 hrec)
          exact absurd (hI.own rec hrec).spki hspki
      | _ => cases hd

theorem keepsOutstanding_move (hI : OneKey q₀ w₀ v) (hm : Move attempts journals v l v')
    (hweek : WithinWeekOf (unix w₀.clock * second) v l v') : KeepsOutstanding q₀.name v l v' := by
  intro rec hrec u hu hout hlost
  have hc : v'.shared.collectable rec = true := by
    have hold := (hI.own rec hrec).not_tooOld hweek
    simp only [World.collectable, hold, Bool.not_false, Bool.and_true]
    rw [hu]
    exact hout
  obtain ⟨q, h, u', leaf, ht, -, hu', e, he, hcert⟩ := kept_move hI.working hm hrec hc hlost
  obtain rfl : u' = u := Option.some.inj (hu'.symm.trans hu)
  exact ⟨(q, h), ht, e, he, (u', leaf), hcert, rfl⟩

theorem collectsJournaled_move (hI : OneKey q₀ w₀ v) (hm : Move attempts journals v l v') :
    CollectsJournaled q₀ v l v' := by
  rintro e he ⟨u, leaf⟩ hc
  cases hm with
  | start ht => cases he
  | finish ht hdone => cases he
  | crash => cases he
  | @did t q h o a r w' ht hmay hexec =>
      cases he
      obtain ⟨rfl, -, -⟩ := hI.task _ _ ht
      obtain ⟨hpub, rec, hrec, hu⟩ := hI.cert ht hmay hexec hc
      refine ⟨hpub, rec, recordOf_eq.2 ?_, hu⟩
      have hnot : ¬ o.Writing := by
        intro hw
        cases o with
        | putRecord n rec => cases hc
        | removeRecord n => cases hc
        | _ => cases hw
      rw [View.put_shared, exec_journal hnot hexec]
      exact recordOf_eq.1 hrec

theorem endsClear_move (hI : OneKey q₀ w₀ v) (hm : Move attempts journals v l v') :
    EndsClear q₀ v l v' := by
  intro pem hpem
  cases hm with
  | start ht => cases hpem
  | did ht hmay he => cases hpem
  | crash => cases hpem
  | @finish t q h out ht hdone =>
      cases out with
      | error err => cases hpem
      | ok pem' =>
          cases hpem
          obtain ⟨rfl, hwritten, hrun⟩ := hI.task _ _ ht
          have hremains := hI.working.remains _ _ ht rfl
          have hallows := hI.working.allows _ _ ht rfl
          obtain ⟨r, h', order, leaf, rfl, rfl, hcert⟩ := hdone _ rfl
          refine ⟨?_, ?_⟩
          · cases r with
            | error reason => cases (written_cons.1 hwritten).1
            | ok _ => simpa [Allows, allowsAfter] using hallows
          · obtain ⟨e, he, u, hc⟩ := hcert.download
            have hmem := List.mem_cons_of_mem (⟨.removeRecord _, r⟩ : Ev Op Res) he
            exact ⟨_, ht, e, hmem, (u, leaf), hc, rfl, (hrun e hmem).cert hc⟩

end

/-- Attempts with one key, cut off anywhere, order again only when there is nothing to collect, and
collect what is journaled. -/
theorem journaled_order_collected (q₀ : Attempt) (w₀ : World)
    (as : List (Action Unit Attempt Answer)) (hempty : w₀.journal q₀.name = none)
    (hrules : attempts.Meets (OneKeyRules q₀ (unix w₀.clock * second)) (.idle w₀) as) :
    attempts.Meets (Collects q₀) (.idle w₀) as := by
  have hnone : ∀ rec, w₀.recordOf q₀.name ≠ some rec := by
    intro rec hrec
    rw [recordOf_eq, hempty] at hrec
    cases hrec
  have hstart : OneKey q₀ w₀ (Config.idle w₀ : AttemptsConfig).view := by
    refine ⟨working_idle fun rec u hrec _ => absurd hrec (hnone rec), ?_, ?_, ?_, nofun⟩
    · exact ⟨Nat.le_refl _, fun u o ho => ⟨o, ho, .refl o⟩⟩
    · exact fun rec hrec => absurd hrec (hnone rec)
    · -- there is no order of the run yet
      intro u o hu ho
      exact absurd (List.getElem?_eq_some_iff.1 ho).1 (Nat.not_lt.2 hu)
  have hruns := Machine.run_meets attempts_journals (fun v l v' => oneKey_move) as (.idle w₀)
    (Machine.onTrack_idle w₀) hstart hrules
  refine hruns.mono ?_
  rintro v l v' ⟨hm, hA, hI, -⟩
  exact ⟨ordersAfresh_move hI hm, keepsOutstanding_move hI hm hA.2.2.1,
    collectsJournaled_move hI hm, endsClear_move hI hm⟩

/-! ## Cut off and collected, and a second too late -/

def replies (as : List Answer) : List (Action Unit Attempt Answer) :=
  as.map (.step ())

/-- A first attempt whose order the CA finalizes while the reply is lost. -/
def cutOffAttempt (q : Attempt) : List (Action Unit Attempt Answer) :=
  (.start () q ::
      replies [{}, {}, {}, {}, { authorized := true }, {}, {}, {}, { outcome := .lost }] :
        List (Action Unit Attempt Answer)) ++
    ([.finish ()] : List (Action Unit Attempt Answer))

/-- The next attempt for the same key finds the certificate issued, downloads it and clears the
record. -/
def collectingAttempt (q : Attempt) : List (Action Unit Attempt Answer) :=
  (.start () q :: replies [{}, {}, {}, { events := [.issued 0 100] }, {}, {}, {}] :
      List (Action Unit Attempt Answer)) ++
    ([.finish ()] : List (Action Unit Attempt Answer))

theorem journaled_order_collected_cutOff :
    (attempts.run (.idle .empty) (cutOffAttempt ⟨"a", ⟨1⟩⟩ ++ collectingAttempt ⟨"a", ⟨1⟩⟩)).map
        (fun c => (c.shared.recordOf "a", c.shared.orders.length)) = some (none, 1) ∧
      attempts.Meets (Collects ⟨"a", ⟨1⟩⟩) (.idle .empty)
        (cutOffAttempt ⟨"a", ⟨1⟩⟩ ++ collectingAttempt ⟨"a", ⟨1⟩⟩) := by
  refine ⟨by decide +kernel, ?_⟩
  exact journaled_order_collected ⟨"a", ⟨1⟩⟩ .empty _ rfl (by decide +kernel)

/-- Nine tenths into a second. -/
def lateInSecond : World :=
  { World.empty with clock := 900000000 }

/-- Four tenths of a second before the seven days are over, an attempt takes the record for too
old. -/
def lateAttempt (q : Attempt) : List (Action Unit Attempt Answer) :=
  .start () q :: replies [{}, {}, { wait := orderMaxAge - 400000000 }, {}, { authorized := true }]

/-- Within seven days to the nanosecond, an order that is being processed is given up and another
one placed. -/
theorem outstanding_order_given_up :
    attempts.Meets (OneKeyRules ⟨"a", ⟨1⟩⟩ lateInSecond.clock) (.idle lateInSecond)
        (cutOffAttempt ⟨"a", ⟨1⟩⟩ ++ lateAttempt ⟨"a", ⟨1⟩⟩) ∧
      ¬ attempts.Meets (KeepsOutstanding "a") (.idle lateInSecond)
        (cutOffAttempt ⟨"a", ⟨1⟩⟩ ++ lateAttempt ⟨"a", ⟨1⟩⟩) ∧
      (attempts.run (.idle lateInSecond)
        (cutOffAttempt ⟨"a", ⟨1⟩⟩ ++ lateAttempt ⟨"a", ⟨1⟩⟩)).map
          (fun c => (c.shared.outstanding 0, c.shared.orders.length)) = some (true, 2) := by
  refine ⟨?_, ?_, ?_⟩ <;> decide +kernel

end Issuer
end CertsManager
