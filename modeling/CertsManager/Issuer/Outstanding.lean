import CertsManager.Issuer.Effects

/-!
# Issuer/Outstanding — no write costs an order that is still to be had

What the CA told an attempt about an order (`Remains`) still holds when the attempt acts on it,
since orders only go forward.  With the protocol of `Issuer/Journal` this says which records a write
can cost: none of an order that is still to be had, except one whose certificate the attempt has.

It holds as long as the CA denies no order it has (`Denies`) and no attempt for one key runs while
another key's order is outstanding (`KeepsOff`).  The slot is one per name: without the second, a
renewal writes its record over the one of a staged key's paid order; without the first, a rate
limit (429) on the query of an order loses its record.
-/

namespace CertsManager
namespace Issuer

open Interleave

/-! ## Records and their orders -/

namespace World

/-- Issued, unexpired and not forgotten. -/
def issued (w : World) (u : URL) : Bool :=
  w.orders[u]?.any fun o => o.issued w.clock

def recordOf (w : World) (name : Name) : Option OrderRecord :=
  match w.journal name with
  | some (.record rec) => some rec
  | _ => none

/-- The record names an outstanding order and is at most seven days old. -/
def collectable (w : World) (rec : OrderRecord) : Bool :=
  rec.orderURL.any w.outstanding && !rec.tooOld w.clock

/-- The record names an order whose certificate is issued, and is less than seven days old. -/
def paid (w : World) (rec : OrderRecord) : Bool :=
  rec.orderURL.any w.issued && decide (w.clock < rec.createdAt * second + orderMaxAge)

/-- The record in the slot of `n` names an order that was placed. -/
def Known (w : World) (n : Name) : Prop :=
  ∀ rec u, w.recordOf n = some rec → rec.orderURL = some u → u < w.orders.length

end World

theorem recordOf_eq {w : World} {n : Name} {rec : OrderRecord} :
    w.recordOf n = some rec ↔ w.journal n = some (.record rec) := by
  unfold World.recordOf
  split
  · rename_i rec' h
    simp [h]
  · rename_i hne
    refine ⟨nofun, fun h => ?_⟩
    exact absurd h (hne rec)

theorem World.Later.collectable {w w' : World} {rec : OrderRecord} (h : w.Later w')
    (hknown : ∀ u, rec.orderURL = some u → u < w.orders.length)
    (hc : w.collectable rec = false) : w'.collectable rec = false := by
  simp only [World.collectable, Bool.and_eq_false_iff, Bool.not_eq_false'] at hc ⊢
  rcases hc with hc | hc
  · refine .inl ?_
    cases hu : rec.orderURL with
    | none => rfl
    | some u =>
        rw [hu] at hc
        exact h.ended (hknown u hu) hc
  · refine .inr ?_
    simp only [OrderRecord.tooOld, decide_eq_true_eq] at hc ⊢
    exact Nat.lt_of_lt_of_le hc h.clock

/-- A paid record is a collectable one. -/
theorem collectable_of_paid {w : World} {rec : OrderRecord} (hp : w.paid rec = true) :
    w.collectable rec = true := by
  obtain ⟨⟨u, hu, hissued⟩, hyoung⟩ : (∃ u, rec.orderURL = some u ∧ w.issued u = true) ∧
      w.clock < rec.createdAt * second + orderMaxAge := by
    simpa [World.paid, Option.any_eq_true] using hp
  obtain ⟨o, ho, hnot, hvalid⟩ : ∃ o, w.orders[u]? = some o ∧ o.forgotten = false ∧
      o.status w.clock = .valid := by
    simpa [World.issued, Option.any_eq_true, CAOrder.issued] using hissued
  simp only [World.collectable, World.outstanding, hu, ho, Option.any_some, CAOrder.outstanding, hnot,
    hvalid, OrderRecord.tooOld]
  simpa using Nat.le_of_lt hyoung

/-! ## What stays true of a reply -/

/-- An order as the CA describes the one at `u`. -/
structure Told (u : URL) (o : Order) : Prop where
  finalizeURL : o.finalizeURL = u
  uri : ∀ u', o.uri = some u' → u' = u
  certURL : ∀ u', o.certURL = some u' → u' = u

/-- What a reply said that later events cannot make false. -/
def Remains (w : World) : Ev Op Res → Prop
  | ⟨.now, t⟩ => t ≤ w.clock
  | ⟨.getRecord _, .ok (.record rec)⟩ => ∀ u, rec.orderURL = some u → u < w.orders.length
  | ⟨.getOrder u, .ok o⟩ =>
      Told u o ∧ ∃ x, w.orders[u]? = some x ∧ x.expires = o.expires ∧
        (o.status = .invalid → x.outstanding w.clock = false)
  | ⟨.getOrder u, .error f⟩ => f.refused = true → u < w.orders.length ∧ w.outstanding u = false
  | ⟨.waitOrder url, .ok o⟩ => ∃ u, url = some u ∧ Told u o
  | ⟨.authorizeOrder _, .ok o⟩ => ∃ u, o.uri = some u ∧ Told u o ∧ u < w.orders.length
  | _ => True

theorem Remains.later {w w' : World} {e : Ev Op Res} (hl : w.Later w') (hr : Remains w e) :
    Remains w' e := by
  obtain ⟨o, r⟩ := e
  cases o with
  | now => exact Nat.le_trans hr hl.clock
  | getRecord n =>
      rcases r with f | (rec | reason)
      · trivial
      · exact fun u hu => hl.length (hr u hu)
      · trivial
  | getOrder u =>
      cases r with
      | error f => exact fun href => ⟨hl.length (hr href).1, hl.ended (hr href).1 (hr href).2⟩
      | ok o =>
          obtain ⟨htold, x, hx, hexp, hinv⟩ := hr
          obtain ⟨x', hx', hxl⟩ := hl.orders u x hx
          exact ⟨htold, x', hx', hxl.expires.trans hexp, fun hi => hxl.ended hl.clock (hinv hi)⟩
  | waitOrder url =>
      cases r with
      | error f => trivial
      | ok o => exact hr
  | authorizeOrder d =>
      cases r with
      | error f => trivial
      | ok o =>
          obtain ⟨u, hu, htold, hlt⟩ := hr
          exact ⟨u, hu, htold, hl.length hlt⟩
  | _ => trivial

theorem told_report (w : World) (u : URL) (location : Bool) (x : CAOrder) :
    Told u (w.report u location x) := by
  refine ⟨rfl, fun u' h => ?_, fun u' h => ?_⟩
  · cases location <;> simp [World.report] at h
    exact h.symm
  · by_cases hv : x.status w.clock = .valid <;> simp [World.report, hv] at h
    exact h.symm

/-- An answer to a query describes the order that was asked about. -/
theorem queryOrder_ok {w w' : World} {a : Answer} {u : URL} {settled : Status → Bool} {o : Order}
    (he : CA.queryOrder w a u settled = some (.ok o, w')) :
    ∃ x, w.orders[u]? = some x ∧ x.forgotten = false ∧ o = w.report u a.location x := by
  unfold CA.queryOrder at he
  split at he
  · obtain ⟨x, hx, he⟩ := Option.map_eq_some_iff.1 he
    obtain ⟨hx, -⟩ := Option.filter_eq_some_iff.1 hx
    obtain ⟨hget, hnot⟩ := Option.filter_eq_some_iff.1 hx
    refine ⟨x, hget, by simpa using hnot, ?_⟩
    exact (Except.ok.inj (Prod.ext_iff.1 he).1).symm
  · cases (Prod.ext_iff.1 (Option.some.inj he)).1

section

variable {q : Attempt} {h : Hist Op Res} {w w' : World} {rec : OrderRecord} {o : Order} {u : URL}
  {leaf : Leaf}

/-- A dead record's order is not to be had, or the record is too old. -/
theorem Dead.not_collectable (hd : Dead h rec) (hr : ∀ e ∈ h, Remains w e) :
    w.collectable rec = false := by
  simp only [World.collectable, Bool.and_eq_false_iff, Bool.not_eq_false']
  cases hd with
  | unnamed hu => exact .inl (by simp [hu])
  | tooOld t ht hold =>
      refine .inr ?_
      have hle : t ≤ w.clock := hr _ ht
      simp only [OrderRecord.tooOld, decide_eq_true_eq] at hold ⊢
      exact Nat.lt_of_lt_of_le hold hle
  | refused u f hu hf href =>
      refine .inl ?_
      have hgone : u < w.orders.length ∧ w.outstanding u = false := hr _ hf href
      simpa [hu] using hgone.2
  | invalid u o hu ho hi =>
      refine .inl ?_
      obtain ⟨-, x, hx, -, hinv⟩ : Remains w ⟨.getOrder u, .ok o⟩ := hr _ ho
      simpa [hu, World.outstanding, hx] using hinv hi
  | past u o t hu ho ht hp =>
      refine .inl ?_
      obtain ⟨-, x, hx, hexp, -⟩ : Remains w ⟨.getOrder u, .ok o⟩ := hr _ ho
      have hle : t ≤ w.clock := hr _ ht
      have hexpired : x.expired t = true := by simpa [CAOrder.expired, Order.past, hexp] using hp
      have hended := CAOrder.outstanding_eq_false.2 (.inr (.inl (CAOrder.expired_mono hle hexpired)))
      simpa [hu, World.outstanding, hx] using hended

/-- The order a record is about is the one at the record's URL. -/
theorem Names.told {url : Option URL} (hn : Names h url o) (hr : ∀ e ∈ h, Remains w e) :
    ∃ u, url = some u ∧ Told u o := by
  rcases hn with ⟨u, hu, ho⟩ | ⟨d, ho, hu⟩
  · obtain ⟨htold, -⟩ : Remains w ⟨.getOrder u, .ok o⟩ := hr _ ho
    exact ⟨u, hu, htold⟩
  · obtain ⟨u, huri, htold, -⟩ : Remains w ⟨.authorizeOrder d, .ok o⟩ := hr _ ho
    exact ⟨u, hu.trans huri, htold⟩

theorem CertAt.told {u' : URL} (hc : CertAt h o u') (htold : Told u o)
    (hr : ∀ e ∈ h, Remains w e) : u' = u := by
  rcases hc with hc | ⟨o', ho', hc⟩
  · exact htold.certURL u' hc
  · obtain ⟨u₁, hu₁, htold'⟩ : Remains w ⟨.waitOrder o.uri, .ok o'⟩ := hr _ ho'
    exact (htold'.certURL u' hc).trans (htold.uri u₁ hu₁)

/-- The order and the certificate of a successful download. -/
def certOf : Ev Op Res → Option (URL × Leaf)
  | ⟨.createOrderCert u _, .ok leaf⟩ => some (u, leaf)
  | ⟨.fetchCert u, .ok leaf⟩ => some (u, leaf)
  | _ => none

theorem Certified.download (hc : Certified h o leaf) : ∃ e ∈ h, ∃ u, certOf e = some (u, leaf) := by
  rcases hc with ⟨csr, hc⟩ | ⟨u, -, hc⟩
  · exact ⟨_, hc, o.finalizeURL, rfl⟩
  · exact ⟨_, hc, u, rfl⟩

/-- The attempt got the certificate of the order at `u`. -/
def Obtained (h : Hist Op Res) (u : URL) (leaf : Leaf) : Prop :=
  ∃ e ∈ h, certOf e = some (u, leaf)

theorem Certified.obtained (hc : Certified h o leaf) (htold : Told u o)
    (hr : ∀ e ∈ h, Remains w e) : Obtained h u leaf := by
  rcases hc with ⟨csr, hc⟩ | ⟨u', hat, hc⟩
  · exact ⟨_, hc, by rw [htold.finalizeURL]; rfl⟩
  · obtain rfl := hat.told htold hr
    exact ⟨_, hc, rfl⟩

end

/-! ## What is asked of the CA and of the callers -/

/-- The order a query was answered about with a 4xx. -/
def denied : Ev Op Res → Option URL
  | ⟨.getOrder u, .error f⟩ => if f.refused then some u else none
  | _ => none

def called : AttemptsLabel → Option (Ev Op Res)
  | .did _ e => some e
  | _ => none

def begun : AttemptsLabel → Option Attempt
  | .start _ q => some q
  | _ => none

/-- The CA answers the query of an order with a 4xx only when that order is not to be had. -/
def Denies (_ : AttemptsView) (l : AttemptsLabel) (v' : AttemptsView) : Prop :=
  ∀ e ∈ called l, ∀ u ∈ denied e, v'.shared.outstanding u = false

instance (v : AttemptsView) (l : AttemptsLabel) (v' : AttemptsView) : Decidable (Denies v l v') :=
  inferInstanceAs (Decidable (∀ e ∈ called l, ∀ u ∈ denied e, _))

/-- No attempt for the name begins while another key's order is outstanding. -/
def KeepsOff (n : Name) (v : AttemptsView) (l : AttemptsLabel) (_ : AttemptsView) : Prop :=
  ∀ q ∈ begun l, q.name = n → ∀ rec ∈ v.shared.recordOf n, rec.spki ≠ q.spki →
    v.shared.collectable rec = false

instance (n : Name) (v : AttemptsView) (l : AttemptsLabel) (v' : AttemptsView) :
    Decidable (KeepsOff n v l v') :=
  inferInstanceAs (Decidable (∀ q ∈ begun l, q.name = n → ∀ rec ∈ v.shared.recordOf n, _))

/-! ## While an attempt works -/

section

variable {q : Attempt} {h : Hist Op Res} {w w' : World} {o : Op} {a : Answer} {r : Res o}
  {n : Name}

/-- A history that tells what the slot can hold tells it after one more call. -/
theorem allows_exec (he : exec w o a = some (r, w')) (hx : Allows n h (w.journal n)) :
    Allows n (⟨o, r⟩ :: h) (w'.journal n) := by
  by_cases hq : o.Quiet
  · rw [exec_journal hq.not_writing he]
    exact (allows_quiet hq).2 hx
  · cases o with
    | getRecord m =>
        obtain ⟨hj, hr⟩ := exec_getRecord he
        rw [hj]
        by_cases hm : m = n
        · subst hm
          rcases r with (_ | ⟨inBody, reason⟩) | y
          · simpa [Allows, allowsAfter] using hr
          · exact hx
          · simpa [Allows, allowsAfter] using hr
        · rcases r with (_ | ⟨inBody, reason⟩) | y <;> simpa [Allows, allowsAfter, hm] using hx
    | putRecord m rec =>
        by_cases hm : m = n
        · subst hm
          rcases exec_put he with rfl | ⟨rfl, reason, rfl⟩
          · cases r <;> simp [Allows, allowsAfter, World.setJournal]
          · simpa [Allows, allowsAfter] using .inr hx
        · have hj : w'.journal n = w.journal n := by
            rcases exec_put he with rfl | ⟨rfl, -⟩
            · exact Function.update_of_ne (Ne.symm hm) _ _
            · rfl
          cases r <;> simpa [Allows, allowsAfter, hm, hj] using hx
    | removeRecord m =>
        by_cases hm : m = n
        · subst hm
          rcases exec_remove he with rfl | ⟨rfl, reason, rfl⟩
          · cases r <;> simp [Allows, allowsAfter, World.setJournal]
          · simpa [Allows, allowsAfter] using .inr hx
        · have hj : w'.journal n = w.journal n := by
            rcases exec_remove he with rfl | ⟨rfl, -⟩
            · exact Function.update_of_ne (Ne.symm hm) _ _
            · rfl
          cases r <;> simpa [Allows, allowsAfter, hm, hj] using hx
    | _ => exact absurd trivial hq

/-- A reply remains true from the moment it is given. -/
theorem remains_exec (he : exec w o a = some (r, w')) (hk : ∀ n, o = .getRecord n → w.Known n)
    (hasked : ∀ u, o = .getOrder u → u < w.orders.length)
    (hdenied : ∀ u ∈ denied ⟨o, r⟩, w'.outstanding u = false) : Remains w' ⟨o, r⟩ := by
  have hl := exec_later he
  cases o with
  | now =>
      obtain ⟨rfl, rfl⟩ := Prod.ext_iff.1 (Option.some.inj he)
      exact Nat.le_refl _
  | getRecord n =>
      rcases r with f | (rec | reason)
      · trivial
      · intro u hu
        exact hl.length (hk n rfl rec u (recordOf_eq.2 (exec_getRecord he).2) hu)
      · trivial
  | getOrder u =>
      have hlt := hasked u rfl
      cases r with
      | error f =>
          intro href
          exact ⟨hl.length hlt, hdenied u (by simp [denied, href])⟩
      | ok o =>
          simp only [exec, CA.getOrder] at he
          obtain ⟨x, hx, -, rfl⟩ := queryOrder_ok he
          obtain rfl := queryOrder_world he
          refine ⟨told_report _ u _ x, x, hx, rfl, fun hinv => ?_⟩
          exact CAOrder.outstanding_eq_false.2 (.inr (CAOrder.status_eq_invalid.1 hinv))
  | waitOrder url =>
      cases r with
      | error f => trivial
      | ok o =>
          simp only [exec] at he
          cases url with
          | some u =>
              simp only [CA.waitOrder] at he
              obtain ⟨x, -, -, rfl⟩ := queryOrder_ok he
              exact ⟨u, rfl, told_report _ u _ x⟩
          | none =>
              simp only [CA.waitOrder] at he
              split at he
              · cases he
              · cases (Prod.ext_iff.1 (Option.some.inj he)).1
  | authorizeOrder d =>
      cases r with
      | error f => trivial
      | ok o =>
          rcases exec_authorizeOrder he with ⟨rfl, ho⟩ | ⟨-, f, hf⟩
          · obtain rfl := ho o rfl
            refine ⟨(w.pass a).orders.length, rfl, told_report _ _ _ _, ?_⟩
            simp
          · cases hf
  | _ => trivial

/-- A record in the journal was there before, or has just been written. -/
theorem recordOf_exec {rec : OrderRecord} (he : exec w o a = some (r, w'))
    (hrec : w'.recordOf n = some rec) : w.recordOf n = some rec ∨ o = .putRecord n rec := by
  rw [recordOf_eq] at hrec ⊢
  rcases exec_slot n he with hsame | ⟨rec', rfl, hput⟩ | ⟨rfl, hremoved⟩
  · exact .inl (hsame.symm.trans hrec)
  · cases hput.symm.trans hrec
    exact .inr rfl
  · cases hremoved.symm.trans hrec

/-- A record that is no longer in the journal has just been removed or written over. -/
theorem recordOf_lost {rec : OrderRecord} (he : exec w o a = some (r, w'))
    (hrec : w.recordOf n = some rec) (hlost : w'.recordOf n ≠ some rec) :
    (∃ rec', o = .putRecord n rec') ∨ o = .removeRecord n := by
  rw [Ne, recordOf_eq] at hlost
  rw [recordOf_eq] at hrec
  rcases exec_slot n he with hsame | ⟨rec', rfl, -⟩ | ⟨rfl, -⟩
  · exact absurd (hsame.trans hrec) hlost
  · exact .inl ⟨rec', rfl⟩
  · exact .inr rfl

end

/-- Between two moves: what is known of the slot of `n` and of the attempt in progress for it. -/
structure Working (n : Name) (v : AttemptsView) : Prop where
  known : v.shared.Known n
  allows : ∀ q h, v.task () = some (q, h) → q.name = n → Allows n h (v.shared.journal n)
  remains : ∀ q h, v.task () = some (q, h) → q.name = n → ∀ e ∈ h, Remains v.shared e
  spared : ∀ q h, v.task () = some (q, h) → q.name = n → ∀ rec, v.shared.recordOf n = some rec →
    rec.spki ≠ q.spki → v.shared.collectable rec = false

section

variable {n : Name} {v v' : AttemptsView} {l : AttemptsLabel} {q : Attempt} {h : Hist Op Res}
  {w' : World} {o : Op} {a : Answer} {r : Res o}

/-- The journal goes on naming an order that was placed. -/
theorem known_did (hI : Working n v) (ht : v.task () = some (q, h)) (hmay : mayJournal q h o)
    (he : exec v.shared o a = some (r, w')) : w'.Known n := by
  intro rec u hrec hu
  have hl := exec_later he
  rcases recordOf_exec he hrec with hrec | rfl
  · exact hl.length (hI.known rec u hrec hu)
  · obtain ⟨hn, -, -, ⟨d, o, ho, huri⟩, -⟩ := hmay
    obtain ⟨u', hu', -, hlt⟩ : Remains v.shared ⟨.authorizeOrder d, .ok o⟩ :=
      hI.remains q h ht hn.symm _ ho
    obtain rfl : u' = u := Option.some.inj (hu'.symm.trans (huri.symm.trans hu))
    exact hl.length hlt

theorem remains_did (hI : Working n v) (ht : v.task () = some (q, h)) (hn : q.name = n)
    (hmay : mayJournal q h o) (he : exec v.shared o a = some (r, w'))
    (hdenied : ∀ u ∈ denied ⟨o, r⟩, w'.outstanding u = false) :
    ∀ e ∈ (⟨o, r⟩ :: h : Hist Op Res), Remains w' e := by
  refine List.forall_mem_cons.2 ⟨remains_exec he ?_ ?_ hdenied, fun e hmem => ?_⟩
  · rintro m rfl
    obtain rfl : m = q.name := hmay
    exact hn ▸ hI.known
  · rintro u rfl
    obtain ⟨rec, hrec, hu⟩ := hmay
    exact hI.remains q h ht hn _ hrec u hu
  · exact (hI.remains q h ht hn e hmem).later (exec_later he)

theorem spared_did (hI : Working n v) (ht : v.task () = some (q, h)) (hn : q.name = n)
    (hmay : mayJournal q h o) (he : exec v.shared o a = some (r, w')) (rec : OrderRecord)
    (hrec : w'.recordOf n = some rec) (hspki : rec.spki ≠ q.spki) :
    w'.collectable rec = false := by
  rcases recordOf_exec he hrec with hrec | rfl
  · exact (exec_later he).collectable (fun u hu => hI.known rec u hrec hu)
      (hI.spared q h ht hn rec hrec hspki)
  · exact absurd hmay.2.1 hspki

theorem working_move (hI : Working n v) (hm : Move attempts journals v l v') (hden : Denies v l v')
    (hoff : KeepsOff n v l v') : Working n v' := by
  cases hm with
  | start ht =>
      refine ⟨hI.known, fun q h hq => ?_, fun q h hq => ?_, fun q h hq => ?_⟩
      all_goals
        obtain ⟨rfl, rfl⟩ : _ = q ∧ [] = h := by simpa using hq
      · exact fun _ => trivial
      · exact fun _ => nofun
      · exact hoff _ rfl
  | did ht hmay he =>
      refine ⟨known_did hI ht hmay he, fun q' h' hq => ?_, fun q' h' hq => ?_, fun q' h' hq => ?_⟩
      all_goals
        obtain ⟨rfl, rfl⟩ : _ = q' ∧ _ = h' := by simpa using hq
        intro hn
      · exact allows_exec he (hI.allows _ _ ht hn)
      · exact remains_did hI ht hn hmay he (hden _ rfl)
      · exact spared_did hI ht hn hmay he
  | finish ht hdone => exact ⟨hI.known, by simp, by simp, by simp⟩
  | crash => exact ⟨hI.known, by simp, by simp, by simp⟩

theorem working_idle {w : World} (hk : w.Known n) :
    Working n (Config.idle w : AttemptsConfig).view :=
  ⟨hk, nofun, nofun, nofun⟩

/-- A write that costs a collectable record is made by an attempt that has its order's
certificate. -/
theorem kept_move {rec : OrderRecord} (hI : Working n v) (hm : Move attempts journals v l v')
    (hrec : v.shared.recordOf n = some rec) (hc : v'.shared.collectable rec = true)
    (hlost : v'.shared.recordOf n ≠ some rec) :
    ∃ q h u leaf, v.task () = some (q, h) ∧ q.name = n ∧ rec.orderURL = some u ∧
      Obtained h u leaf := by
  cases hm with
  | start ht => exact absurd hrec hlost
  | finish ht hdone => exact absurd hrec hlost
  | crash => exact absurd hrec hlost
  | @did t q h o a r w' ht hmay he =>
      have hname : n = q.name ∧ ∀ x, Allows q.name h x → Expendable q h x := by
        rcases recordOf_lost he hrec hlost with ⟨rec', rfl⟩ | rfl
        · exact ⟨hmay.1, hmay.2.2.2.2⟩
        · exact ⟨hmay.1, hmay.2⟩
      obtain ⟨rfl, hexp⟩ := hname
      have hremains := hI.remains q h ht rfl
      have hstill : v.shared.collectable rec = true := by
        by_contra hnot
        have hfalse := (exec_later he).collectable (fun u hu => hI.known rec u hrec hu)
          (by simpa using hnot)
        exact absurd (hfalse.symm.trans hc) (by simp)
      -- what the attempt may write over: a dead order, another key's, or one it has collected
      rcases hexp _ (hI.allows q h ht rfl) rec (recordOf_eq.1 hrec) with
        hd | hf | ⟨o, leaf, hn, hcert⟩
      · rw [hd.not_collectable hremains] at hstill
        cases hstill
      · rw [hI.spared q h ht rfl rec hrec hf] at hstill
        cases hstill
      · obtain ⟨u, hu, htold⟩ := hn.told hremains
        exact ⟨q, h, u, leaf, ht, rfl, hu, hcert.obtained htold hremains⟩

end

end Issuer
end CertsManager
