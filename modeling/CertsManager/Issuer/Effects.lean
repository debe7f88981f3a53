import CertsManager.Issuer.Journal

/-!
# Issuer/Effects — what calls do to orders and to the journal

An order that has ended does not come back: invalid, expired and forgotten are final
(`World.Later`), whatever the CA does by itself and whatever call is made.
-/

namespace CertsManager
namespace Issuer

/-! ## Orders over time -/

/-- Pending, ready, processing or valid at the CA. -/
def World.outstanding (w : World) (u : URL) : Bool :=
  w.orders[u]?.any fun o => o.outstanding w.clock

/-- An order as it can be later on. -/
structure CAOrder.Later (o o' : CAOrder) : Prop where
  expires : o'.expires = o.expires
  forgotten : o.forgotten = true → o'.forgotten = true
  invalid : o.stage = .invalid → o'.stage = .invalid

theorem CAOrder.Later.refl (o : CAOrder) : o.Later o :=
  ⟨rfl, id, id⟩

theorem CAOrder.Later.trans {o o' o'' : CAOrder} (h : o.Later o') (h' : o'.Later o'') :
    o.Later o'' :=
  ⟨h'.expires.trans h.expires, h'.forgotten ∘ h.forgotten, h'.invalid ∘ h.invalid⟩

theorem CAOrder.expired_mono {o : CAOrder} {t t' : Time} (ht : t ≤ t') (he : o.expired t = true) :
    o.expired t' = true := by
  obtain ⟨e, he, hlt⟩ : ∃ e, o.expires = some e ∧ e < t := by
    simpa [CAOrder.expired, Option.any_eq_true] using he
  simpa [CAOrder.expired, he] using Nat.lt_of_lt_of_le hlt ht

theorem CAOrder.status_eq_invalid {o : CAOrder} {t : Time} :
    o.status t = .invalid ↔ o.expired t = true ∨ o.stage = .invalid := by
  unfold CAOrder.status
  split
  · simp [*]
  · cases o.stage <;> simp_all [Stage.status]

theorem CAOrder.outstanding_eq_false {o : CAOrder} {t : Time} :
    o.outstanding t = false ↔ o.forgotten = true ∨ o.expired t = true ∨ o.stage = .invalid := by
  simp only [CAOrder.outstanding, Bool.and_eq_false_iff, Bool.not_eq_false', decide_eq_false_iff_not,
    not_not, CAOrder.status_eq_invalid]

/-- An order that has ended stays ended. -/
theorem CAOrder.Later.ended {o o' : CAOrder} {t t' : Time} (h : o.Later o') (ht : t ≤ t')
    (ho : o.outstanding t = false) : o'.outstanding t' = false := by
  rw [CAOrder.outstanding_eq_false] at ho ⊢
  rcases ho with hf | he | hi
  · exact .inl (h.forgotten hf)
  · refine .inr (.inl ?_)
    have he' : o'.expired t = true := by simpa [CAOrder.expired, h.expires] using he
    exact CAOrder.expired_mono ht he'
  · exact .inr (.inr (h.invalid hi))

/-- The world as it can be later on. -/
structure World.Later (w w' : World) : Prop where
  clock : w.clock ≤ w'.clock
  orders : ∀ (u : URL) (o : CAOrder), w.orders[u]? = some o →
    ∃ o', w'.orders[u]? = some o' ∧ o.Later o'

theorem World.Later.trans {w w' w'' : World} (h : w.Later w') (h' : w'.Later w'') :
    w.Later w'' := by
  refine ⟨Nat.le_trans h.clock h'.clock, fun u o ho => ?_⟩
  obtain ⟨o', ho', hl⟩ := h.orders u o ho
  obtain ⟨o'', ho'', hl'⟩ := h'.orders u o' ho'
  exact ⟨o'', ho'', hl.trans hl'⟩

theorem World.Later.length {w w' : World} {u : URL} (h : w.Later w') (hu : u < w.orders.length) :
    u < w'.orders.length := by
  obtain ⟨o', ho', -⟩ := h.orders u _ (List.getElem?_eq_getElem hu)
  exact (List.getElem?_eq_some_iff.1 ho').1

theorem World.Later.ended {w w' : World} {u : URL} (h : w.Later w') (hu : u < w.orders.length)
    (ho : w.outstanding u = false) : w'.outstanding u = false := by
  have hget := List.getElem?_eq_getElem hu
  obtain ⟨o', ho', hl⟩ := h.orders u _ hget
  simp only [World.outstanding, hget, ho', Option.any_some] at ho ⊢
  exact hl.ended h.clock ho

/-! ## Every call goes forward -/

theorem CAEvent.changes_later (o : CAOrder) (e : CAEvent) : o.Later (e.changes o) := by
  cases e with
  | authorized u =>
      cases hs : o.stage <;> simp [CAEvent.changes, hs] <;> exact ⟨rfl, id, by simp [hs]⟩
  | rejected u =>
      cases hs : o.stage <;> simp [CAEvent.changes, hs] <;> exact ⟨rfl, id, by simp [hs]⟩
  | issued u notAfter =>
      cases hs : o.stage <;> simp [CAEvent.changes, hs] <;> exact ⟨rfl, id, by simp [hs]⟩
  | forgotten u => exact ⟨rfl, fun _ => rfl, id⟩

/-- Changing one order, to one it can become. -/
theorem modify_later {orders : List CAOrder} {i u : URL} {f : CAOrder → CAOrder} {o : CAOrder}
    (hf : ∀ x, orders[i]? = some x → x.Later (f x)) (ho : orders[u]? = some o) :
    ∃ o', (orders.modify i f)[u]? = some o' ∧ o.Later o' := by
  rw [List.getElem?_modify, ho]
  by_cases hiu : i = u
  · subst hiu
    exact ⟨f o, by simp, hf o ho⟩
  · exact ⟨o, by simp [hiu], .refl o⟩

theorem events_later (events : List CAEvent) (orders : List CAOrder) {u : URL} {o : CAOrder}
    (ho : orders[u]? = some o) :
    ∃ o', (events.foldl CAEvent.apply orders)[u]? = some o' ∧ o.Later o' := by
  induction events generalizing orders o with
  | nil => exact ⟨o, ho, .refl o⟩
  | cons e es ih =>
      obtain ⟨o₁, ho₁, hl⟩ := modify_later (fun x _ => e.changes_later x) ho
      obtain ⟨o₂, ho₂, hl'⟩ := ih (CAEvent.apply orders e) ho₁
      exact ⟨o₂, ho₂, hl.trans hl'⟩

theorem World.pass_later (w : World) (a : Answer) : w.Later (w.pass a) :=
  ⟨Nat.le_add_right _ _, fun _ _ ho => events_later a.events w.orders ho⟩

theorem World.Later.append (w : World) (o : CAOrder) :
    w.Later { w with orders := w.orders ++ [o] } := by
  refine ⟨Nat.le_refl _, fun u x hx => ⟨x, ?_, .refl x⟩⟩
  rw [List.getElem?_append_left (List.getElem?_eq_some_iff.1 hx).1]
  exact hx

/-- An order that is ready can be finalized. -/
theorem World.Later.setStage {w : World} {url : URL} (stage : Stage)
    (hready : ((w.order url).any fun o => decide (o.status w.clock = .ready)) = true) :
    w.Later (w.setStage url stage) := by
  refine ⟨Nat.le_refl _, fun u x hx => modify_later (fun y hy => ⟨rfl, id, fun hinv => ?_⟩) hx⟩
  obtain ⟨z, hz, hstatus⟩ : ∃ z, w.order url = some z ∧ z.status w.clock = .ready := by
    simpa [Option.any_eq_true] using hready
  obtain ⟨hget, -⟩ : w.orders[url]? = some z ∧ _ := Option.filter_eq_some_iff.1 hz
  obtain rfl : y = z := Option.some.inj (hy.symm.trans hget)
  rw [CAOrder.status_eq_invalid.2 (.inr hinv)] at hstatus
  cases hstatus

/-! ### Which call changes what -/

/-- Calls that place or finalize an order. -/
def Op.Ordering : Op → Prop
  | .authorizeOrder _ => True
  | .createOrderCert _ _ => True
  | _ => False

/-- Calls that write the journal. -/
def Op.Writing : Op → Prop
  | .putRecord _ _ => True
  | .removeRecord _ => True
  | _ => False

theorem Op.Quiet.not_writing {o : Op} (ho : o.Quiet) : ¬ o.Writing := by
  cases o <;> simp_all [Op.Quiet, Op.Writing]

/-- The world a call leaves, from the pair it returns. -/
theorem world_of_some {α : Type} {x : α × World} {r : α} {w' : World} (he : some x = some (r, w')) :
    w' = x.2 :=
  (Prod.ext_iff.1 (Option.some.inj he)).2.symm

theorem queryOrder_world {w w' : World} {a : Answer} {u : URL} {settled : Status → Bool}
    {r : Except Fault Order} (he : CA.queryOrder w a u settled = some (r, w')) : w' = w := by
  unfold CA.queryOrder at he
  split at he
  · obtain ⟨o, -, he⟩ := Option.map_eq_some_iff.1 he
    exact (Prod.ext_iff.1 he).2.symm
  · exact world_of_some he

theorem waitOrder_world {w w' : World} {a : Answer} {url : Option URL} {r : Except Fault Order}
    (he : CA.waitOrder w a url = some (r, w')) : w' = w := by
  cases url with
  | some u =>
      simp only [CA.waitOrder] at he
      exact queryOrder_world he
  | none =>
      simp only [CA.waitOrder] at he
      split at he
      · cases he
      · exact world_of_some he

theorem fetchCert_world {w w' : World} {a : Answer} {u : URL} {r : Except Fault Leaf}
    (he : CA.fetchCert w a u = some (r, w')) : w' = w := by
  unfold CA.fetchCert at he
  split at he
  · split at he
    · exact world_of_some he
    · cases he
  · exact world_of_some he

/-- A call that neither orders nor writes leaves everything to time and the CA. -/
theorem exec_still {w w' : World} {o : Op} {a : Answer} {r : Res o} (ho : ¬ o.Ordering)
    (hw : ¬ o.Writing) (he : exec w o a = some (r, w')) :
    ∃ b, w' = { w.pass a with registered := b } := by
  have hsame : w' = w.pass a → ∃ b, w' = { w.pass a with registered := b } :=
    fun h => ⟨(w.pass a).registered, h⟩
  cases o with
  | authorizeOrder d => exact absurd trivial ho
  | createOrderCert u csr => exact absurd trivial ho
  | putRecord n rec => exact absurd trivial hw
  | removeRecord n => exact absurd trivial hw
  | setRegistered => exact ⟨true, world_of_some he⟩
  | getRecord n =>
      simp only [exec] at he
      split at he
      · split at he <;> exact hsame (world_of_some he)
      · exact hsame (world_of_some he)
  | getAuthorization u =>
      simp only [exec] at he
      split at he <;> exact hsame (world_of_some he)
  | getOrder u =>
      simp only [exec, CA.getOrder] at he
      exact hsame (queryOrder_world he)
  | waitOrder url => exact hsame (waitOrder_world he)
  | fetchCert u => exact hsame (fetchCert_world he)
  | _ => exact hsame (world_of_some he)

/-- A journal write: done or not, and done if it says so. -/
theorem journalWrite_cases {w w' : World} {a : Answer} {n : Name} {x : Option JournalObject}
    {r : Except String Unit} (he : journalWrite w a n x = (r, w')) :
    w' = w.setJournal n x ∨ w' = w ∧ ∃ reason, r = .error reason := by
  unfold journalWrite at he
  cases ho : a.outcome <;> simp only [ho, Prod.mk.injEq] at he <;> obtain ⟨rfl, rfl⟩ := he <;> simp

theorem exec_put {w w' : World} {a : Answer} {n : Name} {rec : OrderRecord}
    {r : Except String Unit} (he : exec w (.putRecord n rec) a = some (r, w')) :
    w' = (w.pass a).setJournal n (some (.record rec)) ∨
      w' = w.pass a ∧ ∃ reason, r = .error reason :=
  journalWrite_cases (Option.some.inj he)

theorem exec_remove {w w' : World} {a : Answer} {n : Name} {r : Except String Unit}
    (he : exec w (.removeRecord n) a = some (r, w')) :
    w' = (w.pass a).setJournal n none ∨ w' = w.pass a ∧ ∃ reason, r = .error reason :=
  journalWrite_cases (Option.some.inj he)

/-- A new order goes to the end of the list. -/
theorem exec_authorizeOrder {w w' : World} {a : Answer} {d : Name} {r : Except Fault Order}
    (he : exec w (.authorizeOrder d) a = some (r, w')) :
    (w' = { w.pass a with orders := (w.pass a).orders ++ [newOrder a] } ∧
        ∀ o, r = .ok o → o = w'.report (w.pass a).orders.length true (newOrder a)) ∨
      w' = w.pass a ∧ ∃ f, r = .error f := by
  replace he : CA.authorizeOrder (w.pass a) a = (r, w') := Option.some.inj he
  unfold CA.authorizeOrder at he
  cases ho : a.outcome <;> simp only [ho, Prod.mk.injEq] at he <;> obtain ⟨rfl, rfl⟩ := he <;> simp

/-- Only an order that is ready is finalized, with the key of the request. -/
theorem exec_createOrderCert {w w' : World} {a : Answer} {u : URL} {csr : PublicKey}
    {r : Except Fault Leaf} (he : exec w (.createOrderCert u csr) a = some (r, w')) :
    (∃ stage, w' = (w.pass a).setStage u stage ∧ stage.boundTo = some csr ∧
        (((w.pass a).order u).any fun o => decide (o.status (w.pass a).clock = .ready)) = true ∧
        ∀ leaf, r = .ok leaf → leaf.pub = csr) ∨
      w' = w.pass a ∧ ∃ f, r = .error f := by
  simp only [exec, CA.createOrderCert] at he
  split at he
  · split at he
    · rename_i hready
      obtain ⟨rfl, rfl⟩ := Prod.ext_iff.1 (Option.some.inj he)
      refine .inl ⟨_, rfl, rfl, hready, ?_⟩
      rintro leaf ⟨⟩
      rfl
    · cases he
  · split at he
    · rename_i hready
      obtain ⟨rfl, rfl⟩ := Prod.ext_iff.1 (Option.some.inj he)
      exact .inl ⟨_, rfl, rfl, hready, nofun⟩
    · cases he
  · obtain ⟨rfl, rfl⟩ := Prod.ext_iff.1 (Option.some.inj he)
    exact .inr ⟨rfl, _, rfl⟩

theorem exec_later {w w' : World} {o : Op} {a : Answer} {r : Res o}
    (he : exec w o a = some (r, w')) : w.Later w' := by
  have hpass := w.pass_later a
  by_cases ho : o.Ordering
  · cases o with
    | authorizeOrder d =>
        rcases exec_authorizeOrder he with ⟨rfl, -⟩ | ⟨rfl, -⟩
        · exact hpass.trans (.append _ _)
        · exact hpass
    | createOrderCert u csr =>
        rcases exec_createOrderCert he with ⟨stage, rfl, -, hready, -⟩ | ⟨rfl, -⟩
        · exact hpass.trans (.setStage stage hready)
        · exact hpass
    | _ => cases ho
  · by_cases hw : o.Writing
    · cases o with
      | putRecord n rec => rcases exec_put he with rfl | ⟨rfl, -⟩ <;> exact ⟨hpass.clock, hpass.orders⟩
      | removeRecord n => rcases exec_remove he with rfl | ⟨rfl, -⟩ <;> exact ⟨hpass.clock, hpass.orders⟩
      | _ => cases hw
    · obtain ⟨b, rfl⟩ := exec_still ho hw he
      exact ⟨hpass.clock, hpass.orders⟩

/-- A read of a record returns what is there, or fails. -/
theorem exec_getRecord {w w' : World} {a : Answer} {n : Name} {r : Except ReadFault JournalObject}
    (he : exec w (.getRecord n) a = some (r, w')) :
    w'.journal = w.journal ∧ match r with
      | .ok x => w.journal n = some x
      | .error .notExist => w.journal n = none
      | .error (.failed _ _) => True := by
  simp only [exec] at he
  split at he
  · split at he
    · rename_i x hx
      obtain ⟨rfl, rfl⟩ := Prod.ext_iff.1 (Option.some.inj he)
      exact ⟨rfl, hx⟩
    · rename_i hx
      obtain ⟨rfl, rfl⟩ := Prod.ext_iff.1 (Option.some.inj he)
      exact ⟨rfl, hx⟩
  · obtain ⟨rfl, rfl⟩ := Prod.ext_iff.1 (Option.some.inj he)
    exact ⟨rfl, trivial⟩

/-- A call that writes no record leaves the journal as it is. -/
theorem exec_journal {w w' : World} {o : Op} {a : Answer} {r : Res o} (hw : ¬ o.Writing)
    (he : exec w o a = some (r, w')) : w'.journal = w.journal := by
  by_cases ho : o.Ordering
  · cases o with
    | authorizeOrder d => rcases exec_authorizeOrder he with ⟨rfl, -⟩ | ⟨rfl, -⟩ <;> rfl
    | createOrderCert u csr =>
        rcases exec_createOrderCert he with ⟨stage, rfl, -⟩ | ⟨rfl, -⟩ <;> rfl
    | _ => cases ho
  · obtain ⟨b, rfl⟩ := exec_still ho hw he
    rfl

/-- A slot changes only by a write to it. -/
theorem exec_slot {w w' : World} {o : Op} {a : Answer} {r : Res o} (n : Name)
    (he : exec w o a = some (r, w')) :
    w'.journal n = w.journal n ∨
      (∃ rec, o = .putRecord n rec ∧ w'.journal n = some (.record rec)) ∨
      o = .removeRecord n ∧ w'.journal n = none := by
  by_cases hw : o.Writing
  · cases o with
    | putRecord m rec =>
        rcases exec_put he with rfl | ⟨rfl, -⟩
        · by_cases hm : n = m
          · subst hm
            exact .inr (.inl ⟨rec, rfl, by simp [World.setJournal]⟩)
          · exact .inl (Function.update_of_ne hm _ _)
        · exact .inl rfl
    | removeRecord m =>
        rcases exec_remove he with rfl | ⟨rfl, -⟩
        · by_cases hm : n = m
          · subst hm
            exact .inr (.inr ⟨rfl, by simp [World.setJournal]⟩)
          · exact .inl (Function.update_of_ne hm _ _)
        · exact .inl rfl
    | _ => cases hw
  · exact .inl (congrFun (exec_journal hw he) n)

end Issuer
end CertsManager
