import CertsManager.Certstore.Agreement

/-!
# Deletion — what the inventory removes without force

`Delete` refuses a chain that is in use, and reads it again to know.  A chain whose read failed
counts as one that no node can serve (`Invalid` is "unreadable: …"), so it is removed although it
may be served everywhere; so does one whose leaf stands beyond the first MiB, which is all that is
read.  When the last read of the chain was answered, its leaf is within reach, and the configuration
and the allow-set are spelled as the manager spells them, nothing that is in use is removed, by any
number of operators at once.  Nothing else makes `Delete` refuse.
-/

namespace CertsManager
namespace Certstore

open Interleave Layout

/-! ## What the programs read -/

/-- The leaf of a chain that parses. -/
def leafOf : List Block → Option Leaf
  | [] => none
  | .other _ :: rest => leafOf rest
  | .certificate (.error _) :: _ => none
  | .certificate (.ok leaf) :: _ => some leaf

def getReply (key : String) : Ev Op Res → Option (Except Fault Data)
  | ⟨.get k, r⟩ => if k = key then some r else none
  | _ => none

/-- The last read of an object. -/
def lastGet (key : String) (h : History) : Option (Except Fault Data) :=
  h.findSome? (getReply key)

/-- The last read of the object was answered with its content. -/
def readOK (key : String) (h : History) : Bool :=
  match lastGet key h with
  | some (.ok _) => true
  | _ => false

/-- The last read of the object showed a leaf that had not expired when the clock was read. -/
def Vouched (key : String) (h : History) : Prop :=
  ∃ data leaf t, lastGet key h = some (.ok data) ∧ leafOf data.pem = some leaf ∧
    ⟨.now, t⟩ ∈ h ∧ t ≤ leaf.notAfter

/-- A certificate is described as the history has it: its name and key, its role by an answer about
the allow-set, and whether it can be served by the last read of it. -/
structure Described (inv : Inventory) (h : History) (c : Certificate) : Prop where
  domain : ∃ d, c.domain = normalize inv.u d
  key : c.key = Paths.chain inv.u inv.base c.domain
  role : ∃ r names, ⟨.get inv.onDemandKey, r⟩ ∈ h ∧ inv.onDemandOf r = .ok names ∧
    c.role = inv.role names c.domain
  look : ∀ data, lastGet c.key h = some (.ok data) → ∀ leaf, leafOf data.pem = some leaf →
    ∃ t, ⟨.now, t⟩ ∈ h ∧ c.unservable = if leaf.notAfter < t then "expired" else ""
  vouched : c.unservable = "" → Vouched c.key h

/-- Without force only a chain described as not in use is removed. -/
def mayRemove (inv : Inventory) (force : Bool) (h : History) : Op → Prop
  | .remove key => force = true ∨ ∃ c, Described inv h c ∧ c.key = key ∧ c.inUse = false
  | _ => True

def Op.Keeps : Op → Prop
  | .remove _ => False
  | _ => True

section

variable {inv : Inventory} {h : History}

theorem Op.Keeps.may {force : Bool} {o : Op} (ho : o.Keeps) : mayRemove inv force h o := by
  cases o with
  | remove key => cases ho
  | _ => trivial

variable {may : History → Op → Prop}

omit may in
theorem invalid_of_unservable {c : Certificate} (hs : c.unservable = "") : c.invalid = "" := by
  by_contra hne
  simp [Certificate.unservable, hne] at hs

/-- What `parse` leaves of the certificate it is given, and what it says of the chain. -/
theorem parse_describes (hmay : ∀ h o, Op.Keeps o → may h o) (c₀ : Certificate)
    (hvalid : c₀.invalid = "") (blocks : List Block) :
    (Inventory.parse blocks c₀).Conforms may h fun h' c =>
      c.domain = c₀.domain ∧ c.key = c₀.key ∧ c.role = c₀.role ∧ h <:+ h' ∧
        (∀ key, lastGet key h' = lastGet key h) ∧
        (∀ leaf, leafOf blocks = some leaf →
          ∃ t, ⟨.now, t⟩ ∈ h' ∧ c.unservable = if leaf.notAfter < t then "expired" else "") ∧
        (c.unservable = "" → ∃ leaf t, leafOf blocks = some leaf ∧ ⟨.now, t⟩ ∈ h' ∧
          t ≤ leaf.notAfter) := by
  induction blocks with
  | nil =>
      refine ⟨rfl, rfl, rfl, List.suffix_refl h, fun _ => rfl, nofun, fun hs => ?_⟩
      exact absurd (invalid_of_unservable hs) (by simp)
  | cons b rest ih =>
      cases b with
      | other type => exact ih
      | certificate leaf =>
          cases leaf with
          | error err =>
              refine ⟨rfl, rfl, rfl, List.suffix_refl h, fun _ => rfl, nofun, fun hs => ?_⟩
              exact absurd (invalid_of_unservable hs) (by simp)
          | ok leaf =>
              refine ⟨hmay _ _ trivial, fun t => ?_⟩
              refine ⟨rfl, rfl, rfl, List.suffix_cons _ h, fun _ => rfl, ?_, fun hs => ?_⟩
              · rintro l ⟨⟩
                refine ⟨t, List.mem_cons_self, ?_⟩
                simp [Certificate.unservable, hvalid]
              · refine ⟨leaf, t, rfl, List.mem_cons_self, Nat.not_lt.1 fun hlt => ?_⟩
                simp [Certificate.unservable, hvalid, hlt] at hs

theorem describe_described (hmay : ∀ h o, Op.Keeps o → may h o) (c₀ : Certificate)
    (keys : List String) {names : List String} {r : Except Fault Data}
    (hvalid : c₀.invalid = "") (hdomain : ∃ d, c₀.domain = normalize inv.u d)
    (hkey : c₀.key = Paths.chain inv.u inv.base c₀.domain)
    (hr : ⟨.get inv.onDemandKey, r⟩ ∈ h) (hnames : inv.onDemandOf r = .ok names) :
    (inv.describe c₀ keys names).Conforms may h fun h' c => Described inv h' c := by
  simp only [Inventory.describe, readObject, Prog.conforms_bind, Prog.conforms_perform]
  refine ⟨hmay _ _ trivial, fun reply => ?_⟩
  have hlast : lastGet c₀.key (⟨.get c₀.key, reply⟩ :: h) = some reply := by
    simp [lastGet, getReply]
  cases reply with
  | error fault =>
      refine ⟨hdomain, hkey, ⟨r, names, List.mem_cons_of_mem _ hr, hnames, rfl⟩, ?_, fun hs => ?_⟩
      · intro data hdata
        cases hdata.symm.trans hlast
      · exact absurd (invalid_of_unservable hs) (by simp)
  | ok data =>
      refine (parse_describes hmay _ (by exact hvalid) data.pem).mono ?_
      rintro h' c ⟨hd, hk, hrole, hsuffix, hsame, hlook, hvouched⟩
      refine ⟨hd ▸ hdomain, ?_, ⟨r, names, ?_, hnames, ?_⟩, ?_, fun hs => ?_⟩
      · rw [hk, hd]
        exact hkey
      · exact hsuffix.subset (List.mem_cons_of_mem _ hr)
      · rw [hrole, hd]
      · intro data' hdata' leaf hleaf
        rw [hk, hsame, hlast] at hdata'
        cases hdata'
        exact hlook leaf hleaf
      · obtain ⟨leaf, t, hleaf, ht, hle⟩ := hvouched hs
        exact ⟨data, leaf, t, by rw [hk, hsame, hlast], hleaf, ht, hle⟩

theorem keyNames_keeps : inv.keyNames.Calls Op.Keeps := by
  refine (Prog.Calls.perform trivial).bind fun r => ?_
  cases r <;> exact Prog.Calls.pure _

theorem onDemandOf_error {r : Except Fault Data} {err : Err} (h : inv.onDemandOf r = .error err) :
    ∃ text, err = .allowSet text := by
  unfold Inventory.onDemandOf at h
  split at h
  · cases h
  · cases h
    exact ⟨_, rfl⟩
  · split at h <;> cases h
    exact ⟨_, rfl⟩

/-- `get` describes what it finds, and calls nothing in use. -/
theorem get_described (hmay : ∀ h o, Op.Keeps o → may h o) (domain : String) :
    (inv.get domain).Conforms may h fun h' r =>
      (∀ c, r = .ok c → Described inv h' c) ∧ ∀ c, r ≠ .error (.inUse c) := by
  simp only [Inventory.get, Inventory.keyNames, stat, listObjects, Prog.conforms_bind,
    Prog.conforms_perform]
  refine ⟨hmay _ _ trivial, fun r => ?_⟩
  rcases r with (_ | text) | info
  · exact ⟨by simp, by simp⟩
  · exact ⟨by simp, by simp⟩
  · simp only [Prog.conforms_bind, Prog.conforms_perform]
    refine ⟨hmay _ _ trivial, fun objects => ?_⟩
    cases objects with
    | error fault => exact ⟨by simp, by simp⟩
    | ok objects =>
        simp only [Inventory.onDemand, readObject, Prog.conforms_bind, Prog.conforms_perform,
          Prog.conforms_pure]
        refine ⟨hmay _ _ trivial, fun reply => ?_⟩
        cases hnames : inv.onDemandOf reply with
        | error err =>
            obtain ⟨text, rfl⟩ := onDemandOf_error hnames
            exact ⟨by simp, by simp⟩
        | ok names =>
            simp only [Prog.conforms_bind, Prog.conforms_pure]
            refine Prog.Conforms.mono (describe_described hmay _ _ ?_ ?_ ?_ List.mem_cons_self
              hnames) ?_
            · rfl
            · refine ⟨domain, ?_⟩
              dsimp only
            · dsimp only
            · intro h' c hc
              refine ⟨?_, by simp⟩
              rintro _ ⟨⟩
              exact hc

/-- Every removal of `delete` is one it may make, and it refuses one only for a leaf it has seen. -/
theorem delete_removes (domain : String) (force : Bool) :
    (inv.delete domain force).Conforms (mayRemove inv force) h fun h' r =>
      ∀ c, r = .error (.inUse c) → Vouched c.key h' := by
  simp only [Inventory.delete, Prog.conforms_bind]
  refine (get_described (fun _ _ ho => ho.may) domain).mono fun h' r hget => ?_
  obtain ⟨hr, hnot⟩ := hget
  cases r with
  | error err =>
      intro c hc
      exact absurd hc (hnot c)
  | ok c =>
      dsimp only
      split
      · rename_i hused
        have hservable : c.unservable = "" := by
          simp only [Certificate.inUse, Bool.and_eq_true, decide_eq_true_eq] at hused
          exact hused.1.1
        rintro _ ⟨⟩
        exact (hr c rfl).vouched hservable
      · rename_i hfree
        have hremove : mayRemove inv force h' (.remove c.key) := by
          cases force with
          | true => exact .inl rfl
          | false => exact .inr ⟨c, hr c rfl, rfl, by simpa using hfree⟩
        refine ⟨hremove, fun reply => ?_⟩
        cases reply <;>
          · intro c hc
            cases hc

/-! ## The commands -/

theorem parse_keeps (c : Certificate) (blocks : List Block) :
    (Inventory.parse blocks c).Calls Op.Keeps := by
  induction blocks with
  | nil => exact Prog.Calls.pure _
  | cons b rest ih =>
      cases b with
      | other type => exact ih
      | certificate leaf =>
          cases leaf with
          | error err => exact Prog.Calls.pure _
          | ok leaf => exact (Prog.Calls.perform trivial).bind fun t => Prog.Calls.pure _

theorem describe_keeps (c : Certificate) (keys names : List String) :
    (inv.describe c keys names).Calls Op.Keeps := by
  refine (Prog.Calls.perform trivial).bind fun r => ?_
  cases r with
  | error fault => exact Prog.Calls.pure _
  | ok data => exact parse_keeps _ _

theorem describeAll_keeps (dir : String) (keys names : List String) (objects : List ObjectInfo) :
    (inv.describeAll dir keys names objects).Calls Op.Keeps := by
  induction objects with
  | nil => exact Prog.Calls.pure _
  | cons o objects ih =>
      unfold Inventory.describeAll
      dsimp only
      split
      · exact ih
      · exact (describe_keeps _ _ _).bind fun c => ih.bind fun cs => Prog.Calls.pure _

theorem onDemand_keeps : inv.onDemand.Calls Op.Keeps :=
  (Prog.Calls.perform trivial).bind fun _ => Prog.Calls.pure _

theorem list_keeps : inv.list.Calls Op.Keeps := by
  refine (Prog.Calls.perform trivial).bind fun objects => ?_
  cases objects with
  | error fault => exact Prog.Calls.pure _
  | ok objects =>
      refine keyNames_keeps.bind fun keys => ?_
      cases keys with
      | error err => exact Prog.Calls.pure _
      | ok keys =>
          refine onDemand_keeps.bind fun names => ?_
          cases names with
          | error err => exact Prog.Calls.pure _
          | ok names => exact (describeAll_keeps _ _ _ _).bind fun out => Prog.Calls.pure _

theorem print_keeps (stream : Stream) (text : String) : (print stream text).Calls Op.Keeps :=
  Prog.Calls.perform trivial

theorem printEach_keeps (line : String → String) (ds : List String) :
    (printEach line ds).Calls Op.Keeps := by
  induction ds with
  | nil => exact Prog.Calls.pure _
  | cons d ds ih => exact (print_keeps _ _).bind fun _ => ih

/-- A program that removes nothing may be run anywhere. -/
theorem keeps_removes {α : Type} {p : Program α} {force : Bool} (hp : p.Calls Op.Keeps) :
    p.Conforms (mayRemove inv force) h fun _ _ => True :=
  (hp.conforms fun _ _ ho => ho.may).mono fun _ _ _ => trivial

variable (env : Env)

theorem removeAgreed_removes (domain : String) (force : Bool) :
    (removeAgreed env inv domain force).Conforms (mayRemove inv force) h fun _ _ => True := by
  simp only [removeAgreed, Prog.conforms_bind]
  refine (delete_removes domain force).mono fun h' r _ => ?_
  cases r with
  | error err =>
      cases err <;> exact keeps_removes ((print_keeps _ _).bind fun _ => Prog.Calls.pure _)
  | ok removed =>
      refine keeps_removes ((print_keeps _ _).bind fun _ => ?_)
      split
      · exact (print_keeps _ _).bind fun _ => Prog.Calls.pure _
      · exact Prog.Calls.pure _

theorem runDelete_removes (args : DeleteArgs) :
    (runDelete env inv args).Conforms (mayRemove inv args.force) h fun _ _ => True := by
  simp only [runDelete, Prog.conforms_bind]
  refine (get_described (fun _ _ ho => ho.may) args.domain).mono fun h' r _ => ?_
  cases r with
  | error err =>
      cases err with
      | notStored domain =>
          exact keeps_removes ((print_keeps _ _).bind fun _ => list_keeps.bind fun _ =>
            (print_keeps _ _).bind fun _ => Prog.Calls.pure _)
      | _ => exact keeps_removes ((print_keeps _ _).bind fun _ => Prog.Calls.pure _)
  | ok c =>
      dsimp only
      split
      · exact keeps_removes ((print_keeps _ _).bind fun _ => Prog.Calls.pure _)
      · split
        · exact removeAgreed_removes env _ _
        · split
          · exact keeps_removes ((print_keeps _ _).bind fun _ => Prog.Calls.pure _)
          · refine ⟨trivial, fun agrees => ?_⟩
            cases agrees with
            | true => exact removeAgreed_removes env _ _
            | false => exact keeps_removes ((print_keeps _ _).bind fun _ => Prog.Calls.pure _)

theorem cleanEach_removes (doomed : List Certificate) (tally : Tally) :
    (cleanEach inv doomed tally).Conforms (mayRemove inv false) h fun _ _ => True := by
  induction doomed generalizing tally h with
  | nil => trivial
  | cons c doomed ih =>
      simp only [cleanEach, Prog.conforms_bind]
      refine (delete_removes c.domain false).mono fun h' r _ => ?_
      cases r with
      | error err =>
          cases err with
          | notStored domain => exact ih _
          | inUse c => exact ⟨trivial, fun _ => ih _⟩
          | storage fault => exact ⟨trivial, fun _ => ih _⟩
          | listing dir fault => exact ⟨trivial, fun _ => ih _⟩
          | allowSet text => exact ⟨trivial, fun _ => ih _⟩
          | removing key fault => exact ⟨trivial, fun _ => ih _⟩
      | ok removed => exact ih _

theorem cleanAgreed_removes (doomed : List Certificate) :
    (cleanAgreed env inv doomed).Conforms (mayRemove inv false) h fun _ _ => True := by
  simp only [cleanAgreed, Prog.conforms_bind]
  refine (cleanEach_removes doomed {}).mono fun h' tally _ => ?_
  exact Prog.conforms_bind.1 (Prog.conforms_bind.1 (keeps_removes
    ((print_keeps _ _).bind fun _ => (printEach_keeps _ _).bind fun _ => Prog.Calls.pure _)))

theorem runClean_removes (args : CleanArgs) :
    (runClean env inv args).Conforms (mayRemove inv false) h fun _ _ => True := by
  simp only [runClean, Prog.conforms_bind]
  refine (list_keeps.conforms fun _ _ ho => ho.may).mono fun h' r _ => ?_
  cases r with
  | error err => exact keeps_removes ((print_keeps _ _).bind fun _ => Prog.Calls.pure _)
  | ok all =>
      dsimp only
      split
      · exact keeps_removes ((print_keeps _ _).bind fun _ => Prog.Calls.pure _)
      · refine Prog.conforms_bind.2 (((printEach_keeps _ _).conforms fun _ _ ho => ho.may).mono
          fun h₁ _ _ => ?_)
        split
        · exact keeps_removes ((print_keeps _ _).bind fun _ => Prog.Calls.pure _)
        · split
          · exact cleanAgreed_removes env _
          · split
            · exact keeps_removes ((print_keeps _ _).bind fun _ => Prog.Calls.pure _)
            · refine ⟨trivial, fun agrees => ?_⟩
              cases agrees with
              | true => exact cleanAgreed_removes env _
              | false => exact keeps_removes ((print_keeps _ _).bind fun _ => Prog.Calls.pure _)

end

/-- What each command removes. -/
def removes (inv : Inventory) : Protocol Op Res Call Unit where
  may q := mayRemove inv q.force
  done _ _ _ := True

theorem operators_removes (T : Type) (inv : Inventory) :
    (operators T inv).Follows (removes inv) := by
  intro q
  cases q with
  | delete domain force =>
      exact Prog.conforms_map.2 ((delete_removes domain force).mono fun _ _ _ => trivial)
  | tlsDelete env args => exact Prog.conforms_map.2 (runDelete_removes env args)
  | tlsClean env args => exact Prog.conforms_map.2 (runClean_removes env args)

/-! ## What was read still holds -/

/-- Objects have only gone, time has only passed. -/
structure World.Later (w w' : World) : Prop where
  object : ∀ key o, w'.object key = some o → w.object key = some o
  now : w.now ≤ w'.now

theorem World.Later.refl (w : World) : World.Later w w :=
  ⟨fun _ _ ho => ho, Nat.le_refl _⟩

theorem World.later_without (w : World) (key : String) : World.Later w (w.without key) := by
  refine ⟨fun k o ho => ?_, Nat.le_refl _⟩
  by_cases hk : k = key
  · simp [World.without, hk] at ho
  · simpa [World.without, hk] using ho

/-- The answers an operator has had, as far as the objects are still there. -/
structure Observed (w : World) (h : History) : Prop where
  got : ∀ key data, ⟨.get key, .ok data⟩ ∈ h → ∀ o, w.object key = some o → o.head = data
  missing : ∀ key, ⟨.get key, .error .notExist⟩ ∈ h → w.object key = none
  clock : ∀ t, ⟨.now, t⟩ ∈ h → t ≤ w.now

section

variable {w w' : World} {h : History} {o : Op} {a : Answer} {r : Res o}

theorem exec_later (he : exec w o a = some (r, w')) : World.Later w w' := by
  cases o with
  | stat key =>
      simp only [exec] at he
      split at he <;> cases he <;> exact .refl w
  | list dir =>
      simp only [exec] at he
      split at he <;> cases he <;> exact .refl w
  | get key =>
      simp only [exec] at he
      split at he <;> cases he <;> exact .refl w
  | remove key =>
      simp only [exec] at he
      split at he
      · -- a failed removal may have been made all the same
        cases he
        split
        · exact w.later_without key
        · exact .refl w
      · cases he
        exact w.later_without key
  | now =>
      cases he
      exact ⟨fun _ _ ho => ho, Nat.le_add_right _ _⟩
  | confirm question =>
      cases he
      exact .refl w
  | print stream text =>
      cases he
      exact .refl w

theorem Observed.later (hobs : Observed w h) (hw : World.Later w w') : Observed w' h := by
  refine ⟨fun key data hmem o ho => ?_, fun key hmem => ?_, fun t hmem => ?_⟩
  · exact hobs.got key data hmem o (hw.object key o ho)
  · cases hgone : w'.object key with
    | none => rfl
    | some o => cases (hobs.missing key hmem).symm.trans (hw.object key o hgone)
  · exact (hobs.clock t hmem).trans hw.now

theorem Observed.exec (hobs : Observed w h) (he : Certstore.exec w o a = some (r, w')) :
    Observed w' (⟨o, r⟩ :: h) := by
  have hold := hobs.later (exec_later he)
  refine ⟨fun key data hmem => ?_, fun key hmem => ?_, fun t hmem => ?_⟩
  · rcases List.mem_cons.1 hmem with hnew | hmem
    · cases hnew
      simp only [Certstore.exec] at he
      split at he <;> cases he
      rename_i hobj
      intro o ho
      cases ho.symm.trans hobj
      rfl
    · exact hold.got key data hmem
  · rcases List.mem_cons.1 hmem with hnew | hmem
    · cases hnew
      simp only [Certstore.exec] at he
      split at he <;> cases he
      assumption
    · exact hold.missing key hmem
  · rcases List.mem_cons.1 hmem with hnew | hmem
    · cases hnew
      cases he
      exact Nat.le_refl _
    · exact hold.clock t hmem

end

/-! ## Every run -/

section

variable (u : Unicode) (idna : Idna) (base : String) (domains : List String)

/-- The hosts of the published allow-set. -/
def hostsOf (w : World) : List String :=
  match w.object (base ++ Paths.onDemandHosts) with
  | none => []
  | some o =>
      match o.data.json with
      | .ok state => state.hosts
      | .error _ => []

/-- The chain parses, is unexpired and is filed under a configured domain, its companion or an
on-demand name, as the manager spells them. -/
def InUse (w : World) (key : String) : Prop :=
  (∃ n ∈ filed u idna domains ++ normalizeDomains u idna (hostsOf base w),
    key = Paths.chain u base n) ∧
  ∃ o ∈ w.object key, ∃ leaf ∈ leafOf o.data.pem, w.now ≤ leaf.notAfter

instance (w : World) (key : String) : Decidable (InUse u idna base domains w key) :=
  inferInstanceAs (Decidable (_ ∧ _))

/-- The allow-set is published under A-labels. -/
def SpelledHosts (w : World) : Prop :=
  ∀ host ∈ hostsOf base w, normalizeDomain u idna host = normalize u host

instance (w : World) : Decidable (SpelledHosts u idna base w) :=
  inferInstanceAs (Decidable (∀ host ∈ hostsOf base w, _))

variable {T : Type}

def removal : OperatorsLabel T → Option (T × String)
  | .did t ⟨.remove key, _⟩ => some (t, key)
  | _ => none

/-- The leaf the nodes find is in what the inventory reads. -/
def LeafInReach (w : World) (key : String) : Prop :=
  ∀ o ∈ w.object key, leafOf o.head.pem = leafOf o.data.pem

instance (w : World) (key : String) : Decidable (LeafInReach w key) :=
  inferInstanceAs (Decidable (∀ o ∈ w.object key, _))

/-- An object within the limit is read whole. -/
theorem leafInReach_of_size {w : World} {key : String}
    (hsize : ∀ o ∈ w.object key, o.size ≤ readLimit) : LeafInReach w key := by
  intro o ho
  rw [o.whole (hsize o ho)]

/-- The last read of the chain was answered, with its leaf. -/
def seen (w : World) (key : String) (h : History) : Bool :=
  readOK key h && decide (LeafInReach w key)

/-- A removal without force, with `P` of the storage and of what the operator has seen, is of a
chain not in use. -/
def RemovesUnused (P : World → String → History → Bool) (v : OperatorsView T) (l : OperatorsLabel T)
    (_ : OperatorsView T) : Prop :=
  ∀ x ∈ removal l, ∀ k ∈ v.task x.1, k.1.force = false → P v.shared x.2 k.2 = true →
    SpelledHosts u idna base v.shared → ¬ InUse u idna base domains v.shared x.2

instance (P : World → String → History → Bool) (v : OperatorsView T) (l : OperatorsLabel T)
    (v' : OperatorsView T) : Decidable (RemovesUnused u idna base domains P v l v') :=
  inferInstanceAs (Decidable (∀ x ∈ removal l, ∀ k ∈ v.task x.1, _))

end

section

variable {u : Unicode} {idna : Idna} {base : String} {domains : List String} {w : World}
  {h : History} {c : Certificate}

theorem lower_normalizeDomains {names : List String} {n : String}
    (hspell : ∀ d ∈ names, normalize u d ≠ "" → normalizeDomain u idna d = normalize u d)
    (hn : n ∈ normalizeDomains u idna names) : u.lower n = n := by
  have hconf : n ∈ (Inventory.new u "" names).configured := (mem_served_iff hspell).1 hn
  exact lower_configured hconf

theorem lower_filed
    (hplain : ∀ d ∈ domains, Plain u idna (Inventory.new u base domains).configured d) {n : String}
    (hn : n ∈ filed u idna domains) : u.lower n = n := by
  rcases List.mem_append.1 hn with hn | hn
  · exact lower_normalizeDomains (fun d hd hne => (hplain d hd hne).1) hn
  · obtain ⟨c, -, rfl⟩ := List.mem_map.1 hn
    exact Paths.lower_companion u c

theorem mem_of_lastGet {key : String} {r : Except Fault Data} (hlast : lastGet key h = some r) :
    ⟨.get key, r⟩ ∈ h := by
  obtain ⟨⟨o, reply⟩, hmem, hreply⟩ := List.exists_of_findSome?_eq_some hlast
  cases o with
  | get k =>
      obtain ⟨rfl, rfl⟩ : k = key ∧ reply = r := by
        simpa [getReply, Option.ite_none_right_eq_some] using hreply
      exact hmem
  | _ => cases hreply

/-- A name that is filed or on demand, as the operator's answer about the allow-set has it, is no
orphan. -/
theorem role_of_served {n : String} {r : Except Fault Data} {names : List String}
    (hplain : ∀ d ∈ domains, Plain u idna (Inventory.new u base domains).configured d)
    (hspelled : SpelledHosts u idna base w) (hobs : Observed w h)
    (hr : ⟨.get (Inventory.new u base domains).onDemandKey, r⟩ ∈ h)
    (hnames : (Inventory.new u base domains).onDemandOf r = .ok names)
    (hn : n ∈ filed u idna domains ++ normalizeDomains u idna (hostsOf base w)) :
    (Inventory.new u base domains).role names n ≠ .orphan := by
  rcases List.mem_append.1 hn with hfiled | hdemand
  · rw [(agree_of_plain hplain names n).2 hfiled]
    decide
  · -- the allow-set is still the object the answer was about
    obtain ⟨host, hhost, hspell, -⟩ := mem_served.1 hdemand
    have hsame : normalize u host = n := by
      rw [← hspell, ← normalizeDomain_eq, hspelled host hhost]
    have hmem : n ∈ names := by
      unfold hostsOf at hhost
      split at hhost
      · cases hhost
      · rename_i o hobj
        rcases r with (_ | text) | data
        · cases (hobs.missing _ hr).symm.trans hobj
        · cases hnames
        · simp only [Inventory.onDemandOf] at hnames
          split at hnames
          · cases hnames
          · rename_i state hjson
            cases hnames
            rw [← hobs.got _ data hr o hobj] at hjson
            split at hhost
            · rename_i state' hjson'
              rw [← o.json state state' hjson hjson'] at hhost
              rw [← hsame]
              exact List.mem_map_of_mem hhost
            · cases hhost
    unfold Inventory.role
    split
    · exact nofun
    · exact nofun

/-- What is described as not in use by a read that was answered is not in use. -/
theorem not_inUse_of_described
    (hplain : ∀ d ∈ domains, Plain u idna (Inventory.new u base domains).configured d)
    (hspelled : SpelledHosts u idna base w) (hobs : Observed w h)
    (hc : Described (Inventory.new u base domains) h c) (hfree : c.inUse = false)
    (hseen : seen w c.key h = true) : ¬ InUse u idna base domains w c.key := by
  rintro ⟨⟨n, hn, hkey⟩, o, ho, leaf, hleaf, hnow⟩
  obtain ⟨d, hd⟩ : ∃ d, c.domain = normalize u d := hc.domain
  have hdomain : c.domain = n := by
    have hlower : u.lower n = n := by
      rcases List.mem_append.1 hn with hfiled | hdemand
      · exact lower_filed hplain hfiled
      · exact lower_normalizeDomains (fun host hhost _ => hspelled host hhost) hdemand
    have hchain : Paths.chain u base c.domain = Paths.chain u base n := hc.key.symm.trans hkey
    rw [Paths.chain, Paths.chain, String.append_right_inj, hlower, hd, lower_normalize] at hchain
    exact hd.trans hchain
  have hrole : c.role ≠ .orphan := by
    obtain ⟨r, names, hr, hnames, hrole⟩ := hc.role
    rw [hrole, hdomain]
    exact role_of_served hplain hspelled hobs hr hnames hn
  obtain ⟨hread, hreach⟩ : readOK c.key h = true ∧ LeafInReach w c.key := by
    simpa [seen] using hseen
  have hservable : c.unservable = "" := by
    unfold readOK at hread
    split at hread
    · rename_i data hlast
      have hdata := hobs.got c.key data (mem_of_lastGet hlast) o ho
      rw [← hreach o ho, hdata] at hleaf
      obtain ⟨t, ht, hunservable⟩ := hc.look data hlast leaf hleaf
      rw [hunservable, if_neg (Nat.not_lt.2 ((hobs.clock t ht).trans hnow))]
    · cases hread
  simp [Certificate.inUse, hservable, hrole] at hfree

variable {T : Type} [DecidableEq T]

theorem observed_move {inv : Inventory} {v v' : OperatorsView T} {l : OperatorsLabel T}
    (hI : ∀ t q h, v.task t = some (q, h) → Observed v.shared h)
    (hmove : Move (operators T inv) (removes inv) v l v') :
    ∀ t q h, v'.task t = some (q, h) → Observed v'.shared h := by
  refine hmove.tasks (J := fun w _ _ h => Observed w h) hI (fun _ => ⟨nofun, nofun, nofun⟩) ?_ ?_
  · intro t q h o a r s _ ht _ he
    exact (hI t q h ht).exec he
  · intro t q h o a r s _ _ _ he u q' h' _ hu
    exact (hI u q' h' hu).later (exec_later he)

/-- With a configuration and an allow-set in the manager's spelling, and the last read of the chain
answered with its leaf, no chain in use is removed without force.  Nothing else protects one: `Delete`
refuses only for an unexpired leaf that its last read showed. -/
theorem chains_in_use_kept (u : Unicode) (idna : Idna) (base : String) (domains : List String)
    (hplain : ∀ d ∈ domains, Plain u idna (Inventory.new u base domains).configured d)
    (w₀ : World) (as : List (Action T Call Answer)) :
    (operators T (Inventory.new u base domains)).Meets
        (RemovesUnused u idna base domains seen) (.idle w₀) as ∧
      ∀ domain h, ((Inventory.new u base domains).delete domain false).Conforms (fun _ _ => True) h
        fun h' r => ∀ c, r = .error (.inUse c) → Vouched c.key h' := by
  refine ⟨?_, fun domain h => (delete_removes domain false).weaken fun _ _ _ => trivial⟩
  have hruns := Machine.run_meets (A := fun _ _ _ => True)
    (operators_removes T (Inventory.new u base domains))
    (fun v l v' hI hmove _ => observed_move hI hmove) as (.idle w₀) (Machine.onTrack_idle w₀) nofun
    (Machine.meets_of_all fun _ _ _ => trivial)
  refine hruns.mono ?_
  rintro v l v' ⟨hmove, -, hI, -⟩ ⟨t, key⟩ hx ⟨q, h⟩ hk hforce hread hspelled
  cases hmove with
  | start _ => cases hx
  | finish _ _ => cases hx
  | crash => cases hx
  | @did t' q' h' o a r s ht hmay he =>
      cases o with
      | remove key' =>
          obtain ⟨rfl, rfl⟩ : t' = t ∧ key' = key := by simpa [removal] using hx
          obtain ⟨rfl, rfl⟩ : q' = q ∧ h' = h := by simpa using Option.some.inj (ht.symm.trans hk)
          rcases hmay with hforced | ⟨c, hc, rfl, hfree⟩
          · cases hforce.symm.trans hforced
          · exact not_inUse_of_described hplain hspelled (hI _ _ _ ht) hc hfree hread
      | _ => cases hx

end

/-! ## A read that fails, and one that stops short -/

/-- One chain, stored under the key of "a", that expires at 100. -/
def oneChain (now : Time) : World where
  object key :=
    if key = "certs/a" then
      some ⟨⟨[.certificate (.ok ⟨"ECDSA", ["a"], "CA", 0, 100⟩)], .error "not JSON"⟩, _, 1, 0,
        fun _ => rfl, nofun⟩
    else none
  keys := ["certs/a"]
  now := now

/-- The same chain after more than a MiB of other blocks. -/
def farChain (now : Time) : World where
  object key :=
    if key = "certs/a" then
      some ⟨⟨[.other "X", .certificate (.ok ⟨"ECDSA", ["a"], "CA", 0, 100⟩)], .error "not JSON"⟩,
        ⟨[.other "X"], .error "not JSON"⟩, readLimit + 1, 0, fun h => absurd h (by simp), nofun⟩
    else none
  keys := ["certs/a"]
  now := now

/-- `Delete` of "a" without force, up to the removal; `fail` is how the read of the chain goes, and
the clock is read only when it is answered. -/
def deleteOne (fail : Option String) (clock : List Answer) : List (Action (Fin 1) Call Answer) :=
  (.start 0 (.delete "a" false) ::
      [.step 0 {}, .step 0 {}, .step 0 {}, .step 0 { fail }] : List (Action (Fin 1) Call Answer)) ++
    (clock.map (.step 0) : List (Action (Fin 1) Call Answer)) ++
    ([.step 0 {}] : List (Action (Fin 1) Call Answer))

/-- An expired chain of a configured domain is removed. -/
theorem chains_in_use_kept_expired :
    ((operators (Fin 1) (.new .ascii "" ["A."])).run (.idle (oneChain 101))
        (deleteOne none [{}])).map (fun c => (c.shared.object "certs/a").isNone) = some true ∧
      (operators (Fin 1) (.new .ascii "" ["A."])).Meets
        (RemovesUnused .ascii bookshopIdna "" ["A."] seen) (.idle (oneChain 101))
        (deleteOne none [{}]) :=
  ⟨by decide +kernel, (chains_in_use_kept .ascii bookshopIdna "" ["A."] (by decide +kernel) _ _).1⟩

/-- The read of a valid chain in use fails, and the chain is removed; so is one whose leaf the read
does not reach. -/
theorem chain_in_use_removed :
    InUse .ascii bookshopIdna "" ["a"] (oneChain 50) "certs/a" ∧
    ¬ (operators (Fin 1) (.new .ascii "" ["a"])).Meets
        (RemovesUnused .ascii bookshopIdna "" ["a"] fun _ _ _ => true) (.idle (oneChain 50))
        (deleteOne (some "timeout") []) ∧
    ((operators (Fin 1) (.new .ascii "" ["a"])).run (.idle (oneChain 50))
        (deleteOne (some "timeout") [])).map (fun c => (c.shared.object "certs/a").isNone) =
      some true ∧
    InUse .ascii bookshopIdna "" ["a"] (farChain 50) "certs/a" ∧
    ¬ (operators (Fin 1) (.new .ascii "" ["a"])).Meets
        (RemovesUnused .ascii bookshopIdna "" ["a"] fun _ => readOK) (.idle (farChain 50))
        (deleteOne none []) := by
  decide +kernel

end Certstore
end CertsManager
