import CertsManager.Provenance

/-!
# Followers — what a follower records of the index, and what it serves

A follower refreshes the hostnames whose published expiry differs from the one it has recorded, and
records what the index says *after* the refresh.  The refresh read the chain before that.  If a
renewal was stored and announced in between, the follower has recorded an expiry it does not hold,
and does not look again.

`AnnouncesApart` asks that no announcement for the hostname falls between the two reads.  Then the
recorded expiry never exceeds that of the certificate in memory.
-/

namespace CertsManager

open Interleave

/-! ## A follower's pass -/

/-- What a pass has in hand: a chain it has read, the certificate it has installed from that, or
what the index said after. -/
inductive Adopting where
  | nothing
  | read (host : Name) (leaf : Leaf)
  | installed (host : Name) (leaf : Leaf)
  | told (host : Name) (leaf : Leaf) (notAfter : Nat)
  deriving DecidableEq

namespace Adopting

def after (s : Adopting) : Event → Adopting
  | ⟨.storage _ (.getChain n), .ok (.chain leaf)⟩ => .read n leaf
  | ⟨.storage _ (.getChain _), _⟩ => .nothing
  | ⟨.mem (.memSet n cert), _⟩ => .installed n cert.leaf
  | ⟨.storage _ .getIndex, .ok (.entries m)⟩ =>
      match s with
      | .installed n leaf => .told n leaf (m n)
      | _ => .nothing
  | ⟨.storage _ .getIndex, _⟩ => .nothing
  | _ => s

/-- The hostname whose chain has been read and whose index entry has not. -/
def refreshing : Adopting → Option Name
  | .read n _ => some n
  | .installed n _ => some n
  | _ => none

end Adopting

def adopting (h : History) : Adopting :=
  h.foldr (fun e s => s.after e) .nothing

@[simp] theorem adopting_nil : adopting [] = .nothing := rfl

@[simp] theorem adopting_cons (e : Event) (h : History) :
    adopting (e :: h) = (adopting h).after e := rfl

/-- A pass installs the chain it has just read, and records what the index has just said. -/
def mayAdopt (h : History) : Op → Prop
  | .mem (.memSet n cert) => adopting h = .read n cert.leaf
  | .mem (.indexSet n x) => ∃ leaf, adopting h = .told n leaf x
  | _ => True

section Functions

variable {h : History}

theorem adopting_after_quiet {e : Event} (s : Adopting) (he : e.op.Quiet) : s.after e = s := by
  obtain ⟨o, r⟩ := e
  cases o with
  | storage ctx o =>
      cases o with
      | getKey slot => rfl
      | putKey slot k createOnly => rfl
      | _ => exact he.elim
  | mem o =>
      cases o with
      | memSet n cert => exact he.elim
      | _ => rfl
  | env o => rfl

theorem quiet_adopts {α : Type} {p : M α} (hp : p.Calls Op.Quiet) :
    p.Conforms mayAdopt h fun h' _ => adopting h' = adopting h := by
  have hmay : ∀ h o, Op.Quiet o → mayAdopt h o := by
    intro h o ho
    cases o with
    | mem o =>
        cases o with
        | memSet n cert => exact ho.elim
        | indexSet n x => exact ho.elim
        | _ => trivial
    | _ => trivial
  refine (hp.conforms hmay).mono ?_
  rintro h' a ⟨l, rfl, hl⟩
  induction l with
  | nil => rfl
  | cons e l ih =>
      rw [List.cons_append, adopting_cons, adopting_after_quiet _ (hl e List.mem_cons_self)]
      exact ih fun e' he' => hl e' (List.mem_cons_of_mem _ he')

theorem refresh_adopts (cfg : Settings) (ctx : Time) (n : Name) :
    (CertCache.refresh cfg ctx n).Conforms mayAdopt h fun h' r =>
      ∀ cert, r = .ok cert → adopting h' = .installed n cert.leaf := by
  simp only [CertCache.refresh, CertCache.loadChain, onStorage, Prog.conforms_bind,
    Prog.conforms_perform]
  refine ⟨trivial, fun r => ?_⟩
  cases r with
  | error f => simp
  | ok c =>
      simp only [Prog.conforms_pure]
      refine (quiet_adopts (load_quiet cfg ctx (.live n))).bind fun h₁ r _ hr₁ => ?_
      cases r with
      | error err => simp
      | ok key =>
          simp only
          cases hb : buildCertificate c key with
          | error err => simp
          | ok cert =>
              obtain ⟨rfl, -⟩ := buildCertificate_ok hb
              have hread : adopting h₁ = .read n cert.leaf := hr₁
              simp only [CertCache.set, onMem, Prog.conforms_bind, Prog.conforms_perform]
              refine ⟨hread, fun _ => ?_⟩
              refine (confirmed_conforms (I := fun h' => adopting h' = .installed n cert.leaf)
                (fun _ hi => ⟨trivial, hi⟩) (fun _ _ hi => ⟨trivial, hi⟩) ?_).mono fun h₂ _ hr₂ => ?_
              · rw [adopting_cons, hread]
                rfl
              · rintro cert' ⟨⟩
                exact hr₂

theorem noteRefreshed_adopts (ctx : Time) (n : Name) {leaf : Leaf}
    (hn : adopting h = .installed n leaf) :
    (OnDemand.noteRefreshed ctx n).Conforms mayAdopt h fun _ _ => True := by
  simp only [OnDemand.noteRefreshed, onStorage, onMem, Prog.conforms_bind, Prog.conforms_perform]
  refine ⟨trivial, fun r => ?_⟩
  rcases r with f | (m | _)
  · simp
  · refine ⟨⟨leaf, ?_⟩, fun _ => trivial⟩
    simp [Adopting.after, hn]
  · simp

theorem refreshChanged_adopts (cfg : Settings) (ctx : Time) (hosts : List Name) :
    (OnDemand.refreshChanged cfg ctx hosts).Conforms mayAdopt h fun _ _ => True := by
  induction hosts generalizing h with
  | nil => simp [OnDemand.refreshChanged]
  | cons host hosts ih =>
      refine (refresh_adopts cfg ctx host).bind fun h₁ r _ hr => ?_
      cases r with
      | error err => exact ih
      | ok cert => exact (noteRefreshed_adopts ctx host (hr cert rfl)).bind fun _ _ _ _ => ih

theorem maintainFollower_adopts (cfg : Settings) :
    (OnDemand.maintainFollower cfg).Conforms mayAdopt h fun _ _ => True := by
  simp only [OnDemand.maintainFollower, OnDemand.changedSince, Manager.now, onMem, onEnv, onStorage,
    Prog.conforms_bind, Prog.conforms_perform]
  refine ⟨trivial, fun hosts => ?_⟩
  split
  · simp
  · simp only [Prog.conforms_bind, Prog.conforms_perform]
    refine ⟨trivial, fun t => ⟨trivial, fun r => ?_⟩⟩
    rcases r with f | (m | _)
    · exact refreshChanged_adopts cfg _ hosts
    · exact ⟨trivial, fun _ => refreshChanged_adopts cfg _ _⟩
    · exact refreshChanged_adopts cfg _ hosts

end Functions

/-- Of the other calls this protocol says nothing. -/
def adopts : Protocol Op Res Call Out where
  may q h o := q = .maintainFollower → mayAdopt h o
  done _ _ _ := True

theorem cluster_adopts {N T : Type} [DecidableEq N] (cfg : Settings) (node : T → N) :
    (cluster cfg node).Follows adopts := by
  intro q
  show (body cfg q).Conforms (adopts.may q) [] (adopts.done q)
  by_cases hq : q = .maintainFollower
  · subst hq
    refine Prog.conforms_map.2 ?_
    exact (maintainFollower_adopts cfg).weaken fun _ _ ho _ => ho
  · exact Prog.conforms_of_all (fun _ _ hadopts => absurd hadopts hq) fun _ _ => trivial

section

variable {N T : Type}

/-! ## The rules of a run -/

/-- The published expiry of a hostname, 0 for none. -/
def publishedExpiry (w : World N T) (host : Name) : Nat :=
  match w.storage.index with
  | some (.entries m) => m host
  | _ => 0

/-- The expiry of the stored chain, 0 for none. -/
def storedExpiry (w : World N T) (host : Name) : Nat :=
  match w.storage.chain host with
  | some (.chain leaf) => leaf.notAfter
  | _ => 0

/-- On the node `f` runs nothing but its maintenance as a follower, one pass after another. -/
def FollowerCalls [DecidableEq N] (node : T → N) (f : N) (v : ClusterView N T) (l : ClusterLabel T)
    (_ : ClusterView N T) : Prop :=
  ∀ g ∈ startedBy l, node g.1 = f → g.2 = .maintainFollower ∧ ∀ u, node u = f → (v.task u).isNone

/-- An expiry is published when a chain that lasts as long is stored. -/
def AnnouncesStored (host : Name) (v : ClusterView N T) (_ : ClusterLabel T) (v' : ClusterView N T) :
    Prop :=
  publishedExpiry v'.shared host ≠ publishedExpiry v.shared host →
    publishedExpiry v'.shared host ≤ storedExpiry v'.shared host

/-- A stored chain is replaced by one that lasts as long. -/
def ExpiryRises (host : Name) (v : ClusterView N T) (_ : ClusterLabel T) (v' : ClusterView N T) :
    Prop :=
  storedExpiry v.shared host ≤ storedExpiry v'.shared host

/-- What is published of the hostname does not change while the follower is between its read of the
chain and its read of the index. -/
def AnnouncesApart (node : T → N) (f : N) (host : Name) (v : ClusterView N T) (_ : ClusterLabel T)
    (v' : ClusterView N T) : Prop :=
  publishedExpiry v'.shared host ≠ publishedExpiry v.shared host →
    ∀ u, node u = f → ∀ x ∈ v.task u, (adopting x.2).refreshing ≠ some host

/-- A follower that has recorded what is published serves a certificate that lasts as long. -/
def ServesRecorded (f : N) (host : Name) (w : World N T) : Prop :=
  (w.node f).index host = publishedExpiry w host →
    ∀ cert ∈ (w.node f).mem host, publishedExpiry w host ≤ cert.leaf.notAfter

section

variable [DecidableEq N] [Fintype T] (node : T → N) (f : N) (host : Name) (v : ClusterView N T)
  (l : ClusterLabel T) (v' : ClusterView N T)

instance : Decidable (FollowerCalls node f v l v') :=
  inferInstanceAs (Decidable (∀ g ∈ startedBy l, node g.1 = f →
    g.2 = .maintainFollower ∧ ∀ u, node u = f → (v.task u).isNone))

instance : Decidable (AnnouncesApart node f host v l v') :=
  inferInstanceAs (Decidable (publishedExpiry v'.shared host ≠ publishedExpiry v.shared host →
    ∀ u, node u = f → ∀ x ∈ v.task u, (adopting x.2).refreshing ≠ some host))

end

instance (host : Name) (v : ClusterView N T) (l : ClusterLabel T) (v' : ClusterView N T) :
    Decidable (AnnouncesStored host v l v') :=
  inferInstanceAs (Decidable (publishedExpiry v'.shared host ≠ publishedExpiry v.shared host →
    publishedExpiry v'.shared host ≤ storedExpiry v'.shared host))

instance (host : Name) (v : ClusterView N T) (l : ClusterLabel T) (v' : ClusterView N T) :
    Decidable (ExpiryRises host v l v') :=
  inferInstanceAs (Decidable (storedExpiry v.shared host ≤ storedExpiry v'.shared host))

instance (f : N) (host : Name) (w : World N T) : Decidable (ServesRecorded f host w) :=
  inferInstanceAs (Decidable ((w.node f).index host = publishedExpiry w host →
    ∀ cert ∈ (w.node f).mem host, publishedExpiry w host ≤ cert.leaf.notAfter))

/-! ## The invariant -/

/-- What a pass has in hand lasts as long as what is published and what is recorded. -/
def Adopting.Fresh (f : N) (host : Name) (w : World N T) : Adopting → Prop
  | .nothing => True
  | .read n leaf => n = host →
      (w.node f).index host ≤ leaf.notAfter ∧ publishedExpiry w host ≤ leaf.notAfter
  | .installed n leaf => n = host →
      publishedExpiry w host ≤ leaf.notAfter ∧ ∃ cert ∈ (w.node f).mem host, cert.leaf = leaf
  | .told n leaf x => n = host → x ≤ leaf.notAfter ∧ x ≤ storedExpiry w host ∧
      ∃ cert ∈ (w.node f).mem host, cert.leaf = leaf

structure FreshWorld (f : N) (host : Name) (w : World N T) : Prop where
  published : publishedExpiry w host ≤ storedExpiry w host
  recorded : (w.node f).index host ≤ storedExpiry w host
  served : ∀ cert ∈ (w.node f).mem host, (w.node f).index host ≤ cert.leaf.notAfter

structure FreshInv (node : T → N) (f : N) (host : Name) (v : ClusterView N T) : Prop extends
    FreshWorld f host v.shared where
  calls : ∀ t q h, v.task t = some (q, h) → node t = f → q = .maintainFollower
  single : ∀ t u x y, v.task t = some x → v.task u = some y → node t = f → node u = f → t = u
  tasks : ∀ t q h, v.task t = some (q, h) → node t = f → (adopting h).Fresh f host v.shared

/-! ## One call -/

variable {cfg : Settings} {node : T → N} {f : N} {host : Name} {v : ClusterView N T}

theorem storedExpiry_eq {w : World N T} {leaf : Leaf}
    (hc : w.storage.chain host = some (.chain leaf)) : storedExpiry w host = leaf.notAfter := by
  simp [storedExpiry, hc]

section Keep

variable {w w' : World N T} (hindex : (w'.node f).index host = (w.node f).index host)
  (hmem : (w'.node f).mem host = (w.node f).mem host)
  (hrises : storedExpiry w host ≤ storedExpiry w' host)

include hindex hmem hrises

/-- What the follower has recorded and serves is what it was. -/
theorem FreshWorld.keep (hw : FreshWorld f host w)
    (hstored : publishedExpiry w' host ≠ publishedExpiry w host →
      publishedExpiry w' host ≤ storedExpiry w' host) : FreshWorld f host w' := by
  refine ⟨?_, ?_, ?_⟩
  · by_cases hsame : publishedExpiry w' host = publishedExpiry w host
    · rw [hsame]
      exact hw.published.trans hrises
    · exact hstored hsame
  · rw [hindex]
    exact hw.recorded.trans hrises
  · rw [hindex, hmem]
    exact hw.served

/-- So is what it has in hand, if nothing is announced while it matters. -/
theorem Adopting.Fresh.keep {s : Adopting} (hs : s.Fresh f host w)
    (hapart : publishedExpiry w' host ≠ publishedExpiry w host → s.refreshing ≠ some host) :
    s.Fresh f host w' := by
  have hpub : s.refreshing = some host → publishedExpiry w' host = publishedExpiry w host :=
    fun hr => by_contra fun hne => hapart hne hr
  cases s with
  | nothing => trivial
  | read n leaf =>
      rintro rfl
      rw [hindex, hpub rfl]
      exact hs rfl
  | installed n leaf =>
      rintro rfl
      rw [hmem, hpub rfl]
      exact hs rfl
  | told n leaf x =>
      rintro rfl
      rw [hmem]
      obtain ⟨hle, hx, hcert⟩ := hs rfl
      exact ⟨hle, hx.trans hrises, hcert⟩

end Keep

variable [DecidableEq N]

section Did

variable {t : T} {q : Call} {h : History} {o : Op} {a : Answer} {r : Res o} {w' : World N T}

/-- The follower installs the chain it has read. -/
theorem fresh_memSet {n : Name} {cert : Certificate} {r : Unit} (htf : node t = f)
    (hw : FreshWorld f host v.shared) (hs : (Adopting.read n cert.leaf).Fresh f host v.shared)
    (he : exec cfg.maxRetries node v.shared t (.mem (.memSet n cert)) a = some (r, w')) :
    FreshWorld f host w' ∧ (Adopting.installed n cert.leaf).Fresh f host w' := by
  have hnew := exec_memSet he
  have hindex : (w'.node f).index host = (v.shared.node f).index host := by
    rcases exec_index he f host with hsame | ⟨_, heq, -⟩
    · exact hsame
    · cases heq
  obtain ⟨m', -, rfl⟩ := exec_onMem he
  refine ⟨⟨hw.published, ?_, ?_⟩, ?_⟩
  · rw [hindex]
    exact hw.recorded
  · intro cert' hcert'
    rw [hindex]
    rcases exec_cert he f host with hsame | ⟨c, heq, -, hc⟩
    · rw [hsame] at hcert'
      exact hw.served cert' hcert'
    · cases heq
      rw [hc] at hcert'
      cases hcert'
      exact (hs rfl).1
  · rintro rfl
    refine ⟨(hs rfl).2, cert, ?_, rfl⟩
    rw [← htf]
    exact hnew

/-- It records what the index has said. -/
theorem fresh_indexSet {n : Name} {leaf : Leaf} {x : Nat} {r : Unit}
    (hw : FreshWorld f host v.shared) (hs : (Adopting.told n leaf x).Fresh f host v.shared)
    (he : exec cfg.maxRetries node v.shared t (.mem (.indexSet n x)) a = some (r, w')) :
    FreshWorld f host w' ∧ (Adopting.told n leaf x).Fresh f host w' := by
  have hmem : (w'.node f).mem host = (v.shared.node f).mem host := by
    rcases exec_cert he f host with hsame | ⟨_, heq, -⟩
    · exact hsame
    · cases heq
  have hindex := exec_index he f host
  obtain ⟨m', -, rfl⟩ := exec_onMem he
  refine ⟨⟨hw.published, ?_, ?_⟩, ?_⟩
  · rcases hindex with hsame | ⟨y, heq, -, hy⟩
    · rw [hsame]
      exact hw.recorded
    · cases heq
      rw [hy]
      exact (hs rfl).2.1
  · intro cert hcert
    rw [hmem] at hcert
    rcases hindex with hsame | ⟨y, heq, -, hy⟩
    · rw [hsame]
      exact hw.served cert hcert
    · cases heq
      obtain ⟨hle, -, cert', hcert', rfl⟩ := hs rfl
      obtain rfl : cert' = cert := Option.some.inj (hcert'.symm.trans hcert)
      rw [hy]
      exact hle
  · rintro rfl
    rw [hmem]
    exact hs rfl

/-- A call of the follower's own pass. -/
theorem fresh_did (htf : node t = f) (hw : FreshWorld f host v.shared)
    (hs : (adopting h).Fresh f host v.shared) (hmay : mayAdopt h o)
    (he : exec cfg.maxRetries node v.shared t o a = some (r, w'))
    (hstored : publishedExpiry w' host ≠ publishedExpiry v.shared host →
      publishedExpiry w' host ≤ storedExpiry w' host)
    (hrises : storedExpiry v.shared host ≤ storedExpiry w' host)
    (hapart : publishedExpiry w' host ≠ publishedExpiry v.shared host →
      (adopting h).refreshing ≠ some host) :
    FreshWorld f host w' ∧ (adopting (⟨o, r⟩ :: h)).Fresh f host w' := by
  rw [adopting_cons]
  -- all calls but two leave what is recorded and served as it is
  have hkeep : (∀ n cert, o ≠ .mem (.memSet n cert)) → (∀ n x, o ≠ .mem (.indexSet n x)) →
      FreshWorld f host w' ∧ (adopting h).Fresh f host w' ∧
        (w'.node f).mem host = (v.shared.node f).mem host := by
    intro hset hindex
    have hindex' : (w'.node f).index host = (v.shared.node f).index host :=
      (exec_index he f host).resolve_right fun ⟨x, heq, _⟩ => hindex host x heq
    have hmem : (w'.node f).mem host = (v.shared.node f).mem host :=
      (exec_cert he f host).resolve_right fun ⟨cert, heq, _⟩ => hset host cert heq
    exact ⟨hw.keep hindex' hmem hrises hstored, hs.keep hindex' hmem hrises hapart, hmem⟩
  cases o with
  | storage ctx o =>
      obtain ⟨hw', hs', hmem⟩ := hkeep (by simp) (by simp)
      refine ⟨hw', ?_⟩
      cases o with
      | getChain n =>
          rcases r with fault | (leaf | _)
          · trivial
          · rintro rfl
            have hchain : w'.storage.chain n = some (.chain leaf) := by
              rcases exec_chain he n with hsame | ⟨_, _, heq, -⟩
              · exact hsame.trans (exec_getChain_ok he)
              · cases heq
            rw [← storedExpiry_eq hchain]
            exact ⟨hw'.recorded, hw'.published⟩
          · trivial
      | getIndex =>
          rcases r with fault | (m | _)
          · trivial
          · have hread := exec_getIndex_ok he
            have hpub : publishedExpiry v.shared host = m host := by simp [publishedExpiry, hread]
            simp only [Adopting.after]
            cases hstate : adopting h with
            | installed n leaf =>
                rintro rfl
                rw [hstate] at hs
                obtain ⟨hle, hcert⟩ := hs rfl
                rw [← hpub, hmem]
                exact ⟨hle, hw.published.trans hrises, hcert⟩
            | _ => trivial
          · trivial
      | _ => exact hs'
  | mem o =>
      cases o with
      | memSet n cert =>
          rw [show adopting h = .read n cert.leaf from hmay] at hs
          exact fresh_memSet htf hw hs he
      | indexSet n x =>
          obtain ⟨leaf, hstate⟩ := hmay
          rw [hstate] at hs ⊢
          exact fresh_indexSet hw hs he
      | _ =>
          obtain ⟨hw', hs', -⟩ := hkeep (by simp) (by simp)
          exact ⟨hw', hs'⟩
  | env o =>
      obtain ⟨hw', hs', -⟩ := hkeep (by simp) (by simp)
      exact ⟨hw', hs'⟩

end Did

/-! ## Whole runs -/

variable [DecidableEq T] {l : ClusterLabel T} {v' : ClusterView N T}

theorem freshInv_move (hI : FreshInv node f host v)
    (hmove : Move (cluster cfg node) adopts v l v') (hcalls : FollowerCalls node f v l v')
    (hstored : AnnouncesStored host v l v') (hrises : ExpiryRises host v l v')
    (hapart : AnnouncesApart node f host v l v') : FreshInv node f host v' := by
  cases hmove with
  | @start t q ht =>
      refine ⟨hI.toFreshWorld, ?_, ?_, ?_⟩
      · intro u q' h' hu huf
        rcases View.put_cases hu with ⟨rfl, ⟨⟩⟩ | ⟨-, hu'⟩
        · exact (hcalls (u, q) rfl huf).1
        · exact hI.calls u q' h' hu' huf
      · intro u u' x y hu hu' huf huf'
        rcases View.put_cases hu with ⟨rfl, -⟩ | ⟨-, hux⟩
        · rcases View.put_cases hu' with ⟨rfl, -⟩ | ⟨-, huy⟩
          · rfl
          · have hnone := (hcalls (u, q) rfl huf).2 u' huf'
            simp [huy] at hnone
        · rcases View.put_cases hu' with ⟨rfl, -⟩ | ⟨-, huy⟩
          · have hnone := (hcalls (u', q) rfl huf').2 u huf
            simp [hux] at hnone
          · exact hI.single u u' x y hux huy huf huf'
      · intro u q' h' hu huf
        rcases View.put_cases hu with ⟨rfl, ⟨⟩⟩ | ⟨-, hu'⟩
        · trivial
        · exact hI.tasks u q' h' hu' huf
  | @did t q h o a r w' ht hmay he =>
      replace he : exec cfg.maxRetries node v.shared t o a = some (r, w') := he
      have hcalls' : ∀ u q' h', (v.put t w' (some (q, ⟨o, r⟩ :: h))).task u = some (q', h') →
          node u = f → q' = .maintainFollower := by
        intro u q' h' hu huf
        rcases View.put_cases hu with ⟨rfl, ⟨⟩⟩ | ⟨-, hu'⟩
        · exact hI.calls u q h ht huf
        · exact hI.calls u q' h' hu' huf
      have hsingle : ∀ u u' x y, (v.put t w' (some (q, ⟨o, r⟩ :: h))).task u = some x →
          (v.put t w' (some (q, ⟨o, r⟩ :: h))).task u' = some y → node u = f → node u' = f →
            u = u' := by
        intro u u' x y hu hu' huf huf'
        rcases View.put_cases hu with ⟨rfl, -⟩ | ⟨-, hux⟩
        · rcases View.put_cases hu' with ⟨rfl, -⟩ | ⟨-, huy⟩
          · rfl
          · exact hI.single u u' _ _ ht huy huf huf'
        · rcases View.put_cases hu' with ⟨rfl, -⟩ | ⟨-, huy⟩
          · exact hI.single u u' _ _ hux ht huf huf'
          · exact hI.single u u' x y hux huy huf huf'
      by_cases htf : node t = f
      · have hq := hI.calls t q h ht htf
        obtain ⟨hw', hs'⟩ := fresh_did htf hI.toFreshWorld (hI.tasks t q h ht htf) (hmay hq) he
          hstored hrises fun hne => hapart hne t htf _ ht
        refine ⟨hw', hcalls', hsingle, fun u q' h' hu huf => ?_⟩
        rcases View.put_cases hu with ⟨rfl, ⟨⟩⟩ | ⟨hut, hu'⟩
        · exact hs'
        · exact absurd (hI.single u t _ _ hu' ht huf htf) hut
      · -- another node does not reach the follower's memory
        have hnode : w'.node f = v.shared.node f :=
          (exec_node he f).resolve_right fun ⟨_, _, hf, _⟩ => htf hf.symm
        have hindex : (w'.node f).index host = (v.shared.node f).index host := by rw [hnode]
        have hmem : (w'.node f).mem host = (v.shared.node f).mem host := by rw [hnode]
        refine ⟨hI.toFreshWorld.keep hindex hmem hrises hstored, hcalls', hsingle,
          fun u q' h' hu huf => ?_⟩
        rcases View.put_cases hu with ⟨rfl, -⟩ | ⟨-, hu'⟩
        · exact absurd huf htf
        · exact (hI.tasks u q' h' hu' huf).keep hindex hmem hrises fun hne => hapart hne u huf _ hu'
  | finish _ _ | crash =>
      have hsub : ∀ {t u : T} {x : Call × History}, (v.put t v.shared none).task u = some x →
          v.task u = some x := by
        intro t u x hu
        rcases View.put_cases hu with ⟨-, ⟨⟩⟩ | ⟨-, hu'⟩
        exact hu'
      exact ⟨hI.toFreshWorld, fun u q' h' hu => hI.calls u q' h' (hsub hu),
        fun u u' x y hu hu' => hI.single u u' x y (hsub hu) (hsub hu'),
        fun u q' h' hu => hI.tasks u q' h' (hsub hu)⟩

omit [DecidableEq N] [DecidableEq T] in
theorem FreshWorld.serves {w : World N T} (hw : FreshWorld f host w) : ServesRecorded f host w := by
  intro hrecorded cert hcert
  rw [← hrecorded]
  exact hw.served cert hcert

/-- Any number of leaders store and announce, one follower keeps up with them.  If no announcement
for the hostname falls between the follower's read of its chain and its read of the index, then in
every state that is reached a follower that has recorded what is published holds it. -/
theorem follower_fresh (cfg : Settings) (node : T → N) (f : N) (host : Name) (w : World N T)
    (as : List (Action T Call Answer)) (c : Config Op Res (World N T) T Call Out)
    (hw : FreshWorld f host w)
    (hcalls : (cluster cfg node).Meets (FollowerCalls node f) (.idle w) as)
    (hstored : (cluster cfg node).Meets (AnnouncesStored host) (.idle w) as)
    (hrises : (cluster cfg node).Meets (ExpiryRises host) (.idle w) as)
    (hapart : (cluster cfg node).Meets (AnnouncesApart node f host) (.idle w) as)
    (hrun : (cluster cfg node).run (.idle w) as = some c) : ServesRecorded f host c.shared := by
  have hstep : ∀ v l v', FreshInv node f host v → Move (cluster cfg node) adopts v l v' →
      ((FollowerCalls node f v l v' ∧ AnnouncesStored host v l v') ∧ ExpiryRises host v l v') ∧
        AnnouncesApart node f host v l v' → FreshInv node f host v' :=
    fun v l v' hI hmove hA => freshInv_move hI hmove hA.1.1.1 hA.1.1.2 hA.1.2 hA.2
  have hidle : FreshInv node f host (Config.idle w : Config Op Res (World N T) T Call Out).view :=
    ⟨hw, fun _ _ _ ht => (by cases ht), fun _ _ _ _ ht => (by cases ht),
      fun _ _ _ ht => (by cases ht)⟩
  have hend := Machine.run_invariant (cluster_adopts cfg node) hstep as _ c (Machine.onTrack_idle w)
    hidle (((hcalls.and hstored).and hrises).and hapart) hrun
  exact hend.1.toFreshWorld.serves

end

/-! ## A leader and a follower -/

/-- The hostname `h` has a chain that expires at 1000 s, stored and announced; nothing is in memory
yet. -/
def fleetWorld (N T : Type) : World N T :=
  { World.empty N T with
    storage := { Storage.empty with
      chain := Function.update (fun _ => none) "h" (some (.chain ⟨⟨0⟩, 1000⟩))
      key := Function.update (fun _ => none) (.live "h") (some (.key ⟨0⟩))
      index := some (.entries (Function.update (fun _ => 0) "h" 1000)) }
    node := fun _ => { NodeMemory.empty with hosts := ["h"] }
    issued := Function.update (fun _ => []) "h" [⟨⟨0⟩, 1000⟩]
    nextKey := 1 }

/-- Node 0, the leader, renews `h`, stores the chain and announces it. -/
def leaderRenews : List (Action (Fin 2) Call Answer) :=
  (.start 0 (.runHost "h" true) ::
      List.replicate 46 (.step 0 { notAfter := 90000000 }) : Schedule 2) ++
    ([.finish 0] : Schedule 2)

/-- Node 1, the follower, begins its pass, up to its read of the chain. -/
def followerReads : List (Action (Fin 2) Call Answer) :=
  .start 1 .maintainFollower :: List.replicate 5 (.step 1 {})

/-- It installs the chain and records what the index says. -/
def followerRecords : List (Action (Fin 2) Call Answer) :=
  (List.replicate 5 (.step 1 {}) : Schedule 2) ++ ([.finish 1] : Schedule 2)

theorem freshWorld_fleetWorld : FreshWorld (1 : Fin 2) "h" (fleetWorld (Fin 2) (Fin 2)) :=
  ⟨by decide, by decide, fun _ hcert => by cases hcert⟩

/-- The renewal comes first: the follower records and serves it. -/
theorem follower_fresh_in_turn :
    ∃ c, (cluster .fleet (id : Fin 2 → Fin 2)).run (.idle (fleetWorld _ _))
        (leaderRenews ++ (followerReads ++ followerRecords)) = some c ∧
      (c.shared.node 1).index "h" = 90000000 ∧ publishedExpiry c.shared "h" = 90000000 ∧
      ((c.shared.node 1).mem "h").isSome ∧ ServesRecorded 1 "h" c.shared := by
  refine ⟨_, rfl, rfl, rfl, rfl, ?_⟩
  exact follower_fresh .fleet id 1 "h" (fleetWorld _ _)
    (leaderRenews ++ (followerReads ++ followerRecords)) _ freshWorld_fleetWorld (by decide +kernel)
    (by decide +kernel) (by decide +kernel) (by decide +kernel) rfl

/-- The renewal comes between the two reads: the follower serves the old certificate, and has
recorded the new one. -/
theorem follower_misses_renewal :
    (cluster .fleet (id : Fin 2 → Fin 2)).Meets (FollowerCalls id 1) (.idle (fleetWorld _ _))
      (followerReads ++ (leaderRenews ++ followerRecords)) ∧
    (cluster .fleet (id : Fin 2 → Fin 2)).Meets (AnnouncesStored "h") (.idle (fleetWorld _ _))
      (followerReads ++ (leaderRenews ++ followerRecords)) ∧
    (cluster .fleet (id : Fin 2 → Fin 2)).Meets (ExpiryRises "h") (.idle (fleetWorld _ _))
      (followerReads ++ (leaderRenews ++ followerRecords)) ∧
    ∃ c, (cluster .fleet (id : Fin 2 → Fin 2)).run (.idle (fleetWorld _ _))
        (followerReads ++ (leaderRenews ++ followerRecords)) = some c ∧
      ¬ServesRecorded 1 "h" c.shared := by
  refine ⟨by decide +kernel, by decide +kernel, by decide +kernel, _, rfl, ?_⟩
  decide +kernel

end CertsManager
