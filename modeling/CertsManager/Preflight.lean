import CertsManager.Clock
import CertsManager.Names

/-!
# Preflight — the DNS check before an on-demand order

`preflightOK` and `resolvesTo` (ondemand.go).  Three lookups are made, and each ends in an answer, in
the definite answer that the name has no address, or in a failure to find out.  A hostname is
refused, and not looked at again for a day, on the evidence of these lookups.

A failure of either address lookup lets the hostname through.  A failure of the first lookup, of the
canonical name, is passed over: the decision is then made as if that lookup had answered with some
other name.
-/

namespace CertsManager
namespace Preflight

open Layout

/-- The resolver's error, as far as `errors.As` to a `*net.DNSError` finds one. -/
structure LookupError where
  isNotFound : Option Bool
  deriving DecidableEq, Repr

/-- A definite answer that the name has no addresses. -/
def lookupSaysAbsent (e : LookupError) : Bool :=
  e.isNotFound = some true

abbrev Lookup (α : Type) := Except LookupError α

/-- What the three lookups of one check end in: the canonical name of the hostname, the addresses of
the target and the addresses of the hostname. -/
structure Lookups where
  cname : Lookup String
  ours : Lookup (List String)
  theirs : Lookup (List String)

section

variable (u : Unicode)

/-- `strings.TrimSuffix(strings.ToLower(name), ".")`. -/
def bare (name : String) : String :=
  trimSuffix (u.lower name) "."

/-- `%v` of a list of strings. -/
def showList (l : List String) : String :=
  "[" ++ " ".intercalate l ++ "]"

/-- Why the hostname does not resolve to the target, empty if it does or nothing can be told. -/
def resolvesTo (l : Lookups) (target : String) : String :=
  match l.cname with
  | .ok cname => if bare u cname = target then "" else byAddress l target
  | .error _ => byAddress l target
where
  byAddress (l : Lookups) (target : String) : String :=
    match l.ours with
    | .error _ => ""
    | .ok ours =>
        match l.theirs with
        | .error e =>
            if lookupSaysAbsent e then "does not resolve (NXDOMAIN or no address records)" else ""
        | .ok theirs =>
            if theirs.any (ours.contains ·) then ""
            else "resolves to " ++ showList theirs ++ ", not to " ++ target

end

def preflightBackoff : Time := 24 * hour

/-- `o.preflight`: until when a hostname is not looked at again. -/
abbrev Backoffs := String → Option Time

/-- The check of one hostname; the clock is read at `now`, and at `later` when the lookups are
done. -/
def preflightOK (u : Unicode) (expectedTarget hostname : String) (l : Lookups) (now later : Time)
    (backoffs : Backoffs) : Bool × String × Backoffs :=
  if expectedTarget = "" then (true, "", backoffs)
  else if (backoffs hostname).any (fun liftsAt => decide (now < liftsAt)) then
    (false, "recent DNS pre-flight failure", backoffs)
  else
    let target := bare u expectedTarget
    let reason := resolvesTo u l target
    if reason = "" then (true, "", Function.update backoffs hostname none)
    else (false, reason, Function.update backoffs hostname (some (later + preflightBackoff)))

/-! ## Evidence -/

/-- The lookup ended in a resolver failure. -/
def Failed {α : Type} (r : Lookup α) : Prop :=
  ∃ e, r = .error e ∧ lookupSaysAbsent e = false

namespace Lookups

variable (l : Lookups)

/-- The canonical name of the hostname is the target. -/
def CanonicalIs (u : Unicode) (target : String) : Prop :=
  ∃ cname, l.cname = .ok cname ∧ bare u cname = target

/-- The hostname and the target have an address in common. -/
def Meet : Prop :=
  ∃ ours theirs, l.ours = .ok ours ∧ l.theirs = .ok theirs ∧ ∃ a ∈ theirs, a ∈ ours

/-- The hostname has no address, or none that is among the target's. -/
def Apart : Prop :=
  (∃ e, l.theirs = .error e ∧ lookupSaysAbsent e = true) ∨
    ∃ theirs, l.theirs = .ok theirs ∧ ∀ ours, l.ours = .ok ours → ∀ a ∈ theirs, a ∉ ours

/-- The evidence a refusal should rest on. -/
structure Definite (u : Unicode) (target : String) : Prop where
  cname : ¬ Failed l.cname
  ours : ¬ Failed l.ours
  theirs : ¬ Failed l.theirs
  canonical : ¬ l.CanonicalIs u target
  apart : l.Apart

/-- The target's addresses are known, and the hostname's are elsewhere or nowhere. -/
def Unpointed : Prop :=
  (∃ ours, l.ours = .ok ours) ∧ l.Apart

end Lookups

variable {u : Unicode} {l : Lookups} {target : String}

theorem failed_ok {α : Type} (a : α) : ¬ Failed (.ok a : Lookup α) := by
  rintro ⟨e, he, -⟩
  cases he

theorem byAddress_ne_empty_iff (l : Lookups) (target : String) :
    resolvesTo.byAddress l target ≠ "" ↔ l.Unpointed := by
  obtain ⟨cname, ours, theirs⟩ := l
  cases ours with
  | error e => simp [resolvesTo.byAddress, Lookups.Unpointed]
  | ok ours =>
      cases theirs with
      | error e =>
          by_cases habsent : lookupSaysAbsent e = true
          · simp [resolvesTo.byAddress, Lookups.Unpointed, Lookups.Apart, habsent]
          · simp [resolvesTo.byAddress, Lookups.Unpointed, Lookups.Apart, habsent]
      | ok theirs =>
          by_cases hmeet : ∃ a ∈ theirs, a ∈ ours
          · simp [resolvesTo.byAddress, Lookups.Unpointed, Lookups.Apart, hmeet]
          · simpa [resolvesTo.byAddress, Lookups.Unpointed, Lookups.Apart, hmeet] using
              fun a ha ha' => hmeet ⟨a, ha, ha'⟩

/-- A reason is given exactly when the canonical name was not seen to be the target and the
addresses are known to be apart. -/
theorem resolvesTo_ne_empty_iff :
    resolvesTo u l target ≠ "" ↔ ¬ l.CanonicalIs u target ∧ l.Unpointed := by
  rw [← byAddress_ne_empty_iff l target]
  cases hcname : l.cname with
  | error e => simp [resolvesTo, hcname, Lookups.CanonicalIs]
  | ok cname =>
      by_cases htarget : bare u cname = target
      · simp [resolvesTo, hcname, Lookups.CanonicalIs, htarget]
      · simp [resolvesTo, hcname, Lookups.CanonicalIs, htarget]

theorem not_failed_of_apart (hapart : l.Apart) : ¬ Failed l.theirs := by
  rintro ⟨e, he, hfailed⟩
  rcases hapart with ⟨e', he', habsent⟩ | ⟨theirs, htheirs, -⟩
  · cases he.symm.trans he'
    exact Bool.false_ne_true (hfailed.symm.trans habsent)
  · cases he.symm.trans htheirs

/-- What a refusal rests on is definite exactly when the lookup of the canonical name is not one
that failed before addresses that are apart. -/
theorem definite_iff :
    (resolvesTo u l target ≠ "" → l.Definite u target) ↔ (Failed l.cname → ¬ l.Unpointed) := by
  rw [resolvesTo_ne_empty_iff]
  constructor
  · rintro hdefinite ⟨e, he, hfailed⟩ hunpointed
    have hcanonical : ¬ l.CanonicalIs u target := by
      rintro ⟨cname, hcname, -⟩
      cases he.symm.trans hcname
    exact (hdefinite ⟨hcanonical, hunpointed⟩).cname ⟨e, he, hfailed⟩
  · rintro hblind ⟨hcanonical, hunpointed⟩
    obtain ⟨⟨ours, hours⟩, hapart⟩ := hunpointed
    exact ⟨fun hfailed => hblind hfailed ⟨⟨ours, hours⟩, hapart⟩, hours ▸ failed_ok ours,
      not_failed_of_apart hapart, hcanonical, hapart⟩

/-- Seeing the target's name or one of its addresses is enough to pass. -/
theorem resolvesTo_of_pointed (hpointed : l.CanonicalIs u target ∨ l.Meet) :
    resolvesTo u l target = "" := by
  by_contra hreason
  obtain ⟨hcanonical, -, hapart⟩ := resolvesTo_ne_empty_iff.1 hreason
  rcases hpointed with hcname | ⟨ours, theirs, hours, htheirs, a, ha, ha'⟩
  · exact hcanonical hcname
  · rcases hapart with ⟨e, he, -⟩ | ⟨theirs', htheirs', hdisjoint⟩
    · cases he.symm.trans htheirs
    · cases htheirs'.symm.trans htheirs
      exact hdisjoint ours hours a ha ha'

/-- The backoff of a hostname is new only if its check gave a reason. -/
theorem preflightOK_backoff {expectedTarget hostname : String} {now later t : Time}
    {backoffs : Backoffs}
    (ht : (preflightOK u expectedTarget hostname l now later backoffs).2.2 hostname = some t) :
    backoffs hostname = some t ∨
      t = later + preflightBackoff ∧ resolvesTo u l (bare u expectedTarget) ≠ "" := by
  unfold preflightOK at ht
  split at ht
  · exact .inl ht
  · split at ht
    · exact .inl ht
    · simp only at ht
      split at ht
      · simp at ht
      · rename_i hreason
        exact .inr ⟨by simpa using ht.symm, hreason⟩

/-- The check of a hostname.  Seeing the target's name or one of its addresses passes.  A backoff is
started only with a reason, and a reason rests on three lookups that did not fail, on a canonical
name other than the target and on addresses apart from its own, exactly unless the lookup of the
canonical name failed while the addresses were seen to be apart. -/
theorem preflight_evidence (u : Unicode) (expectedTarget hostname : String) (l : Lookups)
    (now later : Time) (backoffs : Backoffs) :
    (l.CanonicalIs u (bare u expectedTarget) ∨ l.Meet →
      resolvesTo u l (bare u expectedTarget) = "") ∧
    ((resolvesTo u l (bare u expectedTarget) ≠ "" → l.Definite u (bare u expectedTarget)) ↔
      (Failed l.cname → ¬ l.Unpointed)) ∧
    ∀ t, (preflightOK u expectedTarget hostname l now later backoffs).2.2 hostname = some t →
      backoffs hostname = some t ∨
        t = later + preflightBackoff ∧ resolvesTo u l (bare u expectedTarget) ≠ "" :=
  ⟨resolvesTo_of_pointed, definite_iff, fun _ ht => preflightOK_backoff ht⟩

/-- The resolver fails on the canonical name and answers both address lookups. -/
def halfFailed : Lookups where
  cname := .error ⟨some false⟩
  ours := .ok ["192.0.2.10"]
  theirs := .ok ["198.51.100.7"]

/-- One failed lookup, and the hostname is refused for a day. -/
theorem preflight_blind :
    Failed halfFailed.cname ∧
      preflightOK .ascii "mail.open.email" "mail.acme.com" halfFailed 0 second (fun _ => none) =
        (false, "resolves to [198.51.100.7], not to mail.open.email",
          Function.update (fun _ => none) "mail.acme.com" (some (24 * hour + second))) ∧
      ¬ halfFailed.Definite .ascii "mail.open.email" := by
  have hfailed : Failed halfFailed.cname := ⟨⟨some false⟩, rfl, rfl⟩
  refine ⟨hfailed, ?_, fun hdefinite => hdefinite.cname hfailed⟩
  have hreason : resolvesTo .ascii halfFailed (bare .ascii "mail.open.email") =
      "resolves to [198.51.100.7], not to mail.open.email" := by decide +kernel
  simp [preflightOK, hreason, preflightBackoff, Nat.add_comm]

end Preflight
end CertsManager
