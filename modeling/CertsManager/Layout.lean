import Mathlib

/-!
# Layout — the names objects are filed under

`internal/layout/layout.go`.  Names reach these functions normalised (lower case, no trailing dot,
punycode: `names.go`), so the `strings.ToLower` each of them applies changes nothing and is left
out; it is modelled where a name can still be as an operator typed it.
-/

namespace CertsManager
namespace Layout

def companionSuffix : String := "+rsa"

/-- `strings.HasSuffix`. -/
def hasSuffix (s suffix : String) : Bool :=
  decide (suffix.toList <:+ s.toList)

/-- `strings.TrimSuffix`. -/
def trimSuffix (s suffix : String) : String :=
  if hasSuffix s suffix then String.ofList (s.toList.take (s.toList.length - suffix.toList.length))
  else s

/-- The name a domain's RSA companion certificate is filed under. -/
def companion (domain : String) : String :=
  domain ++ companionSuffix

def isCompanion (name : String) : Bool :=
  hasSuffix name companionSuffix

/-- The hostname the certificate filed under `name` is for. -/
def certDomain (name : String) : String :=
  trimSuffix name companionSuffix

/-- A companion is for the hostname it is filed next to. -/
theorem certDomain_companion (domain : String) : certDomain (companion domain) = domain := by
  have hsuf : companionSuffix.toList <:+ (companion domain).toList := by
    rw [companion, String.toList_append]
    exact List.suffix_append _ _
  simp only [certDomain, trimSuffix, hasSuffix, hsuf, decide_true, if_true]
  simp [companion, String.toList_append]

end Layout
end CertsManager
