import Mathlib

/-!
# Clock — times, durations and the constants the packages share

Times and durations are nanoseconds, as `time.Time` and `time.Duration` are; `unix` is
`time.Time.Unix`, which drops the fraction of a second.
-/

namespace CertsManager

abbrev Time : Type := Nat

def second : Time := 1000000000
def minute : Time := 60 * second
def hour : Time := 60 * minute

/-- Whole seconds since the epoch. -/
def unix (t : Time) : Nat :=
  t / second

theorem unix_mono {s t : Time} (h : s ≤ t) : unix s ≤ unix t :=
  Nat.div_le_div_right h

theorem unix_add_seconds (t : Time) (n : Nat) : unix (t + n * second) = unix t + n :=
  Nat.add_mul_div_right t n (by decide)

/-- `issueTimeout` (issuer.go): the context every issuance attempt runs under. -/
def issueTimeout : Time := 2 * minute

/-- `flushTimeout` (scheduler.go): one pass over the held chains. -/
def flushTimeout : Time := 2 * minute

/-- `issueLeaseTTL` (lease.go): how long a held lease blocks other nodes. -/
def issueLeaseTTL : Time := 5 * minute

end CertsManager
