import CertsManager.Names

/-!
# Paths — the storage keys of a name's objects

`internal/layout/layout.go`, with the lower-casing each function applies.  The kinds of object are
told apart by a directory and by suffixes appended to the name.  `+rsa` cannot end a hostname, but
`.next` can: the live key of "a.next" and the staged key of "a" are one object, and this is the only
way in which two objects of hostnames can meet.
-/

namespace CertsManager
namespace Paths

open Layout

def chainDir : String := "certs/"
def keyDir : String := "keys/"
def nextKeySuffix : String := ".next"
def onDemandHosts : String := "ondemand/hosts.json"

section

variable (u : Unicode)

def chain (base domain : String) : String :=
  base ++ chainDir ++ u.lower domain

def key (base domain : String) : String :=
  base ++ keyDir ++ u.lower domain

def nextKey (base domain : String) : String :=
  key u base domain ++ nextKeySuffix

def companion (domain : String) : String :=
  u.lower domain ++ companionSuffix

/-- A companion's name is lower case. -/
theorem lower_companion (domain : String) : u.lower (companion u domain) = companion u domain := by
  have hsuffix : u.lower companionSuffix = companionSuffix := by
    refine Unicode.lower_eq_self_iff.2 fun c hc => ?_
    have hall : companionSuffix.toList.all (fun c => c.toNat < 128 ∧ c.toLower = c) = true := by
      decide
    have hascii : c.toNat < 128 ∧ c.toLower = c := by
      simpa using List.all_eq_true.1 hall c hc
    rw [u.toLower_ascii c hascii.1, hascii.2]
  rw [companion, Unicode.lower_append, hsuffix, Unicode.lower_of_subset (List.Subset.refl _)]

end

/-! ## Hostnames -/

def isLDH (c : Char) : Bool :=
  ('a' ≤ c && c ≤ 'z') || ('0' ≤ c && c ≤ '9') || c = '-'

/-- Labels of letters, digits and hyphens joined by dots, none of them empty; `started` once the
label being read has a character. -/
def isLabels (started : Bool) : List Char → Bool
  | [] => started
  | c :: cs => if c = '.' then started && isLabels false cs else isLDH c && isLabels true cs

/-- A lower-case hostname. -/
structure Hostname where
  name : String
  valid : isLabels false name.toList = true

theorem mem_isLabels {c : Char} {started : Bool} {cs : List Char}
    (hcs : isLabels started cs = true) (hc : c ∈ cs) : isLDH c = true ∨ c = '.' := by
  induction cs generalizing started with
  | nil => cases hc
  | cons b cs ih =>
      by_cases hdot : b = '.'
      · simp only [isLabels, hdot, if_true, Bool.and_eq_true] at hcs
        rcases List.mem_cons.1 hc with rfl | hc
        · exact .inr hdot
        · exact ih hcs.2 hc
      · simp only [isLabels, hdot, if_false, Bool.and_eq_true] at hcs
        rcases List.mem_cons.1 hc with rfl | hc
        · exact .inl hcs.1
        · exact ih hcs.2 hc

namespace Hostname

variable (u : Unicode) (d : Hostname)

theorem plus_not_mem : '+' ∉ d.name.toList := by
  intro hplus
  rcases mem_isLabels d.valid hplus with hldh | hdot
  · revert hldh
    decide
  · revert hdot
    decide

theorem toLower_of_ldh {c : Char} (hc : isLDH c = true ∨ c = '.') : u.toLower c = c := by
  have hbounds : c.toNat < 128 ∧ ¬ (65 ≤ c.toNat ∧ c.toNat ≤ 90) := by
    rcases hc with hldh | rfl
    · simp only [isLDH, Bool.or_eq_true, Bool.and_eq_true, decide_eq_true_eq, Char.le_def,
        UInt32.le_iff_toNat_le] at hldh
      rcases hldh with (⟨hlow, hhigh⟩ | ⟨hlow, hhigh⟩) | rfl
      · simp at hlow hhigh ⊢
        omega
      · simp at hlow hhigh ⊢
        omega
      · decide
    · decide
  rw [u.toLower_ascii c hbounds.1, Char.toLower, dif_neg]
  intro hupper
  refine hbounds.2 ?_
  simpa [UInt32.le_iff_toNat_le] using hupper

theorem lower_name : u.lower d.name = d.name :=
  Unicode.lower_eq_self_iff.2 fun _ hc => toLower_of_ldh u (mem_isLabels d.valid hc)

end Hostname

/-! ## The kinds of object -/

inductive Kind where
  | chain
  | liveKey
  | stagedKey
  | companionChain
  | companionKey
  deriving DecidableEq, Repr

namespace Kind

def storageKey (u : Unicode) (base : String) : Kind → String → String
  | .chain, d => Paths.chain u base d
  | .liveKey, d => Paths.key u base d
  | .stagedKey, d => Paths.nextKey u base d
  | .companionChain, d => Paths.chain u base (companion u d)
  | .companionKey, d => Paths.key u base (companion u d)

def dir : Kind → String
  | .chain => chainDir
  | .liveKey => keyDir
  | .stagedKey => keyDir
  | .companionChain => chainDir
  | .companionKey => keyDir

def suffix : Kind → String
  | .chain => ""
  | .liveKey => ""
  | .stagedKey => nextKeySuffix
  | .companionChain => companionSuffix
  | .companionKey => companionSuffix

variable (u : Unicode) (base : String)

theorem lower_companion_hostname (d : Hostname) :
    u.lower (companion u d.name) = d.name ++ companionSuffix := by
  rw [lower_companion, companion, d.lower_name]

theorem storageKey_hostname (k : Kind) (d : Hostname) :
    k.storageKey u base d.name = base ++ (k.dir ++ (d.name ++ k.suffix)) := by
  cases k with
  | chain => simp [storageKey, dir, suffix, Paths.chain, d.lower_name, String.append_assoc]
  | liveKey => simp [storageKey, dir, suffix, Paths.key, d.lower_name, String.append_assoc]
  | stagedKey =>
      simp [storageKey, dir, suffix, Paths.nextKey, Paths.key, d.lower_name, String.append_assoc]
  | companionChain =>
      simp [storageKey, dir, suffix, Paths.chain, lower_companion_hostname, String.append_assoc]
  | companionKey =>
      simp [storageKey, dir, suffix, Paths.key, lower_companion_hostname, String.append_assoc]

/-- The first character of a directory tells it. -/
theorem dir_append_inj {k l : Kind} {x y : String} (h : k.dir ++ x = l.dir ++ y) :
    k.dir = l.dir ∧ x = y := by
  have hdir : k.dir = l.dir := by
    have hhead := congrArg (fun s : String => s.toList.head?) h
    cases k <;> cases l <;> first | rfl | simp [dir, chainDir, keyDir] at hhead
  refine ⟨hdir, ?_⟩
  rw [hdir] at h
  exact String.append_right_inj _ |>.1 h

/-- No hostname is a companion's name. -/
theorem name_ne_companion (d e : Hostname) : d.name ≠ e.name ++ companionSuffix := by
  intro h
  refine d.plus_not_mem ?_
  rw [h, String.toList_append]
  exact List.mem_append_right _ (by decide)

theorem next_ne_companion (d e : Hostname) :
    d.name ++ nextKeySuffix ≠ e.name ++ companionSuffix := by
  intro h
  have hlast := congrArg (fun s : String => s.toList.getLast?) h
  simp [nextKeySuffix, companionSuffix] at hlast

theorem suffix_mem (k : Kind) :
    k.suffix = "" ∨ k.suffix = nextKeySuffix ∨ k.suffix = companionSuffix := by
  cases k <;> decide

/-- How two names with their suffixes can be equal. -/
theorem append_suffix_cases {k l : Kind} {d e : Hostname}
    (h : d.name ++ k.suffix = e.name ++ l.suffix) :
    (k.suffix = l.suffix ∧ d.name = e.name) ∨
      (k.suffix = "" ∧ l.suffix = nextKeySuffix ∧ d.name = e.name ++ nextKeySuffix) ∨
      (k.suffix = nextKeySuffix ∧ l.suffix = "" ∧ e.name = d.name ++ nextKeySuffix) := by
  rcases suffix_mem k with hk | hk | hk <;> rcases suffix_mem l with hl | hl | hl <;>
    simp only [hk, hl, String.append_empty] at h ⊢
  · exact .inl ⟨trivial, h⟩
  · exact .inr (.inl ⟨trivial, trivial, h⟩)
  · exact absurd h (name_ne_companion d e)
  · exact .inr (.inr ⟨trivial, trivial, h.symm⟩)
  · exact .inl ⟨trivial, String.append_left_inj _ |>.1 h⟩
  · exact absurd h (next_ne_companion d e)
  · exact absurd h.symm (name_ne_companion e d)
  · exact absurd h.symm (next_ne_companion e d)
  · exact .inl ⟨trivial, String.append_left_inj _ |>.1 h⟩

/-- A kind is its directory and its suffix. -/
theorem eq_of_dir_suffix {k l : Kind} (hdir : k.dir = l.dir) (hsuffix : k.suffix = l.suffix) :
    k = l := by
  revert hdir hsuffix
  cases k <;> cases l <;> decide

theorem eq_live_staged {k l : Kind} (hdir : k.dir = l.dir) (hk : k.suffix = "")
    (hl : l.suffix = nextKeySuffix) : k = .liveKey ∧ l = .stagedKey := by
  revert hdir hk hl
  cases k <;> cases l <;> decide

/-- Two objects of hostnames are one exactly when they are the same object, or the live key of a
name that ends in `.next` and the staged key of what stands before it. -/
theorem storageKey_eq_iff (k l : Kind) (d e : Hostname) :
    k.storageKey u base d.name = l.storageKey u base e.name ↔
      (k = l ∧ d.name = e.name) ∨
      (k = .liveKey ∧ l = .stagedKey ∧ d.name = e.name ++ nextKeySuffix) ∨
      (k = .stagedKey ∧ l = .liveKey ∧ e.name = d.name ++ nextKeySuffix) := by
  rw [storageKey_hostname, storageKey_hostname, String.append_right_inj]
  constructor
  · intro h
    obtain ⟨hdir, hname⟩ := dir_append_inj h
    rcases append_suffix_cases hname with ⟨hsuffix, hsame⟩ | ⟨hk, hl, hnext⟩ | ⟨hk, hl, hnext⟩
    · exact .inl ⟨eq_of_dir_suffix hdir hsuffix, hsame⟩
    · obtain ⟨rfl, rfl⟩ := eq_live_staged hdir hk hl
      exact .inr (.inl ⟨rfl, rfl, hnext⟩)
    · obtain ⟨rfl, rfl⟩ := eq_live_staged hdir.symm hl hk
      exact .inr (.inr ⟨rfl, rfl, hnext⟩)
  · rintro (⟨rfl, h⟩ | ⟨rfl, rfl, h⟩ | ⟨rfl, rfl, h⟩)
    · rw [h]
    · simp [dir, suffix, h]
    · simp [dir, suffix, h]

end Kind

/-- Over a set of hostnames the layout is injective exactly when no name of the set is another one
followed by `.next`. -/
theorem storage_keys_distinct (u : Unicode) (base : String) (names : Set Hostname) :
    Set.InjOn (fun x : Kind × Hostname => x.1.storageKey u base x.2.name) {x | x.2 ∈ names} ↔
      ∀ d ∈ names, ∀ e ∈ names, d.name ≠ e.name ++ nextKeySuffix := by
  constructor
  · intro hinj d hd e he hclash
    have hsame : (Kind.liveKey, d) = (Kind.stagedKey, e) :=
      hinj hd he ((Kind.storageKey_eq_iff u base _ _ d e).2 (.inr (.inl ⟨rfl, rfl, hclash⟩)))
    cases hsame
  · rintro hclear ⟨k, d⟩ hd ⟨l, e⟩ he hkey
    rcases (Kind.storageKey_eq_iff u base k l d e).1 hkey with
      ⟨rfl, hname⟩ | ⟨-, -, hclash⟩ | ⟨-, -, hclash⟩
    · cases d
      cases e
      cases hname
      rfl
    · exact absurd hclash (hclear d hd e he)
    · exact absurd hclash (hclear e he d hd)

/-- The live key of "a.next" is the staged key of "a". -/
theorem live_key_is_staged_key :
    isLabels false "a.next".toList = true ∧ isLabels false "a".toList = true ∧
      Kind.liveKey.storageKey .ascii "prod/" "a.next" =
        Kind.stagedKey.storageKey .ascii "prod/" "a" := by
  decide

end Paths
end CertsManager
