import CertsManager.Names

/-!
# Spelling — when a second pass leaves a name alone

`NewManager` puts the configured names through `normalizeDomain` once to obtain the names it
maintains, and a second time to obtain the set it serves.  Both are the same names exactly when a
spelling is a fixed point of the function.

Here `idna.Lookup.ToASCII` is any partial function that leaves its own results alone; none of the
other laws of `Idna` is used.
-/

namespace CertsManager

open Layout

/-- `idna.Lookup.ToASCII` with the one law that its results are fixed. -/
structure AsciiLookup where
  toASCII : String → Option String
  toASCII_ascii : ∀ s a, toASCII s = some a → toASCII a = some a

def Idna.lookup (idna : Idna) : AsciiLookup :=
  ⟨idna.toASCII, idna.toASCII_ascii⟩

/-- The first line of `normalizeDomain`: no space at the ends, lower case, one dot less. -/
def Unicode.tidy (u : Unicode) (name : String) : String :=
  trimSuffix (u.lower (u.trimSpace name)) "."

theorem Unicode.tidy_empty (u : Unicode) : u.tidy "" = "" := by
  simp [tidy, trimSpace, lower, trimSuffix, hasSuffix]

namespace AsciiLookup

variable (u : Unicode) (l : AsciiLookup)

/-- `normalizeDomain`, over any lookup. -/
def normalizeDomain (name : String) : String :=
  let name := u.tidy name
  match l.toASCII name with
  | some ascii => if ascii ≠ "" then ascii else name
  | none => name

theorem normalizeDomain_lookup (idna : Idna) (name : String) :
    idna.lookup.normalizeDomain u name = CertsManager.normalizeDomain u idna name := rfl

/-- `domainSetOf`. -/
def domainSetOf (domains : List String) : Finset String :=
  ((domains.map (l.normalizeDomain u)).filter (· ≠ "")).toFinset

/-- `normalizeDomains`: in order, empty entries dropped. -/
def normalizeDomains (domains : List String) : List String :=
  (domains.map (l.normalizeDomain u)).filter (· ≠ "")

/-- The A-label a pass has for the trimmed name; an empty answer counts as none. -/
def label (name : String) : Option String :=
  (l.toASCII (u.tidy name)).filter (· ≠ "")

/-- A name with an A-label settles if trimming leaves the label alone, or if the label is what the
lookup answers for the rest; a name without one, if a second trimming takes nothing more off. -/
def Settles (name : String) : Prop :=
  match l.label u name with
  | some ascii => u.tidy ascii = ascii ∨ l.toASCII (u.tidy ascii) = some ascii
  | none => u.tidy (u.tidy name) = u.tidy name

variable {u l}

theorem normalizeDomain_eq (name : String) :
    l.normalizeDomain u name = (l.label u name).getD (u.tidy name) := by
  cases hlookup : l.toASCII (u.tidy name) with
  | none => simp [normalizeDomain, label, hlookup]
  | some ascii =>
      by_cases hempty : ascii = ""
      · simp [normalizeDomain, label, hlookup, hempty, Option.filter_some]
      · simp [normalizeDomain, label, hlookup, hempty, Option.filter_some]

theorem label_eq_some {name ascii : String} :
    l.label u name = some ascii ↔ l.toASCII (u.tidy name) = some ascii ∧ ascii ≠ "" := by
  simp [label, Option.filter_eq_some_iff]

/-- A second pass leaves a spelling alone exactly when the name settles. -/
theorem normalizeDomain_idem_iff (name : String) :
    l.normalizeDomain u (l.normalizeDomain u name) = l.normalizeDomain u name ↔
      l.Settles u name := by
  cases hlabel : l.label u name with
  | some ascii =>
      obtain ⟨hascii, hne⟩ := label_eq_some.1 hlabel
      simp only [Settles, hlabel, normalizeDomain_eq name, Option.getD_some]
      rw [normalizeDomain_eq ascii]
      constructor
      · intro hidem
        cases hagain : l.label u ascii with
        | some ascii' =>
            rw [hagain, Option.getD_some] at hidem
            rw [hidem] at hagain
            exact .inr (label_eq_some.1 hagain).1
        | none =>
            rw [hagain, Option.getD_none] at hidem
            exact .inl hidem
      · intro hsettles
        have hback : l.toASCII (u.tidy ascii) = some ascii := by
          rcases hsettles with htidy | hback
          · -- the lookup leaves its own answer alone
            rw [htidy]
            exact l.toASCII_ascii _ _ hascii
          · exact hback
        rw [label_eq_some.2 ⟨hback, hne⟩, Option.getD_some]
  | none =>
      simp only [Settles, hlabel, normalizeDomain_eq name, Option.getD_none]
      rw [normalizeDomain_eq (u.tidy name)]
      constructor
      · intro hidem
        cases hagain : l.label u (u.tidy name) with
        | some ascii =>
            -- the trimmed name would be an answer, and so have itself as its label
            rw [hagain, Option.getD_some] at hidem
            obtain ⟨hascii, hne⟩ := label_eq_some.1 hagain
            have hself := l.toASCII_ascii _ _ hascii
            rw [hidem] at hself hne
            rw [label_eq_some.2 ⟨hself, hne⟩] at hlabel
            cases hlabel
        | none =>
            rw [hagain, Option.getD_none] at hidem
            exact hidem
      · intro htidy
        have hagain : l.label u (u.tidy name) = none := by
          rw [← hlabel, label, label, htidy]
        rw [hagain, Option.getD_none, htidy]

theorem mem_normalizeDomains {domains : List String} {d : String} :
    d ∈ l.normalizeDomains u domains ↔
      ∃ name ∈ domains, l.normalizeDomain u name = d ∧ d ≠ "" := by
  simp only [normalizeDomains, List.mem_filter, List.mem_map, decide_eq_true_eq]
  constructor
  · rintro ⟨⟨name, hname, hd⟩, hne⟩
    exact ⟨name, hname, hd, hne⟩
  · rintro ⟨name, hname, hd, hne⟩
    exact ⟨⟨name, hname, hd⟩, hne⟩

theorem mem_domainSetOf {domains : List String} {d : String} :
    d ∈ l.domainSetOf u domains ↔ ∃ name ∈ domains, l.normalizeDomain u name = d ∧ d ≠ "" :=
  List.mem_toFinset.trans mem_normalizeDomains

/-- A name without a spelling settles. -/
theorem settles_of_empty {name : String} (h : l.normalizeDomain u name = "") : l.Settles u name := by
  refine (normalizeDomain_idem_iff name).1 ?_
  have htidy : u.tidy name = "" := by
    rw [normalizeDomain_eq] at h
    cases hlabel : l.label u name with
    | some ascii => exact absurd (by simpa [hlabel] using h) (label_eq_some.1 hlabel).2
    | none => simpa [hlabel] using h
  have hsame : l.label u "" = l.label u name := by
    rw [label, label, Unicode.tidy_empty, htidy]
  rw [h, normalizeDomain_eq "", hsame, Unicode.tidy_empty, ← htidy, ← normalizeDomain_eq, h, htidy]

/-- What is maintained is served: a configuration has every name it maintains in the set it serves
exactly when each of its names settles, or is what the second pass makes of another one; a single
name is served exactly when it settles, and settling is being spelled the same by a second pass. -/
theorem maintained_served (u : Unicode) (l : AsciiLookup) :
    (∀ domains, (∀ d ∈ l.normalizeDomains u domains,
        d ∈ l.domainSetOf u (l.normalizeDomains u domains)) ↔
      ∀ name ∈ domains, l.Settles u name ∨ ∃ other ∈ domains, other ≠ name ∧
        l.normalizeDomain u (l.normalizeDomain u other) = l.normalizeDomain u name) ∧
    (∀ name, (∀ d ∈ l.normalizeDomains u [name],
        d ∈ l.domainSetOf u (l.normalizeDomains u [name])) ↔ l.Settles u name) ∧
    ∀ name, l.normalizeDomain u (l.normalizeDomain u name) = l.normalizeDomain u name ↔
      l.Settles u name := by
  have hlist : ∀ domains, (∀ d ∈ l.normalizeDomains u domains,
        d ∈ l.domainSetOf u (l.normalizeDomains u domains)) ↔
      ∀ name ∈ domains, l.Settles u name ∨ ∃ other ∈ domains, other ≠ name ∧
        l.normalizeDomain u (l.normalizeDomain u other) = l.normalizeDomain u name := by
    intro domains
    constructor
    · intro hserved name hname
      by_cases hempty : l.normalizeDomain u name = ""
      · exact .inl (settles_of_empty hempty)
      · obtain ⟨d, hd, hspelled, -⟩ := mem_domainSetOf.1
          (hserved _ (mem_normalizeDomains.2 ⟨name, hname, rfl, hempty⟩))
        obtain ⟨other, hother, rfl, -⟩ := mem_normalizeDomains.1 hd
        by_cases hsame : other = name
        · rw [hsame] at hspelled
          exact .inl ((normalizeDomain_idem_iff name).1 hspelled)
        · exact .inr ⟨other, hother, hsame, hspelled⟩
    · intro hnames d hd
      obtain ⟨name, hname, rfl, hne⟩ := mem_normalizeDomains.1 hd
      rcases hnames name hname with hsettles | ⟨other, hother, -, hspelled⟩
      · exact mem_domainSetOf.2 ⟨_, hd, (normalizeDomain_idem_iff name).2 hsettles, hne⟩
      · refine mem_domainSetOf.2 ⟨_, mem_normalizeDomains.2 ⟨other, hother, rfl, ?_⟩, hspelled, hne⟩
        -- an empty spelling is empty again at the second pass
        intro hempty
        have hidem := (normalizeDomain_idem_iff other).2 (settles_of_empty hempty)
        exact hne (hspelled.symm.trans (hidem.trans hempty))
  refine ⟨hlist, fun name => (hlist [name]).trans ?_, normalizeDomain_idem_iff⟩
  simp only [List.mem_singleton, forall_eq, exists_eq_left, ne_eq, not_true_eq_false, false_and,
    or_false]

/-- The lookup of plain lower-case names: each is its own A-label. -/
def plain : AsciiLookup where
  toASCII := some
  toASCII_ascii _ _ _ := rfl

/-- A name typed with two dots at its end is maintained with one and served with none. -/
theorem maintained_unserved :
    plain.normalizeDomains .ascii ["mx.example.com.."] = ["mx.example.com."] ∧
      plain.domainSetOf .ascii (plain.normalizeDomains .ascii ["mx.example.com.."]) =
        {"mx.example.com"} ∧
      "mx.example.com." ∉
        plain.domainSetOf .ascii (plain.normalizeDomains .ascii ["mx.example.com.."]) := by
  decide +kernel

end AsciiLookup
end CertsManager
