import CertsManager.Layout

/-!
# Names — the one spelling a name is filed under

`names.go`.  A name is trimmed and lower-cased, loses one trailing dot and is turned into its
A-label.  What depends on tables outside the repository is a parameter: Go's `unicode` tables
(`Unicode`) and `idna.Lookup.ToASCII` (`Idna`), each with the laws the proofs use.
-/

namespace CertsManager

open Layout

/-! ## `strings` over the character tables -/

/-- `unicode.ToLower` and `unicode.IsSpace`. -/
structure Unicode where
  toLower : Char → Char
  isSpace : Char → Bool
  toLower_ascii : ∀ c : Char, c.toNat < 128 → toLower c = c.toLower
  toLower_toLower : ∀ c, toLower (toLower c) = toLower c

namespace Unicode

variable (u : Unicode)

/-- `strings.ToLower`. -/
def lower (s : String) : String :=
  String.ofList (s.toList.map u.toLower)

/-- `strings.TrimSpace`. -/
def trimSpace (s : String) : String :=
  String.ofList ((s.toList.dropWhile u.isSpace).rdropWhile u.isSpace)

variable {u}

theorem lower_eq_self_iff {s : String} : u.lower s = s ↔ ∀ c ∈ s.toList, u.toLower c = c := by
  rw [lower, ← String.toList_inj, String.toList_ofList]
  constructor
  · intro hmap c hc
    exact List.map_eq_map_iff.1 (hmap.trans (List.map_id s.toList).symm) c hc
  · intro hfix
    exact (List.map_congr_left hfix).trans (List.map_id _)

/-- A piece cut out of a lower-cased name is lower case. -/
theorem lower_of_subset {s t : String} (hsub : t.toList ⊆ (u.lower s).toList) :
    u.lower t = t := by
  refine lower_eq_self_iff.2 fun c hc => ?_
  have hmem : c ∈ s.toList.map u.toLower := by simpa [lower] using hsub hc
  obtain ⟨b, -, rfl⟩ := List.mem_map.1 hmem
  exact u.toLower_toLower b

theorem lower_append (s t : String) : u.lower (s ++ t) = u.lower s ++ u.lower t := by
  rw [← String.toList_inj]
  simp [lower]

end Unicode

theorem char_toLower_toLower (c : Char) : c.toLower.toLower = c.toLower := by
  unfold Char.toLower
  split
  · rename_i hupper
    split
    · -- what a capital is mapped to is above 'Z'
      rename_i hagain
      exfalso
      have hlow := UInt32.le_iff_toNat_le.1 hupper.1
      have hhigh := UInt32.le_iff_toNat_le.1 hupper.2
      have hcap := UInt32.le_iff_toNat_le.1 hagain.2
      simp at hlow hhigh hcap
      omega
    · rfl
  · rfl

/-- The tables restricted to ASCII: every other character is its own lower case and no space. -/
def Unicode.ascii : Unicode where
  toLower := Char.toLower
  isSpace := Char.isWhitespace
  toLower_ascii _ _ := rfl
  toLower_toLower := char_toLower_toLower

/-! ## Suffixes -/

namespace Layout

theorem trimSuffix_subset (s suffix : String) : (trimSuffix s suffix).toList ⊆ s.toList := by
  unfold trimSuffix
  split
  · simpa using List.take_subset _ _
  · exact List.Subset.refl _

theorem trimSuffix_of_not {s suffix : String} (h : hasSuffix s suffix = false) :
    trimSuffix s suffix = s := by
  simp [trimSuffix, h]

/-- A name is its suffix put back after what is left of it. -/
theorem trimSuffix_append_of {s suffix : String} (h : hasSuffix s suffix = true) :
    trimSuffix s suffix ++ suffix = s := by
  obtain ⟨front, hfront⟩ := of_decide_eq_true h
  rw [← String.toList_inj]
  simp [trimSuffix, h, ← hfront]

theorem hasSuffix_append (s suffix : String) : hasSuffix (s ++ suffix) suffix = true := by
  simp [hasSuffix]

theorem trimSuffix_append (s suffix : String) : trimSuffix (s ++ suffix) suffix = s := by
  simp [trimSuffix, hasSuffix_append]

end Layout

/-! ## `names.go` -/

/-- `idna.Lookup.ToASCII`, `none` for a name that is not valid IDNA.  Its results are A-labels,
which it leaves alone; the lookup profile (STD3 rules) has no `+`. -/
structure Idna where
  toASCII : String → Option String
  toASCII_ascii : ∀ s a, toASCII s = some a → toASCII a = some a
  toASCII_plus : ∀ s, '+' ∈ s.toList → toASCII s = none
  toASCII_empty : ∀ a, toASCII "" = some a → a = ""

/-- Where a name is filed: lower case, no trailing dot, punycode; as typed if it has none. -/
def normalizeDomain (u : Unicode) (idna : Idna) (name : String) : String :=
  let name := trimSuffix (u.lower (u.trimSpace name)) "."
  match idna.toASCII name with
  | some ascii => if ascii ≠ "" then ascii else name
  | none => name

/-- What `normalizeDomain` makes of a name that is trimmed and lower case. -/
def Idna.spell (idna : Idna) (name : String) : String :=
  match idna.toASCII name with
  | some ascii => if ascii ≠ "" then ascii else name
  | none => name

namespace Idna

variable {idna : Idna}

theorem spell_spell (name : String) : idna.spell (idna.spell name) = idna.spell name := by
  cases hname : idna.toASCII name with
  | none =>
      have hspell : idna.spell name = name := by simp [spell, hname]
      rw [hspell, hspell]
  | some ascii =>
      by_cases hempty : ascii = ""
      · have hspell : idna.spell name = name := by simp [spell, hname, hempty]
        rw [hspell, hspell]
      · have hspell : idna.spell name = ascii := by simp [spell, hname, hempty]
        have hfix := idna.toASCII_ascii name ascii hname
        rw [hspell]
        simp [spell, hfix]

theorem spell_empty : idna.spell "" = "" := by
  cases hempty : idna.toASCII "" with
  | none => simp [spell, hempty]
  | some ascii => simp [spell, hempty, idna.toASCII_empty ascii hempty]

/-- A name that ends as a companion's does is kept as typed. -/
theorem spell_companion {name : String} (h : isCompanion name = true) : idna.spell name = name := by
  have hplus : '+' ∈ name.toList := by
    rw [← trimSuffix_append_of h, String.toList_append]
    exact List.mem_append_right _ (by decide)
  simp [spell, idna.toASCII_plus name hplus]

end Idna

/-- The names under their one spelling, in order, empty entries dropped.  `domainSetOf` is the
same as a set. -/
def normalizeDomains (u : Unicode) (idna : Idna) (domains : List String) : List String :=
  (domains.map (normalizeDomain u idna)).filter (· ≠ "")

end CertsManager
