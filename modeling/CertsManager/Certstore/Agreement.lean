import CertsManager.Certstore.Inventory

/-!
# Agreement — the inventory and the manager on the same configuration

Both packages spell the configured domains for themselves: the manager turns a name into its
A-label (`normalizeDomain`), the inventory does not (`normalize`).  They agree on the names of a
configuration exactly when every entry is its own A-label once trimmed, lower-cased and without its
trailing dot; a Unicode entry makes the chain the manager files an orphan.
-/

namespace CertsManager
namespace Certstore

open Layout

/-- The names the manager files certificates under. -/
def filed (u : Unicode) (idna : Idna) (domains : List String) : List String :=
  normalizeDomains u idna domains ++ (normalizeDomains u idna domains).map (Paths.companion u)

section

variable {u : Unicode} {idna : Idna} {domains : List String} {base name : String}

theorem normalizeDomain_eq (d : String) :
    normalizeDomain u idna d = idna.spell (normalize u d) :=
  rfl

theorem lower_normalize (d : String) : u.lower (normalize u d) = normalize u d :=
  Unicode.lower_of_subset (trimSuffix_subset _ _)

theorem mem_configured :
    name ∈ (Inventory.new u base domains).configured ↔
      ∃ d ∈ domains, normalize u d = name ∧ name ≠ "" := by
  simp only [Inventory.new, List.mem_filter, List.mem_map, decide_eq_true_eq]
  constructor
  · rintro ⟨⟨d, hd, hname⟩, hne⟩
    exact ⟨d, hd, hname, hne⟩
  · rintro ⟨d, hd, hname, hne⟩
    exact ⟨⟨d, hd, hname⟩, hne⟩

theorem mem_served :
    name ∈ normalizeDomains u idna domains ↔
      ∃ d ∈ domains, idna.spell (normalize u d) = name ∧ name ≠ "" := by
  simp only [normalizeDomains, List.mem_filter, List.mem_map, decide_eq_true_eq,
    normalizeDomain_eq]
  constructor
  · rintro ⟨⟨d, hd, hname⟩, hne⟩
    exact ⟨d, hd, hname, hne⟩
  · rintro ⟨d, hd, hname, hne⟩
    exact ⟨⟨d, hd, hname⟩, hne⟩

theorem role_configured {onDemand : List String} {inv : Inventory} :
    inv.role onDemand name = .configured ↔ certDomain name ∈ inv.configured := by
  unfold Inventory.role
  split
  · simp_all
  · split <;> simp_all

theorem lower_configured (h : name ∈ (Inventory.new u base domains).configured) :
    u.lower name = name := by
  obtain ⟨d, -, rfl, -⟩ := mem_configured.1 h
  exact lower_normalize d

/-- The two normalisations of every entry are the same, so they give the same names. -/
theorem mem_served_iff
    (hspell : ∀ d ∈ domains, normalize u d ≠ "" → normalizeDomain u idna d = normalize u d) :
    name ∈ normalizeDomains u idna domains ↔
      name ∈ (Inventory.new u base domains).configured := by
  rw [mem_served, mem_configured]
  refine exists_congr fun d => and_congr_right fun hd => and_congr_left fun hne => ?_
  by_cases hempty : normalize u d = ""
  · rw [hempty, Idna.spell_empty]
  · rw [← normalizeDomain_eq, hspell d hd hempty]

/-- An entry is its own A-label, and one that looks like a companion has its domain there too. -/
def Plain (u : Unicode) (idna : Idna) (configured : List String) (d : String) : Prop :=
  normalize u d ≠ "" →
    normalizeDomain u idna d = normalize u d ∧ certDomain (normalize u d) ∈ configured

instance (u : Unicode) (idna : Idna) (configured : List String) (d : String) :
    Decidable (Plain u idna configured d) :=
  inferInstanceAs (Decidable (normalize u d ≠ "" → _))

theorem plain_of_agree (hagree : ∀ onDemand name,
      (Inventory.new u base domains).role onDemand name = .configured ↔
        name ∈ filed u idna domains) {d : String} (hd : d ∈ domains) :
    Plain u idna (Inventory.new u base domains).configured d := by
  intro hne
  have hconf : normalize u d ∈ (Inventory.new u base domains).configured :=
    mem_configured.2 ⟨d, hd, rfl, hne⟩
  by_cases hcomp : isCompanion (normalize u d) = true
  · -- kept as typed, so the manager files it under this name and the role is for its domain
    have hsame : normalizeDomain u idna d = normalize u d := Idna.spell_companion hcomp
    refine ⟨hsame, role_configured.1 ((hagree [] _).2 (List.mem_append_left _ ?_))⟩
    exact mem_served.2 ⟨d, hd, hsame, hne⟩
  · -- the name has the role, and no companion has it, so the manager serves it
    have hself : certDomain (normalize u d) = normalize u d :=
      trimSuffix_of_not (by simpa [isCompanion] using hcomp)
    rw [hself]
    refine ⟨?_, hconf⟩
    have hfiled := (hagree [] (normalize u d)).1 (role_configured.2 (by rw [hself]; exact hconf))
    rcases List.mem_append.1 hfiled with hserved | hcompanion
    · obtain ⟨e, -, he, -⟩ := mem_served.1 hserved
      calc normalizeDomain u idna d
          = idna.spell (idna.spell (normalize u e)) := by rw [he, normalizeDomain_eq]
        _ = normalize u d := by rw [Idna.spell_spell, he]
    · obtain ⟨e, -, he⟩ := List.mem_map.1 hcompanion
      refine absurd ?_ hcomp
      rw [← he]
      exact hasSuffix_append _ _

theorem agree_of_plain
    (hplain : ∀ d ∈ domains, Plain u idna (Inventory.new u base domains).configured d)
    (onDemand : List String) (name : String) :
    (Inventory.new u base domains).role onDemand name = .configured ↔
      name ∈ filed u idna domains := by
  have hserved : ∀ n, n ∈ normalizeDomains u idna domains ↔
      n ∈ (Inventory.new u base domains).configured :=
    fun n => mem_served_iff fun d hd hne => (hplain d hd hne).1
  rw [role_configured, filed, List.mem_append, List.mem_map]
  constructor
  · intro hconf
    by_cases hcomp : isCompanion name = true
    · refine .inr ⟨certDomain name, (hserved _).2 hconf, ?_⟩
      rw [Paths.companion, lower_configured hconf]
      exact trimSuffix_append_of hcomp
    · have hself : certDomain name = name :=
        trimSuffix_of_not (by simpa [isCompanion] using hcomp)
      rw [hself] at hconf
      exact .inl ((hserved name).2 hconf)
  · rintro (hname | ⟨c, hc, rfl⟩)
    · obtain ⟨d, hd, rfl, hne⟩ := mem_configured.1 ((hserved name).1 hname)
      exact (hplain d hd hne).2
    · have hconf := (hserved c).1 hc
      have hback : certDomain (Paths.companion u c) = c := by
        rw [certDomain, Paths.companion, trimSuffix_append, lower_configured hconf]
      rw [hback]
      exact hconf

/-- Inventory and manager agree on the names of a configuration exactly when its entries are
plain. -/
theorem roles_agree (u : Unicode) (idna : Idna) (base : String) (domains : List String) :
    (∀ onDemand name, (Inventory.new u base domains).role onDemand name = .configured ↔
      name ∈ filed u idna domains) ↔
    ∀ d ∈ domains, Plain u idna (Inventory.new u base domains).configured d :=
  ⟨fun hagree _ hd => plain_of_agree hagree hd, agree_of_plain⟩

end

/-! ## A Unicode entry -/

/-- The A-label of one Unicode name; other names are A-labels already or have none. -/
def bookshopIdna : Idna where
  toASCII name :=
    if name = "bücher.example" then some "xn--bcher-kva.example"
    else if name.toList.all fun c => Paths.isLDH c || c = '.' then some name else none
  toASCII_ascii s a h := by
    split at h
    · cases h
      decide
    · rename_i hother
      split at h
      · cases h
        rename_i hldh
        simp [hother, hldh]
      · cases h
  toASCII_plus s hplus := by
    have hall : (s.toList.all fun c => Paths.isLDH c || c = '.') = false :=
      List.all_eq_false.2 ⟨'+', hplus, by decide⟩
    have hother : s ≠ "bücher.example" := by
      rintro rfl
      revert hplus
      decide
    simp [hother, hall]
  toASCII_empty a h := by
    have hempty : some "" = some a := h
    exact (Option.some.inj hempty).symm

/-- The chain of a configured Unicode name is an orphan to the inventory. -/
theorem served_name_orphaned :
    "xn--bcher-kva.example" ∈ filed .ascii bookshopIdna [" Bücher.example."] ∧
      (Inventory.new .ascii "" [" Bücher.example."]).role [] "xn--bcher-kva.example" = .orphan ∧
      (Inventory.new .ascii "" [" Bücher.example."]).role [] "bücher.example" = .configured ∧
      "bücher.example" ∉ filed .ascii bookshopIdna [" Bücher.example."] := by
  decide +kernel

end Certstore
end CertsManager
