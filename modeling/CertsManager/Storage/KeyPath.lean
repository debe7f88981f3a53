import CertsManager.Lexical.Path

/-!
# KeyPath — where the filesystem backend keeps a key

`getFullPath` (storage/filesystem.go).  A key with a `..` segment is refused before anything is
cleaned; what is left is cleaned, joined to the base directory, and compared with it once more.
-/

namespace CertsManager
namespace Storage

open Lexical

/-- A backend over an absolute, cleaned directory other than the root. -/
structure FilesystemBackend where
  basePath : String
  rooted : isRooted basePath.toList = true
  cleaned : clean basePath.toList = basePath.toList
  notRoot : basePath ≠ "/"

namespace FilesystemBackend

variable (f : FilesystemBackend)

/-- The file a key is kept in, `none` for a key that would leave the base directory. -/
def getFullPath (key : String) : Option String :=
  if dotdotSegment ∈ segments key.toList then none
  else
    let key := clean key.toList
    let key := trimPrefix key ['/']
    let fullPath := join f.basePath.toList key
    if ¬ f.basePath.toList ++ ['/'] <+: fullPath ∧ fullPath ≠ f.basePath.toList then none
    else some (String.ofList fullPath)

/-- The base directory followed by segments. -/
def below (segs : List Segment) : String :=
  String.ofList (f.basePath.toList ++ segs.flatMap ('/' :: ·))

variable {f}

theorem names_ne_nil : names f.basePath.toList ≠ [] := by
  intro hnil
  obtain ⟨hpath, -⟩ := written_of_clean f.rooted f.cleaned
  rw [hnil] at hpath
  exact f.notRoot (String.toList_inj.1 hpath)

theorem dotdot_notMem_basePath : dotdotSegment ∉ segments f.basePath.toList := by
  intro hmem
  have hname : dotdotSegment ∈ names f.basePath.toList :=
    List.mem_filter.2 ⟨hmem, by decide⟩
  obtain ⟨-, hwritten⟩ := written_of_clean f.rooted f.cleaned
  exact (hwritten _ hname).2.2.2 rfl

/-- After cleaning and the removal of a leading slash, a key still lists its names: `.` stands for
none of them. -/
theorem trimPrefix_clean {key : List Char} (hdots : dotdotSegment ∉ segments key) :
    names (trimPrefix (clean key) ['/']) = names key ∧
      dotdotSegment ∉ segments (trimPrefix (clean key) ['/']) := by
  have hnames : ∀ s ∈ names key, '/' ∉ s ∧ s ≠ [] ∧ s ≠ dotSegment := fun s hs =>
    ⟨slash_notMem_names hs, by simpa using (List.mem_filter.1 hs).2⟩
  have hjoined : names (joined (names key)) = names key ∧
      dotdotSegment ∉ segments (joined (names key)) := by
    refine ⟨names_joined hnames, fun hmem => ?_⟩
    have hname : dotdotSegment ∈ names (joined (names key)) := List.mem_filter.2 ⟨hmem, by decide⟩
    rw [names_joined hnames] at hname
    exact hdots (List.mem_of_mem_filter hname)
  cases hroot : isRooted key with
  | true =>
      have htrim : trimPrefix (clean key) ['/'] = joined (names key) := by
        simp [clean_rooted hroot hdots, trimPrefix]
      rwa [htrim]
  | false =>
      rw [clean_relative hroot hdots]
      cases hkey : names key with
      | nil => decide
      | cons first rest =>
          -- the first name does not start with a slash, so nothing is removed
          have hfirst := hnames first (hkey ▸ List.mem_cons_self)
          have hno : ¬ ['/'] <+: joined (first :: rest) := by
            rw [joined_cons]
            cases first with
            | nil => exact absurd rfl hfirst.2.1
            | cons c cs =>
                rintro ⟨tail, htail⟩
                have hc : '/' = c := (List.cons.inj htail).1
                exact hfirst.1 (hc ▸ List.mem_cons_self)
          have htrim : trimPrefix (joined (first :: rest)) ['/'] = joined (first :: rest) :=
            if_neg hno
          rw [if_neg (List.cons_ne_nil _ _), htrim, ← hkey]
          exact hjoined

/-- The path of an accepted key before the last comparison. -/
theorem join_basePath {key : List Char} (hdots : dotdotSegment ∉ segments key) :
    join f.basePath.toList (trimPrefix (clean key) ['/']) =
      f.basePath.toList ++ (names key).flatMap ('/' :: ·) := by
  obtain ⟨hnames, hdots'⟩ := trimPrefix_clean hdots
  obtain ⟨hbase, -⟩ := written_of_clean f.rooted f.cleaned
  have hroot : isRooted (f.basePath.toList ++ '/' :: trimPrefix (clean key) ['/']) = true := by
    rw [hbase]
    rfl
  have hsegs : dotdotSegment ∉
      segments (f.basePath.toList ++ '/' :: trimPrefix (clean key) ['/']) := by
    rw [segments_append_slash, List.mem_append]
    exact fun hmem => hmem.elim dotdot_notMem_basePath hdots'
  calc join f.basePath.toList (trimPrefix (clean key) ['/'])
      = '/' :: joined (names f.basePath.toList ++ names key) := by
        rw [join, clean_rooted hroot hsegs, names_append_slash, hnames]
    _ = '/' :: joined (names f.basePath.toList) ++ (names key).flatMap ('/' :: ·) := by
        rw [joined_append names_ne_nil, List.cons_append]
    _ = f.basePath.toList ++ (names key).flatMap ('/' :: ·) := by rw [← hbase]

/-- The comparison with the base directory never refuses: a list of names stays below it. -/
theorem below_prefix (base : List Char) (segs : List Segment) :
    base ++ ['/'] <+: base ++ segs.flatMap ('/' :: ·) ∨ base ++ segs.flatMap ('/' :: ·) = base := by
  cases segs with
  | nil => exact .inr (by simp)
  | cons s segs =>
      refine .inl ⟨s ++ segs.flatMap ('/' :: ·), ?_⟩
      simp

theorem getFullPath_eq (key : String) :
    f.getFullPath key =
      if dotdotSegment ∈ segments key.toList then none else some (f.below (names key.toList)) := by
  unfold getFullPath
  split
  · rfl
  · rename_i hdots
    have hbelow := below_prefix f.basePath.toList (names key.toList)
    have hpass : ¬(¬ f.basePath.toList ++ ['/'] <+:
          f.basePath.toList ++ (names key.toList).flatMap ('/' :: ·) ∧
        f.basePath.toList ++ (names key.toList).flatMap ('/' :: ·) ≠ f.basePath.toList) := by
      tauto
    simp only [join_basePath hdots, if_neg hpass, below]

theorem below_inj {a b : List Segment} (ha : ∀ s ∈ a, '/' ∉ s) (hb : ∀ s ∈ b, '/' ∉ s) :
    f.below a = f.below b ↔ a = b := by
  constructor
  · intro heq
    obtain ⟨-, hwritten⟩ := written_of_clean f.rooted f.cleaned
    have hflat : a.flatMap ('/' :: ·) = b.flatMap ('/' :: ·) :=
      List.append_cancel_left (String.ofList_inj.1 heq)
    have hfront : ∀ s ∈ names f.basePath.toList, '/' ∉ s := fun s hs => (hwritten s hs).1
    refine List.append_cancel_left (joined_inj (a := names f.basePath.toList ++ a)
      (b := names f.basePath.toList ++ b) ?_ ?_ ?_ ?_ ?_)
    · exact fun s hs => (List.mem_append.1 hs).elim (hfront s) (ha s)
    · exact fun s hs => (List.mem_append.1 hs).elim (hfront s) (hb s)
    · exact fun hnil => names_ne_nil (List.append_eq_nil_iff.1 hnil).1
    · exact fun hnil => names_ne_nil (List.append_eq_nil_iff.1 hnil).1
    · rw [joined_append names_ne_nil, joined_append names_ne_nil, hflat]
  · exact fun heq => by rw [heq]

/-- A key is refused exactly when one of its segments is `..`; otherwise it is kept in the base
directory followed by its names.  So no key leaves the directory, and two accepted keys are kept in
one file exactly when they list the same names. -/
theorem key_confined (f : FilesystemBackend) (key : String) :
    (f.getFullPath key = none ↔ dotdotSegment ∈ segments key.toList) ∧
    (∀ path, f.getFullPath key = some path ↔
      dotdotSegment ∉ segments key.toList ∧ path = f.below (names key.toList)) ∧
    (∀ path, f.getFullPath key = some path →
      path = f.basePath ∨ f.basePath.toList ++ ['/'] <+: path.toList) ∧
    ∀ other path path', f.getFullPath key = some path → f.getFullPath other = some path' →
      (path = path' ↔ names key.toList = names other.toList) := by
  have hsome : ∀ (key path : String), f.getFullPath key = some path ↔
      dotdotSegment ∉ segments key.toList ∧ path = f.below (names key.toList) := by
    intro key path
    rw [getFullPath_eq]
    split
    · rename_i hdots
      simp [hdots]
    · rename_i hdots
      simp [hdots, eq_comm]
  refine ⟨?_, hsome key, ?_, ?_⟩
  · rw [getFullPath_eq]
    simp
  · intro path hpath
    obtain ⟨-, rfl⟩ := (hsome key path).1 hpath
    rcases below_prefix f.basePath.toList (names key.toList) with hprefix | hself
    · exact .inr (by rwa [below, String.toList_ofList])
    · exact .inl (by rw [below, hself, String.ofList_toList])
  · intro other path path' hpath hpath'
    obtain ⟨-, rfl⟩ := (hsome key path).1 hpath
    obtain ⟨-, rfl⟩ := (hsome other path').1 hpath'
    exact below_inj (fun s hs => slash_notMem_names hs) fun s hs => slash_notMem_names hs

def certsBackend : FilesystemBackend where
  basePath := "/var/lib/certs"
  rooted := by decide
  cleaned := by decide
  notRoot := by decide

example : certsBackend.getFullPath "/keys//./mx" = some "/var/lib/certs/keys/mx" := by decide

example : certsBackend.getFullPath "challenges/http/../../keys/mx" = none := by decide

end FilesystemBackend
end Storage
end CertsManager
