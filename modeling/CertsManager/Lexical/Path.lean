import Mathlib

/-!
# Path — slash-separated names and their lexical cleaning

A path is read as the list of its segments.  `clean` is Go's `filepath.Clean` on a system whose
separator is `/`: repeated slashes and `.` segments go, a `..` segment takes the segment before it
along, and the result of cleaning nothing is `.`.  `join` is `filepath.Join` of two elements of
which the first is not empty.

Nothing here looks at a file system: only the spelling of a path is used.
-/

namespace CertsManager
namespace Lexical

abbrev Segment := List Char

def dotSegment : Segment := ['.']
def dotdotSegment : Segment := ['.', '.']

/-- `strings.Split(path, "/")`. -/
def segments (path : List Char) : List Segment :=
  path.splitOn '/'

/-- `strings.Join(segs, "/")`. -/
def joined (segs : List Segment) : List Char :=
  ['/'].intercalate segs

/-- The segments of a path that name something: neither empty nor `.`. -/
def names (path : List Char) : List Segment :=
  (segments path).filter fun s => s ≠ [] ∧ s ≠ dotSegment

def isRooted (path : List Char) : Bool :=
  path.head? = some '/'

/-- One round of the loop of `filepath.Clean`; `out` is what has been written, last segment first.
A `..` takes back a segment if there is one to take, and is written if the path is not rooted. -/
def cleanStep (rooted : Bool) (out : List Segment) (s : Segment) : List Segment :=
  if s = [] ∨ s = dotSegment then out
  else if s = dotdotSegment then
    match out with
    | [] => if rooted then [] else [s]
    | top :: rest => if top = dotdotSegment then s :: top :: rest else rest
  else s :: out

/-- `filepath.Clean`. -/
def clean (path : List Char) : List Char :=
  if path = [] then dotSegment
  else
    let out := ((segments path).foldl (cleanStep (isRooted path)) []).reverse
    if isRooted path then '/' :: joined out
    else if out = [] then dotSegment
    else joined out

/-- `filepath.Join(dir, name)` for a `dir` that is not empty. -/
def join (dir name : List Char) : List Char :=
  clean (dir ++ '/' :: name)

/-- `strings.TrimPrefix`. -/
def trimPrefix (s p : List Char) : List Char :=
  if p <+: s then s.drop p.length else s

/-! ## Segments -/

theorem segments_append_slash (a b : List Char) :
    segments (a ++ '/' :: b) = segments a ++ segments b :=
  List.splitOnP_append_cons a b (by simp)

theorem names_append_slash (a b : List Char) : names (a ++ '/' :: b) = names a ++ names b := by
  simp [names, segments_append_slash]

theorem segments_joined {segs : List Segment} (hslash : ∀ s ∈ segs, '/' ∉ s) (hne : segs ≠ []) :
    segments (joined segs) = segs :=
  List.splitOn_intercalate '/' hslash hne

/-- No segment holds a slash. -/
theorem slash_notMem_segments (path : List Char) : ∀ s ∈ segments path, '/' ∉ s := by
  induction path with
  | nil => simp [segments]
  | cons c cs ih =>
      simp only [segments, List.splitOn_cons_eq_if_modifyHead] at ih ⊢
      by_cases hslash : c = '/'
      · simpa [hslash] using ih
      · -- the character goes to the front of the first segment of the rest
        simp only [beq_iff_eq, hslash, if_false]
        cases hrest : cs.splitOn '/' with
        | nil => simp
        | cons first rest =>
            rw [hrest] at ih
            simp only [List.modifyHead_cons, List.forall_mem_cons] at ih ⊢
            refine ⟨fun hmem => ?_, ih.2⟩
            rcases List.mem_cons.1 hmem with heq | hmem
            · exact hslash heq.symm
            · exact ih.1 hmem

theorem slash_notMem_names {path : List Char} {s : Segment} (hs : s ∈ names path) : '/' ∉ s :=
  slash_notMem_segments path s (List.mem_of_mem_filter hs)

theorem names_slash_cons (path : List Char) : names ('/' :: path) = names path := by
  have hsplit := names_append_slash [] path
  have hnil : names [] = [] := by decide
  rwa [hnil, List.nil_append, List.nil_append] at hsplit

/-- The names of a path that lists names are these names. -/
theorem names_joined {segs : List Segment}
    (hsegs : ∀ s ∈ segs, '/' ∉ s ∧ s ≠ [] ∧ s ≠ dotSegment) : names (joined segs) = segs := by
  cases segs with
  | nil => decide
  | cons first rest =>
      rw [names, segments_joined (fun s hs => (hsegs s hs).1) (List.cons_ne_nil _ _)]
      exact List.filter_eq_self.2 fun s hs => by simpa using (hsegs s hs).2

/-- Two lists of segments that are written alike are equal. -/
theorem joined_inj {a b : List Segment} (ha : ∀ s ∈ a, '/' ∉ s) (hb : ∀ s ∈ b, '/' ∉ s)
    (hane : a ≠ []) (hbne : b ≠ []) (heq : joined a = joined b) : a = b := by
  calc a = segments (joined a) := (segments_joined ha hane).symm
    _ = segments (joined b) := by rw [heq]
    _ = b := segments_joined hb hbne

theorem joined_cons (first : Segment) (rest : List Segment) :
    joined (first :: rest) = first ++ rest.flatMap ('/' :: ·) := by
  induction rest generalizing first with
  | nil => simp [joined]
  | cons next rest ih =>
      calc joined (first :: next :: rest) = first ++ ['/'] ++ joined (next :: rest) :=
            List.intercalate_cons_cons
        _ = first ++ (next :: rest).flatMap ('/' :: ·) := by simp [ih next]

/-- More segments after those of a path that has some. -/
theorem joined_append {front : List Segment} (hne : front ≠ []) (back : List Segment) :
    joined (front ++ back) = joined front ++ back.flatMap ('/' :: ·) := by
  cases front with
  | nil => exact absurd rfl hne
  | cons first rest => simp [joined_cons]

/-! ## Cleaning -/

/-- Without a `..`, cleaning writes the names of a path in their order. -/
theorem foldl_cleanStep {segs : List Segment} (hdots : dotdotSegment ∉ segs) (rooted : Bool)
    (out : List Segment) :
    segs.foldl (cleanStep rooted) out =
      (segs.filter fun s => s ≠ [] ∧ s ≠ dotSegment).reverse ++ out := by
  induction segs generalizing out with
  | nil => rfl
  | cons s segs ih =>
      have hs : s ≠ dotdotSegment := fun heq => hdots (heq ▸ List.mem_cons_self)
      have hrest := ih (fun hmem => hdots (List.mem_cons_of_mem _ hmem)) (cleanStep rooted out s)
      rw [List.foldl_cons, hrest]
      by_cases hdrop : s = [] ∨ s = dotSegment
      · have hkeep : ¬(s ≠ [] ∧ s ≠ dotSegment) := by tauto
        simp [cleanStep, hdrop, hkeep]
      · have hkeep : s ≠ [] ∧ s ≠ dotSegment := by tauto
        simp [cleanStep, hs, hkeep.1, hkeep.2]

theorem clean_rooted {path : List Char} (hroot : isRooted path = true)
    (hdots : dotdotSegment ∉ segments path) : clean path = '/' :: joined (names path) := by
  have hne : path ≠ [] := by
    rintro rfl
    cases hroot
  simp [clean, hne, hroot, foldl_cleanStep hdots, names]

theorem clean_relative {path : List Char} (hroot : isRooted path = false)
    (hdots : dotdotSegment ∉ segments path) :
    clean path = if names path = [] then dotSegment else joined (names path) := by
  by_cases hne : path = []
  · subst hne
    decide
  · simp [clean, hne, hroot, foldl_cleanStep hdots, names]

/-- What may stand in a rooted path that has been cleaned. -/
def Written (s : Segment) : Prop :=
  '/' ∉ s ∧ s ≠ [] ∧ s ≠ dotSegment ∧ s ≠ dotdotSegment

theorem cleanStep_written {out : List Segment} {s : Segment} (hs : '/' ∉ s)
    (hout : ∀ t ∈ out, Written t) : ∀ t ∈ cleanStep true out s, Written t := by
  unfold cleanStep
  split
  · exact hout
  · rename_i hkeep
    split
    · cases out with
      | nil => simp
      | cons top rest =>
          have htop := (hout top List.mem_cons_self).2.2.2
          simpa [htop] using fun t ht => hout t (List.mem_cons_of_mem _ ht)
    · rename_i hdots
      exact List.forall_mem_cons.2
        ⟨⟨hs, fun h => hkeep (.inl h), fun h => hkeep (.inr h), hdots⟩, hout⟩

theorem foldl_written {segs out : List Segment} (hslash : ∀ s ∈ segs, '/' ∉ s)
    (hout : ∀ t ∈ out, Written t) : ∀ t ∈ segs.foldl (cleanStep true) out, Written t := by
  induction segs generalizing out with
  | nil => exact hout
  | cons s segs ih =>
      exact ih (fun t ht => hslash t (List.mem_cons_of_mem _ ht))
        (cleanStep_written (hslash s List.mem_cons_self) hout)

/-- A rooted path that cleaning leaves alone is the list of its names, none of them `..`. -/
theorem written_of_clean {path : List Char} (hroot : isRooted path = true)
    (hclean : clean path = path) :
    path = '/' :: joined (names path) ∧ ∀ s ∈ names path, Written s := by
  have hne : path ≠ [] := by
    rintro rfl
    cases hroot
  have hwritten : ∀ t ∈ (segments path).foldl (cleanStep true) [], Written t :=
    foldl_written (slash_notMem_segments path) (by simp)
  have hout : path = '/' :: joined ((segments path).foldl (cleanStep true) []).reverse := by
    rw [← hclean]
    nth_rewrite 1 [clean]
    simp [hclean, hne, hroot]
  have hnames : names path = ((segments path).foldl (cleanStep true) []).reverse := by
    conv_lhs => rw [hout]
    rw [names_slash_cons]
    refine names_joined fun s hs => ?_
    have hs' := hwritten s (List.mem_reverse.1 hs)
    exact ⟨hs'.1, hs'.2.1, hs'.2.2.1⟩
  exact ⟨by rw [hnames]; exact hout, fun s hs => hwritten s (by simpa [hnames] using hs)⟩

/-! ## The last segment -/

theorem mem_cleanStep {rooted : Bool} {out : List Segment} {s t : Segment}
    (ht : t ∈ cleanStep rooted out s) : t = s ∨ t ∈ out := by
  unfold cleanStep at ht
  grind

theorem mem_foldl_cleanStep {rooted : Bool} {segs out : List Segment} {t : Segment}
    (ht : t ∈ segs.foldl (cleanStep rooted) out) : t ∈ segs ∨ t ∈ out := by
  induction segs generalizing out with
  | nil => exact .inr ht
  | cons s segs ih =>
      rcases ih ht with htail | hstep
      · exact .inl (List.mem_cons_of_mem _ htail)
      · rcases mem_cleanStep hstep with rfl | hout
        · exact .inl List.mem_cons_self
        · exact .inr hout

theorem segments_of_slash_notMem {s : Segment} (hs : '/' ∉ s) : segments s = [s] := by
  have hslash : ∀ t ∈ [s], '/' ∉ t := by simpa using hs
  simpa [joined] using segments_joined hslash (by simp)

/-- What is appended to a path without a slash goes to its last segment. -/
theorem segments_append_word (base : List Char) :
    ∃ (dirs : List Segment) (stem : Segment), segments base = dirs ++ [stem] ∧
      ∀ word : Segment, '/' ∉ word → segments (base ++ word) = dirs ++ [stem ++ word] := by
  induction base using List.reverseRecOn with
  | nil =>
      refine ⟨[], [], by decide, fun word hword => ?_⟩
      exact segments_of_slash_notMem hword
  | append_singleton base c ih =>
      by_cases hslash : c = '/'
      · -- a slash begins a segment
        have hsegs : ∀ word : Segment, '/' ∉ word →
            segments (base ++ [c] ++ word) = segments base ++ [[] ++ word] := by
          intro word hword
          rw [List.append_assoc, hslash, List.singleton_append, segments_append_slash,
            segments_of_slash_notMem hword, List.nil_append]
        refine ⟨segments base, [], ?_, hsegs⟩
        simpa using hsegs [] (List.not_mem_nil)
      · obtain ⟨dirs, stem, -, hword⟩ := ih
        have hsegs : ∀ word : Segment, '/' ∉ word →
            segments (base ++ [c] ++ word) = dirs ++ [(stem ++ [c]) ++ word] := by
          intro word hnot
          have hcons : '/' ∉ c :: word := by
            simpa [hnot, eq_comm] using hslash
          simpa using hword (c :: word) hcons
        refine ⟨dirs, stem ++ [c], ?_, hsegs⟩
        simpa using hsegs [] (List.not_mem_nil)

/-- A name put under a directory is the last segment of the path, however that is cleaned. -/
theorem getLast?_segments_join (dir : List Char) {name : Segment} (hname : Written name) :
    (segments (join dir name)).getLast? = some name := by
  have hsegs : segments (dir ++ '/' :: name) = segments dir ++ [name] := by
    rw [segments_append_slash, segments_of_slash_notMem hname.1]
  -- the name is the last segment to be written, and nothing takes it back
  have hout : ∀ rooted, ∃ front : List Segment, (∀ s ∈ front ++ [name], '/' ∉ s) ∧
      ((segments (dir ++ '/' :: name)).foldl (cleanStep rooted) []).reverse = front ++ [name] := by
    intro rooted
    refine ⟨((segments dir).foldl (cleanStep rooted) []).reverse, ?_, ?_⟩
    · intro s hs
      rcases List.mem_append.1 hs with hs | hs
      · rcases mem_foldl_cleanStep (List.mem_reverse.1 hs) with hdir | hnil
        · exact slash_notMem_segments dir s hdir
        · cases hnil
      · rw [List.mem_singleton.1 hs]
        exact hname.1
    · rw [hsegs, List.foldl_append]
      simp [cleanStep, hname.2.1, hname.2.2.1, hname.2.2.2]
  have hjoined : ∀ front : List Segment, (∀ s ∈ front ++ [name], '/' ∉ s) →
      (segments (joined (front ++ [name]))).getLast? = some name := by
    intro front hslash
    rw [segments_joined hslash (by simp), List.getLast?_concat]
  obtain ⟨front, hslash, hwritten⟩ := hout (isRooted (dir ++ '/' :: name))
  simp only [join, clean, hwritten]
  split
  · simp at *
  · split
    · rw [show '/' :: joined (front ++ [name]) = [] ++ '/' :: joined (front ++ [name]) from rfl,
        segments_append_slash, List.getLast?_append, hjoined front hslash]
      rfl
    · rw [if_neg (by simp), hjoined front hslash]

end Lexical
end CertsManager
