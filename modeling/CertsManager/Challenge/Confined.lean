import CertsManager.Challenge.Serving
import CertsManager.Paths
import CertsManager.Storage.KeyPath

/-!
# Challenge.Confined — what a request for a token can reach

A token comes straight from the path of a request and becomes a storage key, and anyone may send
one.  `validToken` is what stands between a request and the private keys that lie next to the
challenges: with it, the file a request can make the filesystem backend read is a file of the
directory of HTTP-01 challenges, whatever the path (`serve_confined`).  The prefix the objects are
kept under is any without a ".." in it; with one the backend refuses every key.
-/

namespace CertsManager
namespace Challenge

open Interleave Lexical Storage

/-! ## Tokens as segments -/

theorem isTokenChar_ne {c : Char} (hc : isTokenChar c = true) : c ≠ '/' ∧ c ≠ '.' := by
  constructor
  · rintro rfl
    revert hc
    decide
  · rintro rfl
    revert hc
    decide

/-- A token is one name: it has no slash, and no dot. -/
theorem written_token {token : String} (h : validToken token = true) : Written token.toList := by
  simp only [validToken, Bool.and_eq_true, decide_eq_true_eq, List.all_eq_true] at h
  obtain ⟨⟨hne, -⟩, hchars⟩ := h
  refine ⟨fun hslash => (isTokenChar_ne (hchars _ hslash)).1 rfl, ?_, ?_, ?_⟩
  · intro hnil
    exact hne (String.toList_inj.1 hnil)
  · intro hdot
    have hmem : '.' ∈ token.toList := by simp [hdot, dotSegment]
    exact (isTokenChar_ne (hchars _ hmem)).2 rfl
  · intro hdots
    have hmem : '.' ∈ token.toList := by simp [hdots, dotdotSegment]
    exact (isTokenChar_ne (hchars _ hmem)).2 rfl

/-! ## Directories under a prefix -/

/-- The names of a directory under a prefix: those of the prefix, and a last one that ends in the
directory's own. -/
theorem names_directory (base : List Char) :
    ∃ (dirs : List Segment) (stem : Segment), ∀ dir : Segment, '/' ∉ dir → 2 ≤ dir.length →
      names (base ++ dir) = dirs ++ [stem ++ dir] := by
  obtain ⟨dirs, stem, -, hword⟩ := segments_append_word base
  refine ⟨dirs.filter fun s => s ≠ [] ∧ s ≠ dotSegment, stem, fun dir hslash hlength => ?_⟩
  have hlong : 2 ≤ (stem ++ dir).length := by
    rw [List.length_append]
    exact Nat.le_add_left_of_le hlength
  have hnamed : stem ++ dir ≠ [] ∧ stem ++ dir ≠ dotSegment := by
    constructor
    · intro hnil
      simp [hnil] at hlong
    · intro hdot
      simp [hdot, dotSegment] at hlong
  rw [names, hword dir hslash, List.filter_append]
  simp only [List.filter_singleton, hnamed.1, hnamed.2, ne_eq, not_false_eq_true, and_self,
    decide_true, cond_true]

/-- Two different directories under one prefix have no file in common. -/
theorem directories_apart (base : List Char) {dir dir' : Segment} (rest rest' : List Char)
    (hdir : '/' ∉ dir ∧ 2 ≤ dir.length) (hdir' : '/' ∉ dir' ∧ 2 ≤ dir'.length)
    (hne : dir ≠ dir') :
    names (base ++ dir ++ '/' :: rest) ≠ names (base ++ dir' ++ '/' :: rest') := by
  obtain ⟨dirs, stem, hnames⟩ := names_directory base
  intro heq
  rw [names_append_slash, names_append_slash, hnames dir hdir.1 hdir.2,
    hnames dir' hdir'.1 hdir'.2, List.append_assoc, List.append_assoc] at heq
  have hfirst := (List.cons.inj (List.append_cancel_left heq)).1
  exact hne (List.append_cancel_left hfirst)

section

variable {δ : Type} {s : Settings δ}

theorem httpKey_toList (token : String) :
    (s.httpKey token).toList =
      s.keyPrefix.toList ++ "challenges".toList ++ '/' :: ("http".toList ++ '/' :: token.toList) := by
  simp [Settings.httpKey]

/-- The file of a token, for a prefix that does not climb. -/
theorem getFullPath_httpKey (f : FilesystemBackend)
    (hclimb : dotdotSegment ∉ segments s.keyPrefix.toList) {token : String}
    (hvalid : validToken token = true) :
    f.getFullPath (s.httpKey token) = some (f.below
      (names (s.keyPrefix ++ "challenges").toList ++ ["http".toList, token.toList])) := by
  have htoken := written_token hvalid
  obtain ⟨dirs, stem, hbase, hword⟩ := segments_append_word s.keyPrefix.toList
  have hsegs : segments (s.httpKey token).toList =
      dirs ++ [stem ++ "challenges".toList] ++ ["http".toList, token.toList] := by
    rw [httpKey_toList, segments_append_slash, segments_append_slash,
      hword _ (by decide), segments_of_slash_notMem htoken.1,
      segments_of_slash_notMem (by decide)]
    rfl
  have hdots : dotdotSegment ∉ segments (s.httpKey token).toList := by
    rw [hsegs]
    intro hmem
    rw [hbase] at hclimb
    simp only [List.mem_append, List.mem_cons, List.not_mem_nil, or_false] at hmem hclimb
    rcases hmem with (hdirs | hstem) | hhttp | hself
    · exact hclimb (.inl hdirs)
    · -- the last segment of the prefix is followed by ten letters
      have hlength := congrArg List.length hstem
      rw [List.length_append] at hlength
      have hshort : dotdotSegment.length = 2 := rfl
      have hlong : "challenges".toList.length = 10 := by decide
      omega
    · revert hhttp
      decide
    · exact htoken.2.2.2 hself.symm
  have hnames : names (s.httpKey token).toList =
      names (s.keyPrefix ++ "challenges").toList ++ ["http".toList, token.toList] := by
    have hone : names token.toList = [token.toList] := by
      simp [names, segments_of_slash_notMem htoken.1, htoken.2.1, htoken.2.2.1]
    have hhttp : names "http".toList = ["http".toList] := by decide
    rw [httpKey_toList, names_append_slash, names_append_slash, hone, hhttp, String.toList_append]
    rfl
  rw [FilesystemBackend.getFullPath_eq, if_neg hdots, hnames]

/-- What a request may do: read what the node has in memory, note a miss, and read one file, which
belongs to the directory of HTTP-01 challenges and is neither a certificate nor a key. -/
def Reaches (f : FilesystemBackend) (s : Settings δ) (path : String) : Op δ → Prop
  | .httpGet _ => True
  | .missRecent _ => True
  | .missNote _ => True
  | .getObject key => ∃ token, path = wellKnown ++ token ∧ validToken token = true ∧
      f.getFullPath key = some (f.below
        (names (s.keyPrefix ++ "challenges").toList ++ ["http".toList, token.toList])) ∧
      ∀ domain, f.getFullPath key ≠ f.getFullPath (Paths.chain s.unicode s.keyPrefix domain) ∧
        f.getFullPath key ≠ f.getFullPath (Paths.key s.unicode s.keyPrefix domain) ∧
        f.getFullPath key ≠ f.getFullPath (Paths.nextKey s.unicode s.keyPrefix domain)
  | _ => False

/-- A token's file is no file of another directory. -/
theorem getFullPath_httpKey_ne (f : FilesystemBackend)
    (hclimb : dotdotSegment ∉ segments s.keyPrefix.toList) {token : String}
    (hvalid : validToken token = true) (dir : Segment) (hdir : '/' ∉ dir ∧ 2 ≤ dir.length)
    (hne : dir ≠ "challenges".toList) {key : String} {rest : List Char}
    (hkey : key.toList = s.keyPrefix.toList ++ dir ++ '/' :: rest) :
    f.getFullPath (s.httpKey token) ≠ f.getFullPath key := by
  intro heq
  have hpath := getFullPath_httpKey f hclimb hvalid
  have hpath' := heq.symm.trans hpath
  rw [FilesystemBackend.getFullPath_eq] at hpath hpath'
  split at hpath
  · cases hpath
  · split at hpath'
    · cases hpath'
    · have hsame := (FilesystemBackend.below_inj (fun _ hs => slash_notMem_names hs)
        fun _ hs => slash_notMem_names hs).1 (Option.some.inj (hpath.trans hpath'.symm))
      rw [httpKey_toList, hkey] at hsame
      exact directories_apart s.keyPrefix.toList _ _ ⟨by decide, by decide⟩ hdir hne.symm hsame

/-- Whatever path a stranger sends, the handler makes no call but those that look into memory and,
if the path ends in a token, one read of the token's file in the directory of HTTP-01 challenges;
that file is not the chain, the key or the staged key of any name. -/
theorem serve_confined (f : FilesystemBackend) (s : Settings δ)
    (hclimb : dotdotSegment ∉ segments s.keyPrefix.toList) (path : String) :
    (serve s path).Calls (Reaches f s path) := by
  unfold serve
  split
  · exact .pure _
  · rename_i hwell
    have hpath := wellKnown_append (not_not.1 hwell)
    generalize String.ofList (path.toList.drop wellKnown.toList.length) = token at hpath
    simp only
    split
    · exact .pure _
    · rename_i hvalid
      have hvalid : validToken token = true := by simpa using hvalid
      have hread : Reaches f s path (.getObject (s.httpKey token)) := by
        refine ⟨token, hpath.symm, hvalid, getFullPath_httpKey f hclimb hvalid, fun domain => ?_⟩
        refine ⟨?_, ?_, ?_⟩
        · exact getFullPath_httpKey_ne f hclimb hvalid "certs".toList
            ⟨by decide, by decide⟩ (by decide) (by simp [Paths.chain, Paths.chainDir]; rfl)
        · exact getFullPath_httpKey_ne f hclimb hvalid "keys".toList
            ⟨by decide, by decide⟩ (by decide) (by simp [Paths.key, Paths.keyDir]; rfl)
        · exact getFullPath_httpKey_ne f hclimb hvalid "keys".toList
            ⟨by decide, by decide⟩ (by decide)
            (by simp [Paths.nextKey, Paths.key, Paths.keyDir]; rfl)
      refine (Prog.Calls.perform trivial).bind fun r => ?_
      cases r with
      | some keyAuth => exact .pure _
      | none =>
          simp only
          split
          · refine (Prog.Calls.perform trivial).bind fun recent => ?_
            cases recent with
            | true => exact .pure _
            | false =>
                refine (Prog.Calls.perform hread).bind fun r => ?_
                cases r with
                | ok data => exact .pure _
                | error err => exact (Prog.Calls.perform trivial).bind fun _ => .pure _
          · exact .pure _

end

theorem serve_confined_twoNodes :
    dotdotSegment ∉ segments twoNodes.keyPrefix.toList ∧
      (serve twoNodes (wellKnown ++ "token-1")).Calls
        (Reaches FilesystemBackend.certsBackend twoNodes (wellKnown ++ "token-1")) :=
  ⟨by decide, serve_confined FilesystemBackend.certsBackend twoNodes (by decide) _⟩

end Challenge
end CertsManager
