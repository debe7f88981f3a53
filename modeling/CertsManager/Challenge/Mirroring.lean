import CertsManager.Challenge.Serving

/-!
# Challenge.Mirroring — a registered token is answered everywhere

The other half of what a validation needs.  Once `PutHTTP` has returned, and from a moment on at
which no request for the token is in progress, every node answers one with the key authorisation, as
long as nobody removes the token and storage can be read.  The one exception is the memory of
misses: a node that was asked before there was anything to find goes on refusing, for `tokenMissTTL`
at most (`registration_served`).  That memory cannot grow past its cap, and holds nothing but
well-formed tokens (`misses_bounded`).

`TokenStep` says once what a call can do to one token; every invariant here is argued from it.
-/

namespace CertsManager
namespace Challenge

open Interleave

variable {N T δ : Type} [DecidableEq N] [DecidableEq T] {s : Settings δ} {node : T → N}

/-! ## What a call does to one token -/

def World.http (w : World N δ) (i : N) (token : String) : Option String :=
  (w.node i).http token

def World.missed (w : World N δ) (i : N) (token : String) : Option Time :=
  (w.node i).misses.lookup token

structure TokenStep (s : Settings δ) (token : String) (q : Call δ) (o : Op δ) (w w' : World N δ) :
    Prop where
  clock : w'.clock = w.clock
  http : ∀ i, w'.http i token = w.http i token ∨ w'.http i token = none ∨
    ∃ keyAuth, q = .putHTTP token keyAuth ∧ w'.http i token = some keyAuth
  object : w'.object (s.httpKey token) = w.object (s.httpKey token) ∨ q = .deleteHTTP token ∨
    ∃ keyAuth, q = .putHTTP token keyAuth ∧
      w'.object (s.httpKey token) = some keyAuth.toList
  missed : ∀ i, w'.missed i token = w.missed i token ∨ w'.missed i token = none ∨
    (o = .missNote token ∧ w'.missed i token = some w.clock)

section

variable {token : String} {q : Call δ} {o : Op δ} {w w' : World N δ}

omit [DecidableEq N] in
theorem TokenStep.refl : TokenStep s token q o w w where
  clock := rfl
  http _ := .inl rfl
  object := .inl rfl
  missed _ := .inl rfl

/-- A call that replaces the node's own server. -/
theorem TokenStep.setNode {i : N} {x : Server δ}
    (hhttp : x.http token = w.http i token ∨ x.http token = none ∨
      ∃ keyAuth, q = .putHTTP token keyAuth ∧ x.http token = some keyAuth)
    (hmissed : x.misses.lookup token = w.missed i token ∨ x.misses.lookup token = none ∨
      (o = .missNote token ∧ x.misses.lookup token = some w.clock)) :
    TokenStep s token q o w (w.setNode i x) where
  clock := rfl
  http j := by
    by_cases hj : j = i
    · subst hj
      simpa [World.http, World.setNode] using hhttp
    · exact .inl (by simp [World.http, World.setNode, hj])
  object := .inl rfl
  missed j := by
    by_cases hj : j = i
    · subst hj
      simpa [World.missed, World.setNode] using hmissed
    · exact .inl (by simp [World.missed, World.setNode, hj])

omit [DecidableEq N] in
/-- A call that writes or removes an object. -/
theorem TokenStep.setObject {key : String} {data : Option (List Char)}
    (hobject : key = s.httpKey token → q = .deleteHTTP token ∨
      ∃ keyAuth, q = .putHTTP token keyAuth ∧ data = some keyAuth.toList) :
    TokenStep s token q o w (w.setObject key data) where
  clock := rfl
  http _ := .inl rfl
  object := by
    by_cases hkey : s.httpKey token = key
    · subst hkey
      refine .inr ((hobject rfl).imp_right ?_)
      rintro ⟨keyAuth, hq, rfl⟩
      exact ⟨keyAuth, hq, by simp [World.setObject]⟩
    · exact .inl (by simp [World.setObject, hkey])
  missed _ := .inl rfl

theorem lookup_noteTokenMiss {misses : AList fun _ : String => Time} {noted token : String}
    {now : Time} (hne : token ≠ noted) :
    (noteTokenMiss misses noted now).lookup token = misses.lookup token ∨
      (noteTokenMiss misses noted now).lookup token = none := by
  unfold noteTokenMiss
  rw [AList.lookup_insert_ne hne]
  split
  · exact .inr (AList.lookup_empty token)
  · exact .inl rfl

theorem execAt_token {hist : History δ} (hmay : mayServe s q hist o) {i : N} {a : Answer} {r : Res o}
    (he : execAt i w a o = some (r, w')) (token : String) : TokenStep s token q o w w' := by
  cases o with
  | alpnPut domain cert | alpnDelete domain =>
      cases he
      exact .setNode (.inl rfl) (.inl rfl)
  | alpnGet domain | httpGet other | missRecent other =>
      cases he
      exact .refl
  | httpPut other keyAuth =>
      cases he
      refine .setNode ?_ (.inl rfl)
      by_cases ht : token = other
      · subst ht
        exact .inr (.inr ⟨keyAuth, hmay, by simp⟩)
      · exact .inl (by simp [World.http, ht])
  | httpDelete other =>
      cases he
      refine .setNode ?_ (.inl rfl)
      by_cases ht : token = other
      · subst ht
        exact .inr (.inl (by simp))
      · exact .inl (by simp [World.http, ht])
  | missDelete other =>
      cases he
      refine .setNode (.inl rfl) ?_
      by_cases ht : token = other
      · subst ht
        exact .inr (.inl (by simp))
      · exact .inl (AList.lookup_erase_ne ht)
  | missNote other =>
      cases he
      refine .setNode (.inl rfl) ?_
      by_cases ht : token = other
      · subst ht
        exact .inr (.inr ⟨rfl, by simp [noteTokenMiss]⟩)
      · exact (lookup_noteTokenMiss ht).imp_right .inl
  | putObject key data =>
      rcases writeReply_cases he with rfl | ⟨rfl, -⟩
      · refine .setObject ?_
        rintro rfl
        rcases hmay with ⟨other, keyAuth, rfl, hown, rfl⟩ | ⟨d, cert, rfl, hown, -⟩
        · obtain rfl := httpKey_inj.1 hown
          exact .inr ⟨keyAuth, rfl, rfl⟩
        · exact absurd hown (httpKey_ne_alpnKey token d)
      · exact .refl
  | getObject key =>
      obtain ⟨rfl, -⟩ := getObject_cases he
      exact .refl
  | removeObject key =>
      rcases writeReply_cases he with rfl | ⟨rfl, -⟩
      · refine .setObject ?_
        rintro rfl
        rcases hmay with ⟨other, rfl, hown⟩ | ⟨d, rfl, hown⟩
        · obtain rfl := httpKey_inj.1 hown
          exact .inl rfl
        · exact absurd hown (httpKey_ne_alpnKey token d)
      · exact .refl

end

/-! ## The memory of misses -/

/-- A table of misses an attacker's requests may have filled. -/
def Bounded (misses : AList fun _ : String => Time) : Prop :=
  misses.entries.length ≤ tokenMissCap ∧ ∀ token ∈ misses, validToken token = true

theorem bounded_empty : Bounded ∅ :=
  ⟨Nat.zero_le _, fun token h => absurd h (AList.notMem_empty token)⟩

theorem Bounded.erase {misses : AList fun _ : String => Time} (h : Bounded misses)
    (token : String) : Bounded (misses.erase token) := by
  refine ⟨le_trans ?_ h.1, fun other hother => h.2 other (AList.mem_erase.1 hother).2⟩
  exact (List.kerase_sublist token misses.entries).length_le

theorem Bounded.note {misses : AList fun _ : String => Time} (h : Bounded misses) {token : String}
    (hvalid : validToken token = true) (now : Time) :
    Bounded (noteTokenMiss misses token now) := by
  -- there is room for one more, in the table or in the empty one that replaces it
  have hroom : ∀ m : AList fun _ : String => Time, m.entries.length < tokenMissCap →
      (∀ other ∈ m, validToken other = true) → Bounded (m.insert token now) := by
    intro m hlength hm
    refine ⟨?_, fun other hother => ?_⟩
    · rw [AList.entries_insert, List.length_cons]
      exact le_trans (Nat.succ_le_succ (List.kerase_sublist token m.entries).length_le) hlength
    · rcases (AList.mem_insert m).1 hother with rfl | hother
      · exact hvalid
      · exact hm other hother
  unfold noteTokenMiss
  split
  · exact hroom ∅ (by decide) bounded_empty.2
  · rename_i hfull
    exact hroom misses (Nat.lt_of_not_le hfull) h.2

theorem execAt_bounded {q : Call δ} {hist : History δ} {o : Op δ} {w w' : World N δ}
    (h : ∀ i, Bounded (w.node i).misses) (hmay : mayServe s q hist o) {i : N} {a : Answer}
    {r : Res o} (he : execAt i w a o = some (r, w')) : ∀ i, Bounded (w'.node i).misses := by
  have hset : ∀ x : Server δ, Bounded x.misses → ∀ j, Bounded ((w.setNode i x).node j).misses := by
    intro x hx j
    by_cases hj : j = i
    · subst hj
      simpa [World.setNode] using hx
    · simpa [World.setNode, hj] using h j
  cases o with
  | alpnPut domain cert | alpnDelete domain | httpPut token keyAuth | httpDelete token =>
      cases he
      exact hset _ (h i)
  | alpnGet domain | httpGet token | missRecent token =>
      cases he
      exact h
  | missDelete token =>
      cases he
      exact hset _ ((h i).erase token)
  | missNote token =>
      cases he
      exact hset _ ((h i).note hmay.2.1 w.clock)
  | putObject key data | removeObject key =>
      rcases writeReply_cases he with rfl | ⟨rfl, -⟩
      · exact h
      · exact h
  | getObject key =>
      obtain ⟨rfl, -⟩ := getObject_cases he
      exact h

/-- Whatever tokens strangers invent, and however many nodes and requests there are, in every run
each node's memory of misses holds at most `tokenMissCap` tokens, each of them well formed and so at
most `maxTokenLength` bytes long. -/
theorem misses_bounded (s : Settings δ) (node : T → N) (w : World N δ)
    (hstart : ∀ i, (w.node i).misses = ∅) (as : List (Action T (Call δ) Answer))
    (c : Config (Op δ) Res (World N δ) T (Call δ) (Out δ))
    (hrun : (servers s node).run (Config.idle w) as = some c) (i : N) :
    (c.shared.node i).misses.entries.length ≤ tokenMissCap ∧
      ∀ token ∈ (c.shared.node i).misses, validToken token = true ∧
        token.utf8ByteSize ≤ maxTokenLength := by
  have hinv : ∀ j, Bounded (c.shared.node j).misses := by
    refine (Machine.run_invariant (servers_serving s node) (A := fun _ _ _ => True)
      (I := fun v => ∀ j, Bounded (v.shared.node j).misses) ?_ as (Config.idle w) c
      (Machine.onTrack_idle w) ?_ (Machine.meets_of_all fun _ _ _ => trivial) hrun).1
    · intro v l v' hv hmove _
      cases hmove with
      | start _ => exact hv
      | did _ hmay he => exact execAt_bounded (w := v.shared.pass _) hv hmay he
      | finish _ _ => exact hv
      | crash => exact hv
    · intro j
      simpa [Config.view, Config.idle, hstart j] using bounded_empty
  refine ⟨(hinv i).1, fun token htoken => ?_⟩
  have hvalid := (hinv i).2 token htoken
  refine ⟨hvalid, ?_⟩
  simp only [validToken, Bool.and_eq_true, decide_eq_true_eq] at hvalid
  exact hvalid.1.2

/-- A stranger asks the second node for a token nobody has registered. -/
def stranger : Schedule 2 :=
  ([.start 1 (.serve "/.well-known/acme-challenge/tok")] : Schedule 2) ++
    (List.replicate 4 (.step 1 {}) : Schedule 2)

theorem misses_bounded_stranger :
    ∃ c ∈ (servers twoNodes fun t : Fin 2 => t).run (Config.idle (.new (Fin 2) Char)) stranger,
      "tok" ∈ (c.shared.node 1).misses ∧
        (c.shared.node 1).misses.entries.length ≤ tokenMissCap := by
  have hnoted : ∃ c ∈ (servers twoNodes fun t : Fin 2 => t).run
      (Config.idle (.new (Fin 2) Char)) stranger, "tok" ∈ (c.shared.node 1).misses := by
    decide +kernel
  obtain ⟨c, hrun, htok⟩ := hnoted
  exact ⟨c, hrun, htok, (misses_bounded twoNodes (fun t => t) _ (fun _ => rfl) _ c hrun 1).1⟩

/-! ## A token nobody removes -/

section Token

variable (s) (token keyAuth : String)

/-- The token is not removed, it is registered with one key authorisation only, and a read of it
tells what storage holds. -/
def Undisturbed : ServersLabel T δ → Prop
  | .start _ (.deleteHTTP token') => token' ≠ token
  | .start _ (.putHTTP token' keyAuth') => token' = token → keyAuth' = keyAuth
  | .did _ ⟨.getObject key, .error err⟩ => key = s.httpKey token → err = .notExist
  | _ => True

instance decidableUndisturbed : ∀ l : ServersLabel T δ, Decidable (Undisturbed s token keyAuth l)
  | .start _ (.deleteHTTP token') => inferInstanceAs (Decidable (token' ≠ token))
  | .start _ (.putHTTP token' keyAuth') =>
      inferInstanceAs (Decidable (token' = token → keyAuth' = keyAuth))
  | .start _ (.putALPN _ _) => isTrue trivial
  | .start _ (.deleteALPN _) => isTrue trivial
  | .start _ (.getALPN _) => isTrue trivial
  | .start _ (.serve _) => isTrue trivial
  | .did _ ⟨.getObject key, .error err⟩ =>
      inferInstanceAs (Decidable (key = s.httpKey token → err = .notExist))
  | .did _ ⟨.getObject _, .ok _⟩ => isTrue trivial
  | .did _ ⟨.alpnPut _ _, _⟩ => isTrue trivial
  | .did _ ⟨.alpnDelete _, _⟩ => isTrue trivial
  | .did _ ⟨.alpnGet _, _⟩ => isTrue trivial
  | .did _ ⟨.httpPut _ _, _⟩ => isTrue trivial
  | .did _ ⟨.httpDelete _, _⟩ => isTrue trivial
  | .did _ ⟨.httpGet _, _⟩ => isTrue trivial
  | .did _ ⟨.missDelete _, _⟩ => isTrue trivial
  | .did _ ⟨.missRecent _, _⟩ => isTrue trivial
  | .did _ ⟨.missNote _, _⟩ => isTrue trivial
  | .did _ ⟨.putObject _ _, _⟩ => isTrue trivial
  | .did _ ⟨.removeObject _, _⟩ => isTrue trivial
  | .finish _ _ _ => isTrue trivial
  | .crash _ => isTrue trivial

/-- The request does not remove the token, nor register it with something else. -/
def Keeps (q : Call δ) : Prop :=
  q ≠ .deleteHTTP token ∧ ∀ keyAuth', q = .putHTTP token keyAuth' → keyAuth' = keyAuth

/-- The object that mirrors the token is there. -/
def World.Mirrors (w : World N δ) : Prop :=
  w.object (s.httpKey token) = some keyAuth.toList

/-- Nothing is held for the token but the one key authorisation, and a registration that was told
its write succeeded has left it in storage. -/
structure Steady (v : ServersView N T δ) : Prop where
  http : ∀ i keyAuth', v.shared.http i token = some keyAuth' → keyAuth' = keyAuth
  object : ∀ text, v.shared.object (s.httpKey token) = some text → text = keyAuth.toList
  tasks : ∀ t q h, v.task t = some (q, h) → Keeps token keyAuth q ∧
    (q = .putHTTP token keyAuth →
      ⟨.putObject (s.httpKey token) keyAuth.toList, .ok ()⟩ ∈ h →
        v.shared.Mirrors s token keyAuth)

/-- A reply that tells the key authorisation, if it is about the token. -/
def Tells : Ev (Op δ) Res → Prop
  | ⟨.httpGet token', some keyAuth'⟩ => token' = token → keyAuth' = keyAuth
  | ⟨.getObject key, r⟩ => key = s.httpKey token → r = .ok keyAuth.toList
  | _ => True

/-- The token is mirrored, no node has missed it since then, and none is about to. -/
structure Settled (since : Time) (v : ServersView N T δ) : Prop where
  steady : Steady s token keyAuth v
  mirrors : v.shared.Mirrors s token keyAuth
  missed : ∀ i noted, v.shared.missed i token = some noted → noted ≤ since
  readers : ∀ t h, v.task t = some (.serve (wellKnown ++ token), h) →
    ∀ e ∈ h, Tells s token keyAuth e

/-- How a request for the token ends: with the key authorisation, or refused for a miss that the
node remembers, which it does for `tokenMissTTL` at most. -/
def Served (since : Time) (v : ServersView N T δ) (l : ServersLabel T δ) (v' : ServersView N T δ) :
    Prop :=
  match l with
  | .did _ ⟨.missRecent token', true⟩ => token' = token → v'.shared.clock < since + tokenMissTTL
  | .finish t (.serve path) (.response r) => path = wellKnown ++ token → r = .text keyAuth ∨
      ∃ h, v.task t = some (.serve path, h) ∧ ⟨.missRecent token, true⟩ ∈ h
  | _ => True

end Token

section

variable {token keyAuth : String} {v v' : ServersView N T δ} {l : ServersLabel T δ}

omit [DecidableEq N] in
/-- What is mirrored stays, whatever a request that keeps the token does. -/
theorem TokenStep.mirrors {q : Call δ} {o : Op δ} {w w' : World N δ}
    (h : TokenStep s token q o w w') (hq : Keeps token keyAuth q)
    (hw : w.Mirrors s token keyAuth) : w'.Mirrors s token keyAuth := by
  rcases h.object with hsame | hdelete | ⟨keyAuth', hput, hobject⟩
  · exact hsame.trans hw
  · exact absurd hdelete hq.1
  · rw [hq.2 keyAuth' hput] at hobject
    exact hobject

theorem execAt_putObject_ok {i : N} {a : Answer} {key : String} {data : List Char}
    {w w' : World N δ} (he : execAt i w a (.putObject key data) = some (.ok (), w')) :
    w'.object key = some data := by
  rcases writeReply_cases he with rfl | ⟨-, hr⟩
  · simp [World.setObject]
  · exact absurd rfl hr

theorem steady_move (h : Steady s token keyAuth v)
    (hmove : Move (servers s node) (serving s) v l v') (hl : Undisturbed s token keyAuth l) :
    Steady s token keyAuth v' := by
  have hstep : ∀ {t q hist o a r w}, v.task t = some (q, hist) → mayServe s q hist o →
      exec node v.shared t o a = some (r, w) →
        Keeps token keyAuth q ∧ TokenStep s token q o (v.shared.pass a.elapsed) w := by
    intro t q hist o a r w ht hmay he
    exact ⟨(h.tasks t q hist ht).1, execAt_token (w := v.shared.pass a.elapsed) hmay he token⟩
  refine ⟨?_, ?_, hmove.tasks (J := fun w _ q hist => Keeps token keyAuth q ∧
    (q = .putHTTP token keyAuth →
      ⟨.putObject (s.httpKey token) keyAuth.toList, .ok ()⟩ ∈ hist →
        World.Mirrors s token keyAuth w)) h.tasks ?_ ?_ ?_⟩
  · intro i keyAuth' hget
    cases hmove with
    | start _ => exact h.http i keyAuth' hget
    | did ht hmay he =>
        obtain ⟨hkeeps, htoken⟩ := hstep ht hmay he
        rcases htoken.http i with hsame | hnone | ⟨k, hput, hk⟩
        · exact h.http i keyAuth' (hsame.symm.trans hget)
        · cases hnone.symm.trans hget
        · cases hk.symm.trans hget
          exact hkeeps.2 keyAuth' hput
    | finish _ _ => exact h.http i keyAuth' hget
    | crash => exact h.http i keyAuth' hget
  · intro text hget
    cases hmove with
    | start _ => exact h.object text hget
    | did ht hmay he =>
        obtain ⟨hkeeps, htoken⟩ := hstep ht hmay he
        rcases htoken.object with hsame | hdelete | ⟨k, hput, hk⟩
        · exact h.object text (hsame.symm.trans hget)
        · exact absurd hdelete hkeeps.1
        · rw [hkeeps.2 k hput] at hk
          exact (Option.some.inj (hk.symm.trans hget)).symm
    | finish _ _ => exact h.object text hget
    | crash => exact h.object text hget
  · -- a request that starts keeps the token, by the rule, and has written nothing
    rintro t q rfl
    refine ⟨⟨?_, ?_⟩, by simp⟩
    · rintro rfl
      exact hl rfl
    · rintro keyAuth' rfl
      exact hl rfl
  · intro t q hist o a r w hlabel ht hmay he
    obtain ⟨hkeeps, htoken⟩ := hstep ht hmay he
    refine ⟨hkeeps, fun hq hmem => ?_⟩
    rcases List.mem_cons.1 hmem with heq | hmem
    · cases heq
      exact execAt_putObject_ok (i := node t) (w := v.shared.pass a.elapsed) he
    · exact htoken.mirrors hkeeps ((h.tasks t q hist ht).2 hq hmem)
  · intro t q hist o a r w hlabel ht hmay he u q' hist' hut hu
    obtain ⟨hkeeps, htoken⟩ := hstep ht hmay he
    obtain ⟨hkeeps', hwrote⟩ := h.tasks u q' hist' hu
    exact ⟨hkeeps', fun hq hmem => htoken.mirrors hkeeps (hwrote hq hmem)⟩

/-- Once mirrored, mirrored for good. -/
theorem mirrors_move (h : Steady s token keyAuth v) (hm : v.shared.Mirrors s token keyAuth)
    (hmove : Move (servers s node) (serving s) v l v') : v'.shared.Mirrors s token keyAuth := by
  cases hmove with
  | start _ => exact hm
  | @did t q hist o a r w ht hmay he =>
      have htoken := execAt_token (w := v.shared.pass a.elapsed) hmay he token
      exact htoken.mirrors (h.tasks t q hist ht).1 hm
  | finish _ _ => exact hm
  | crash => exact hm

omit [DecidableEq T] in
/-- What a request for the token is told in a settled cluster. -/
theorem settled_tells {since : Time} (h : Settled s token keyAuth since v) {t : T} {o : Op δ}
    {a : Answer} {r : Res o} {w : World N δ} (he : exec node v.shared t o a = some (r, w))
    (hl : Undisturbed s token keyAuth (.did t ⟨o, r⟩ : ServersLabel T δ)) :
    Tells s token keyAuth ⟨o, r⟩ := by
  cases o with
  | httpGet token' =>
      cases r with
      | none => trivial
      | some keyAuth' =>
          rintro rfl
          have hget : v.shared.http (node t) token' = some keyAuth' :=
            (Prod.mk.inj (Option.some.inj he)).1
          exact h.steady.http (node t) keyAuth' hget
  | getObject key =>
      rintro rfl
      obtain ⟨-, hok, hnone⟩ :=
        getObject_cases (i := node t) (w := v.shared.pass a.elapsed) he
      cases r with
      | ok text => rw [h.steady.object text (hok text rfl)]
      | error err =>
          -- storage has the token, so it cannot have said that there is none
          obtain rfl : err = .notExist := hl rfl
          cases (hnone rfl).symm.trans h.mirrors
  | _ => trivial

theorem settled_move {since : Time} (h : Settled s token keyAuth since v)
    (hmove : Move (servers s node) (serving s) v l v') (hl : Undisturbed s token keyAuth l) :
    Settled s token keyAuth since v' := by
  refine ⟨steady_move h.steady hmove hl, mirrors_move h.steady h.mirrors hmove, ?_, ?_⟩
  · intro i noted hget
    cases hmove with
    | start _ => exact h.missed i noted hget
    | @did t q hist o a r w ht hmay he =>
        have htoken := execAt_token (w := v.shared.pass a.elapsed) hmay he token
        rcases htoken.missed i with hsame | hnone | ⟨rfl, -⟩
        · exact h.missed i noted (hsame.symm.trans hget)
        · cases hnone.symm.trans hget
        · -- a miss is noted right after a failed read, and there was none
          obtain ⟨rfl, -, err, rest, rfl⟩ := hmay
          cases h.readers t _ ht _ List.mem_cons_self rfl
    | finish _ _ => exact h.missed i noted hget
    | crash => exact h.missed i noted hget
  · intro u hist hu
    refine hmove.tasks (J := fun _ _ q hist => q = .serve (wellKnown ++ token) →
      ∀ e ∈ hist, Tells s token keyAuth e) ?_ ?_ ?_ ?_ u _ hist hu rfl
    · rintro t q hist ht rfl
      exact h.readers t hist ht
    · intro t q _ _
      simp
    · rintro t q hist o a r w rfl ht hmay he rfl e hmem
      rcases List.mem_cons.1 hmem with rfl | hmem
      · exact settled_tells h he hl
      · exact h.readers t hist ht e hmem
    · rintro t q hist o a r w - - - - u q' hist' - hu rfl
      exact h.readers u hist' hu

theorem served_move {since : Time} (hback : s.hasBackend = true) (hvalid : validToken token = true)
    (h : Settled s token keyAuth since v) (hmove : Move (servers s node) (serving s) v l v') :
    Served token keyAuth since v l v' := by
  cases hmove with
  | start _ => trivial
  | crash => trivial
  | @did t q hist o a r w ht hmay he =>
      cases o with
      | missRecent token' =>
          cases r with
          | false => trivial
          | true =>
              rintro rfl
              obtain ⟨hrecent, rfl⟩ := Prod.mk.inj (Option.some.inj he)
              have hrecent : recentTokenMiss (v.shared.node (node t)).misses token'
                  (v.shared.clock + a.elapsed) = true := hrecent
              cases hlook : (v.shared.node (node t)).misses.lookup token' with
              | none => simp [recentTokenMiss, hlook] at hrecent
              | some noted =>
                  have hlt : v.shared.clock + a.elapsed < noted + tokenMissTTL := by
                    simpa [recentTokenMiss, hlook] using hrecent
                  exact Nat.lt_of_lt_of_le hlt
                    (Nat.add_le_add_right (h.missed (node t) noted hlook) _)
      | _ => trivial
  | @finish t q hist out ht hdone =>
      cases q with
      | serve path =>
          cases out with
          | response r =>
              rintro rfl
              have hreads := h.readers t hist ht
              cases r with
              | text text =>
                  refine .inl (congrArg Response.text ?_)
                  obtain ⟨token', hpath, -, hread⟩ := hdone
                  obtain rfl : token = token' := by simpa using hpath
                  rcases hread with ⟨rest, rfl⟩ | ⟨rest, rfl⟩
                  · exact hreads _ List.mem_cons_self rfl
                  · have htext := hreads _ List.mem_cons_self rfl
                    exact String.toList_inj.1 (Except.ok.inj htext)
              | notFound =>
                  refine .inr ⟨hist, ht, ?_⟩
                  rcases hdone hback token rfl hvalid with hmiss | ⟨err, herr⟩
                  · exact hmiss
                  · cases hreads _ herr rfl
          | _ => trivial
      | _ => trivial

/-- Misses are noted in the past. -/
def Past (token : String) (v : ServersView N T δ) : Prop :=
  ∀ i noted, v.shared.missed i token = some noted → noted ≤ v.shared.clock

omit [DecidableEq N] [DecidableEq T] in
theorem past_idle {w : World N δ} (hstart : ∀ i, (w.node i).misses = ∅) :
    Past token (Config.idle w : Config (Op δ) Res (World N δ) T (Call δ) (Out δ)).view := by
  intro i noted hget
  have hmissed : (w.node i).misses.lookup token = some noted := hget
  rw [hstart i, AList.lookup_empty] at hmissed
  cases hmissed

theorem past_move (h : Past token v) (hmove : Move (servers s node) (serving s) v l v') :
    Past token v' := by
  intro i noted hget
  cases hmove with
  | start _ => exact h i noted hget
  | @did t q hist o a r w ht hmay he =>
      have htoken := execAt_token (w := v.shared.pass a.elapsed) hmay he token
      have hclock : v.shared.clock ≤ w.clock := by
        rw [htoken.clock]
        exact Nat.le_add_right _ _
      rcases htoken.missed i with hsame | hnone | ⟨-, hnow⟩
      · exact Nat.le_trans (h i noted (hsame.symm.trans hget)) hclock
      · cases hnone.symm.trans hget
      · cases hnow.symm.trans hget
        exact Nat.le_of_eq htoken.clock.symm
  | finish _ _ => exact h i noted hget
  | crash => exact h i noted hget

end

/-- A registration of a well-formed token that has returned without an error, on nodes that share a
backend.  At `c₀` nobody is registering or removing the token and nothing else is held for it; from
then on it is not removed, nor registered with anything else, and storage can be read.  At `c₂`
`PutHTTP` has returned, and at `c₃` no request for the token is in progress. -/
structure Registration (s : Settings δ) (node : T → N) (token keyAuth : String) where
  world : World N δ
  thread : T
  as₀ : List (Action T (Call δ) Answer)
  as₁ : List (Action T (Call δ) Answer)
  as₂ : List (Action T (Call δ) Answer)
  c₀ : Config (Op δ) Res (World N δ) T (Call δ) (Out δ)
  c₁ : Config (Op δ) Res (World N δ) T (Call δ) (Out δ)
  c₂ : Config (Op δ) Res (World N δ) T (Call δ) (Out δ)
  c₃ : Config (Op δ) Res (World N δ) T (Call δ) (Out δ)
  backend : s.hasBackend = true
  valid : validToken token = true
  fresh : ∀ i, (world.node i).misses = ∅
  run₀ : (servers s node).run (Config.idle world) as₀ = some c₀
  free : ∀ u k, c₀.task u = some k → k.req ≠ .deleteHTTP token ∧
    ∀ keyAuth', k.req ≠ .putHTTP token keyAuth'
  http : ∀ i keyAuth', c₀.shared.http i token = some keyAuth' → keyAuth' = keyAuth
  object : ∀ text, c₀.shared.object (s.httpKey token) = some text → text = keyAuth.toList
  run₁ : (servers s node).run c₀ as₁ = some c₁
  rule₁ : (servers s node).Meets (fun _ l _ => Undisturbed s token keyAuth l) c₀ as₁
  put : (servers s node).step c₁ (.finish thread) =
    some (.finish thread (.putHTTP token keyAuth) (.put (.ok ())), c₂)
  run₂ : (servers s node).run c₂ as₂ = some c₃
  rule₂ : (servers s node).Meets (fun _ l _ => Undisturbed s token keyAuth l) c₂ as₂
  quiet : ∀ u k, c₃.task u = some k → k.req ≠ .serve (wellKnown ++ token)

/-- A registration that has returned is served by every node: from the quiet moment `c₃` on, every
request for the token ends with the key authorisation, on whatever node; or it was refused for a
remembered miss, and that happens for less than `tokenMissTTL` after `c₃`. -/
theorem registration_served (s : Settings δ) (node : T → N) (token keyAuth : String)
    (reg : Registration s node token keyAuth) (as : List (Action T (Call δ) Answer))
    (hrule : (servers s node).Meets (fun _ l _ => Undisturbed s token keyAuth l) reg.c₃ as) :
    (servers s node).Meets (Served token keyAuth reg.c₃.shared.clock) reg.c₃ as := by
  have hfollows := servers_serving s node
  have htask : ∀ {c : Config (Op δ) Res (World N δ) T (Call δ) (Out δ)} {u q h},
      c.view.task u = some (q, h) → ∃ k, c.task u = some k ∧ k.req = q := by
    intro c u q h hu
    obtain ⟨k, hk, hkq⟩ := Option.map_eq_some_iff.1 hu
    exact ⟨k, hk, congrArg Prod.fst hkq⟩
  -- before the registration: misses are noted in the past
  obtain ⟨hpast₀, htrack₀⟩ := Machine.run_invariant hfollows (A := fun _ _ _ => True)
    (I := Past token) (fun v l v' hv hmove _ => past_move hv hmove) reg.as₀ _ reg.c₀
    (Machine.onTrack_idle reg.world) (past_idle reg.fresh)
    (Machine.meets_of_all fun _ _ _ => trivial) reg.run₀
  have hsteady₀ : Steady s token keyAuth reg.c₀.view := by
    refine ⟨reg.http, reg.object, fun u q h hu => ?_⟩
    obtain ⟨k, hk, rfl⟩ := htask hu
    obtain ⟨hdelete, hput⟩ := reg.free u k hk
    exact ⟨⟨hdelete, fun keyAuth' h => absurd h (hput keyAuth')⟩, fun h => absurd h (hput keyAuth)⟩
  -- up to its end
  obtain ⟨⟨hsteady₁, hpast₁⟩, htrack₁⟩ := Machine.run_invariant hfollows
    (I := fun v => Steady s token keyAuth v ∧ Past token v)
    (fun v l v' hv hmove hl => ⟨steady_move hv.1 hmove hl, past_move hv.2 hmove⟩) reg.as₁
    reg.c₀ reg.c₁ htrack₀ ⟨hsteady₀, hpast₀⟩ reg.rule₁ reg.run₁
  obtain ⟨hmove, htrack₂⟩ := Machine.step_refines hfollows htrack₁ reg.put
  have hsteady₂ := steady_move hsteady₁ hmove trivial
  have hpast₂ := past_move hpast₁ hmove
  have hmirrors₂ : reg.c₂.view.shared.Mirrors s token keyAuth := by
    refine mirrors_move hsteady₁ ?_ hmove
    generalize reg.c₁.view = v₁ at hmove hsteady₁
    generalize reg.c₂.view = v₂ at hmove
    cases hmove with
    | finish ht hdone => exact (hsteady₁.tasks reg.thread _ _ ht).2 rfl (hdone reg.backend)
  -- until no request is in progress
  obtain ⟨⟨hsteady₃, hmirrors₃, hpast₃⟩, htrack₃⟩ := Machine.run_invariant hfollows
    (I := fun v => Steady s token keyAuth v ∧ v.shared.Mirrors s token keyAuth ∧ Past token v)
    (fun v l v' hv hmove hl => ⟨steady_move hv.1 hmove hl, mirrors_move hv.1 hv.2.1 hmove,
      past_move hv.2.2 hmove⟩) reg.as₂ reg.c₂ reg.c₃ htrack₂ ⟨hsteady₂, hmirrors₂, hpast₂⟩ reg.rule₂
    reg.run₂
  have hsettled : Settled s token keyAuth reg.c₃.shared.clock reg.c₃.view := by
    refine ⟨hsteady₃, hmirrors₃, hpast₃, fun u h hu => ?_⟩
    obtain ⟨k, hk, hreq⟩ := htask hu
    exact absurd hreq (reg.quiet u k hk)
  -- from then on
  refine (Machine.run_meets hfollows (fun v l v' => settled_move) as reg.c₃ htrack₃ hsettled
    hrule).mono ?_
  rintro v l v' ⟨hmove, -, hv, -⟩
  exact served_move reg.backend reg.valid hv hmove

/-- The second node, which was told nothing, answers with what the first one registered. -/
theorem registration_served_relayed :
    ∃ c₁ c₂ l, (servers twoNodes fun t : Fin 2 => t).run (Config.idle (.new (Fin 2) Char))
        registering = some c₁ ∧
      (servers twoNodes fun t : Fin 2 => t).step c₁ (.finish 0) = some (l, c₂) ∧
      (servers twoNodes fun t : Fin 2 => t).Meets (Served "tok" "tok.key" c₂.shared.clock) c₂
        asking ∧
      ((servers twoNodes fun t : Fin 2 => t).run c₂ asking).map (fun c => c.shared.http 1 "tok") =
        some none := by
  refine ⟨_, _, _, rfl, rfl, ?_, by decide +kernel⟩
  let reg : Registration twoNodes (fun t : Fin 2 => t) "tok" "tok.key" :=
    { world := .new (Fin 2) Char, thread := 0, as₀ := [], as₁ := registering, as₂ := []
      c₀ := _, c₁ := _, c₂ := _, c₃ := _, backend := rfl, valid := by decide +kernel
      fresh := fun _ => rfl, run₀ := rfl, free := nofun, http := nofun, object := nofun
      run₁ := rfl, rule₁ := by decide +kernel, put := rfl, run₂ := rfl, rule₂ := trivial
      quiet := by
        intro u k hk
        fin_cases u <;> cases hk }
  exact registration_served twoNodes (fun t => t) "tok" "tok.key" reg asking (by decide +kernel)

end Challenge
end CertsManager
