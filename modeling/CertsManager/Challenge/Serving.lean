import CertsManager.Challenge.Model

/-!
# Challenge.Serving — what a cluster of challenge servers answers

Two questions a CA's validation depends on, over every interleaving of registrations, removals and
requests on any number of nodes.

* Whatever is answered was registered for the very name or token that was asked about
  (`answers_registered`): no request can be given another's key authorisation, and nothing else that
  lies in storage is ever served as one.
* Once a registration has returned, every node answers with it (`registration_served`), except that
  a node that has been asked too early may go on refusing until its memory of that runs out.

`World.Authentic` is the invariant of the first, `Mirrored` and `Settled` are those of the second.
-/

namespace CertsManager
namespace Challenge

open Interleave Pem LocalFile

/-! ## Keys -/

section Keys

variable {δ : Type} {s : Settings δ}

theorem httpKey_inj {a b : String} : s.httpKey a = s.httpKey b ↔ a = b := by
  simp [Settings.httpKey]

theorem alpnKey_inj {a b : String} :
    s.alpnKey a = s.alpnKey b ↔ s.unicode.lower a = s.unicode.lower b := by
  simp [Settings.alpnKey]

theorem alpnKey_lower (d : String) : s.alpnKey (s.unicode.lower d) = s.alpnKey d :=
  alpnKey_inj.2 (Unicode.lower_of_subset (List.Subset.refl _))

theorem httpKey_ne_alpnKey (token d : String) : s.httpKey token ≠ s.alpnKey d := by
  intro heq
  -- the two directories differ in a letter
  simp [Settings.httpKey, Settings.alpnKey, String.append_assoc, ← String.toList_inj] at heq

end Keys

theorem wellKnown_append {path : String} (h : wellKnown.toList <+: path.toList) :
    wellKnown ++ String.ofList (path.toList.drop wellKnown.toList.length) = path := by
  obtain ⟨rest, hrest⟩ := h
  rw [← String.toList_inj, String.toList_append, String.toList_ofList, ← hrest, List.drop_left]

/-! ## The protocol -/

section Protocol

variable {δ : Type} (s : Settings δ)

/-- What a request may do: it registers, writes and removes what it was asked about and nothing
else, and notes a miss only right after a failed read. -/
def mayServe (q : Call δ) (h : History δ) : Op δ → Prop
  | .alpnPut domain cert => ∃ d, q = .putALPN d cert ∧ domain = s.unicode.lower d
  | .httpPut token keyAuth => q = .putHTTP token keyAuth
  | .putObject key data =>
      (∃ token keyAuth, q = .putHTTP token keyAuth ∧ key = s.httpKey token ∧
        data = keyAuth.toList) ∨
      ∃ d cert, q = .putALPN d cert ∧ key = s.alpnKey d ∧
        encodeChallengeCert s.pem s.crypto cert = .ok data
  | .removeObject key =>
      (∃ token, q = .deleteHTTP token ∧ key = s.httpKey token) ∨
      ∃ d, q = .deleteALPN d ∧ key = s.alpnKey d
  | .missNote token =>
      q = .serve (wellKnown ++ token) ∧ validToken token = true ∧
        ∃ err rest, h = ⟨.getObject (s.httpKey token), .error err⟩ :: rest
  | _ => True

/-- How a request may end: with the reply to its last call, or with a reason not to have one. -/
def doneServing (q : Call δ) (h : History δ) (out : Out δ) : Prop :=
  match q, out with
  | .putHTTP token keyAuth, .put (.ok _) =>
      s.hasBackend = true → ⟨.putObject (s.httpKey token) keyAuth.toList, .ok ()⟩ ∈ h
  | .getALPN d, .alpn (some cert) =>
      (∃ rest, h = ⟨.alpnGet (s.unicode.lower d), some cert⟩ :: rest) ∨
      ∃ data rest, h = ⟨.getObject (s.alpnKey d), .ok data⟩ :: rest ∧
        decodeChallengeCert s.pem s.crypto data = .ok cert
  | .serve path, .response (.text text) =>
      ∃ token, path = wellKnown ++ token ∧ validToken token = true ∧
        ((∃ rest, h = ⟨.httpGet token, some text⟩ :: rest) ∨
          ∃ rest, h = ⟨.getObject (s.httpKey token), .ok text.toList⟩ :: rest)
  | .serve path, .response .notFound =>
      s.hasBackend = true → ∀ token, path = wellKnown ++ token → validToken token = true →
        ⟨.missRecent token, true⟩ ∈ h ∨ ∃ err, ⟨.getObject (s.httpKey token), .error err⟩ ∈ h
  | _, _ => True

def serving : Protocol (Op δ) Res (Call δ) (Out δ) where
  may := mayServe s
  done := doneServing s

theorem putALPN_conforms (domain : String) (cert : TokenCertificate δ) :
    (putALPN s domain cert).Conforms (mayServe s (.putALPN domain cert)) [] fun _ _ => True := by
  simp only [putALPN, call, Prog.conforms_bind, Prog.conforms_perform]
  refine ⟨⟨domain, rfl, rfl⟩, fun _ => ?_⟩
  cases hb : s.hasBackend with
  | false => simp
  | true =>
      simp only [if_true]
      cases henc : encodeChallengeCert s.pem s.crypto cert with
      | error err => simp
      | ok data =>
          simp only [Prog.conforms_bind, Prog.conforms_perform]
          refine ⟨.inr ⟨domain, cert, rfl, alpnKey_lower domain, henc⟩, fun r => ?_⟩
          cases r with
          | ok _ => simp
          | error err => exact ⟨trivial, fun _ => trivial⟩

theorem deleteALPN_conforms (domain : String) :
    (deleteALPN s domain).Conforms (mayServe s (.deleteALPN domain)) [] fun _ _ => True := by
  simp only [deleteALPN, removeFromStorage, call, Prog.conforms_bind, Prog.conforms_perform]
  refine ⟨trivial, fun _ => ?_⟩
  split
  · exact ⟨.inr ⟨domain, rfl, alpnKey_lower domain⟩, fun _ => trivial⟩
  · trivial

theorem getALPN_conforms (domain : String) :
    (getALPN s domain).Conforms (mayServe s (.getALPN domain)) [] fun h r =>
      doneServing s (.getALPN domain) h (.alpn r) := by
  simp only [getALPN, call, Prog.conforms_bind, Prog.conforms_perform]
  refine ⟨trivial, fun r => ?_⟩
  cases r with
  | some cert => exact .inl ⟨[], rfl⟩
  | none =>
      simp only
      split
      · simp only [Prog.conforms_bind, Prog.conforms_perform]
        refine ⟨trivial, fun r => ?_⟩
        cases r with
        | error err => trivial
        | ok data =>
            simp only
            cases hdecode : decodeChallengeCert s.pem s.crypto data with
            | error err => trivial
            | ok cert => exact .inr ⟨data, _, by rw [alpnKey_lower], hdecode⟩
      · trivial

theorem putHTTP_conforms (token keyAuth : String) :
    (putHTTP s token keyAuth).Conforms (mayServe s (.putHTTP token keyAuth)) [] fun h r =>
      doneServing s (.putHTTP token keyAuth) h (.put r) := by
  simp only [putHTTP, call, Prog.conforms_bind, Prog.conforms_perform]
  refine ⟨rfl, fun _ => ⟨trivial, fun _ => ?_⟩⟩
  cases hb : s.hasBackend with
  | false =>
      intro hback
      cases hb.symm.trans hback
  | true =>
      simp only [if_true, Prog.conforms_bind, Prog.conforms_perform]
      refine ⟨.inl ⟨token, keyAuth, rfl, rfl, rfl⟩, fun r => ?_⟩
      cases r with
      | ok _ => exact fun _ => List.mem_cons_self
      | error err => exact ⟨trivial, fun _ => trivial⟩

theorem deleteHTTP_conforms (token : String) :
    (deleteHTTP s token).Conforms (mayServe s (.deleteHTTP token)) [] fun _ _ => True := by
  simp only [deleteHTTP, removeFromStorage, call, Prog.conforms_bind, Prog.conforms_perform]
  refine ⟨trivial, fun _ => ?_⟩
  split
  · exact ⟨.inl ⟨token, rfl, rfl⟩, fun _ => trivial⟩
  · trivial

theorem serve_conforms (path : String) :
    (serve s path).Conforms (mayServe s (.serve path)) [] fun h r =>
      doneServing s (.serve path) h (.response r) := by
  unfold serve
  split
  · -- not a challenge path: there is no token to answer for
    rename_i hnot
    rintro - token rfl -
    refine absurd ?_ hnot
    rw [String.toList_append]
    exact List.prefix_append _ _
  · rename_i hprefix
    have hpath := wellKnown_append (not_not.1 hprefix)
    generalize String.ofList (path.toList.drop wellKnown.toList.length) = token at hpath
    subst hpath
    have hsame : ∀ token', wellKnown ++ token = wellKnown ++ token' → token' = token := by
      intro token' h
      simpa [eq_comm] using h
    simp only
    split
    · rename_i hinvalid
      rintro - token' htoken hvalid
      rw [hsame token' htoken] at hvalid
      simp [hvalid] at hinvalid
    · rename_i hvalid
      have hvalid : validToken token = true := by simpa using hvalid
      simp only [call, Prog.conforms_bind, Prog.conforms_perform]
      refine ⟨trivial, fun r => ?_⟩
      cases r with
      | some text => exact ⟨token, rfl, hvalid, .inl ⟨[], rfl⟩⟩
      | none =>
          simp only
          cases hb : s.hasBackend with
          | false =>
              intro hback
              cases hb.symm.trans hback
          | true =>
              simp only [if_true, Prog.conforms_bind, Prog.conforms_perform]
              refine ⟨trivial, fun recent => ?_⟩
              cases recent with
              | true =>
                  intro _ token' htoken _
                  rw [hsame token' htoken]
                  exact .inl List.mem_cons_self
              | false =>
                  simp only [Bool.false_eq_true, if_false, Prog.conforms_bind,
                    Prog.conforms_perform]
                  refine ⟨trivial, fun r => ?_⟩
                  cases r with
                  | ok data =>
                      refine ⟨token, rfl, hvalid, .inr ⟨[⟨.missRecent token, false⟩,
                        ⟨.httpGet token, none⟩], ?_⟩⟩
                      rw [String.toList_ofList]
                  | error err =>
                      refine ⟨⟨rfl, hvalid, err, _, rfl⟩, fun _ => ?_⟩
                      intro _ token' htoken _
                      rw [hsame token' htoken]
                      exact .inr ⟨err, List.mem_cons_of_mem _ List.mem_cons_self⟩

end Protocol

theorem servers_serving {N T δ : Type} [DecidableEq N] (s : Settings δ) (node : T → N) :
    (servers s node).Follows (serving s) := by
  intro q
  cases q with
  | putALPN domain cert =>
      exact Prog.conforms_map.2 ((putALPN_conforms s domain cert).mono fun _ _ _ => trivial)
  | deleteALPN domain =>
      exact Prog.conforms_map.2 ((deleteALPN_conforms s domain).mono fun _ _ _ => trivial)
  | getALPN domain => exact Prog.conforms_map.2 (getALPN_conforms s domain)
  | putHTTP token keyAuth => exact Prog.conforms_map.2 (putHTTP_conforms s token keyAuth)
  | deleteHTTP token =>
      exact Prog.conforms_map.2 ((deleteHTTP_conforms s token).mono fun _ _ _ => trivial)
  | serve path => exact Prog.conforms_map.2 (serve_conforms s path)

/-! ## What is answered was registered -/

section Authentic

variable {N T δ : Type} [DecidableEq N] [DecidableEq T] {s : Settings δ} {node : T → N}

/-- The requests that were made. -/
def asked : ServersLabel T δ → List (Call δ)
  | .start _ q => [q]
  | _ => []

section

variable (s) (noted : List (Call δ))

/-- The token certificate was registered for the domain, in one spelling or another. -/
def ForDomain (domain : String) (cert : TokenCertificate δ) : Prop :=
  ∃ d, s.unicode.lower d = s.unicode.lower domain ∧ .putALPN d cert ∈ noted

/-- The text is a key authorisation that was registered for the token. -/
def ForToken (token : String) (text : List Char) : Prop :=
  ∃ keyAuth, .putHTTP token keyAuth ∈ noted ∧ text = keyAuth.toList

/-- The text is the written form of a token certificate for the domain. -/
def WrittenFor (domain : String) (text : List Char) : Prop :=
  ∃ cert, ForDomain s noted domain cert ∧ encodeChallengeCert s.pem s.crypto cert = .ok text

/-- Everything the servers and storage hold for a challenge was registered for it. -/
structure World.Authentic (w : World N δ) : Prop where
  http : ∀ i token keyAuth, (w.node i).http token = some keyAuth → .putHTTP token keyAuth ∈ noted
  alpn : ∀ i domain cert, (w.node i).alpn domain = some cert → ForDomain s noted domain cert
  httpObject : ∀ token text, w.object (s.httpKey token) = some text → ForToken noted token text
  alpnObject : ∀ domain text, w.object (s.alpnKey domain) = some text →
    WrittenFor s noted domain text

/-- A reply that holds only what was registered. -/
def Honest : Ev (Op δ) Res → Prop
  | ⟨.httpGet token, some keyAuth⟩ => .putHTTP token keyAuth ∈ noted
  | ⟨.alpnGet domain, some cert⟩ => ForDomain s noted domain cert
  | ⟨.getObject key, .ok text⟩ =>
      (∀ token, key = s.httpKey token → ForToken noted token text) ∧
        ∀ domain, key = s.alpnKey domain → WrittenFor s noted domain text
  | _ => True

/-- All is authentic, and so is what each request in progress has seen. -/
structure AuthenticView (v : ServersView N T δ) : Prop where
  world : v.shared.Authentic s noted
  tasks : ∀ t q h, v.task t = some (q, h) → q ∈ noted ∧ ∀ e ∈ h, Honest s noted e

end

/-! What was registered stays registered. -/

section Mono

variable {noted noted' : List (Call δ)} (hsub : noted ⊆ noted')

include hsub

theorem ForDomain.mono {domain : String} {cert : TokenCertificate δ}
    (h : ForDomain s noted domain cert) : ForDomain s noted' domain cert := by
  obtain ⟨d, hd, hmem⟩ := h
  exact ⟨d, hd, hsub hmem⟩

theorem ForToken.mono {token : String} {text : List Char} (h : ForToken noted token text) :
    ForToken noted' token text := by
  obtain ⟨keyAuth, hmem, htext⟩ := h
  exact ⟨keyAuth, hsub hmem, htext⟩

theorem WrittenFor.mono {domain : String} {text : List Char} (h : WrittenFor s noted domain text) :
    WrittenFor s noted' domain text := by
  obtain ⟨cert, hcert, htext⟩ := h
  exact ⟨cert, hcert.mono hsub, htext⟩

theorem Honest.mono {e : Ev (Op δ) Res} (h : Honest s noted e) : Honest s noted' e := by
  obtain ⟨o, r⟩ := e
  cases o with
  | httpGet token =>
      cases r with
      | none => trivial
      | some keyAuth => exact hsub h
  | alpnGet domain =>
      cases r with
      | none => trivial
      | some cert => exact ForDomain.mono hsub h
  | getObject key =>
      cases r with
      | error err => trivial
      | ok text =>
          exact ⟨fun token hkey => (h.1 token hkey).mono hsub,
            fun domain hkey => (h.2 domain hkey).mono hsub⟩
  | _ => trivial

omit [DecidableEq N] in
theorem World.Authentic.mono {w : World N δ} (h : w.Authentic s noted) :
    w.Authentic s noted' where
  http i token keyAuth hget := hsub (h.http i token keyAuth hget)
  alpn i domain cert hget := (h.alpn i domain cert hget).mono hsub
  httpObject token text hget := (h.httpObject token text hget).mono hsub
  alpnObject domain text hget := (h.alpnObject domain text hget).mono hsub

end Mono

/-! What one call does. -/

section Step

variable {noted : List (Call δ)} {w w' : World N δ}

/-- A server is replaced by one that holds nothing new. -/
theorem World.Authentic.setNode (h : w.Authentic s noted) {i : N} {x : Server δ}
    (hhttp : ∀ token keyAuth, x.http token = some keyAuth → .putHTTP token keyAuth ∈ noted)
    (halpn : ∀ domain cert, x.alpn domain = some cert → ForDomain s noted domain cert) :
    (w.setNode i x).Authentic s noted where
  http j token keyAuth hget := by
    by_cases hj : j = i
    · subst hj
      exact hhttp token keyAuth (by simpa [World.setNode] using hget)
    · exact h.http j token keyAuth (by simpa [World.setNode, hj] using hget)
  alpn j domain cert hget := by
    by_cases hj : j = i
    · subst hj
      exact halpn domain cert (by simpa [World.setNode] using hget)
    · exact h.alpn j domain cert (by simpa [World.setNode, hj] using hget)
  httpObject := h.httpObject
  alpnObject := h.alpnObject

omit [DecidableEq N] in
/-- An object is removed, or replaced by one that belongs where it is put. -/
theorem World.Authentic.setObject (h : w.Authentic s noted) {key : String}
    {data : Option (List Char)}
    (hhttp : ∀ token text, key = s.httpKey token → data = some text → ForToken noted token text)
    (halpn : ∀ domain text, key = s.alpnKey domain → data = some text →
      WrittenFor s noted domain text) :
    (w.setObject key data).Authentic s noted where
  http := h.http
  alpn := h.alpn
  httpObject token text hget := by
    by_cases hkey : s.httpKey token = key
    · exact hhttp token text hkey.symm (by simpa [World.setObject, hkey] using hget)
    · exact h.httpObject token text (by simpa [World.setObject, hkey] using hget)
  alpnObject domain text hget := by
    by_cases hkey : s.alpnKey domain = key
    · exact halpn domain text hkey.symm (by simpa [World.setObject, hkey] using hget)
    · exact h.alpnObject domain text (by simpa [World.setObject, hkey] using hget)

omit [DecidableEq N] in
/-- A write takes effect unless it reports a failure. -/
theorem writeReply_cases {a : Answer} {r : Except Err Unit} {w₁ w₂ : World N δ}
    (h : writeReply a w₁ w₂ = some (r, w')) : w' = w₂ ∨ (w' = w₁ ∧ r ≠ .ok ()) := by
  cases ho : a.outcome with
  | ok =>
      have heq : (Except.ok (), w₂) = (r, w') := by simpa [writeReply, ho] using h
      cases heq
      exact .inl rfl
  | fail =>
      have heq : (Except.error (.new a.reason), w₁) = (r, w') := by simpa [writeReply, ho] using h
      cases heq
      exact .inr ⟨rfl, by simp⟩
  | lost =>
      have heq : (Except.error (.new a.reason), w₂) = (r, w') := by simpa [writeReply, ho] using h
      cases heq
      exact .inl rfl
  | conflict => simp [writeReply, ho] at h

/-- A read tells what is there, or nothing. -/
theorem getObject_cases {a : Answer} {i : N} {key : String} {r : Except ReadFault (List Char)}
    (h : execAt i w a (.getObject key) = some (r, w')) :
    w' = w ∧ (∀ text, r = .ok text → w.object key = some text) ∧
      (r = .error .notExist → w.object key = none) := by
  cases ho : a.outcome with
  | ok =>
      cases hobject : w.object key with
      | none =>
          have heq : (Except.error ReadFault.notExist, w) = (r, w') := by
            simpa [execAt, ho, hobject] using h
          cases heq
          simp
      | some data =>
          have heq : (Except.ok data, w) = (r, w') := by simpa [execAt, ho, hobject] using h
          cases heq
          simp
  | _ =>
      have heq : (Except.error (ReadFault.failed false a.reason), w) = (r, w') := by
        simpa [execAt, ho] using h
      cases heq
      simp

/-- One call of a request that was made, wherever it is made. -/
theorem execAt_authentic (h : w.Authentic s noted) {q : Call δ} (hq : q ∈ noted) {hist : History δ}
    {o : Op δ} (hmay : mayServe s q hist o) {i : N} {a : Answer} {r : Res o}
    (he : execAt i w a o = some (r, w')) : w'.Authentic s noted ∧ Honest s noted ⟨o, r⟩ := by
  cases o with
  | alpnPut domain cert =>
      obtain ⟨d, rfl, rfl⟩ := hmay
      cases he
      refine ⟨h.setNode (fun token keyAuth => h.http i token keyAuth) ?_, trivial⟩
      intro domain' cert' hget
      by_cases hd : domain' = s.unicode.lower d
      · obtain rfl : cert = cert' := by simpa [hd] using hget
        refine ⟨d, ?_, hq⟩
        rw [hd, Unicode.lower_of_subset (List.Subset.refl _)]
      · exact h.alpn i domain' cert' (by simpa [hd] using hget)
  | alpnDelete domain =>
      cases he
      refine ⟨h.setNode (fun token keyAuth => h.http i token keyAuth) ?_, trivial⟩
      intro domain' cert' hget
      by_cases hd : domain' = domain
      · simp [hd] at hget
      · exact h.alpn i domain' cert' (by simpa [hd] using hget)
  | alpnGet domain =>
      cases he
      refine ⟨h, ?_⟩
      cases hget : (w.node i).alpn domain with
      | none => trivial
      | some cert => exact h.alpn i domain cert hget
  | httpPut token keyAuth =>
      cases he
      refine ⟨h.setNode ?_ (fun domain cert => h.alpn i domain cert), trivial⟩
      intro token' keyAuth' hget
      by_cases ht : token' = token
      · obtain rfl : keyAuth = keyAuth' := by simpa [ht] using hget
        subst ht
        exact (show q = .putHTTP token' keyAuth from hmay) ▸ hq
      · exact h.http i token' keyAuth' (by simpa [ht] using hget)
  | httpDelete token =>
      cases he
      refine ⟨h.setNode ?_ (fun domain cert => h.alpn i domain cert), trivial⟩
      intro token' keyAuth' hget
      by_cases ht : token' = token
      · simp [ht] at hget
      · exact h.http i token' keyAuth' (by simpa [ht] using hget)
  | httpGet token =>
      cases he
      refine ⟨h, ?_⟩
      cases hget : (w.node i).http token with
      | none => trivial
      | some keyAuth => exact h.http i token keyAuth hget
  | missDelete token | missNote token =>
      cases he
      exact ⟨h.setNode (h.http i) (h.alpn i), trivial⟩
  | missRecent token =>
      cases he
      exact ⟨h, trivial⟩
  | putObject key data =>
      refine ⟨?_, trivial⟩
      rcases writeReply_cases he with rfl | ⟨rfl, -⟩
      · -- what is written belongs to the request's own key, so to no other
        refine h.setObject ?_ ?_
        · rintro token text hkey ⟨⟩
          rcases hmay with ⟨token', keyAuth, rfl, hown, rfl⟩ | ⟨d, cert, rfl, hown, -⟩
          · obtain rfl := httpKey_inj.1 (hown.symm.trans hkey)
            exact ⟨keyAuth, hq, rfl⟩
          · exact absurd (hkey.symm.trans hown) (httpKey_ne_alpnKey token d)
        · rintro domain text hkey ⟨⟩
          rcases hmay with ⟨token', keyAuth, rfl, hown, rfl⟩ | ⟨d, cert, rfl, hown, hencode⟩
          · exact absurd (hown.symm.trans hkey) (httpKey_ne_alpnKey token' domain)
          · exact ⟨cert, ⟨d, alpnKey_inj.1 (hown.symm.trans hkey), hq⟩, hencode⟩
      · exact h
  | getObject key =>
      obtain ⟨rfl, hok, -⟩ := getObject_cases he
      refine ⟨h, ?_⟩
      cases r with
      | error err => trivial
      | ok text =>
          have hobject := hok text rfl
          exact ⟨fun token hkey => h.httpObject token text (hkey ▸ hobject),
            fun domain hkey => h.alpnObject domain text (hkey ▸ hobject)⟩
  | removeObject key =>
      refine ⟨?_, trivial⟩
      rcases writeReply_cases he with rfl | ⟨rfl, -⟩
      · refine h.setObject ?_ ?_
        · rintro token text - ⟨⟩
        · rintro domain text - ⟨⟩
      · exact h

end Step

/-- One move keeps all authentic. -/
theorem authentic_move {noted : List (Call δ)} {v v' : ServersView N T δ} {l : ServersLabel T δ}
    (h : AuthenticView s noted v) (hmove : Move (servers s node) (serving s) v l v') :
    AuthenticView s (asked l ++ noted) v' := by
  have hsub : noted ⊆ asked l ++ noted := List.subset_append_right _ _
  have hseen : ∀ t q hist, v.task t = some (q, hist) →
      q ∈ asked l ++ noted ∧ ∀ e ∈ hist, Honest s (asked l ++ noted) e := by
    intro t q hist ht
    obtain ⟨hq, hhist⟩ := h.tasks t q hist ht
    exact ⟨hsub hq, fun e he => (hhist e he).mono hsub⟩
  -- the shared state passes through the clock's advance, which nothing here reads
  have hcall : ∀ {t q hist o a r w}, v.task t = some (q, hist) → mayServe s q hist o →
      exec node v.shared t o a = some (r, w) →
        w.Authentic s (asked l ++ noted) ∧ Honest s (asked l ++ noted) ⟨o, r⟩ := by
    intro t q hist o a r w ht hmay he
    have hw := h.world.mono hsub
    exact execAt_authentic (w := v.shared.pass a.elapsed)
      ⟨hw.http, hw.alpn, hw.httpObject, hw.alpnObject⟩ (hseen t q hist ht).1 hmay he
  refine ⟨?_, hmove.tasks (J := fun _ _ q hist => q ∈ asked l ++ noted ∧
    ∀ e ∈ hist, Honest s (asked l ++ noted) e) hseen ?_ ?_ ?_⟩
  · cases hmove with
    | start ht => exact h.world.mono hsub
    | did ht hmay he => exact (hcall ht hmay he).1
    | finish ht hdone => exact h.world.mono hsub
    | crash => exact h.world.mono hsub
  · rintro t q rfl
    exact ⟨List.mem_cons_self, by simp⟩
  · intro t q hist o a r w hl ht hmay he
    refine ⟨(hseen t q hist ht).1, ?_⟩
    intro e hmem
    rcases List.mem_cons.1 hmem with rfl | hmem
    · exact (hcall ht hmay he).2
    · exact (hseen t q hist ht).2 e hmem
  · intro t q hist o a r w hl ht hmay he u q' hist' hut hu
    exact hseen u q' hist' hu

/-- An answer to a challenge: the text is a key authorisation registered for the token that was
asked about, the certificate has the leaf and the key of one registered for the domain. -/
def Answered (s : Settings δ) (noted : List (Call δ)) : ServersLabel T δ → Prop
  | .finish _ (.serve path) (.response (.text text)) =>
      ∃ token, path = wellKnown ++ token ∧ validToken token = true ∧
        .putHTTP token text ∈ noted
  | .finish _ (.getALPN domain) (.alpn (some cert)) =>
      ∃ registered, ForDomain s noted domain registered ∧
        cert.certificate.head? = registered.certificate.head? ∧
        cert.privateKey = registered.privateKey
  | _ => True

theorem answered_move (hpem : ∀ type ∈ fileTypes, ∀ bytes, s.pem.RoundTrips ⟨type, [], bytes⟩)
    (hkey : PKCS8RoundTrips s.crypto) {noted : List (Call δ)} {v v' : ServersView N T δ} {l : ServersLabel T δ}
    (h : AuthenticView s noted v) (hmove : Move (servers s node) (serving s) v l v') :
    Answered s noted l := by
  cases hmove with
  | start _ => trivial
  | did _ _ _ => trivial
  | crash => trivial
  | @finish t q hist out ht hdone =>
      obtain ⟨-, hseen⟩ := h.tasks t q hist ht
      cases q with
      | serve path =>
          cases out with
          | response r =>
              cases r with
              | notFound => trivial
              | text text =>
                  obtain ⟨token, rfl, hvalid, ⟨rest, rfl⟩ | ⟨rest, rfl⟩⟩ := hdone
                  · exact ⟨token, rfl, hvalid, hseen _ List.mem_cons_self⟩
                  · obtain ⟨keyAuth, hmem, htext⟩ := (hseen _ List.mem_cons_self).1 token rfl
                    obtain rfl := String.toList_inj.1 htext
                    exact ⟨token, rfl, hvalid, hmem⟩
          | _ => trivial
      | getALPN domain =>
          cases out with
          | alpn cert =>
              cases cert with
              | none => trivial
              | some cert =>
                  rcases hdone with ⟨rest, rfl⟩ | ⟨data, rest, rfl, hdecode⟩
                  · obtain ⟨d, hd, hmem⟩ := hseen _ List.mem_cons_self
                    refine ⟨cert, ⟨d, ?_, hmem⟩, rfl, rfl⟩
                    rw [hd, Unicode.lower_of_subset (List.Subset.refl _)]
                  · obtain ⟨registered, hfor, hencode⟩ :=
                      (hseen _ List.mem_cons_self).2 domain rfl
                    obtain ⟨der, hder, hround⟩ := decode_encode hpem hkey registered data hencode
                    cases hdecode.symm.trans hround
                    exact ⟨registered, hfor, hder.symm, rfl⟩
          | _ => trivial
      | _ => trivial

/-- In every run of a cluster that starts with no challenge in storage or in memory, whatever a
node answers to a challenge was registered for it: the text served at a token's path is a key
authorisation some node was asked to register for that token, and the certificate returned for a
domain has the leaf and the key of one some node was asked to register for that domain. -/
theorem answers_registered
    (hpem : ∀ type ∈ fileTypes, ∀ bytes, s.pem.RoundTrips ⟨type, [], bytes⟩) (hkey : PKCS8RoundTrips s.crypto)
    (w : World N δ) (hnodes : ∀ i, (w.node i).http = (fun _ => none) ∧
      (w.node i).alpn = fun _ => none)
    (hobjects : ∀ name, w.object (s.httpKey name) = none ∧ w.object (s.alpnKey name) = none)
    (as : List (Action T (Call δ) Answer)) :
    (servers s node).MeetsNoting asked (fun noted _ l _ => Answered s noted l) []
      (Config.idle w) as := by
  refine Machine.run_noting (servers_serving s node) (I := AuthenticView s) ?_ as []
    (Config.idle w) (Machine.onTrack_idle w) ?_
  · intro noted v l v' h hmove
    exact ⟨authentic_move h hmove, answered_move hpem hkey h hmove⟩
  · refine ⟨⟨?_, ?_, ?_, ?_⟩, ?_⟩
    · intro i token keyAuth hget
      simp [Config.view, Config.idle, (hnodes i).1] at hget
    · intro i domain cert hget
      simp [Config.view, Config.idle, (hnodes i).2] at hget
    · intro token text hget
      cases (hobjects token).1.symm.trans hget
    · intro domain text hget
      cases (hobjects domain).2.symm.trans hget
    · intro t q hist ht
      cases ht

end Authentic

/-! A cluster of two, where the second node is asked about what the first was told. -/

abbrev Schedule (n : Nat) : Type := List (Action (Fin n) (Call Char) Answer)

/-- A block is two letters: one for its type, and its content. -/
def letters : Codec Char Char where
  encode b := [if b.type = "CERTIFICATE" then 'C' else 'P', b.bytes]
  decode
    | [] => none
    | [_] => none
    | tag :: bytes :: rest =>
        some (⟨if tag = 'C' then "CERTIFICATE" else "PRIVATE KEY", [], bytes⟩, rest)
  decode_shorter {t b rest} h := by
    rcases t with _ | ⟨tag, _ | ⟨bytes, t⟩⟩
    · cases h
    · cases h
    · cases h
      exact Nat.lt_succ_of_lt (Nat.lt_succ_self _)

theorem letters_roundTrips :
    ∀ type ∈ fileTypes, ∀ bytes, letters.RoundTrips ⟨type, [], bytes⟩ := by
  intro type htype bytes rest
  rcases List.mem_pair.1 htype with rfl | rfl
  · rfl
  · rfl

/-- There is one key. -/
def oneKey : KeyCrypto Char where
  parseCertificate _ := .error ""
  marshalPKIXPublicKey _ := .error ""
  sha256Hex _ := ""
  marshalPKCS8PrivateKey key := if key = ⟨7⟩ then .ok '7' else .error ""
  parsePKCS8PrivateKey _ := .ok (.signer ⟨7⟩)
  comparable _ := true
  verifyHostname _ _ := .ok ()
  rfc3339 _ := ""

theorem oneKey_roundTrips : PKCS8RoundTrips oneKey := by
  intro key der hder
  by_cases hkey : key = ⟨7⟩
  · rw [hkey]
    rfl
  · simp [oneKey, hkey] at hder

def twoNodes : Settings Char where
  hasBackend := true
  keyPrefix := "tls/"
  unicode := .ascii
  pem := letters
  crypto := oneKey

/-- The first node is told a key authorisation and a token certificate. -/
def registering : Schedule 2 :=
  ([.start 0 (.putHTTP "tok" "tok.key")] : Schedule 2) ++
    (List.replicate 3 (.step 0 {}) : Schedule 2)

/-- The second node is asked for the key authorisation. -/
def asking : Schedule 2 :=
  ([.start 1 (.serve "/.well-known/acme-challenge/tok")] : Schedule 2) ++
    (List.replicate 3 (.step 1 {}) : Schedule 2) ++ ([.finish 1] : Schedule 2)

/-- The second node is asked for a certificate that the first was told. -/
def handshaking : Schedule 2 :=
  ([.start 0 (.putALPN "MX.example.com" ⟨['c', 'd'], .signer ⟨7⟩⟩)] : Schedule 2) ++
    (List.replicate 2 (.step 0 {}) : Schedule 2) ++
    ([.finish 0, .start 1 (.getALPN "mx.example.com")] : Schedule 2) ++
    (List.replicate 2 (.step 1 {}) : Schedule 2) ++ ([.finish 1] : Schedule 2)

theorem answers_registered_relayed :
    ((servers twoNodes fun t : Fin 2 => t).run (Config.idle (.new (Fin 2) Char))
      (registering ++ .finish 0 :: asking ++ handshaking)).isSome = true ∧
    (servers twoNodes fun t : Fin 2 => t).MeetsNoting asked
      (fun noted _ l _ => Answered twoNodes noted l) [] (Config.idle (.new (Fin 2) Char))
      (registering ++ .finish 0 :: asking ++ handshaking) :=
  ⟨by decide +kernel, answers_registered letters_roundTrips oneKey_roundTrips (.new (Fin 2) Char)
    (fun _ => ⟨rfl, rfl⟩) (fun _ => ⟨rfl, rfl⟩) _⟩

end Challenge
end CertsManager
