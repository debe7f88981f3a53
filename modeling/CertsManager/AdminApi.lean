import CertsManager.Json.Decode
import CertsManager.Names
import CertsManager.Objects

/-!
# AdminApi — what a renewal request is reported as

`adminapi/renew.go`: the handler's answer to a renewal (`WriteRenewResult`), and the client that
turns an answer, or the lack of one, into lines and an exit code (`Renew`, `RenewOutcome`,
`RenewTransportFailure`).

Exit code 1 is documented as "nothing was ordered".  It is also what the client returns for every
answer it cannot read, whoever wrote it.
-/

namespace CertsManager
namespace AdminApi

open Json

def statusSuccess : String := "success"
def statusStored : String := "stored"
def statusError : String := "error"

def exitOK : Nat := 0
def exitFailed : Nat := 1
def exitStored : Nat := 2

/-- The JSON body of a renewal response. -/
structure Result where
  status : String
  message : String
  error : String
  renewed : Slice String
  deriving DecidableEq

namespace Result

def zero : Result :=
  ⟨"", "", "", none⟩

def text (s : String) : Value :=
  .str s.toList

/-- A member left out when its string is empty. -/
def unlessEmpty (name s : String) : List (Text × Value) :=
  if s = "" then [] else [(name.toList, text s)]

/-- The result as `json.Marshal` sees it. -/
def value (r : Result) : Value :=
  .obj ([("status".toList, text r.status)] ++ unlessEmpty "message" r.message ++
    unlessEmpty "error" r.error ++
    if r.renewed.list = [] then [] else [("renewed".toList, .arr (r.renewed.list.map text))])

def setText (v : Value) (old : String) : String × Bool :=
  setString String.ofList v old

def assign (key : Text) (v : Value) (r : Result) : Result × Bool :=
  if isField "status" key then
    ({ r with status := (setText v r.status).1 }, (setText v r.status).2)
  else if isField "message" key then
    ({ r with message := (setText v r.message).1 }, (setText v r.message).2)
  else if isField "error" key then
    ({ r with error := (setText v r.error).1 }, (setText v r.error).2)
  else if isField "renewed" key then
    ({ r with renewed := (setSlice (setText · "") v r.renewed).1 },
      (setSlice (setText · "") v r.renewed).2)
  else (r, false)

def set (v : Value) : Result × Bool :=
  setStruct assign v zero

end Result

/-! ## The handler -/

/-- `json.NewEncoder(w).Encode`. -/
def writeJSON (r : Result) : Text :=
  render r.value ++ ['\n']

/-- The answer to a `RenewCertificate` call that returned `renewed` and `err`. -/
def writeRenewResult (domain : String) (renewed : Slice String) (err : Option Err) : Nat × Text :=
  match err with
  | none =>
      (200, writeJSON
        { status := statusSuccess
          message := "Certificate re-issued for " ++ domain ++
            " (persistent key reused — SPKI unchanged)"
          error := ""
          renewed := renewed })
  | some err =>
      if err.is .orderNotPersisted then
        (202, writeJSON
          { status := statusStored, message := "", error := err.text, renewed := some [domain] })
      else
        (500, writeJSON { status := statusError, message := "", error := err.text, renewed := none })

/-! ## The client -/

/-- An error of the HTTP client: its text, and the `Op` of a `*net.OpError` found in it. -/
structure TransportError where
  text : String
  op : Option String
  deriving DecidableEq, Repr

def TransportError.isDial (e : TransportError) : Bool :=
  e.op = some "dial"

def renewTransportFailure (e : TransportError) : List String × Nat :=
  if e.isDial then
    (["✗ Could not reach the service — nothing was ordered",
      "  " ++ e.text,
      "  Check that it is running and the URL is right, then run it again."], exitFailed)
  else
    (["⚠ No answer from the service — the outcome is unknown",
      "  " ++ e.text,
      "  The order may have gone ahead. DO NOT re-run this until the",
      "  certificate listing shows it did not: re-running spends another."], exitStored)

def indent (s : String) : String :=
  "  " ++ s

def renewOutcome (u : Unicode) (httpStatus : Nat) (body : Text) : List String × Nat :=
  if httpStatus = 404 ∨ httpStatus = 501 then
    (["✗ Certificate renewal endpoint not available",
      "  Ensure the service is running with TLS (letsencrypt) enabled"], exitFailed)
  else
    match unmarshal Result.set body with
    | .error _ =>
        (["✗ Certificate renewal failed",
          "  Unreadable response (HTTP " ++ toString httpStatus ++ "): " ++
            u.trimSpace (String.ofList body)], exitFailed)
    | .ok result =>
        if result.status = statusSuccess then
          (["✓ Certificate ordered and stored"] ++
            (if result.message ≠ "" then [indent result.message] else []) ++
            result.renewed.list.map indent ++
            ["  It is in service on this node and in shared storage."], exitOK)
        else if result.status = statusStored then
          (["⚠ Certificate ordered, but NOT written to shared storage"] ++
            (if result.error ≠ "" then [indent result.error] else []) ++
            result.renewed.list.map indent ++
            ["  This node is serving it and retries the write every few minutes.",
             "  DO NOT re-run this: the order is already spent, and another would",
             "  buy a certificate we hold. Fix storage instead, then check the",
             "  certificate listing."], exitStored)
        else
          (["✗ Certificate renewal failed"] ++
            (if result.error ≠ "" then [indent result.error]
             else ["  HTTP " ++ toString httpStatus]) ++
            ["  Check the certificate listing before re-running: if the failure",
             "  came after the CA signed, the order is already spent."], exitFailed)

def renewPreamble (domain : String) : List String :=
  ["Renewing " ++ domain ++ " — this places a NEW order with Let's Encrypt.",
   "Let's Encrypt allows 5 certificates per name per week."]

/-- What became of a request that was sent. -/
inductive Exchange where
  | noAnswer (e : TransportError)
  | cutOff (httpStatus : Nat) (e : TransportError)
  | answered (httpStatus : Nat) (body : Text)

/-- `Renew`, once the request could be made: what is printed and the exit code. -/
def renew (u : Unicode) (domain : String) (x : Exchange) : List String × Nat :=
  let (lines, code) :=
    match x with
    | .noAnswer e => renewTransportFailure e
    | .cutOff _ e => renewTransportFailure e
    | .answered httpStatus body => renewOutcome u httpStatus body
  (renewPreamble domain ++ lines, code)

/-! ## Reading back a result -/

namespace Result

theorem value_written (r : Result) : Written r.value := by
  have hopt : ∀ name s, ∀ m ∈ unlessEmpty name s, Written m.2 := by
    intro name s m hm
    unfold unlessEmpty at hm
    split at hm
    · cases hm
    · cases List.mem_singleton.1 hm
      exact .str _
  refine .obj fun m hm => ?_
  simp only [List.mem_append] at hm
  rcases hm with ((hm | hm) | hm) | hm
  · cases List.mem_singleton.1 hm
    exact .str _
  · exact hopt _ _ m hm
  · exact hopt _ _ m hm
  · split at hm
    · cases hm
    · cases List.mem_singleton.1 hm
      refine .arr fun v hv => ?_
      obtain ⟨s, -, rfl⟩ := List.mem_map.1 hv
      exact .str _

theorem setText_text (s old : String) : setText (text s) old = (s, false) := by
  simp [setText, setString, text]

theorem setSlice_text (l : List String) (old : Slice String) :
    setSlice (setText · "") (.arr (l.map text)) old = (some l, false) := by
  have hitems : (l.map text).map (fun v => (setText v "").1) = l := by
    rw [List.map_map]
    exact (List.map_congr_left fun s _ => congrArg Prod.fst (setText_text s "")).trans (List.map_id l)
  simp only [setSlice, hitems, Prod.mk.injEq, true_and]
  simp [setText_text]

section

variable (r : Result) (s : String)

theorem assign_status : assign "status".toList (text s) r = ({ r with status := s }, false) := by
  rw [assign, if_pos (by decide), setText_text]

theorem assign_message : assign "message".toList (text s) r = ({ r with message := s }, false) := by
  rw [assign, if_neg (by decide), if_pos (by decide), setText_text]

theorem assign_error : assign "error".toList (text s) r = ({ r with error := s }, false) := by
  rw [assign, if_neg (by decide), if_neg (by decide), if_pos (by decide), setText_text]

theorem assign_renewed (l : List String) :
    assign "renewed".toList (.arr (l.map text)) r = ({ r with renewed := some l }, false) := by
  rw [assign, if_neg (by decide), if_neg (by decide), if_neg (by decide), if_pos (by decide),
    setSlice_text]

end

/-- A reader sees an empty list as none. -/
def reread (r : Result) : Result :=
  { r with renewed := if r.renewed.list = [] then none else some r.renewed.list }

/-- A member that is left out is one that would have set what a new result holds. -/
theorem foldl_unlessEmpty {name s : String} {r : Result} (change : String → Result)
    (hassign : assign name.toList (text s) r = (change s, false)) (hempty : change "" = r) :
    (unlessEmpty name s).foldl (setMember assign) (r, false) = (change s, false) := by
  unfold unlessEmpty
  split
  · rename_i hs
    rw [hs, hempty]
    rfl
  · simp only [List.foldl_cons, List.foldl_nil, setMember, hassign, Bool.or_false]

theorem set_value (r : Result) : set r.value = (r.reread, false) := by
  have hmessage := foldl_unlessEmpty (fun s => ⟨r.status, s, "", none⟩)
    (assign_message ⟨r.status, "", "", none⟩ r.message) rfl
  have herror := foldl_unlessEmpty (fun s => ⟨r.status, r.message, s, none⟩)
    (assign_error ⟨r.status, r.message, "", none⟩ r.error) rfl
  simp only [set, value, setStruct, List.foldl_append]
  simp only [List.foldl_cons, List.foldl_nil, setMember, assign_status, Bool.or_false]
  simp only [zero]
  rw [hmessage, herror, reread]
  split
  · rfl
  · simp only [List.foldl_cons, List.foldl_nil, setMember, assign_renewed, Bool.or_false]

end Result

theorem unmarshal_writeJSON (r : Result) : unmarshal Result.set (writeJSON r) = .ok r.reread := by
  have hblank : ∀ c ∈ ['\n'], Json.isBlank c = true := List.forall_mem_singleton.2 rfl
  have hread := unmarshal_render_append Result.set r.value_written ['\n'] hblank
  rwa [r.set_value] at hread

/-! ## The exit code -/

/-- The client can tell from what it got that the order may be spent: it never failed to dial, and
an answer is one of the two that say so. -/
def Exchange.Telling : Exchange → Prop
  | .noAnswer e => e.isDial = false
  | .cutOff _ e => e.isDial = false
  | .answered _ body =>
      ∃ r, unmarshal Result.set body = .ok r ∧ (r.status = statusSuccess ∨ r.status = statusStored)

/-- What can happen to an exchange once the request was delivered and answered with `answer`; an
intermediary may put any other answer in its place, 404 and 501 apart. -/
inductive AfterDelivery (answer : Nat × Text) : Exchange → Prop where
  | arrived : AfterDelivery answer (.answered answer.1 answer.2)
  | noAnswer (e : TransportError) : AfterDelivery answer (.noAnswer e)
  | cutOff (httpStatus : Nat) (e : TransportError) : AfterDelivery answer (.cutOff httpStatus e)
  | replaced {httpStatus : Nat} (body : Text) (h404 : httpStatus ≠ 404) (h501 : httpStatus ≠ 501) :
      AfterDelivery answer (.answered httpStatus body)

theorem renewTransportFailure_code (e : TransportError) :
    (renewTransportFailure e).2 = if e.isDial then exitFailed else exitStored := by
  unfold renewTransportFailure
  split <;> rfl

theorem renewOutcome_code (u : Unicode) {httpStatus : Nat} (body : Text) (h404 : httpStatus ≠ 404)
    (h501 : httpStatus ≠ 501) :
    (renewOutcome u httpStatus body).2 =
      match unmarshal Result.set body with
      | .error _ => exitFailed
      | .ok r =>
          if r.status = statusSuccess then exitOK
          else if r.status = statusStored then exitStored
          else exitFailed := by
  simp only [renewOutcome, h404, h501, or_self, if_false]
  cases unmarshal Result.set body with
  | error e => rfl
  | ok r =>
      simp only
      split
      · rfl
      · split <;> rfl

/-- The answers of the handler to a spent order. -/
theorem writeRenewResult_spent (domain : String) (renewed : Slice String) (err : Option Err)
    (hspent : ∀ e ∈ err, e.is .orderNotPersisted = true) :
    ∃ r, unmarshal Result.set (writeRenewResult domain renewed err).2 = .ok r ∧
      r.status = (if err = none then statusSuccess else statusStored) ∧
      (writeRenewResult domain renewed err).1 ≠ 404 ∧
      (writeRenewResult domain renewed err).1 ≠ 501 := by
  cases err with
  | none => exact ⟨_, unmarshal_writeJSON _, rfl, by simp [writeRenewResult], by simp [writeRenewResult]⟩
  | some e =>
      have hrefused := hspent e rfl
      simp only [writeRenewResult, hrefused, if_true]
      exact ⟨_, unmarshal_writeJSON _, rfl, by decide, by decide⟩

theorem renew_code_iff (u : Unicode) (domain : String) {x : Exchange}
    (hx : ∀ httpStatus body, x = .answered httpStatus body → httpStatus ≠ 404 ∧ httpStatus ≠ 501) :
    ((renew u domain x).2 = exitOK ∨ (renew u domain x).2 = exitStored ↔ x.Telling) ∧
      ((renew u domain x).2 = exitFailed ↔ ¬ x.Telling) := by
  have hfailure : ∀ e : TransportError,
      ((renewTransportFailure e).2 = exitOK ∨ (renewTransportFailure e).2 = exitStored ↔
        e.isDial = false) ∧
      ((renewTransportFailure e).2 = exitFailed ↔ ¬ e.isDial = false) := by
    intro e
    rw [renewTransportFailure_code]
    cases e.isDial <;> decide
  cases x with
  | noAnswer e => exact hfailure e
  | cutOff httpStatus e => exact hfailure e
  | answered httpStatus body =>
      obtain ⟨h404, h501⟩ := hx httpStatus body rfl
      simp only [renew, Exchange.Telling, renewOutcome_code u body h404 h501]
      cases unmarshal Result.set body with
      | error e => simp [exitOK, exitFailed, exitStored]
      | ok r =>
          simp only [Except.ok.injEq, exists_eq_left']
          by_cases hsuccess : r.status = statusSuccess
          · simp [hsuccess, exitOK, exitFailed]
          · by_cases hstored : r.status = statusStored
            · rw [hstored] at hsuccess
              simp [hsuccess, hstored, exitStored, exitFailed]
            · simp [hsuccess, hstored, exitOK, exitStored, exitFailed]

/-- A spent order is reported as one, with 0 or 2, exactly when what the client got tells it; the
handler's own answer always does.  Everything else is reported as nothing ordered. -/
theorem spent_reported (u : Unicode) (domain : String) (renewed : Slice String) (err : Option Err)
    (hspent : ∀ e ∈ err, e.is .orderNotPersisted = true) (x : Exchange)
    (hx : AfterDelivery (writeRenewResult domain renewed err) x) :
    ((renew u domain x).2 = exitOK ∨ (renew u domain x).2 = exitStored ↔ x.Telling) ∧
      ((renew u domain x).2 = exitFailed ↔ ¬ x.Telling) ∧
      (renew u domain (.answered (writeRenewResult domain renewed err).1
        (writeRenewResult domain renewed err).2)).2 = (if err = none then exitOK else exitStored) := by
  obtain ⟨r, hread, hstatus, h404, h501⟩ := writeRenewResult_spent domain renewed err hspent
  have hanswer : ∀ httpStatus body, x = .answered httpStatus body →
      httpStatus ≠ 404 ∧ httpStatus ≠ 501 := by
    intro httpStatus body heq
    cases hx with
    | arrived =>
        cases heq
        exact ⟨h404, h501⟩
    | noAnswer e => cases heq
    | cutOff st e => cases heq
    | replaced body' h404' h501' =>
        cases heq
        exact ⟨h404', h501'⟩
  obtain ⟨htold, hfailed⟩ := renew_code_iff u domain hanswer
  refine ⟨htold, hfailed, ?_⟩
  simp only [renew, renewOutcome_code u _ h404 h501, hread, hstatus]
  by_cases hnone : err = none
  · simp [hnone]
  · have hne : statusStored ≠ statusSuccess := by decide
    simp [hnone, hne]

/-- The write to storage failed, and the connection was lost before the answer came. -/
theorem spent_reported_unanswered :
    (renew .ascii "mx.example.com" (.noAnswer ⟨"EOF", some "read"⟩)).2 = exitOK ∨
      (renew .ascii "mx.example.com" (.noAnswer ⟨"EOF", some "read"⟩)).2 = exitStored := by
  have hspent : ∀ e ∈ some (Err.of .orderNotPersisted), e.is .orderNotPersisted = true := by decide
  have hread : (⟨"EOF", some "read"⟩ : TransportError).isDial = false := by decide
  exact (spent_reported .ascii "mx.example.com" none _ hspent _ (.noAnswer _)).1.2 hread

/-- A gateway's page in place of the answer to a renewal that succeeded. -/
def gatewayTimeout : Exchange :=
  .answered 504 "<html>504 Gateway Time-out</html>".toList

/-- A renewal that ordered, stored and serves a certificate is reported as nothing ordered, by a
page that is not JSON and by JSON without a status alike. -/
theorem spent_reportedFailed :
    AfterDelivery (writeRenewResult "mx.example.com" (some ["mx.example.com"]) none) gatewayTimeout ∧
      (renew .ascii "mx.example.com" gatewayTimeout).2 = exitFailed ∧
      (renew .ascii "mx.example.com" (.answered 502 "\x7b\"message\":\"Bad Gateway\"\x7d".toList)).2 =
        exitFailed := by
  refine ⟨.replaced _ (by decide) (by decide), ?_, ?_⟩
  · decide +kernel
  · decide +kernel

end AdminApi
end CertsManager
