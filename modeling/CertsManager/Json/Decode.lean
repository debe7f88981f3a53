import CertsManager.Json.Text

/-!
# Decode — JSON values into Go's types

What `json.Unmarshal` makes of a value once its text has been found to be JSON: a value of the wrong
kind for a field is remembered as an error and left out, the other fields are set all the same;
`null` sets nothing; unknown members are ignored; names are compared without regard to case.

A Go string is any sequence of bytes.  It is kept here as what ranging over it yields, characters
and bytes that are part of none, since the latter do not survive being written.
-/

namespace CertsManager
namespace Json

/-! ## Strings -/

inductive GoChar where
  | char (c : Char)
  | invalid (byte : UInt8)
  deriving DecidableEq, Repr

abbrev GoString := List GoChar

def GoChar.written : GoChar → Char
  | .char c => c
  | .invalid _ => replacement

/-- The characters `json.Marshal` writes for a string. -/
def GoString.written (s : GoString) : Text :=
  s.map GoChar.written

def GoString.ofText (t : Text) : GoString :=
  t.map .char

/-- Valid UTF-8. -/
def GoString.Valid (s : GoString) : Prop :=
  ∀ x ∈ s, ∃ c, x = GoChar.char c

theorem GoString.ofText_written {s : GoString} (hs : s.Valid) : ofText s.written = s := by
  induction s with
  | nil => rfl
  | cons x s ih =>
      obtain ⟨⟨c, rfl⟩, hrest⟩ := List.forall_mem_cons.1 hs
      exact congrArg (GoChar.char c :: ·) (ih hrest)

theorem GoString.ofText_valid (t : Text) : (ofText t).Valid := by
  intro x hx
  obtain ⟨c, -, rfl⟩ := List.mem_map.1 hx
  exact ⟨c, rfl⟩

/-! ## Values of fields

Each setter returns what the field holds afterwards and whether the value was of the wrong kind. -/

/-- A slice of Go, `none` for nil. -/
abbrev Slice (α : Type) := Option (List α)

def Slice.list {α : Type} (s : Slice α) : List α :=
  s.getD []

/-- A string, in whatever form the caller keeps strings. -/
def setString {α : Type} (of : Text → α) (v : Value) (old : α) : α × Bool :=
  match v with
  | .str s => (of s, false)
  | .null => (old, false)
  | _ => (old, true)

def decimal (t : Text) : Option Nat :=
  if t ≠ [] ∧ t.all Char.isDigit then some (Nat.ofDigitChars 10 t 0) else none

def integer : Text → Option Int
  | '-' :: t => (decimal t).map fun n => -(n : Int)
  | t => (decimal t).map fun n => (n : Int)

/-- `strconv.ParseInt(literal, 10, 64)`. -/
def parseInt64 (literal : Text) : Option Int64 :=
  match integer literal with
  | some n => if -2 ^ 63 ≤ n ∧ n < 2 ^ 63 then some (Int64.ofInt n) else none
  | none => none

def setInt64 (v : Value) (old : Int64) : Int64 × Bool :=
  match v with
  | .num literal =>
      match parseInt64 literal with
      | some n => (n, false)
      | none => (old, true)
  | .null => (old, false)
  | _ => (old, true)

/-- A slice from an array, each item by `item`. -/
def setSlice {α : Type} (item : Value → α × Bool) (v : Value) (old : Slice α) : Slice α × Bool :=
  match v with
  | .arr items => (some (items.map fun v => (item v).1), items.any fun v => (item v).2)
  | .null => (none, false)
  | _ => (old, true)

/-- The first letter of the class of letters that differ in case only. -/
def foldChar (c : Char) : Char :=
  if c.toNat = 0x17F then 'S' else if c.toNat = 0x212A then 'K' else c.toUpper

def isField (name : String) (key : Text) : Bool :=
  key = name.toList || key.map foldChar = name.toList.map foldChar

def setMember {σ : Type} (assign : Text → Value → σ → σ × Bool) (s : σ × Bool)
    (m : Text × Value) : σ × Bool :=
  ((assign m.1 m.2 s.1).1, s.2 || (assign m.1 m.2 s.1).2)

/-- A struct from an object, member by member. -/
def setStruct {σ : Type} (assign : Text → Value → σ → σ × Bool) (v : Value) (old : σ) : σ × Bool :=
  match v with
  | .obj members =>
      members.foldl (setMember assign) (old, false)
  | .null => (old, false)
  | _ => (old, true)

inductive UnmarshalError where
  | invalid
  | wrongType
  deriving DecidableEq, Repr

/-- `json.Unmarshal` of a text into a variable, given how a value is set. -/
def unmarshal {σ : Type} (set : Value → σ × Bool) (raw : Text) : Except UnmarshalError σ :=
  match parse raw with
  | none => .error .invalid
  | some v => if (set v).2 then .error .wrongType else .ok (set v).1

theorem unmarshal_render_append {σ : Type} (set : Value → σ × Bool) {v : Value} (hv : Written v)
    (blanks : Text) (hblanks : ∀ c ∈ blanks, isBlank c = true) :
    unmarshal set (render v ++ blanks) =
      if (set v).2 then .error .wrongType else .ok (set v).1 := by
  simp [unmarshal, parse_render hv blanks hblanks]

theorem unmarshal_render {σ : Type} (set : Value → σ × Bool) {v : Value} (hv : Written v) :
    unmarshal set (render v) = if (set v).2 then .error .wrongType else .ok (set v).1 := by
  rw [← unmarshal_render_append set hv [] (by simp), List.append_nil]

/-! ## Integers -/

theorem decimal_toDigits (n : Nat) : decimal (Nat.toDigits 10 n) = some n := by
  have hall : (Nat.toDigits 10 n).all Char.isDigit = true :=
    List.all_eq_true.2 fun c hc => Nat.isDigit_of_mem_toDigits (by decide) (by decide) hc
  simp [decimal, Nat.toDigits_ne_nil, hall, Nat.ofDigitChars_toDigits]

theorem integer_intText (n : Int) : integer (intText n) = some n := by
  cases n with
  | negSucc n => simp [intText, integer, decimal_toDigits, Int.negSucc_eq]
  | ofNat n =>
      -- a digit is no sign
      have hread := decimal_toDigits n
      rw [intText]
      cases hdigits : Nat.toDigits 10 n with
      | nil => exact absurd hdigits Nat.toDigits_ne_nil
      | cons c t =>
          have hdigit : c.isDigit = true :=
            Nat.isDigit_of_mem_toDigits (b := 10) (n := n) (by decide) (by decide)
              (hdigits ▸ List.mem_cons_self)
          have hc : c ≠ '-' := by
            rintro rfl
            cases hdigit
          rw [hdigits] at hread
          simp [integer, hc, hread]

theorem parseInt64_intText (n : Int64) : parseInt64 (intText n.toInt) = some n := by
  simp only [parseInt64, integer_intText]
  rw [if_pos ⟨n.le_toInt, n.toInt_lt⟩, Int64.ofInt_toInt]

theorem setInt64_intText (n old : Int64) : setInt64 (.num (intText n.toInt)) old = (n, false) := by
  simp only [setInt64, parseInt64_intText]

end Json
end CertsManager
