import Mathlib

/-!
# Text — JSON as Go's `encoding/json` writes and reads it

A text is read in two stages, tokens and then values, as the grammar of RFC 8259 has them: any text
is either refused or has one value.  A number is kept as its literal, since only the type it is read
into decides whether it fits.

`render` writes without blanks and escapes as `json.Marshal` does.  Reading back what was written
gives the value that was written, for values whose numbers are integers (`parse_render`).
-/

namespace CertsManager
namespace Json

abbrev Text := List Char

inductive Value where
  | null
  | bool (b : Bool)
  | num (literal : Text)
  | str (s : Text)
  | arr (items : List Value)
  | obj (members : List (Text × Value))

inductive Token where
  | lbrace
  | rbrace
  | lbracket
  | rbracket
  | comma
  | colon
  | null
  | bool (b : Bool)
  | num (literal : Text)
  | str (s : Text)
  deriving DecidableEq

/-! ## Writing -/

def hexDigit (n : Nat) : Char :=
  if n < 10 then Char.ofNat (48 + n) else Char.ofNat (87 + n)

/-- `\u` and four hexadecimal digits. -/
def escapeCode (n : Nat) : Text :=
  ['\\', 'u', hexDigit (n / 4096 % 16), hexDigit (n / 256 % 16), hexDigit (n / 16 % 16),
    hexDigit (n % 16)]

/-- The letter of an escape of two characters. -/
def shortEscape : Char → Option Char
  | '"' => some '"'
  | '\\' => some '\\'
  | '\x08' => some 'b'
  | '\x0c' => some 'f'
  | '\n' => some 'n'
  | '\r' => some 'r'
  | '\t' => some 't'
  | _ => none

/-- The characters that are written as codes, those of HTML among them. -/
def byCode (c : Char) : Bool :=
  c.toNat < 32 || c = '<' || c = '>' || c = '&' || c.toNat = 0x2028 || c.toNat = 0x2029

def escapeChar (c : Char) : Text :=
  match shortEscape c with
  | some letter => ['\\', letter]
  | none => if byCode c then escapeCode c.toNat else [c]

def intText : Int → Text
  | .ofNat n => Nat.toDigits 10 n
  | .negSucc n => '-' :: Nat.toDigits 10 (n + 1)

def Token.text : Token → Text
  | .lbrace => ['\x7b']
  | .rbrace => ['\x7d']
  | .lbracket => ['[']
  | .rbracket => [']']
  | .comma => [',']
  | .colon => [':']
  | .null => ['n', 'u', 'l', 'l']
  | .bool true => ['t', 'r', 'u', 'e']
  | .bool false => ['f', 'a', 'l', 's', 'e']
  | .num literal => literal
  | .str s => '"' :: (s.flatMap escapeChar ++ ['"'])

mutual

def tokens : Value → List Token
  | .null => [.null]
  | .bool b => [.bool b]
  | .num literal => [.num literal]
  | .str s => [.str s]
  | .arr items => .lbracket :: tokensItems items
  | .obj members => .lbrace :: tokensMembers members

/-- The items of an array and its closing bracket. -/
def tokensItems : List Value → List Token
  | [] => [.rbracket]
  | [v] => tokens v ++ [.rbracket]
  | v :: vs => tokens v ++ .comma :: tokensItems vs

/-- The members of an object and its closing brace. -/
def tokensMembers : List (Text × Value) → List Token
  | [] => [.rbrace]
  | [(k, v)] => .str k :: .colon :: (tokens v ++ [.rbrace])
  | (k, v) :: ms => .str k :: .colon :: (tokens v ++ .comma :: tokensMembers ms)

end

def render (v : Value) : Text :=
  (tokens v).flatMap Token.text

/-! ## Reading tokens -/

def isBlank (c : Char) : Bool :=
  c = ' ' || c = '\t' || c = '\n' || c = '\r'

def hexValue (c : Char) : Option Nat :=
  if '0' ≤ c ∧ c ≤ '9' then some (c.toNat - 48)
  else if 'a' ≤ c ∧ c ≤ 'f' then some (c.toNat - 87)
  else if 'A' ≤ c ∧ c ≤ 'F' then some (c.toNat - 55)
  else none

def hexCode (a b c d : Char) : Option Nat := do
  let a ← hexValue a
  let b ← hexValue b
  let c ← hexValue c
  let d ← hexValue d
  return ((a * 16 + b) * 16 + c) * 16 + d

/-- What stands after a backslash, other than `u`. -/
def unescape : Char → Option Char
  | '"' => some '"'
  | '\\' => some '\\'
  | '/' => some '/'
  | 'b' => some '\x08'
  | 'f' => some '\x0c'
  | 'n' => some '\n'
  | 'r' => some '\r'
  | 't' => some '\t'
  | _ => none

def isHigh (n : Nat) : Bool := 0xD800 ≤ n && n < 0xDC00
def isLow (n : Nat) : Bool := 0xDC00 ≤ n && n < 0xE000

def replacement : Char := Char.ofNat 0xFFFD

/-- A string as it is written: characters, and the codes of `\u` escapes. -/
inductive Piece where
  | char (c : Char)
  | code (n : Nat)

/-- The rest of a string after its opening quote. -/
def stringBody : Text → Option (List Piece × Text)
  | '"' :: rest => some ([], rest)
  | '\\' :: 'u' :: a :: b :: c :: d :: rest => do
      let n ← hexCode a b c d
      let (s, rest) ← stringBody rest
      return (.code n :: s, rest)
  | '\\' :: c :: rest => do
      let c ← unescape c
      let (s, rest) ← stringBody rest
      return (.char c :: s, rest)
  | c :: rest =>
      if c.toNat < 32 ∨ c = '\\' then none
      else do
        let (s, rest) ← stringBody rest
        return (.char c :: s, rest)
  | [] => none

def ofCode (n : Nat) : Char :=
  if isHigh n || isLow n then replacement else Char.ofNat n

/-- The characters of a string.  Half of a surrogate pair without the other is read as the
replacement character. -/
def ofPieces : List Piece → Text
  | .code n :: .code m :: rest =>
      if isHigh n && isLow m then
        Char.ofNat (0x10000 + (n - 0xD800) * 0x400 + (m - 0xDC00)) :: ofPieces rest
      else ofCode n :: ofPieces (.code m :: rest)
  | .code n :: rest => ofCode n :: ofPieces rest
  | .char c :: rest => c :: ofPieces rest
  | [] => []

/-- Decimal digits, at least one. -/
def digits (t : Text) : Option (Text × Text) :=
  let ds := t.takeWhile Char.isDigit
  if ds = [] then none else some (ds, t.dropWhile Char.isDigit)

def signPart : Text → Text × Text
  | '-' :: rest => (['-'], rest)
  | t => ([], t)

/-- No digit follows a leading zero. -/
def intPart : Text → Option (Text × Text)
  | '0' :: rest => some (['0'], rest)
  | t => digits t

def fracPart : Text → Option (Text × Text)
  | '.' :: rest => (digits rest).map fun (ds, rest) => ('.' :: ds, rest)
  | t => some ([], t)

def expPart : Text → Option (Text × Text)
  | c :: rest =>
      if c = 'e' ∨ c = 'E' then
        match rest with
        | '+' :: rest => (digits rest).map fun (ds, rest) => (c :: '+' :: ds, rest)
        | '-' :: rest => (digits rest).map fun (ds, rest) => (c :: '-' :: ds, rest)
        | rest => (digits rest).map fun (ds, rest) => (c :: ds, rest)
      else some ([], c :: rest)
  | [] => some ([], [])

def number (t : Text) : Option (Text × Text) := do
  let (sign, t) := signPart t
  let (int, t) ← intPart t
  let (frac, t) ← fracPart t
  let (exp, t) ← expPart t
  return (sign ++ int ++ frac ++ exp, t)

def lexToken : Text → Option (Token × Text)
  | '\x7b' :: rest => some (.lbrace, rest)
  | '\x7d' :: rest => some (.rbrace, rest)
  | '[' :: rest => some (.lbracket, rest)
  | ']' :: rest => some (.rbracket, rest)
  | ',' :: rest => some (.comma, rest)
  | ':' :: rest => some (.colon, rest)
  | 'n' :: 'u' :: 'l' :: 'l' :: rest => some (.null, rest)
  | 't' :: 'r' :: 'u' :: 'e' :: rest => some (.bool true, rest)
  | 'f' :: 'a' :: 'l' :: 's' :: 'e' :: rest => some (.bool false, rest)
  | '"' :: rest => (stringBody rest).map fun (s, rest) => (.str (ofPieces s), rest)
  | t => (number t).map fun (literal, rest) => (.num literal, rest)

/-- The tokens of a text; each takes a character, so the length is enough fuel. -/
def lex : Nat → Text → Option (List Token)
  | 0, t => if t.all isBlank then some [] else none
  | n + 1, t =>
      match t.dropWhile isBlank with
      | [] => some []
      | c :: t => do
          let (token, rest) ← lexToken (c :: t)
          let tokens ← lex n rest
          return token :: tokens

/-! ## Reading values -/

mutual

def parseValue : Nat → List Token → Option (Value × List Token)
  | 0, _ => none
  | _ + 1, .null :: rest => some (.null, rest)
  | _ + 1, .bool b :: rest => some (.bool b, rest)
  | _ + 1, .num literal :: rest => some (.num literal, rest)
  | _ + 1, .str s :: rest => some (.str s, rest)
  | n + 1, .lbracket :: rest =>
      match rest with
      | .rbracket :: rest => some (.arr [], rest)
      | rest => (parseItems n rest).map fun (vs, rest) => (.arr vs, rest)
  | n + 1, .lbrace :: rest =>
      match rest with
      | .rbrace :: rest => some (.obj [], rest)
      | rest => (parseMembers n rest).map fun (ms, rest) => (.obj ms, rest)
  | _ + 1, _ => none

def parseItems : Nat → List Token → Option (List Value × List Token)
  | 0, _ => none
  | n + 1, ts =>
      match parseValue n ts with
      | some (v, .comma :: rest) => (parseItems n rest).map fun (vs, rest) => (v :: vs, rest)
      | some (v, .rbracket :: rest) => some ([v], rest)
      | _ => none

def parseMembers : Nat → List Token → Option (List (Text × Value) × List Token)
  | n + 1, .str k :: .colon :: ts =>
      match parseValue n ts with
      | some (v, .comma :: rest) => (parseMembers n rest).map fun (ms, rest) => ((k, v) :: ms, rest)
      | some (v, .rbrace :: rest) => some ([(k, v)], rest)
      | _ => none
  | _, _ => none

end

/-- The value of a text, if it has one. -/
def parse (t : Text) : Option Value :=
  match lex t.length t with
  | none => none
  | some ts =>
      match parseValue ts.length ts with
      | some (v, []) => some v
      | _ => none

/-! ## Reading back a string -/

/-- How a character is written. -/
def pieceOf (c : Char) : Piece :=
  if shortEscape c = none ∧ byCode c = true then .code c.toNat else .char c

theorem hexValue_hexDigit {n : Nat} (hn : n < 16) : hexValue (hexDigit n) = some n := by
  revert n
  decide

theorem hexCode_escapeCode {n : Nat} (hn : n < 0x10000) :
    hexCode (hexDigit (n / 4096 % 16)) (hexDigit (n / 256 % 16)) (hexDigit (n / 16 % 16))
      (hexDigit (n % 16)) = some n := by
  have hdigit : ∀ k : Nat, hexValue (hexDigit (k % 16)) = some (k % 16) := fun k =>
    hexValue_hexDigit (Nat.mod_lt _ (by decide))
  simp only [hexCode, hdigit, Option.bind_eq_bind, Option.bind_some, Option.pure_def,
    Option.some.injEq]
  omega

theorem unescape_shortEscape {c letter : Char} (h : shortEscape c = some letter) :
    unescape letter = some c ∧ letter ≠ 'u' := by
  unfold shortEscape at h
  split at h <;> cases h <;> exact ⟨rfl, by decide⟩

theorem toNat_lt_of_byCode {c : Char} (h : byCode c = true) : c.toNat < 0x3000 := by
  simp only [byCode, Bool.or_eq_true, decide_eq_true_eq] at h
  rcases h with ((((h | rfl) | rfl) | rfl) | h) | h
  · omega
  · decide
  · decide
  · decide
  · omega
  · omega

/-- A character that closes no string and starts no escape is read as it is. -/
theorem stringBody_cons {c : Char} (t : Text) (hquote : c ≠ '"') (hslash : c ≠ '\\')
    (hlow : ¬ c.toNat < 32) :
    stringBody (c :: t) = (stringBody t).map fun (s, rest) => (.char c :: s, rest) := by
  rw [stringBody.eq_4 c t hquote (fun _ _ _ _ _ h _ => hslash h) (fun _ _ h _ => hslash h),
    if_neg (not_or.2 ⟨hlow, hslash⟩)]
  cases stringBody t <;> rfl

/-- A character reads back as the piece it was written as. -/
theorem stringBody_escapeChar (c : Char) (t : Text) :
    stringBody (escapeChar c ++ t) =
      (stringBody t).map fun (s, rest) => (pieceOf c :: s, rest) := by
  cases hshort : shortEscape c with
  | some letter =>
      obtain ⟨hletter, hu⟩ := unescape_shortEscape hshort
      cases ht : stringBody t <;> simp [escapeChar, pieceOf, hshort, stringBody, hletter, hu, ht]
  | none =>
      by_cases hcode : byCode c = true
      · have hsmall := toNat_lt_of_byCode hcode
        have hback := hexCode_escapeCode (n := c.toNat) (by omega)
        cases ht : stringBody t <;>
          simp [escapeChar, pieceOf, hshort, hcode, escapeCode, stringBody, hback, ht]
      · have hquote : c ≠ '"' := by
          rintro rfl
          cases hshort
        have hslash : c ≠ '\\' := by
          rintro rfl
          cases hshort
        have hlow : ¬ c.toNat < 32 := fun h => hcode (by simp [byCode, h])
        simpa [escapeChar, pieceOf, hshort, hcode] using stringBody_cons t hquote hslash hlow

theorem stringBody_escaped (s : Text) (rest : Text) :
    stringBody (s.flatMap escapeChar ++ '"' :: rest) = some (s.map pieceOf, rest) := by
  induction s with
  | nil => rfl
  | cons c s ih =>
      rw [List.flatMap_cons, List.append_assoc, stringBody_escapeChar, ih]
      rfl

theorem ofCode_toNat {c : Char} (h : byCode c = true) : ofCode c.toNat = c := by
  have hsmall := toNat_lt_of_byCode h
  have hhigh : isHigh c.toNat = false := by simp [isHigh]; omega
  have hlow : isLow c.toNat = false := by simp [isLow]; omega
  simp [ofCode, hhigh, hlow]

/-- What is written as a code is never half of a pair. -/
theorem ofPieces_pieceOf (s : Text) : ofPieces (s.map pieceOf) = s := by
  induction s with
  | nil => rfl
  | cons c s ih =>
      by_cases hcode : shortEscape c = none ∧ byCode c = true
      · have hhigh : isHigh c.toNat = false := by
          have hsmall := toNat_lt_of_byCode hcode.2
          simp [isHigh]
          omega
        have hpiece : pieceOf c = .code c.toNat := by simp [pieceOf, hcode]
        have hskip : ∀ rest, ofPieces (.code c.toNat :: rest) = c :: ofPieces rest := by
          intro rest
          cases rest with
          | nil => simp [ofPieces, ofCode_toNat hcode.2]
          | cons p rest =>
              cases p with
              | char d => simp [ofPieces, ofCode_toNat hcode.2]
              | code m => simp [ofPieces, hhigh, ofCode_toNat hcode.2]
        rw [List.map_cons, hpiece, hskip, ih]
      · have hpiece : pieceOf c = .char c := if_neg hcode
        rw [List.map_cons, hpiece, ofPieces, ih]

/-! ## Reading back a number -/

/-- Nothing that would continue a number follows. -/
def Ends (rest : Text) : Prop :=
  ∀ c ∈ rest.head?, c.isDigit = false ∧ c ≠ '.' ∧ c ≠ 'e' ∧ c ≠ 'E'

theorem digits_toDigits (n : Nat) {rest : Text} (hrest : Ends rest) :
    digits (Nat.toDigits 10 n ++ rest) = some (Nat.toDigits 10 n, rest) := by
  have hall : ∀ c ∈ Nat.toDigits 10 n, c.isDigit = true := fun c hc =>
    Nat.isDigit_of_mem_toDigits (by decide) (by decide) hc
  have hstop : rest.takeWhile Char.isDigit = [] ∧ rest.dropWhile Char.isDigit = rest := by
    cases rest with
    | nil => exact ⟨rfl, rfl⟩
    | cons c rest =>
        have hc := (hrest c rfl).1
        simp [hc]
  rw [digits, List.takeWhile_append_of_pos hall, List.dropWhile_append_of_pos hall, hstop.1,
    hstop.2, List.append_nil, if_neg Nat.toDigits_ne_nil]

/-- Only zero is written with a leading zero. -/
theorem head_toDigits {n : Nat} (hn : 0 < n) : (Nat.toDigits 10 n).head? ≠ some '0' := by
  induction n using Nat.strong_induction_on with
  | _ n ih =>
      rw [Nat.toDigits_eq_if (by decide)]
      split
      · rename_i hlt
        have hdigit : ∀ k : Nat, k < 10 → 0 < k → Nat.digitChar k ≠ '0' := by decide
        simpa using hdigit n hlt hn
      · rename_i hge
        have hfront := ih (n / 10) (by omega) (by omega)
        rwa [List.head?_append_of_ne_nil _ Nat.toDigits_ne_nil]

theorem intPart_toDigits (n : Nat) {rest : Text} (hrest : Ends rest) :
    intPart (Nat.toDigits 10 n ++ rest) = some (Nat.toDigits 10 n, rest) := by
  rcases Nat.eq_zero_or_pos n with rfl | hn
  · rfl
  · rw [← digits_toDigits n hrest]
    cases hdigits : Nat.toDigits 10 n with
    | nil => exact absurd hdigits Nat.toDigits_ne_nil
    | cons c ds =>
        have hc : c ≠ '0' := by
          have hhead := head_toDigits hn
          rw [hdigits] at hhead
          exact fun h => hhead (by rw [h]; rfl)
        simp [intPart, hc]

theorem number_intText (n : Int) {rest : Text} (hrest : Ends rest) :
    number (intText n ++ rest) = some (intText n, rest) := by
  have hfrac : fracPart rest = some ([], rest) := by
    cases rest with
    | nil => rfl
    | cons c rest => simp [fracPart, (hrest c rfl).2.1]
  have hexp : expPart rest = some ([], rest) := by
    cases rest with
    | nil => rfl
    | cons c rest => simp [expPart, (hrest c rfl).2.2.1, (hrest c rfl).2.2.2]
  cases n with
  | ofNat n =>
      have hsign : signPart (Nat.toDigits 10 n ++ rest) = ([], Nat.toDigits 10 n ++ rest) := by
        cases hdigits : Nat.toDigits 10 n with
        | nil => exact absurd hdigits Nat.toDigits_ne_nil
        | cons c ds =>
            have hdigit : c.isDigit = true :=
              Nat.isDigit_of_mem_toDigits (b := 10) (n := n) (by decide) (by decide)
                (hdigits ▸ List.mem_cons_self)
            have hc : c ≠ '-' := by
              rintro rfl
              cases hdigit
            simp [signPart, hc]
      simp [number, intText, hsign, intPart_toDigits n hrest, hfrac, hexp]
  | negSucc n =>
      simp [number, intText, signPart, intPart_toDigits (n + 1) hrest, hfrac, hexp]

/-! ## Reading back tokens -/

def Token.isNum : Token → Bool
  | .num _ => true
  | _ => false

/-- Tokens as they are written: the numbers are integers, and no two of them meet. -/
structure Spaced (ts : List Token) : Prop where
  ints : ∀ literal, .num literal ∈ ts → ∃ n, literal = intText n
  chain : ts.IsChain fun a b => ¬(a.isNum = true ∧ b.isNum = true)

theorem Spaced.tail {t : Token} {ts : List Token} (h : Spaced (t :: ts)) : Spaced ts :=
  ⟨fun literal hmem => h.ints literal (List.mem_cons_of_mem _ hmem), h.chain.of_cons⟩

/-- A number starts with a digit or a sign. -/
theorem intText_head (n : Int) : ∃ c t, intText n = c :: t ∧ (c.isDigit = true ∨ c = '-') := by
  cases n with
  | ofNat n =>
      cases hdigits : Nat.toDigits 10 n with
      | nil => exact absurd hdigits Nat.toDigits_ne_nil
      | cons c ds =>
          refine ⟨c, ds, hdigits, .inl ?_⟩
          exact Nat.isDigit_of_mem_toDigits (b := 10) (n := n) (by decide) (by decide)
            (hdigits ▸ List.mem_cons_self)
  | negSucc n => exact ⟨'-', _, rfl, .inr rfl⟩

theorem not_isBlank_of_isDigit {c : Char} (h : c.isDigit = true ∨ c = '-') : isBlank c = false := by
  rcases h with h | rfl
  · by_contra hblank
    simp only [isBlank, Bool.not_eq_false, Bool.or_eq_true, decide_eq_true_eq] at hblank
    rcases hblank with ((rfl | rfl) | rfl) | rfl <;> cases h
  · rfl

/-- Every other token starts with a character that is no blank and continues no number. -/
theorem Token.text_head {token : Token} (h : token.isNum = false) :
    ∃ c t, token.text = c :: t ∧ isBlank c = false ∧ Ends (c :: t) := by
  have hends : ∀ {c : Char} (t : Text), c.isDigit = false ∧ c ≠ '.' ∧ c ≠ 'e' ∧ c ≠ 'E' →
      Ends (c :: t) := by
    rintro c t hc _ ⟨⟩
    exact hc
  cases token with
  | num literal => cases h
  | bool b => cases b <;> exact ⟨_, _, rfl, rfl, hends _ (by decide)⟩
  | str s => exact ⟨_, _, rfl, rfl, hends _ (by decide)⟩
  | lbrace => exact ⟨_, _, rfl, rfl, hends _ (by decide)⟩
  | rbrace => exact ⟨_, _, rfl, rfl, hends _ (by decide)⟩
  | lbracket => exact ⟨_, _, rfl, rfl, hends _ (by decide)⟩
  | rbracket => exact ⟨_, _, rfl, rfl, hends _ (by decide)⟩
  | comma => exact ⟨_, _, rfl, rfl, hends _ (by decide)⟩
  | colon => exact ⟨_, _, rfl, rfl, hends _ (by decide)⟩
  | null => exact ⟨_, _, rfl, rfl, hends _ (by decide)⟩

/-- A text that starts like a number is read as one. -/
theorem lexToken_number {c : Char} (t : Text) (hc : c.isDigit = true ∨ c = '-') :
    lexToken (c :: t) = (number (c :: t)).map fun (literal, rest) => (.num literal, rest) := by
  have hne : ∀ d : Char, d.isDigit = false → d ≠ '-' → c ≠ d := by
    rintro d hd hd' rfl
    rcases hc with hc | rfl
    · exact Bool.false_ne_true (hd.symm.trans hc)
    · exact hd' rfl
  unfold lexToken
  split
  case h_11 => rfl
  all_goals exact absurd (List.cons.inj ‹_›).1 (hne _ (by decide) (by decide))

theorem lexToken_text {token : Token} {rest : Text}
    (hnum : ∀ literal, token = .num literal → (∃ n, literal = intText n) ∧ Ends rest) :
    lexToken (token.text ++ rest) = some (token, rest) := by
  cases token with
  | num literal =>
      obtain ⟨⟨n, rfl⟩, hrest⟩ := hnum literal rfl
      have hread := number_intText n hrest
      obtain ⟨c, t, ht, hc⟩ := intText_head n
      rw [Token.text]
      rw [ht] at hread ⊢
      rw [List.cons_append, lexToken_number _ hc, ← List.cons_append, hread]
      rfl
  | str s => simp [Token.text, lexToken, stringBody_escaped, ofPieces_pieceOf]
  | bool b => cases b <;> rfl
  | lbrace => rfl
  | rbrace => rfl
  | lbracket => rfl
  | rbracket => rfl
  | comma => rfl
  | colon => rfl
  | null => rfl

theorem lex_cons {n : Nat} {c : Char} {t rest : Text} {token : Token} (hc : isBlank c = false)
    (htoken : lexToken (c :: t) = some (token, rest)) :
    lex (n + 1) (c :: t) = (lex n rest).map (token :: ·) := by
  have hdrop : (c :: t).dropWhile isBlank = c :: t := by simp [hc]
  rw [lex, hdrop]
  simp only [htoken, Option.bind_eq_bind, Option.bind_some]
  cases lex n rest <;> rfl

theorem lex_blank {blanks : Text} (hblanks : ∀ c ∈ blanks, isBlank c = true) (n : Nat) :
    lex n blanks = some [] := by
  cases n with
  | zero => simpa [lex] using hblanks
  | succ n =>
      have hdrop : blanks.dropWhile isBlank = [] := List.dropWhile_eq_nil_iff.2 hblanks
      rw [lex, hdrop]

/-- What follows a number in a text that was written does not continue it. -/
theorem ends_text {token : Token} {ts : List Token} (hts : Spaced (token :: ts))
    (hnum : token.isNum = true) {blanks : Text} (hblanks : ∀ c ∈ blanks, isBlank c = true) :
    Ends (ts.flatMap Token.text ++ blanks) := by
  cases ts with
  | nil =>
      intro c hc
      have hblank := hblanks c (List.mem_of_mem_head? hc)
      simp only [isBlank, Bool.or_eq_true, decide_eq_true_eq] at hblank
      rcases hblank with ((rfl | rfl) | rfl) | rfl <;> decide
  | cons next ts =>
      have hnext : next.isNum = false := by
        simpa [hnum] using hts.chain.rel
      obtain ⟨c, t, htext, -, hends⟩ := Token.text_head hnext
      rw [List.flatMap_cons, htext]
      exact hends

/-- The tokens of a text that was written from tokens, blanks at its end apart. -/
theorem lex_text {ts : List Token} (hts : Spaced ts) {blanks : Text}
    (hblanks : ∀ c ∈ blanks, isBlank c = true) {n : Nat} (hn : ts.length ≤ n) :
    lex n (ts.flatMap Token.text ++ blanks) = some ts := by
  induction ts generalizing n with
  | nil => exact lex_blank hblanks n
  | cons token ts ih =>
      obtain ⟨n, rfl⟩ : ∃ m, n = m + 1 := ⟨n - 1, by simp at hn; omega⟩
      have hrest := ih hts.tail (n := n) (by simpa using hn)
      have htoken : lexToken (token.text ++ (ts.flatMap Token.text ++ blanks)) =
          some (token, ts.flatMap Token.text ++ blanks) := by
        refine lexToken_text fun literal hliteral => ⟨?_, ?_⟩
        · exact hts.ints literal (hliteral ▸ List.mem_cons_self)
        · exact ends_text hts (by rw [hliteral]; rfl) hblanks
      obtain ⟨c, t, htext, hblank⟩ : ∃ c t, token.text = c :: t ∧ isBlank c = false := by
        cases hnum : token.isNum with
        | false =>
            obtain ⟨c, t, htext, hblank, -⟩ := Token.text_head hnum
            exact ⟨c, t, htext, hblank⟩
        | true =>
            cases token with
            | num literal =>
                obtain ⟨m, rfl⟩ := hts.ints literal List.mem_cons_self
                obtain ⟨c, t, htext, hc⟩ := intText_head m
                exact ⟨c, t, htext, not_isBlank_of_isDigit hc⟩
            | _ => cases hnum
      rw [htext, List.cons_append] at htoken
      rw [List.flatMap_cons, htext, List.append_assoc, List.cons_append,
        lex_cons hblank htoken, hrest]
      rfl

/-! ## Reading back values -/

/-- Values whose numbers are integers. -/
inductive Written : Value → Prop where
  | null : Written .null
  | bool (b : Bool) : Written (.bool b)
  | num (n : Int) : Written (.num (intText n))
  | str (s : Text) : Written (.str s)
  | arr {items : List Value} (h : ∀ v ∈ items, Written v) : Written (.arr items)
  | obj {members : List (Text × Value)} (h : ∀ m ∈ members, Written m.2) : Written (.obj members)

theorem Spaced.cons {t : Token} {ts : List Token} (ht : t.isNum = false) (hts : Spaced ts) :
    Spaced (t :: ts) := by
  refine ⟨fun literal hmem => ?_, ?_⟩
  · rcases List.mem_cons.1 hmem with rfl | hmem
    · cases ht
    · exact hts.ints literal hmem
  · exact List.isChain_cons.2 ⟨fun b _ h => by simp [ht] at h, hts.chain⟩

theorem tokensItems_cons_cons (v w : Value) (items : List Value) :
    tokensItems (v :: w :: items) = tokens v ++ .comma :: tokensItems (w :: items) := by
  rw [tokensItems]
  simp

theorem tokensMembers_cons_cons (k : Text) (v : Value) (m : Text × Value)
    (members : List (Text × Value)) :
    tokensMembers ((k, v) :: m :: members) =
      .str k :: .colon :: (tokens v ++ .comma :: tokensMembers (m :: members)) := by
  rw [tokensMembers]
  simp

/-- The tokens of a value can stand before any that do not start with a number. -/
def Stands (v : Value) : Prop :=
  ∀ rest, Spaced rest → (∀ t ∈ rest.head?, t.isNum = false) → Spaced (tokens v ++ rest)

theorem spaced_items {items : List Value} (hitems : ∀ v ∈ items, Stands v) {rest : List Token}
    (hrest : Spaced rest) : Spaced (tokensItems items ++ rest) := by
  induction items with
  | nil => exact hrest.cons rfl
  | cons v items ih =>
      have hv := hitems v List.mem_cons_self
      cases items with
      | nil =>
          rw [tokensItems, List.append_assoc]
          exact hv _ (hrest.cons rfl) (by rintro t ⟨⟩; rfl)
      | cons w items =>
          rw [tokensItems_cons_cons, List.append_assoc, List.cons_append]
          refine hv _ (Spaced.cons rfl (ih fun u hu => hitems u (List.mem_cons_of_mem _ hu))) ?_
          rintro t ⟨⟩
          rfl

theorem spaced_members {members : List (Text × Value)} (hmembers : ∀ m ∈ members, Stands m.2)
    {rest : List Token} (hrest : Spaced rest) : Spaced (tokensMembers members ++ rest) := by
  induction members with
  | nil => exact hrest.cons rfl
  | cons m members ih =>
      obtain ⟨k, v⟩ := m
      have hv : Stands v := hmembers (k, v) List.mem_cons_self
      cases members with
      | nil =>
          rw [tokensMembers, List.cons_append, List.cons_append, List.append_assoc]
          exact .cons rfl (.cons rfl (hv _ (hrest.cons rfl) (by rintro t ⟨⟩; rfl)))
      | cons m members =>
          rw [tokensMembers_cons_cons, List.cons_append, List.cons_append, List.append_assoc,
            List.cons_append]
          refine .cons rfl (.cons rfl (hv _ (Spaced.cons rfl
            (ih fun u hu => hmembers u (List.mem_cons_of_mem _ hu))) ?_))
          rintro t ⟨⟩
          rfl

theorem Written.stands {v : Value} (hv : Written v) : Stands v := by
  induction hv with
  | null => exact fun rest hrest _ => hrest.cons rfl
  | bool b => exact fun rest hrest _ => hrest.cons rfl
  | str s => exact fun rest hrest _ => hrest.cons rfl
  | num n =>
      intro rest hrest hhead
      refine ⟨fun literal hmem => ?_, ?_⟩
      · rcases List.mem_cons.1 hmem with hself | hmem
        · exact ⟨n, Token.num.inj hself⟩
        · exact hrest.ints literal hmem
      · exact List.isChain_cons.2 ⟨fun b hb h => by simp [hhead b hb] at h, hrest.chain⟩
  | arr _ ih => exact fun rest hrest _ => Spaced.cons rfl (spaced_items ih hrest)
  | obj _ ih => exact fun rest hrest _ => Spaced.cons rfl (spaced_members ih hrest)

/-- The tokens of a value are read back before any others. -/
def ReadsBack (v : Value) : Prop :=
  ∀ n rest, (tokens v).length ≤ n → parseValue n (tokens v ++ rest) = some (v, rest)

/-- No value starts with what closes an array. -/
theorem tokensItems_head (v : Value) (items : List Value) :
    ∃ t ts, tokensItems (v :: items) = t :: ts ∧ t ≠ .rbracket := by
  obtain ⟨t, ts, hv, hclose⟩ : ∃ t ts, tokens v = t :: ts ∧ t ≠ .rbracket := by
    cases v <;> exact ⟨_, _, rfl, nofun⟩
  cases items with
  | nil => exact ⟨t, ts ++ [.rbracket], by rw [tokensItems, hv]; rfl, hclose⟩
  | cons w items =>
      exact ⟨t, ts ++ .comma :: tokensItems (w :: items), by rw [tokensItems_cons_cons, hv]; rfl,
        hclose⟩

theorem tokensMembers_head (m : Text × Value) (members : List (Text × Value)) :
    ∃ ts, tokensMembers (m :: members) = .str m.1 :: ts := by
  cases members with
  | nil => exact ⟨_, rfl⟩
  | cons m' members => exact ⟨_, tokensMembers_cons_cons m.1 m.2 m' members⟩

theorem parseItems_tokens {items : List Value} (hitems : ∀ v ∈ items, ReadsBack v)
    (hne : items ≠ []) {n : Nat} (hn : (tokensItems items).length ≤ n) (rest : List Token) :
    parseItems n (tokensItems items ++ rest) = some (items, rest) := by
  induction items generalizing n with
  | nil => exact absurd rfl hne
  | cons v items ih =>
      have hv := hitems v List.mem_cons_self
      cases items with
      | nil =>
          simp only [tokensItems, List.length_append, List.length_singleton] at hn
          obtain ⟨n, rfl⟩ : ∃ m, n = m + 1 := ⟨n - 1, by omega⟩
          simp only [tokensItems, List.append_assoc, List.singleton_append, parseItems]
          rw [hv n _ (by omega)]
      | cons w items =>
          rw [tokensItems_cons_cons] at hn ⊢
          simp only [List.length_append, List.length_cons] at hn
          obtain ⟨n, rfl⟩ : ∃ m, n = m + 1 := ⟨n - 1, by omega⟩
          have hrest := ih (fun u hu => hitems u (List.mem_cons_of_mem _ hu)) (List.cons_ne_nil _ _)
            (n := n) (by omega)
          rw [List.append_assoc, List.cons_append, parseItems, hv n _ (by omega)]
          simp only [hrest]
          rfl

theorem parseMembers_tokens {members : List (Text × Value)} (hmembers : ∀ m ∈ members, ReadsBack m.2)
    (hne : members ≠ []) {n : Nat} (hn : (tokensMembers members).length ≤ n) (rest : List Token) :
    parseMembers n (tokensMembers members ++ rest) = some (members, rest) := by
  induction members generalizing n with
  | nil => exact absurd rfl hne
  | cons m members ih =>
      obtain ⟨k, v⟩ := m
      have hv : ReadsBack v := hmembers (k, v) List.mem_cons_self
      cases members with
      | nil =>
          simp only [tokensMembers, List.length_append, List.length_cons, List.length_nil] at hn
          obtain ⟨n, rfl⟩ : ∃ m, n = m + 1 := ⟨n - 1, by omega⟩
          simp only [tokensMembers, List.cons_append, List.append_assoc, List.nil_append,
            parseMembers]
          rw [hv n _ (by omega)]
      | cons m members =>
          rw [tokensMembers_cons_cons] at hn ⊢
          simp only [List.length_append, List.length_cons] at hn
          obtain ⟨n, rfl⟩ : ∃ m, n = m + 1 := ⟨n - 1, by omega⟩
          have hrest := ih (fun u hu => hmembers u (List.mem_cons_of_mem _ hu))
            (List.cons_ne_nil _ _) (n := n) (by omega)
          rw [List.cons_append, List.cons_append, List.append_assoc, List.cons_append,
            parseMembers, hv n _ (by omega)]
          simp only [hrest]
          rfl

theorem parseValue_items {n : Nat} {t : Token} (ts : List Token) (ht : t ≠ .rbracket) :
    parseValue (n + 1) (.lbracket :: t :: ts) =
      (parseItems n (t :: ts)).map fun (vs, rest) => (.arr vs, rest) := by
  cases t with
  | rbracket => exact absurd rfl ht
  | _ => rfl

theorem parseValue_members {n : Nat} {k : Text} (ts : List Token) :
    parseValue (n + 1) (.lbrace :: .str k :: ts) =
      (parseMembers n (.str k :: ts)).map fun (ms, rest) => (.obj ms, rest) := rfl

theorem Written.readsBack {v : Value} (hv : Written v) : ReadsBack v := by
  have hsucc : ∀ {n k : Nat}, k + 1 ≤ n → ∃ m, n = m + 1 ∧ k ≤ m := fun {n k} h =>
    ⟨n - 1, by omega, by omega⟩
  induction hv with
  | null =>
      intro n rest hn
      obtain ⟨n, rfl, -⟩ := hsucc hn
      rfl
  | bool b =>
      intro n rest hn
      obtain ⟨n, rfl, -⟩ := hsucc hn
      rfl
  | num k =>
      intro n rest hn
      obtain ⟨n, rfl, -⟩ := hsucc hn
      rfl
  | str s =>
      intro n rest hn
      obtain ⟨n, rfl, -⟩ := hsucc hn
      rfl
  | @arr items _ ih =>
      intro n rest hn
      rw [tokens] at hn ⊢
      obtain ⟨n, rfl, hle⟩ := hsucc hn
      cases items with
      | nil => rfl
      | cons v items =>
          have hread := parseItems_tokens ih (List.cons_ne_nil _ _) hle rest
          obtain ⟨t, ts, ht, hclose⟩ := tokensItems_head v items
          rw [ht, List.cons_append] at hread
          rw [ht, List.cons_append, List.cons_append, parseValue_items _ hclose, hread]
          rfl
  | @obj members _ ih =>
      intro n rest hn
      rw [tokens] at hn ⊢
      obtain ⟨n, rfl, hle⟩ := hsucc hn
      cases members with
      | nil => rfl
      | cons m members =>
          have hread := parseMembers_tokens ih (List.cons_ne_nil _ _) hle rest
          obtain ⟨ts, ht⟩ := tokensMembers_head m members
          rw [ht, List.cons_append] at hread
          rw [ht, List.cons_append, List.cons_append, parseValue_members, hread]
          rfl

/-- Every token is written with at least one character. -/
theorem length_tokens_le {ts : List Token} (hts : Spaced ts) :
    ts.length ≤ (ts.flatMap Token.text).length := by
  induction ts with
  | nil => exact Nat.le_refl _
  | cons t ts ih =>
      have hpos : 0 < t.text.length := by
        cases hnum : t.isNum with
        | false =>
            obtain ⟨c, l, htext, -⟩ := Token.text_head hnum
            simp [htext]
        | true =>
            cases t with
            | num literal =>
                obtain ⟨m, rfl⟩ := hts.ints literal List.mem_cons_self
                obtain ⟨c, l, htext, -⟩ := intText_head m
                simp [Token.text, htext]
            | _ => cases hnum
      have hrest := ih hts.tail
      simp only [List.flatMap_cons, List.length_append, List.length_cons]
      omega

/-- A value is read back from its text, also with blanks after it. -/
theorem parse_render {v : Value} (hv : Written v) (blanks : Text)
    (hblanks : ∀ c ∈ blanks, isBlank c = true) : parse (render v ++ blanks) = some v := by
  have hspaced : Spaced (tokens v) := by
    simpa using hv.stands [] ⟨by simp, List.isChain_nil⟩ (by simp)
  have hlex : lex (render v ++ blanks).length (render v ++ blanks) = some (tokens v) := by
    refine lex_text hspaced hblanks ?_
    have hlen := length_tokens_le hspaced
    rw [List.length_append, render]
    omega
  have hread := hv.readsBack (tokens v).length [] le_rfl
  rw [List.append_nil] at hread
  simp only [parse, hlex, hread]

end Json
end CertsManager
