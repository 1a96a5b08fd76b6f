/-!
# The tokens of a JSON text

A text is cut into tokens in one pass, a character at a time: `Scan.step` is the whole lexer, and
`tokens?` folds it over the text. String literals keep their escapes as UTF-16 units, and number
literals keep their digits: whether units pair up and whether a number is in range is decided by
whoever needs the value, because a part that is skipped is held to the grammar only.
-/

set_option autoImplicit false

namespace FieldSeal.Json

/-- A piece of a string literal: a character as it stands, or a `\u` escape. -/
inductive Piece where
  | char (c : Char)
  | unit (value : Nat)
deriving DecidableEq, Repr

/-- A number literal: its sign, the digits before the point, those after it and the exponent with
its sign. -/
structure Numeral where
  negative : Bool
  whole : List Nat
  fraction : Option (List Nat)
  exponent : Option (Bool × List Nat)
deriving DecidableEq, Repr

inductive Token where
  | openBracket
  | closeBracket
  | openBrace
  | closeBrace
  | colon
  | comma
  | null
  | bool (value : Bool)
  | numeral (value : Numeral)
  | text (pieces : List Piece)
deriving DecidableEq, Repr

namespace Numeral

def digit? (c : Char) : Option Nat :=
  if '0' ≤ c ∧ c ≤ '9' then some (c.toNat - '0'.toNat) else none

/-- The digits at the front, and what follows them. -/
def digits : List Char → List Nat × List Char
  | [] => ([], [])
  | c :: rest =>
    match digit? c with
    | some d => (d :: (digits rest).1, (digits rest).2)
    | none => ([], c :: rest)

/-- The exponent part: nothing, or the letter, a sign that may be missing, and a digit at least. -/
def exponent? : List Char → Option (Option (Bool × List Nat))
  | [] => some none
  | c :: rest =>
    if c = 'e' ∨ c = 'E' then
      let (negative, rest) :=
        match rest with
        | '-' :: r => (true, r)
        | '+' :: r => (false, r)
        | r => (false, r)
      match digits rest with
      | (d :: ds, []) => some (some (negative, d :: ds))
      | _ => none
    else none

/-- Reads a number literal. No zero stands before another digit, and a point is followed by a
digit. -/
def ofChars? (cs : List Char) : Option Numeral := do
  let (negative, cs) := match cs with
    | '-' :: r => (true, r)
    | r => (false, r)
  let (whole, cs) := digits cs
  match whole with
  | [] => none
  | 0 :: _ :: _ => none
  | _ =>
    match cs with
    | '.' :: r =>
      match digits r with
      | ([], _) => none
      | (fraction, r) => return ⟨negative, whole, some fraction, ← exponent? r⟩
    | r => return ⟨negative, whole, none, ← exponent? r⟩

end Numeral

/-- What the lexer is in the middle of. Pieces and characters are collected backwards. -/
inductive Mode where
  | between
  | text (done : List Piece)
  | escape (done : List Piece)
  | unit (done : List Piece) (missing : Nat) (value : Nat)
  | word (done : List Char)
  | numeral (done : List Char)

/-- The state of the lexer: the tokens so far, last one first, and the one in hand. -/
structure Scan where
  done : List Token
  mode : Mode

namespace Scan

def isBlank (c : Char) : Bool := c == ' ' || c == '\t' || c == '\n' || c == '\r'

def isNumeral (c : Char) : Bool :=
  ('0' ≤ c && c ≤ '9') || c == '-' || c == '+' || c == '.' || c == 'e' || c == 'E'

def isLetter (c : Char) : Bool := 'a' ≤ c && c ≤ 'z'

def hexDigit? (c : Char) : Option Nat :=
  if '0' ≤ c ∧ c ≤ '9' then some (c.toNat - '0'.toNat)
  else if 'a' ≤ c ∧ c ≤ 'f' then some (c.toNat - 'a'.toNat + 10)
  else if 'A' ≤ c ∧ c ≤ 'F' then some (c.toNat - 'A'.toNat + 10)
  else none

/-- The character that a one-letter escape stands for. -/
def escaped? : Char → Option Char
  | '"' => some '"'
  | '\\' => some '\\'
  | '/' => some '/'
  | 'b' => some '\x08'
  | 'f' => some '\x0c'
  | 'n' => some '\n'
  | 'r' => some '\r'
  | 't' => some '\t'
  | _ => none

/-- The character at the start of a token, or a blank between two. -/
def start (done : List Token) (c : Char) : Option Scan :=
  if isBlank c then some ⟨done, .between⟩
  else if c = '[' then some ⟨.openBracket :: done, .between⟩
  else if c = ']' then some ⟨.closeBracket :: done, .between⟩
  else if c = '{' then some ⟨.openBrace :: done, .between⟩
  else if c = '}' then some ⟨.closeBrace :: done, .between⟩
  else if c = ':' then some ⟨.colon :: done, .between⟩
  else if c = ',' then some ⟨.comma :: done, .between⟩
  else if c = '"' then some ⟨done, .text []⟩
  else if isLetter c then some ⟨done, .word [c]⟩
  else if isNumeral c then some ⟨done, .numeral [c]⟩
  else none

def word? (backwards : List Char) : Option Token :=
  match backwards.reverse with
  | ['n', 'u', 'l', 'l'] => some .null
  | ['t', 'r', 'u', 'e'] => some (.bool true)
  | ['f', 'a', 'l', 's', 'e'] => some (.bool false)
  | _ => none

def numeral? (backwards : List Char) : Option Token :=
  (Numeral.ofChars? backwards.reverse).map .numeral

def step (s : Scan) (c : Char) : Option Scan :=
  match s.mode with
  | .between => start s.done c
  | .text done =>
    if c = '"' then some ⟨.text done.reverse :: s.done, .between⟩
    else if c = '\\' then some ⟨s.done, .escape done⟩
    else if c < ' ' then none
    else some ⟨s.done, .text (.char c :: done)⟩
  | .escape done =>
    if c = 'u' then some ⟨s.done, .unit done 4 0⟩
    else (escaped? c).map fun e => ⟨s.done, .text (.char e :: done)⟩
  | .unit done missing value => do
    let value := value * 16 + (← hexDigit? c)
    if missing ≤ 1 then some ⟨s.done, .text (.unit value :: done)⟩
    else some ⟨s.done, .unit done (missing - 1) value⟩
  | .word done =>
    if isLetter c then some ⟨s.done, .word (c :: done)⟩
    else do start ((← word? done) :: s.done) c
  | .numeral done =>
    if isNumeral c then some ⟨s.done, .numeral (c :: done)⟩
    else do start ((← numeral? done) :: s.done) c

/-- The tokens, once the text is at its end. -/
def finish (s : Scan) : Option (List Token) :=
  match s.mode with
  | .between => some s.done.reverse
  | .word done => do return ((← word? done) :: s.done).reverse
  | .numeral done => do return ((← numeral? done) :: s.done).reverse
  | _ => none

end Scan

def tokens? (text : String) : Option (List Token) := do
  (← text.toList.foldlM Scan.step ⟨[], .between⟩).finish

end FieldSeal.Json
