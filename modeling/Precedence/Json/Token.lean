/-!
The tokens of JSON text. A number is kept as a value only when it is a natural number written
without sign, fraction or exponent; a text that escapes half of a surrogate pair is a token but
stands for no string.
-/
namespace Precedence.Json

inductive Token where
  | openBrace
  | closeBrace
  | openBracket
  | closeBracket
  | comma
  | colon
  | null
  | bool (b : Bool)
  | number (value : Option Nat)
  | text (value : Option String)
deriving DecidableEq

def isBlank (c : Char) : Bool := c == ' ' || c == '\t' || c == '\n' || c == '\r'

def hexDigit? (c : Char) : Option Nat :=
  if c.isDigit then some (c.toNat - '0'.toNat)
  else if 'a' ≤ c ∧ c ≤ 'f' then some (c.toNat - 'a'.toNat + 10)
  else if 'A' ≤ c ∧ c ≤ 'F' then some (c.toNat - 'A'.toNat + 10)
  else none

/-- The number that four hexadecimal digits write. -/
def hex4? (a b c d : Char) : Option Nat := do
  let a ← hexDigit? a
  let b ← hexDigit? b
  let c ← hexDigit? c
  let d ← hexDigit? d
  return ((a * 16 + b) * 16 + c) * 16 + d

/-- The characters with a one-letter escape. -/
def unescape? : Char → Option Char
  | '"' => some '"'
  | '\\' => some '\\'
  | '/' => some '/'
  | 'b' => some '\x08'
  | 'f' => some '\x0c'
  | 'n' => some '\n'
  | 'r' => some '\r'
  | 't' => some '\t'
  | _ => none

def isHighSurrogate (n : Nat) : Bool := 0xD800 ≤ n && n < 0xDC00
def isLowSurrogate (n : Nat) : Bool := 0xDC00 ≤ n && n < 0xE000

/-- The characters that a list of code points and halves of surrogate pairs stands for. -/
def joinHalves : List Nat → Option (List Char)
  | [] => some []
  | n :: rest =>
      if isHighSurrogate n then
        match rest with
        | m :: rest =>
            if isLowSurrogate m then
              (joinHalves rest).map
                (Char.ofNat (0x10000 + (n - 0xD800) * 0x400 + (m - 0xDC00)) :: ·)
            else none
        | [] => none
      else if isLowSurrogate n then none
      else (joinHalves rest).map (Char.ofNat n :: ·)

/-- Reads a text up to its closing quote, as code points and halves of surrogate pairs; `done` holds
those read so far, the last one first. -/
def readText (done : List Nat) : List Char → Option (Option String × List Char)
  | [] => none
  | '"' :: rest => some ((joinHalves done.reverse).map String.ofList, rest)
  | '\\' :: 'u' :: a :: b :: c :: d :: rest =>
      match hex4? a b c d with
      | some n => readText (n :: done) rest
      | none => none
  | '\\' :: c :: rest =>
      match unescape? c with
      | some c => readText (c.toNat :: done) rest
      | none => none
  | c :: rest => if c.toNat < 0x20 then none else readText (c.toNat :: done) rest

/-- One digit or more, as their value and what follows. -/
def readDigits (cs : List Char) : Option (Nat × List Char) :=
  match cs.takeWhile Char.isDigit with
  | [] => none
  | digits =>
      some (digits.foldl (fun n c => n * 10 + (c.toNat - '0'.toNat)) 0, cs.dropWhile Char.isDigit)

/-- The part before point and exponent; a leading zero stands alone. -/
def readWhole : List Char → Option (Nat × List Char)
  | '0' :: rest => some (0, rest)
  | cs => readDigits cs

/-- Skips a fraction, if there is one; the answer tells whether there was. -/
def skipFraction : List Char → Option (Bool × List Char)
  | '.' :: rest => (readDigits rest).map fun r => (true, r.2)
  | cs => some (false, cs)

private def skipSign : List Char → List Char
  | '+' :: rest => rest
  | '-' :: rest => rest
  | cs => cs

/-- Skips an exponent, if there is one; the answer tells whether there was. -/
def skipExponent : List Char → Option (Bool × List Char)
  | c :: rest =>
      if c == 'e' || c == 'E' then (readDigits (skipSign rest)).map fun r => (true, r.2)
      else some (false, c :: rest)
  | [] => some (false, [])

/-- Reads a number without its sign. -/
def readNumber (negative : Bool) (cs : List Char) : Option (Token × List Char) := do
  let (whole, cs) ← readWhole cs
  let (fraction, cs) ← skipFraction cs
  let (exponent, cs) ← skipExponent cs
  return (.number (if negative || fraction || exponent then none else some whole), cs)

/-- The first token of a text that does not begin with a blank. -/
def readToken : List Char → Option (Token × List Char)
  | '\x7b' :: rest => some (.openBrace, rest)
  | '\x7d' :: rest => some (.closeBrace, rest)
  | '[' :: rest => some (.openBracket, rest)
  | ']' :: rest => some (.closeBracket, rest)
  | ',' :: rest => some (.comma, rest)
  | ':' :: rest => some (.colon, rest)
  | 'n' :: 'u' :: 'l' :: 'l' :: rest => some (.null, rest)
  | 't' :: 'r' :: 'u' :: 'e' :: rest => some (.bool true, rest)
  | 'f' :: 'a' :: 'l' :: 's' :: 'e' :: rest => some (.bool false, rest)
  | '"' :: rest => (readText [] rest).map fun r => (.text r.1, r.2)
  | '-' :: rest => readNumber true rest
  | cs => readNumber false cs

/-- All tokens of a text. A token takes up at least one character, so as many rounds as there are
characters are enough. -/
def tokens (cs : List Char) : Option (List Token) := go cs.length cs
where
  go : (rounds : Nat) → List Char → Option (List Token)
    | rounds, cs =>
        match cs.dropWhile isBlank, rounds with
        | [], _ => some []
        | _ :: _, 0 => none
        | c :: rest, rounds + 1 => do
            let (t, rest) ← readToken (c :: rest)
            let ts ← go rounds rest
            return t :: ts

end Precedence.Json
