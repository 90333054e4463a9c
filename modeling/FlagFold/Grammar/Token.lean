/-
  FlagFold.Grammar.Token

  Words, numbers, strings and punctuation: how many characters each takes at
  the start of a source, and which of them comes next.
-/

import FlagFold.Grammar.Cursor

namespace FlagFold.Grammar

/-! ## Runs of items -/

/-- The number of characters of items one after the other, when `skipped` more characters belong
to an item that has begun. -/
def runFrom (item : List Char → Option Nat) : (skipped : Nat) → List Char → Nat
  | _, [] => 0
  | skipped + 1, _ :: rest => runFrom item skipped rest + 1
  | 0, c :: rest =>
    match item (c :: rest) with
    | some (size + 1) => runFrom item size rest + 1
    | _ => 0

/-- The number of characters of all items at the start, one after the other. -/
def run (item : List Char → Option Nat) (chars : List Char) : Nat := runFrom item 0 chars

/-! ## Digits and escapes -/

/-- Is the character a digit of base sixteen? -/
def isHexDigit (c : Char) : Bool :=
  c.isDigit || ('a' ≤ c && c ≤ 'f') || ('A' ≤ c && c ≤ 'F')

/-- Is the character a digit of base eight? -/
def isOctalDigit (c : Char) : Bool := '0' ≤ c && c ≤ '7'

/-- Are the first `count` characters digits of base sixteen? -/
def hexDigits (count : Nat) (chars : List Char) : Bool :=
  (chars.take count).length = count && (chars.take count).all isHexDigit

/-- The number of characters that name a code point after `\u`. -/
def codePointSize? : List Char → Option Nat
  | '\x7b' :: rest =>
    let digits := (rest.takeWhile isHexDigit).length
    if digits ≠ 0 && (rest.drop digits).head? = some '\x7d' then some (digits + 2) else none
  | chars => if hexDigits 4 chars then some 4 else none

/-- The number of characters of an escape in a string or a template. -/
def escapeSize? : List Char → Option Nat
  | '\\' :: 'x' :: rest => if hexDigits 2 rest then some 4 else none
  | '\\' :: 'u' :: rest => (codePointSize? rest).map (· + 2)
  | '\\' :: '\r' :: '\n' :: _ => some 3
  | '\\' :: c :: rest =>
    if isOctalDigit c then some (2 + ((rest.take 2).takeWhile isOctalDigit).length) else some 2
  | _ => none

/-! ## Words -/

/-- The number of characters of one letter of a word: it may be written as an escape. -/
def letterSize? (isLetter : Char → Bool) : List Char → Option Nat
  | '\\' :: 'u' :: rest => (codePointSize? rest).map (· + 2)
  | c :: _ => if isLetter c then some 1 else none
  | [] => none

/-- The number of characters of a word. -/
def wordSize? (chars : List Char) : Option Nat :=
  (letterSize? startsName chars).map fun size => size + run (letterSize? inName) (chars.drop size)

/-- The words that are no names. -/
def reservedWords : List String :=
  ["break", "case", "catch", "class", "const", "continue", "debugger", "default", "delete", "do",
   "else", "export", "extends", "false", "finally", "for", "function", "if", "import", "in",
   "instanceof", "new", "null", "return", "super", "switch", "this", "throw", "true", "try",
   "typeof", "var", "void", "while", "with"]

/-! ## Numbers -/

/-- The number of characters of a digit, with an underscore before it if it is not the first. -/
private def laterDigitSize? (isDigit : Char → Bool) : List Char → Option Nat
  | '_' :: c :: _ => if isDigit c then some 2 else none
  | c :: _ => if isDigit c then some 1 else none
  | [] => none

/-- The number of characters of digits. -/
def digitsSize? (isDigit : Char → Bool) : List Char → Option Nat
  | c :: rest => if isDigit c then some (1 + run (laterDigitSize? isDigit) rest) else none
  | [] => none

/-- The number of characters of an exponent. -/
private def exponentSize? : List Char → Option Nat
  | e :: '-' :: rest | e :: '+' :: rest =>
    if e = 'e' || e = 'E' then (digitsSize? Char.isDigit rest).map (· + 2) else none
  | e :: rest => if e = 'e' || e = 'E' then (digitsSize? Char.isDigit rest).map (· + 1) else none
  | [] => none

/-- The size of digits after a number's sign of its base, with the mark of a big integer. -/
private def basedSize? (isDigit : Char → Bool) (rest : List Char) : Option Nat :=
  (digitsSize? isDigit rest).map fun size =>
    size + 2 + if (rest.drop size).head? = some 'n' then 1 else 0

/-- The number of characters of a number in base ten. -/
private def decimalSize? (chars : List Char) : Option Nat :=
  match chars with
  | '.' :: rest =>
    (digitsSize? Char.isDigit rest).map fun size =>
      size + 1 + (exponentSize? (rest.drop size)).getD 0
  | _ =>
    (digitsSize? Char.isDigit chars).map fun size =>
      -- Zeros in front leave no room for a fraction or an exponent.
      let padded := size ≠ 1 && (chars.take 2 = ['0', '0'] || chars.take 2 = ['0', '_'])
      match chars.drop size with
      | 'n' :: _ => size + 1
      | '.' :: rest =>
        if padded then size
        else
          let digits := (digitsSize? Char.isDigit rest).getD 0
          size + 1 + digits + (exponentSize? (rest.drop digits)).getD 0
      | rest => if padded then size else size + (exponentSize? rest).getD 0

/-- The number of characters of a number. -/
def numberSize? (chars : List Char) : Option Nat :=
  let based :=
    match chars with
    | '0' :: 'x' :: rest | '0' :: 'X' :: rest => basedSize? isHexDigit rest
    | '0' :: 'o' :: rest | '0' :: 'O' :: rest => basedSize? isOctalDigit rest
    | '0' :: 'b' :: rest | '0' :: 'B' :: rest => basedSize? (fun c => c = '0' || c = '1') rest
    | _ => none
  based.orElse fun _ => decimalSize? chars

/-! ## Strings, templates, regular expressions -/

/-- The number of characters of one item of a string. -/
private def stringItemSize? (quote : Char) (chars : List Char) : Option Nat :=
  match chars with
  | '\\' :: _ => escapeSize? chars
  | c :: _ => if c = quote || c = '\n' || c = '\r' then none else some 1
  | [] => none

/-- The number of characters of a string. -/
def stringSize? : List Char → Option Nat
  | quote :: rest =>
    if quote = '\'' || quote = '"' then
      let size := run (stringItemSize? quote) rest
      if (rest.drop size).head? = some quote then some (size + 2) else none
    else none
  | [] => none

/-- The number of characters of one item of the text of a template. -/
def templateItemSize? (chars : List Char) : Option Nat :=
  match chars with
  | '\\' :: _ => escapeSize? chars
  | '$' :: '\x7b' :: _ => none
  | c :: _ => if c = '\x60' then none else some 1
  | [] => none

/-- The number of characters of one item in the brackets of a regular expression. -/
private def bracketItemSize? : List Char → Option Nat
  | '\\' :: c :: _ => if c = '\n' then none else some 2
  | c :: _ => if c = ']' || c = '\n' || c = '\\' then none else some 1
  | [] => none

/-- The number of characters of one item of a regular expression. -/
private def regexItemSize? : List Char → Option Nat
  | '\\' :: c :: _ => if c = '\n' then none else some 2
  | '[' :: rest =>
    let size := run bracketItemSize? rest
    if (rest.drop size).head? = some ']' then some (size + 2) else none
  | c :: _ => if c = '/' || c = '\n' || c = '\\' then none else some 1
  | [] => none

/-- The number of characters of a regular expression and its flags. -/
def regexSize? : List Char → Option Nat
  | '/' :: rest =>
    let size := run regexItemSize? rest
    match rest.drop size with
    | '/' :: flags =>
      if size = 0 then none
      else some (size + 2 + (flags.takeWhile fun c => 'a' ≤ c && c ≤ 'z').length)
    | _ => none
  | _ => none

/-! ## The next token -/

/-- The punctuation of several characters, the longest first. -/
def longSymbols : List (List Char) :=
  [">>>=", "===", "!==", "**=", "<<=", ">>=", ">>>", "&&=", "||=", "??=", "...", "==", "!=", "<=",
   ">=", "&&", "||", "??", "?.", "++", "--", "=>", "+=", "-=", "*=", "/=", "%=", "&=", "|=", "^=",
   "**", "<<", ">>"].map String.toList

/-- What comes next in a source. -/
inductive Token where
  | word (spelling : String)
  | symbol (spelling : String)
  | number
  | string
  | finish
  deriving DecidableEq

/-- Is the token a name? -/
def Token.isName : Token → Bool
  | .word spelling => !reservedWords.contains spelling
  | _ => false

/-- The punctuation at the start: as many characters as can be, but a question mark and a point
before a digit are two. -/
private def symbolAt (c : Char) (chars : List Char) : String :=
  match chars with
  | '?' :: '.' :: d :: _ => if d.isDigit then "?" else "?."
  | _ =>
    match longSymbols.find? (·.isPrefixOf chars) with
    | some s => String.ofList s
    | none => c.toString

/-- The token at the start. -/
def Token.ofChars : List Char → Token
  | [] => .finish
  | c :: rest =>
    if c.isDigit || (c = '.' && (rest.head?.map Char.isDigit).getD false) then .number
    else if c = '\'' || c = '"' then .string
    else
      match wordSize? (c :: rest) with
      | some size => .word (String.ofList ((c :: rest).take size))
      | none => .symbol (symbolAt c (c :: rest))

end FlagFold.Grammar
