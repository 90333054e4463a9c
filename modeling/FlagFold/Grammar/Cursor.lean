/-
  FlagFold.Grammar.Cursor

  Reading positions in a source: what is left of it and the byte offset there.
  White space and comments may stand before any token.
-/

import FlagFold.Text.Basic

namespace FlagFold.Grammar

/-! ## Classes of characters -/

/-- The spaces outside ASCII, those without width included. -/
def wideSpaces : List Nat :=
  [0x85, 0xA0, 0x1680, 0x2000, 0x2001, 0x2002, 0x2003, 0x2004, 0x2005, 0x2006, 0x2007, 0x2008,
   0x2009, 0x200A, 0x200B, 0x2028, 0x2029, 0x202F, 0x205F, 0x2060, 0x3000, 0xFEFF]

/-- May the character stand between tokens without meaning? -/
def isSpace (c : Char) : Bool :=
  c = ' ' || ('\t' ≤ c && c ≤ '\r') || (0x80 ≤ c.toNat && wideSpaces.contains c.toNat)

/-- White space for the rules about left-out semicolons, which takes fewer spaces for one. -/
def isPlainSpace (c : Char) : Bool :=
  isSpace c && !([0x85, 0xA0, 0x2007, 0x200B, 0x202F, 0x2060, 0xFEFF].contains c.toNat)

/-- Does the character end a line? -/
def endsLine (c : Char) : Bool := c = '\n' || c.toNat = 0x2028 || c.toNat = 0x2029

/-- The punctuation that no name holds. -/
def punctuation : List Char :=
  ":;\x60\"'@#.,|^&<=>+-*/\\%?!~()[]\x7b\x7d".toList

/-- May a name begin with the character? Outside ASCII all but spaces may. -/
def startsName (c : Char) : Bool :=
  !(c < ' ') && !isSpace c && !c.isDigit && !punctuation.contains c

/-- May a name go on with the character? -/
def inName (c : Char) : Bool := c.isDigit || startsName c

/-! ## Cursors -/

/-- What is left of a source, and the byte offset at which it starts. -/
structure Cursor where
  rest : List Char
  offset : Nat

namespace Cursor

/-- The cursor `count` characters on. -/
def advance : (count : Nat) → Cursor → Cursor
  | 0, c => c
  | _ + 1, ⟨[], offset⟩ => ⟨[], offset⟩
  | count + 1, ⟨char :: rest, offset⟩ => advance count ⟨rest, offset + char.utf8Size⟩

@[simp]
theorem rest_advance (count : Nat) (c : Cursor) : (c.advance count).rest = c.rest.drop count := by
  obtain ⟨rest, offset⟩ := c
  induction count generalizing rest offset with
  | zero => simp [advance]
  | succ count ih => cases rest <;> simp [advance, ih]

/-- Does the source go on with the given characters? -/
def goesOn (c : Cursor) (s : String) : Bool := s.toList.isPrefixOf c.rest

end Cursor

/-! ## Comments -/

/-- The number of characters up to the end of a comment in slashes and stars. -/
def blockEnd? : List Char → Option Nat
  | '*' :: '/' :: _ => some 2
  | _ :: rest => (blockEnd? rest).map (· + 1)
  | [] => none

/-- The number of characters of the comment at the start, after the first two of them. -/
def commentTail? : List Char → Option Nat
  | '/' :: '/' :: rest => some (rest.takeWhile fun c => !endsLine c && c ≠ '\r').length
  | '/' :: '*' :: rest => blockEnd? rest
  | _ => none

/-- The number of characters of white space and comments at the start, `skipped` of which are
known to be such. -/
def triviaFrom : (skipped : Nat) → List Char → Nat
  | _, [] => 0
  | skipped + 1, _ :: rest => triviaFrom skipped rest + 1
  | 0, c :: rest =>
    if isSpace c then triviaFrom 0 rest + 1
    else
      match commentTail? (c :: rest) with
      | some size => triviaFrom (size + 1) rest + 1
      | none => 0

/-- The number of characters of white space and comments at the start. -/
def triviaSize (chars : List Char) : Nat := triviaFrom 0 chars

/-- The cursor at the next token. -/
def Cursor.skipTrivia (c : Cursor) : Cursor := c.advance (triviaSize c.rest)

/-- The cursor after the next comment, if nothing but white space comes before one. -/
def Cursor.skipComment? (c : Cursor) : Option Cursor :=
  let start := c.advance (c.rest.takeWhile isSpace).length
  (commentTail? start.rest).map fun size => start.advance (size + 2)

theorem Cursor.length_skipComment? {c next : Cursor} (h : c.skipComment? = some next) :
    next.rest.length < c.rest.length := by
  simp only [skipComment?, Option.map_eq_some_iff] at h
  obtain ⟨size, hsize, rfl⟩ := h
  have hcons : c.rest.drop (c.rest.takeWhile isSpace).length ≠ [] := by
    intro hnil
    rw [rest_advance, hnil] at hsize
    simp [commentTail?] at hsize
  have := List.length_pos_iff.2 hcons
  simp only [rest_advance, List.length_drop] at this ⊢
  omega

end FlagFold.Grammar
