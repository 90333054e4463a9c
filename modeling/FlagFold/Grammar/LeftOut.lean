/-
  FlagFold.Grammar.LeftOut

  Left-out semicolons.  A statement without a semicolon ends at the end of the
  source, before a closing brace, or at the end of a line unless the next line
  begins with something that goes on with it.
-/

import FlagFold.Grammar.Cursor

namespace FlagFold.Grammar

/-! ## White space and comments after a statement -/

/-- What comes after white space and comments: `line` tells that a comment went over the end of a
line, `paused` that reading stopped after a comment in slashes and stars. -/
structure Gap where
  rest : List Char
  line : Bool
  paused : Bool

/-- Where one is in a gap. -/
inductive GapPlace where
  | between
  | lineComment
  | blockComment

/-- Skips white space and comments, with `stopping` only up to the end of the first comment in
slashes and stars that no slash follows. Nothing is known when a slash begins no comment. -/
def skipGap (stopping : Bool) : GapPlace → (line : Bool) → List Char → Option Gap
  | .between, line, '/' :: '/' :: rest => skipGap stopping .lineComment line rest
  | .between, line, '/' :: '*' :: rest => skipGap stopping .blockComment line rest
  | .between, line, c :: rest =>
    if isPlainSpace c then skipGap stopping .between line rest
    else if c = '/' then none
    else some ⟨c :: rest, line, false⟩
  | .lineComment, line, c :: rest =>
    skipGap stopping (if endsLine c then .between else .lineComment) line rest
  | .blockComment, line, '*' :: '/' :: rest =>
    if stopping && rest.head? ≠ some '/' then some ⟨rest, line, true⟩
    else skipGap stopping .between line rest
  | .blockComment, line, c :: rest => skipGap stopping .blockComment (line || endsLine c) rest
  | _, line, [] => some ⟨[], line, false⟩

theorem length_skipGap {stopping line : Bool} {place : GapPlace} {chars : List Char} {gap : Gap}
    (h : skipGap stopping place line chars = some gap) : gap.rest.length ≤ chars.length := by
  fun_induction skipGap stopping place line chars with
  | case1 line rest ih => have := ih h; simp only [List.length_cons]; omega
  | case2 line rest ih => have := ih h; simp only [List.length_cons]; omega
  | case3 line c rest _ _ _ ih => have := ih h; simp only [List.length_cons]; omega
  | case4 => simp at h
  | case5 => cases h; simp
  | case6 line c rest ih => have := ih h; simp only [List.length_cons]; omega
  | case7 => cases h; simp only [List.length_cons]; omega
  | case8 line rest _ ih => have := ih h; simp only [List.length_cons]; omega
  | case9 line c rest _ ih => have := ih h; simp only [List.length_cons]; omega
  | case10 => cases h; simp

/-! ## What the next line begins with -/

/-- May a left-out semicolon stand before a line that begins so? Not where the line goes on with
an operator, a call or an index. -/
def mayBeginStatement : List Char → Bool
  | [] => true
  | '.' :: rest => (rest.head?.map Char.isDigit).getD false
  | '+' :: rest => rest.head? = some '+'
  | '-' :: rest => rest.head? = some '-'
  | '!' :: rest => rest.head? ≠ some '='
  | 'i' :: 'n' :: rest =>
    let word := "stanceof".toList
    if !((rest.head?.map Char.isAlpha).getD false) then false
    else if word.isPrefixOf rest then ((rest.drop word.length).head?.map Char.isAlpha).getD false
    else true
  | c :: _ => !"\x60,:;*%><=[(?^|&/".toList.contains c

/-- The same in a language with types: there a point always goes on with the line, and where no
operator could follow a parenthesis or a bracket does not. -/
def mayBeginTypedStatement (inExpression : Bool) : List Char → Bool
  | [] => true
  | '.' :: _ => false
  | c :: rest => if c = '(' || c = '[' then !inExpression else mayBeginStatement (c :: rest)

/-! ## Where a semicolon is left out -/

/-- May a left-out semicolon stand before the line that begins here? -/
def mayBeginLine (chars : List Char) : Bool :=
  match skipGap false .between false chars with
  | none => false
  | some gap => mayBeginStatement gap.rest

/-- Is a semicolon left out right here? `inExpression` tells that an operator could follow, and
comments are then no reason to leave one out. -/
def semicolonHere (inExpression : Bool) (chars : List Char) : Bool :=
  match chars with
  | [] => true
  | c :: rest =>
    if c = '}' then true
    else if endsLine c then mayBeginLine rest
    else if isPlainSpace c then semicolonHere inExpression rest
    else if c = '/' then
      match hgap : skipGap true .between false (c :: rest) with
      | none => false
      | some gap =>
        have shorter := length_skipGap hgap
        -- The gap was read to its end, or the comment that stopped it went over the end of a line.
        let accepted := !gap.paused || gap.line
        if accepted && !inExpression && gap.rest.head? ≠ some ',' && gap.rest.head? ≠ some '=' then
          true
        else
          match hrest : gap.rest with
          | [] => false
          | next :: rest' =>
            have : rest'.length < rest.length + 1 := by
              rw [hrest] at shorter
              exact shorter
            -- Otherwise what comes after the gap decides, as it would without one.
            if next = '}' then true
            else if endsLine next then mayBeginLine rest'
            else if isPlainSpace next then semicolonHere inExpression rest'
            else false
    else false
termination_by chars.length
decreasing_by
  · exact Nat.lt_succ_self _
  · exact this

/-- Is a semicolon left out right here, in a language with types? There no comment may stand
between it and the end of the line. -/
def typedSemicolonHere (inExpression : Bool) : List Char → Bool
  | [] => true
  | c :: rest =>
    if c = '}' then inExpression || (rest.dropWhile isPlainSpace).head? ≠ some ':'
    else if c = '\n' then
      match skipGap false .between false rest with
      | none => false
      | some gap => mayBeginTypedStatement inExpression gap.rest
    else isPlainSpace c && typedSemicolonHere inExpression rest

/-- Where a left-out semicolon stands: here, or after the comments that follow here. -/
def Cursor.leftOutSemicolon? (hasTypes inExpression : Bool) (c : Cursor) : Option Cursor :=
  if (if hasTypes then typedSemicolonHere else semicolonHere) inExpression c.rest then some c
  else
    match h : c.skipComment? with
    | none => none
    | some next =>
      have := Cursor.length_skipComment? h
      next.leftOutSemicolon? hasTypes inExpression
termination_by c.rest.length

end FlagFold.Grammar
