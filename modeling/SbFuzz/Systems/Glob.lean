import Mathlib.Data.List.Infix

/-! Patterns of the shell with `*`, `?`, a backslash before a character, and brackets with
characters and ranges. -/

set_option autoImplicit false

namespace SbFuzz.Systems.Glob

inductive Piece where
  | star
  | any
  | char (c : Char)
  | bracket (negated : Bool) (ranges : List (Char × Char))
  deriving DecidableEq

def Piece.accepts : Piece → Char → Bool
  | .star, _ => false
  | .any, _ => true
  | .char c, d => c == d
  | .bracket negated ranges, d =>
      negated != ranges.any fun range => decide (range.1 ≤ d) && decide (d ≤ range.2)

def matchPieces : List Piece → List Char → Bool
  | [], text => text.isEmpty
  | .star :: pieces, text => text.tails.any fun rest => matchPieces pieces rest
  | _ :: _, [] => false
  | piece :: pieces, c :: text => piece.accepts c && matchPieces pieces text

/-- The rest of a bracket, and what follows it; a bracket first in it stands for itself. -/
def ranges : Bool → List Char → Option (List (Char × Char) × List Char)
  | _, [] => none
  | first, c :: '-' :: d :: rest =>
      if c = ']' && !first then some ([], '-' :: d :: rest)
      else if d = ']' then some ([(c, c), ('-', '-')], rest)
      else (ranges false rest).map fun (more, rest) => ((c, d) :: more, rest)
  | first, c :: rest =>
      if c = ']' && !first then some ([], rest)
      else (ranges false rest).map fun (more, rest) => ((c, c) :: more, rest)

def bracket : List Char → Option (Piece × List Char)
  | '!' :: rest => (ranges true rest).map fun (inside, rest) => (.bracket true inside, rest)
  | rest => (ranges true rest).map fun (inside, rest) => (.bracket false inside, rest)

/-- The piece that starts with a character: there is none for a backslash at the end, and a bracket
without an end is a character. -/
def piece (c : Char) (rest : List Char) : Option (Piece × List Char) :=
  if c = '*' then some (.star, rest)
  else if c = '?' then some (.any, rest)
  else if c = '\\' then
    match rest with
    | [] => none
    | d :: rest => some (.char d, rest)
  else if c = '[' then some ((bracket rest).getD (.char c, rest))
  else some (.char c, rest)

def pieces : Nat → List Char → Option (List Piece)
  | 0, _ => some []
  | _ + 1, [] => some []
  | fuel + 1, c :: rest =>
      match piece c rest with
      | none => none
      | some (first, rest) => (pieces fuel rest).map (first :: ·)

/-- A character of the pattern is enough fuel for a piece. -/
def accepts (pattern text : List Char) : Bool :=
  match pieces pattern.length pattern with
  | some all => matchPieces all text
  | none => false

example : accepts "*ma[i]n".toList "do_main".toList = true := by decide

end SbFuzz.Systems.Glob
