import ContextFree.Production
import ContextFree.Text

/-!
# Tokens of a production line

A line is read from left to right as a sequence of items: a colon, a variable of one
ASCII letter, a variable whose name stands in angle brackets, a blank, or any other
character, which is a terminal. Blanks separate nothing and are skipped. Between
brackets every character but a bracket is part of the name, blanks and colons too.

The only things that can go wrong are the brackets, and the fault found first from
the left is the one reported.
-/

namespace ContextFree

/-- What can be wrong with a production line. -/
inductive LineFault where
  /-- There is no colon after the variable. -/
  | missingColon
  /-- The line does not begin with a variable. -/
  | missingVariable
  /-- A `<` has no `>` to close it. -/
  | unmatchedBracket
  /-- A `>` stands where no name is open. -/
  | unexpectedBracket
  /-- There is no name between `<` and `>`. -/
  | emptyVariable
deriving DecidableEq, Repr

/-- The wording of a fault. -/
def LineFault.message : LineFault → String
  | missingColon => "Expected `:` after variable"
  | missingVariable => "Tried to define something other than a variable"
  | unmatchedBracket => "Unmatched `<`"
  | unexpectedBracket => "Unexpected `>` encountered"
  | emptyVariable => "Empty variable name `<>`"

/-- An item of a line that means something. -/
inductive Token where
  | colon
  | var (v : Variable)
  | terminal (c : Char)
deriving DecidableEq, Repr

namespace Token

/-- May the character be part of a bracketed name? -/
def isNameChar (c : Char) : Bool :=
  c ≠ '<' && c ≠ '>'

/--
Reads the bracketed name whose opening bracket is the first character, and gives what
is left after it. The character that ends the name is used up even if it is the wrong
one.
-/
def readBracketed (cs : List Char) : Except LineFault Variable × List Char :=
  let name := cs.tail.takeWhile isNameChar
  match cs.tail.dropWhile isNameChar with
  | '>' :: rest =>
    (if name.isEmpty then .error .emptyVariable else .ok ⟨String.ofList name⟩, rest)
  | rest => (.error .unmatchedBracket, rest.tail)

/-- Reading a name leaves less than there was. -/
theorem length_readBracketed_lt (c : Char) (cs : List Char) :
    (readBracketed (c :: cs)).2.length < (c :: cs).length := by
  have hle : (cs.dropWhile isNameChar).length ≤ cs.length :=
    (List.dropWhile_suffix _).length_le
  unfold readBracketed
  rw [List.tail_cons, List.length_cons]
  split
  · rename_i rest heq
    rw [heq, List.length_cons] at hle
    show rest.length < _
    omega
  · rw [List.length_tail]
    omega

/-- Reads the tokens of a line after those already found, which are listed last to first. -/
def readFrom (found : List Token) (cs : List Char) : Except LineFault (List Token) :=
  match cs with
  | [] => .ok found.reverse
  | c :: rest =>
    if c = ':' then
      readFrom (.colon :: found) rest
    else if c = '<' then
      match h : readBracketed (c :: rest) with
      | (.error fault, _) => .error fault
      | (.ok v, after) =>
        have : after.length < (c :: rest).length := by
          simpa [h] using length_readBracketed_lt c rest
        readFrom (.var v :: found) after
    else if c = '>' then
      .error .unexpectedBracket
    else if c.isAlpha then
      readFrom (.var ⟨c.toString⟩ :: found) rest
    else if Text.isBlank c then
      readFrom found rest
    else
      readFrom (.terminal c :: found) rest
termination_by cs.length
decreasing_by
  all_goals simp only [List.length_cons] at *
  all_goals omega

/-- The tokens of a line. -/
def readLine (cs : List Char) : Except LineFault (List Token) :=
  readFrom [] cs

/-- What a token stands for on the right of the first colon; a later colon is a terminal. -/
def symbol : Token → Symbol
  | colon => .terminal ':'
  | var v => .var v
  | terminal c => .terminal c

end Token

/-- A variable, a colon, and then the right-hand side. -/
def Production.ofTokens : List Token → Except LineFault Production
  | .var lhs :: .colon :: rhs => .ok ⟨lhs, rhs.map Token.symbol⟩
  | .var _ :: _ => .error .missingColon
  | _ => .error .missingVariable

/-- Reads a production from a line. -/
def Production.read (line : List Char) : Except LineFault Production :=
  Token.readLine line >>= Production.ofTokens

end ContextFree
