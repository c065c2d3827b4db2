import ResourceQuery.Cursor
import ResourceQuery.LexicalFault
import ResourceQuery.Text.Blank
import ResourceQuery.Text.Case
import ResourceQuery.Text.Digits

/-!
# Scanning

A `Scan` reads a piece of text from a cursor and yields what it means, or a fault. In both cases
it leaves the cursor where reading stopped. This module has the steps that every scanner is made
of and the characters that end a word.
-/

namespace ResourceQuery

abbrev Scan := EStateM LexicalFault Cursor

/-- The characters that end a bare word or a literal. -/
def isTerminator (c : Char) : Bool :=
  Text.isBlank c ||
    ['(', ')', ',', '&', '|', '=', '!', '<', '>', '"', '\'', ':', '/'].contains c

def isWordChar (c : Char) : Bool :=
  !isTerminator c

namespace Cursor

/-- Nothing follows that could continue a literal. -/
def atBoundary (cursor : Cursor) : Bool :=
  cursor.peek.all isTerminator

end Cursor

namespace Scan

def position : Scan Nat :=
  return (← get).position

def peek : Scan (Option Char) :=
  return (← get).peek

def peekAt (offset : Nat) : Scan (Option Char) :=
  return (← get).peekAt offset

def atBoundary : Scan Bool :=
  return (← get).atBoundary

def skip (count : Nat) : Scan Unit :=
  modify (·.passOver count)

def moveTo (position : Nat) : Scan Unit :=
  modify (·.moveTo position)

def readIf (inClass : Char → Bool) : Scan (Option Char) :=
  modifyGet (·.readIf inClass)

def readWhile (inClass : Char → Bool) : Scan (List Char) :=
  modifyGet (·.readWhile inClass)

def readAtMost (limit : Nat) (inClass : Char → Bool) : Scan (List Char) :=
  modifyGet (·.readAtMost limit inClass)

/-- Reads the next character if it is `c`, and tells whether it was. -/
def accept (c : Char) : Scan Bool :=
  return (← readIf (· == c)).isSome

def textFrom (mark : Nat) : Scan String :=
  return String.ofList ((← get).textFrom mark)

/-- Fails with a fault about the text read since `mark`. -/
def failFrom {α : Type} (mark : Nat) (fault : String → LexicalFault) : Scan α := do
  throw (fault (← textFrom mark))

/-- The next character is in the class. -/
def nextIs (inClass : Char → Bool) : Scan Bool :=
  return (← peek).any inClass

/-- The character after the next one is in the class. -/
def secondIs (inClass : Char → Bool) : Scan Bool :=
  return (← peekAt 1).any inClass

end Scan

end ResourceQuery
