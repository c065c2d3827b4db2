import ResourceQuery.Text.Case
import ResourceQuery.Text.Digits
import ResourceQuery.Text.Utf8

/-!
# GUIDs

A 128-bit identifier, written as hexadecimal groups of 8, 4, 4, 4 and 12 digits. `parse` also
reads the 32 digits without hyphens and the hyphenated form in braces or after `urn:uuid:`, whose
letters may be of either case.

The size of a text in bytes decides which form it is held to. At the size of a hyphenated form only
what stands within the wrapping is looked at, and a fault counts from there; every other text is
searched for the first thing wrong with it, and a fault counts from the start of the text.
-/

namespace ResourceQuery

structure Guid where
  bits : BitVec 128
  deriving DecidableEq

namespace Guid

inductive Fault where
  | character (found : Char) (index : Nat)
  | length (found : Nat)
  | groupCount (found : Nat)
  | groupLength (group expected found : Nat)
  deriving DecidableEq, Repr

def Fault.message : Fault → String
  | .character found index => s!"invalid character: found \x60{found}\x60 at {index}"
  | .length found => s!"invalid length: found {found}"
  | .groupCount found => s!"invalid group count: expected 5, found {found}"
  | .groupLength group expected found =>
    s!"invalid group length in group {group}: expected {expected}, found {found}"

def groupWidths : List Nat := [8, 4, 4, 4, 12]

def ofHexDigits (digits : List Char) : Guid :=
  ⟨BitVec.ofNat 128 (Text.ofHexDigits digits)⟩

/-- Cuts a string of digits into groups with a hyphen between them. -/
def hyphenate : List Nat → List Char → List Char
  | [], _ => []
  | [width], digits => digits.take width
  | width :: widths, digits => digits.take width ++ '-' :: hyphenate widths (digits.drop width)

def print (guid : Guid) : List Char :=
  hyphenate groupWidths (Text.hexadecimal 32 guid.bits.toNat)

/-- The groups between the hyphens. -/
def groups (text : List Char) : List (List Char) :=
  text.splitOn '-'

def parseSimple? (text : List Char) : Option Guid :=
  if text.length = 32 && text.all Text.isHexDigit then some (ofHexDigits text) else none

def parseHyphenated? (text : List Char) : Option Guid :=
  let parts := groups text
  if parts.map List.length = groupWidths && parts.all (·.all Text.isHexDigit) then
    some (ofHexDigits parts.flatten)
  else none

/-- What follows `urn:uuid:`, if the text begins so in letters of either case. -/
def afterUrn? (text : List Char) : Option (List Char) :=
  let urn := "urn:uuid:".toList
  if Text.lowerAscii (text.take urn.length) = urn then some (text.drop urn.length) else none

def withinBraces? : List Char → Option (List Char)
  | '{' :: rest => if rest.getLast? = some '}' then some rest.dropLast else none
  | _ => none

/-- A text that is searched for a fault: where its digits begin, the digits with their hyphens, and
whether it may also do without hyphens. -/
structure Candidate where
  offset : Nat
  body : List Char
  simple : Bool

/-- The candidate within the wrapping of a text, which counts from the start of the text. -/
def Candidate.ofWrapped (text : List Char) : Candidate :=
  match withinBraces? text, afterUrn? text with
  | some body, _ => ⟨1, body, false⟩
  | none, some body => ⟨text.length - body.length, body, false⟩
  | none, none => ⟨0, text, true⟩

/-- The part that has to be a hyphenated GUID, for a text as long as one that is bare, in braces or
after `urn:uuid:`. -/
def hyphenatedPart? (text : List Char) : Option (List Char) :=
  match Text.Utf8.size text with
  | 36 => some text
  | 38 => withinBraces? text
  | 45 => afterUrn? text
  | _ => none

/-- The first group whose length is not the expected one. The last group is measured up to the end
of the whole text, its wrapping included. -/
def groupFault (whole : Nat) : (group : Nat) → List (Nat × Nat) → Fault
  | group, (expected, found) :: rest@(_ :: _) =>
    if expected = found then groupFault whole (group + 1) rest
    else .groupLength group expected found
  | group, _ => .groupLength group 12 (whole - 24)

/-- What is wrong with a candidate that is no GUID, in a text of `whole` characters. -/
def Candidate.fault (whole : Nat) (candidate : Candidate) : Fault :=
  match candidate.body.findIdx? fun c ↦ !(c == '-' || Text.isHexDigit c) with
  | some index => .character (candidate.body.getD index '-') (index + candidate.offset)
  | none =>
    let parts := groups candidate.body
    if parts.length = 1 && candidate.simple then .length whole
    else if parts.length ≠ 5 then .groupCount parts.length
    else groupFault whole 0 (groupWidths.zip (parts.map List.length))

/-- The size in bytes of the longest form. -/
def longest : Nat := 45

/-- What is wrong with a text that is no GUID. -/
def fault (text : List Char) : Fault :=
  if longest < Text.Utf8.size text then .length (Text.Utf8.size text)
  else match hyphenatedPart? text with
    | some part => (Candidate.mk 0 part false).fault part.length
    | none => (Candidate.ofWrapped text).fault text.length

def parse (text : List Char) : Except Fault Guid :=
  match parseSimple? text <|> (hyphenatedPart? text).bind parseHyphenated? with
  | some guid => .ok guid
  | none => .error (fault text)

end Guid

end ResourceQuery
