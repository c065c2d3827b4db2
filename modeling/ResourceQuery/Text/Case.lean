import ResourceQuery.Text.CaseTable

/-!
# Lower-case text

`lower` is the full lower-case form of a text. It works character by character, with two
exceptions of the standard: the dotted capital I becomes two characters, and a capital sigma at
the end of a word becomes the final form of the letter. Two texts are the same up to case when
their lower-case forms are equal, so the relation is an equivalence by construction.
-/

namespace ResourceQuery.Text

open CaseTable

/-- The lower-case form of a character that stands alone. -/
def lowerChar (c : Char) : List Char :=
  if c.toNat < 0x80 then [c.toLower]
  else if c == 'İ' then ['i', '\u0307']
  else match lowerRanges.find? (·.contains c.toNat) with
    | some range => [Char.ofNat (c.toNat + range.shift).toNat]
    | none => [c]

/-- The nearest character that is not case-ignorable is a cased letter. -/
def meetsCased (text : List Char) : Bool :=
  ((text.dropWhile isIgnorable).head?.map isCased).getD false

/-- The form of a capital sigma after `before` (nearest character first) and in front of `after`. -/
def lowerSigma (before after : List Char) : Char :=
  if meetsCased before && !meetsCased after then 'ς' else 'σ'

def lowerAfter (before : List Char) : List Char → List Char
  | [] => []
  | c :: rest =>
    (if c == 'Σ' then [lowerSigma before rest] else lowerChar c) ++ lowerAfter (c :: before) rest

def lower (text : List Char) : List Char :=
  lowerAfter [] text

/-- Lower case for the letters of ASCII only; every other character is kept. -/
def lowerAscii (text : List Char) : List Char :=
  text.map Char.toLower

/-- The key under which two texts are the same up to case. -/
def foldCase (text : String) : String :=
  String.ofList (lower text.toList)

end ResourceQuery.Text
