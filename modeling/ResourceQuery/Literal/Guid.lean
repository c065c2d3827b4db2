import ResourceQuery.Literal.Scan

/-!
# GUID literals

Eight hexadecimal digits and a hyphen commit to a GUID, so a run that begins that way and is not
one is a fault and not a word.
-/

namespace ResourceQuery.Guid

/-- Exactly eight hexadecimal digits come next, and then a hyphen. -/
def ahead (cursor : Cursor) : Bool :=
  cursor.countAhead Text.isHexDigit == 8 && cursor.peekAt 8 == some '-'

/-- Reads the groups of the given widths with hyphens between them, counting from `group`. -/
def scanGroups (mark : Nat) : (group : Nat) → (widths : List Nat) → Scan Unit
  | _, [] => return
  | group, width :: widths => do
    if 1 < group then
      unless ← Scan.accept '-' do Scan.failFrom mark (.guid · .noHyphen)
    let digits ← Scan.readAtMost width Text.isHexDigit
    if digits.length ≠ width then Scan.failFrom mark (.guid · (.shortGroup group width))
    scanGroups mark (group + 1) widths

/-- The GUID that a whole text is, blanks around it aside. -/
def ofText (text : List Char) : Scan Guid :=
  match Guid.parse (Text.trim text) with
  | .ok guid => return guid
  | .error fault => throw (.guid (String.ofList text) (.malformed fault))

/-- Reads a bare GUID. -/
def scan : Scan Guid := do
  let mark ← Scan.position
  scanGroups mark 1 groupWidths
  unless ← Scan.atBoundary do Scan.failFrom mark (.guid · .trailing)
  ofText ((← get).textFrom mark)

end ResourceQuery.Guid
