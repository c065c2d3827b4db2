import ResourceQuery.Query
import ResourceQuery.Value.Printer

/-!
# Printing queries

There are two styles, and in both a query reads back as an equal one. The standard style writes
comparisons and groups with signs, the normalized style writes everything as a function and gives
every sort key its sign. A group of fewer than two terms has no sign to show and is a function in
both styles.
-/

namespace ResourceQuery

inductive Style where
  | standard
  | normalized
  deriving DecidableEq, Repr

namespace Query

/-- Texts with commas between them. -/
def commas (texts : List String) : String :=
  ",".intercalate texts

/-- A function with its arguments. -/
def printCall (name : String) (arguments : List String) : String :=
  name ++ "(" ++ commas arguments ++ ")"

def printSortKey (style : Style) (key : SortKey) : String :=
  let sign := match key.order, style with
    | .ascending, .standard => ""
    | order, _ => order.sign.toString
  sign ++ key.property.path

def printNumber (n : UInt64) : String :=
  String.ofList (Text.decimal n.toNat)

mutual

/-- Prints a query, within parentheses if it is a term that needs them. -/
def printWithin (style : Style) (isRoot : Bool) : Query → String
  | noop => ""
  | group joiner terms =>
    let texts := printAll style terms
    if style = .standard && 1 < terms.length then
      let joined := joiner.sign.toString.intercalate texts
      if isRoot then joined else "(" ++ joined ++ ")"
    else printCall joiner.name texts
  | compare op property value =>
    match style with
    | .standard => property.path ++ op.sign ++ value.print
    | .normalized => printCall op.name [property.path, value.print]
  | pattern op property value => printCall (Keyword.pattern op).name [property.path, value.print]
  | membership op property entries =>
    printCall (Keyword.membership op).name (property.path :: entries.map (·.print))
  | limit range => printCall "limit" ((range.start.toList ++ [range.count]).map printNumber)
  | select properties => printCall "select" (properties.map (·.path))
  | sort keys => printCall "sort" (keys.map (printSortKey style))
  | distinct => printCall "distinct" []
  | first => printCall "first" []
  | one => printCall "one" []
  | count property => printCall "count" (property.toList.map (·.path))
  | values property => printCall "values" [property.path]
  | summary op property => printCall (Keyword.summary op).name [property.path]
  | aggregate groups functions =>
    printCall "aggregate" (groups.map (·.path) ++ printAll style functions)

def printAll (style : Style) : List Query → List String
  | [] => []
  | query :: rest => printWithin style false query :: printAll style rest

end

def print (style : Style) (query : Query) : String :=
  printWithin style true query

end Query

end ResourceQuery
