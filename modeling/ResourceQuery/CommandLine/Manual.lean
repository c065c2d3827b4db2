import ResourceQuery.Text.Case

/-!
# The manual

The pages of the manual that the command line shows, and the names by which a page can be asked for.
-/

namespace ResourceQuery.Manual

/-- What a page is about. -/
inductive Topic where
  | queryForm
  | operators
  | literals
  | clauses
  | aggregation
  deriving DecidableEq, Repr

namespace Topic

def names : List (String × Topic) :=
  [("syntax", queryForm), ("operators", operators), ("ops", operators), ("literals", literals),
    ("literal", literals), ("types", literals), ("clauses", clauses), ("clause", clauses),
    ("functions", clauses), ("aggregation", aggregation), ("aggregate", aggregation),
    ("aggregates", aggregation)]

/-- The topic that a name stands for, in any case of its letters and with `-` for `_`. -/
def ofName? (name : String) : Option Topic :=
  names.lookup (String.ofList ((Text.foldCase name).toList.map fun c ↦ if c = '-' then '_' else c))

end Topic

/-- A text of lines, each of which is ended. -/
def page (lines : List String) : String :=
  String.join (lines.map (· ++ "\n"))

def usage : String :=
  page [
    "rql - compile, check and merge RQL resource queries",
    "",
    "Usage: rql [OPTIONS] <COMMAND>",
    "",
    "Commands:",
    "  parse  Compile a query and print it back",
    "  check  Validate a query",
    "  merge  Merge two queries into one",
    "  docs   List documentation categories",
    "  doc    Show documentation for a specific category",
    "  help   Print this message or the help of the given subcommand(s)",
    "",
    "Options:",
    "  -v, --verbose...  Increase log verbosity (-v info, -vv debug, -vvv trace)",
    "  -h, --help        Print help",
    "  -V, --version     Print version"]

def overview : String :=
  page [
    "RQL DOCUMENTATION",
    "",
    "RQL is a query language embedded in URL query strings. It filters, sorts,",
    "pages, projects and aggregates a collection. A query compiles to a validated",
    "tree that a backend turns into SQL, an in-memory filter or anything else.",
    "",
    "DOCUMENTATION CATEGORIES",
    "",
    "  syntax            Infix and functional forms, grouping, property paths",
    "  operators         Comparison, pattern and membership operators",
    "  literals          Numbers, strings, dates, GUIDs and type prefixes",
    "  clauses           select, sort, limit, distinct, first, one, values",
    "  aggregation       count, sum, min, max, mean and aggregate()",
    "",
    "QUICK REFERENCE",
    "",
    "  Name=John               Equality (infix)",
    "  eq(Name,John)           Equality (functional)",
    "  A=1&B=2   A=1|B=2       Conjunction, disjunction",
    "  (A=1|B=2)&C=3           Grouping",
    "  select(Name,Age)        Projection",
    "  sort(-Age,+Name)        Ordering",
    "  limit(0,25)             Paging",
    "",
    "Run 'rql doc <category>' for detailed documentation."]

def syntaxPage : String :=
  page [
    "SYNTAX - Query Structure",
    "",
    "PREFIXES",
    "  ?RQL=Name=John",
    "    A leading ? and an RQL= prefix are stripped. The rest is",
    "    percent-decoded before scanning (disable with --no-decode).",
    "",
    "INFIX FORM",
    "  Property=Value",
    "    Comparisons may be written between a property and a value.",
    "",
    "    Example:",
    "      Query:  Name=John&Age>30",
    "      Tree:   and(eq(Name,\"John\"),gt(Age,30))",
    "",
    "FUNCTIONAL FORM",
    "  operator(arguments)",
    "    Every clause has a functional form. Reserved words are only",
    "    functions when followed by \"(\", so a property may be called",
    "    \"count\" or \"sort\".",
    "",
    "    Example:",
    "      Query:  and(eq(Name,John),gt(Age,30))",
    "",
    "JOINS AND GROUPS",
    "  A=1&B=2        All terms must hold",
    "  A=1|B=2        Any term may hold",
    "  (A=1|B=2)&C=3  Parentheses group terms",
    "",
    "    Constraints:",
    "      - & and | may not be mixed at one level without parentheses",
    "",
    "PROPERTY PATHS",
    "  Address.City",
    "  Address/City",
    "  (Address,City)",
    "    Three spellings of the same nested member path.",
    "",
    "    Note: \"(\" followed by a property and \",\" or \")\" is a path,",
    "    not a group.",
    "",
    "BARE VALUES",
    "  Name=John",
    "    A bare word on the value side is a string. Quote it to keep",
    "    characters such as & | ( ) , = or spaces: Name=\"John Smith\"."]

def operatorsPage : String :=
  page [
    "OPERATORS - Comparison, Pattern and Membership",
    "",
    "COMPARISON",
    "  =   eq(P,V)    =eq=     Equal",
    "  !=  ne(P,V)    =ne=     Not equal",
    "  <   lt(P,V)    =lt=     Less than",
    "  <=  le(P,V)    =le=     Less than or equal",
    "  >   gt(P,V)    =gt=     Greater than",
    "  >=  ge(P,V)    =ge=     Greater than or equal",
    "",
    "PATTERNS",
    "  like(Name,\"T*\")",
    "    Wildcard match. The pattern must be a string or a char.",
    "",
    "  contains(Tags,\"new\")",
    "  excludes(Tags,\"old\")",
    "    Containment tests; any value type is accepted.",
    "",
    "MEMBERSHIP",
    "  in(Status,open,pending)",
    "  out(Id,1,2,3)",
    "    Value is (not) one of the listed values. At least one value."]

def literalsPage : String :=
  page [
    "LITERALS - Typed Values",
    "",
    "NUMBERS",
    "  5               int32 (int64 or uint64 when it does not fit)",
    "  5L   5U   5UL   int64, uint32, uint64",
    "  1.5  1.5D       double",
    "  1.5F            float",
    "  9.99M           decimal",
    "  1e6             double, exponent notation",
    "  0xFF            uint8 (hex width follows the digit count:",
    "                  2 -> 8 bit, 4 -> 16, 8 -> 32, 16 -> 64)",
    "",
    "TYPE PREFIXES",
    "  byte: sbyte: short: ushort: int: uint: long: ulong:",
    "  int8: uint8: int16: uint16: int32: uint32: int64: uint64:",
    "  float: single: double: decimal:",
    "",
    "    Example:",
    "      Id=int8:-104     8-bit signed -104",
    "      Id=sbyte:0xFF    8-bit signed -1 (hex bits reinterpreted)",
    "",
    "BOOLEANS AND NULL",
    "  true  false  null",
    "  bool:yes  bool:n  bool:1  boolean:0",
    "",
    "TEXT",
    "  \"string\"  'c'  string:word  char:c",
    "    Escapes: \\r \\n \\t \\b \\\\ \\' \\\" \\uXXXX",
    "",
    "DATES AND TIMES",
    "  2000-01-31  2000/01/31  1/31/2000  1-31-2000",
    "  2000-01-31T08:30:00  2000-01-31 08:30:00.250Z  2000-01-31T08:30-05:00",
    "  utc:2000-01-31T08:30:00",
    "    Without a zone a date is local time (--offset), or UTC with utc:.",
    "",
    "  12:30:00  -1:00:00.5",
    "    Time spans: hours:minutes:seconds.",
    "",
    "OTHER",
    "  0f8fad5b-d9cb-469f-a165-70867728950e   GUID",
    "  bin:AQID                               Base64 binary",
    "  http://example.com/x  /relative/path   URI",
    "  uri:\"http://example.com/?a=1&b=2\"      Quoted URI"]

def clausesPage : String :=
  page [
    "CLAUSES - Shaping the Response",
    "",
    "SELECT",
    "  select(Name,Address.City)",
    "    Project the listed members. Repeated select clauses are merged.",
    "",
    "SORT",
    "  sort(LastName,-Age,+Id)",
    "    Order by each key; - is descending, + or nothing ascending.",
    "",
    "LIMIT",
    "  limit(25)        First 25 items",
    "  limit(50,25)     25 items starting at 50",
    "",
    "DISTINCT / FIRST / ONE",
    "  distinct()   first()   one()",
    "",
    "VALUES",
    "  values(Name)",
    "    Return the member's values instead of items.",
    "",
    "    Constraints:",
    "      - limit, distinct, first, one, values and count() may each",
    "        appear once",
    "      - select and values are mutually exclusive"]

def aggregationPage : String :=
  page [
    "AGGREGATION - Counting and Summaries",
    "",
    "FUNCTIONS",
    "  count()        Number of items",
    "  count(Name)    Number of items with a Name",
    "  sum(Price)  min(Price)  max(Price)  mean(Price)",
    "",
    "AGGREGATE",
    "  aggregate(Category,Region,sum(Price),count())",
    "    Group by the leading properties and apply the trailing",
    "    functions per group. Properties may not follow a function.",
    "",
    "    Constraints:",
    "      - with aggregate present, functions must be inside it",
    "      - limit cannot be combined with functions or aggregate",
    "      - two functions may not target the same property"]

def text : Topic → String
  | .queryForm => syntaxPage
  | .operators => operatorsPage
  | .literals => literalsPage
  | .clauses => clausesPage
  | .aggregation => aggregationPage

end ResourceQuery.Manual
