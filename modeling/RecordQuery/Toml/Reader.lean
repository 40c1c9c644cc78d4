import RecordQuery.Toml.Basic

/-!
# `RecordQuery.Toml.Reader`: reading documents

Each reader takes what it knows off the front of the text and returns the rest, or `none`
where the text does not fit. A key has at most `maxNesting` names, and at most as many arrays
and tables in braces stand inside one another. Readers that call themselves otherwise have a
bound on the steps, for which the length of the text always suffices.
-/

set_option autoImplicit false

namespace RecordQuery.Toml

/-- A reader: the value at the front of a text, and the rest of the text. -/
abbrev Reader (α : Type) := List Char → Option (α × List Char)

/-- The most names in a key, and the most arrays and tables in braces inside one another. -/
def maxNesting : Nat := 79

/-- Skips blanks. -/
def skipBlanks (cs : List Char) : List Char := cs.dropWhile fun c => c == ' ' || c == '\t'

/-- Whether a character may stand in comments and literal texts. -/
def isPlain (c : Char) : Bool := c == '\t' || (0x20 ≤ c.toNat && c.toNat != 0x7F)

/-- The text behind the given one, where it stands at the front. -/
def dropWord : List Char → List Char → Option (List Char)
  | [], cs => some cs
  | _ :: _, [] => none
  | w :: ws, c :: cs => if w == c then dropWord ws cs else none

/-- Skips one line break. -/
def newline? : List Char → Option (List Char)
  | '\n' :: cs => some cs
  | '\r' :: '\n' :: cs => some cs
  | _ => none

/-- Skips blanks and line breaks. -/
def skipSpace : List Char → List Char
  | ' ' :: cs | '\t' :: cs | '\n' :: cs | '\r' :: '\n' :: cs => skipSpace cs
  | cs => cs

/-- Skips a comment, if there is one. -/
def skipComment : List Char → List Char
  | '#' :: cs => cs.dropWhile isPlain
  | cs => cs

/-- Skips blanks, comments and line breaks, at most the given number of lines. -/
def skipLines : Nat → List Char → List Char
  | 0, cs => cs
  | lines + 1, cs =>
      let rest := skipComment (skipBlanks cs)
      match newline? rest with
      | some after => skipLines lines after
      | none => rest

/-- Skips the blanks and the comment at the end of a line, and the line break. -/
def endOfLine? (cs : List Char) : Option (List Char) :=
  match skipComment (skipBlanks cs) with
  | [] => some []
  | rest => newline? rest

/-- The value of a hexadecimal digit. -/
def hexValue? (c : Char) : Option Nat :=
  if c.isDigit then some (c.toNat - 48)
  else if 'a' ≤ c ∧ c ≤ 'f' then some (c.toNat - 87)
  else if 'A' ≤ c ∧ c ≤ 'F' then some (c.toNat - 55)
  else none

/-- The value of digits in a base, which may have single underscores between them. -/
def digitsIn (base : Nat) (cs : List Char) : Option Nat :=
  go 0 false cs
where
  /-- Reads on, given the value so far and whether a digit stands just before. -/
  go (value : Nat) (afterDigit : Bool) : List Char → Option Nat
  | [] => if afterDigit then some value else none
  | '_' :: cs => if afterDigit then go value false cs else none
  | c :: cs =>
      match hexValue? c with
      | some d => if d < base then go (value * base + d) true cs else none
      | none => none

/-- The character that an escape in a quoted text stands for. -/
def escape : Reader Char
  | 'b' :: cs => some ('\x08', cs)
  | 't' :: cs => some ('\t', cs)
  | 'n' :: cs => some ('\n', cs)
  | 'f' :: cs => some ('\x0c', cs)
  | 'r' :: cs => some ('\r', cs)
  | '"' :: cs => some ('"', cs)
  | '\\' :: cs => some ('\\', cs)
  | 'u' :: cs => scalar 4 cs
  | 'U' :: cs => scalar 8 cs
  | _ => none
where
  /-- The character with the number that some hexadecimal digits spell. -/
  scalar (count : Nat) (cs : List Char) : Option (Char × List Char) := do
    let digits := cs.take count
    let value ← if digits.length == count then digitsIn 16 digits else none
    if digits.contains '_' then none
    else if h : value.isValidChar then some (Char.ofNatAux value h, cs.drop count)
    else none

/-- The rest of a text in double quotes, on one line. -/
def quoted : Nat → Reader (List Char)
  | 0, _ => none
  | _, [] => none
  | bound + 1, c :: cs =>
      if c == '"' then some ([], cs)
      else if c == '\\' then do
        let (e, rest) ← escape cs
        let (text, rest) ← quoted bound rest
        return (e :: text, rest)
      else if isPlain c then do
        let (text, rest) ← quoted bound cs
        return (c :: text, rest)
      else none

/-- The rest of a text in single quotes, on one line. -/
def literal : Reader (List Char)
  | [] => none
  | c :: cs =>
      if c == '\'' then some ([], cs)
      else if isPlain c then (literal cs).map fun (text, rest) => (c :: text, rest)
      else none

/-- The end of a text over several lines: three quotes, before which up to two more may
stand that belong to the text. -/
def closing? (quote : Char) (cs : List Char) : Option (List Char × List Char) :=
  let quotes := cs.takeWhile (· == quote)
  if quotes.length < 3 then none
  else
    let own := min (quotes.length - 3) 2
    some (List.replicate own quote, cs.drop (own + 3))

/-- The rest of a text in triple double quotes. -/
def quotedLines : Nat → Reader (List Char)
  | 0, _ => none
  | _, [] => none
  | bound + 1, c :: cs =>
      match closing? '"' (c :: cs) with
      | some (own, rest) => some (own, rest)
      | none =>
        match newline? (c :: cs) with
        | some rest => (quotedLines bound rest).map fun (text, rest) => ('\n' :: text, rest)
        | none =>
          if c == '\\' then
            match newline? (skipBlanks cs) with
            | some rest => quotedLines bound (skipSpace rest)
            | none => do
                let (e, rest) ← escape cs
                let (text, rest) ← quotedLines bound rest
                return (e :: text, rest)
          else if isPlain c then
            (quotedLines bound cs).map fun (text, rest) => (c :: text, rest)
          else none

/-- The rest of a text in triple single quotes. -/
def literalLines : Nat → Reader (List Char)
  | 0, _ => none
  | _, [] => none
  | bound + 1, c :: cs =>
      match closing? '\'' (c :: cs) with
      | some (own, rest) => some (own, rest)
      | none =>
        match newline? (c :: cs) with
        | some rest => (literalLines bound rest).map fun (text, rest) => ('\n' :: text, rest)
        | none =>
          if isPlain c then (literalLines bound cs).map fun (text, rest) => (c :: text, rest)
          else none

/-- The text without the line break at its front. -/
def dropFirstNewline (cs : List Char) : List Char := (newline? cs).getD cs

/-- A text in any kind of quotes. -/
def string : Reader String
  | '"' :: '"' :: '"' :: cs =>
      (quotedLines (cs.length + 1) (dropFirstNewline cs)).map fun (t, r) => (String.ofList t, r)
  | '\'' :: '\'' :: '\'' :: cs =>
      (literalLines (cs.length + 1) (dropFirstNewline cs)).map fun (t, r) => (String.ofList t, r)
  | '"' :: cs => (quoted (cs.length + 1) cs).map fun (t, r) => (String.ofList t, r)
  | '\'' :: cs => (literal cs).map fun (t, r) => (String.ofList t, r)
  | _ => none

/-- Whether a character may stand in a bare name. -/
def isNameChar (c : Char) : Bool := c.isAlphanum || c == '_' || c == '-'

/-- One name of a key. -/
def name : Reader String
  | '"' :: cs => (quoted (cs.length + 1) cs).map fun (t, r) => (String.ofList t, r)
  | '\'' :: cs => (literal cs).map fun (t, r) => (String.ofList t, r)
  | cs =>
      match cs.takeWhile isNameChar with
      | [] => none
      | bare => some (String.ofList bare, cs.dropWhile isNameChar)

/-- Names with dots between them, at most the given number. -/
def names : Nat → Reader (List String)
  | 0, _ => none
  | most + 1, cs => do
      let (first, rest) ← name (skipBlanks cs)
      match skipBlanks rest with
      | '.' :: after =>
          let (others, rest) ← names most after
          return (first :: others, rest)
      | rest => return ([first], rest)

/-- A key: names with dots between them. -/
def key : Reader (List String) := names maxNesting

/-- The number that a fixed count of decimal digits spells. -/
def fixedDigits (count : Nat) : Reader Nat
  | cs => do
      let digits := cs.take count
      if digits.length == count && digits.all Char.isDigit then
        let value ← digitsIn 10 digits
        return (value, cs.drop count)
      else none

/-- The days of a month. -/
def daysIn (year month : Nat) : Nat :=
  if month == 2 then
    if year % 4 == 0 && (year % 100 != 0 || year % 400 == 0) then 29 else 28
  else if month == 4 || month == 6 || month == 9 || month == 11 then 30
  else 31

/-- A date. -/
def date : Reader Unit
  | cs => do
      let (year, rest) ← fixedDigits 4 cs
      let rest ← dropWord ['-'] rest
      let (month, rest) ← fixedDigits 2 rest
      let rest ← dropWord ['-'] rest
      let (day, rest) ← fixedDigits 2 rest
      if 1 ≤ month && month ≤ 12 && 1 ≤ day && day ≤ daysIn year month then some ((), rest)
      else none

/-- A time of day. -/
def time : Reader Unit
  | cs => do
      let (hour, rest) ← fixedDigits 2 cs
      let rest ← dropWord [':'] rest
      let (minute, rest) ← fixedDigits 2 rest
      let rest ← dropWord [':'] rest
      let (second, rest) ← fixedDigits 2 rest
      if hour ≤ 23 && minute ≤ 59 && second ≤ 60 then
        match rest with
        | '.' :: after =>
            if (after.takeWhile Char.isDigit).isEmpty then none
            else some ((), after.dropWhile Char.isDigit)
        | _ => some ((), rest)
      else none

/-- The distance to universal time, if there is one. -/
def zone (cs : List Char) : Option (List Char) :=
  match cs with
  | c :: rest =>
      if c == 'Z' || c == 'z' then some rest
      else if c == '+' || c == '-' then do
        let (hour, rest) ← fixedDigits 2 rest
        let rest ← dropWord [':'] rest
        let (minute, rest) ← fixedDigits 2 rest
        if hour ≤ 23 && minute ≤ 59 then some rest else none
      else some cs
  | [] => some []

/-- A date, a time, or both. -/
def moment : Reader Item
  | cs =>
      match date cs with
      | some (_, rest) =>
          match rest with
          | c :: after =>
              if c == 'T' || c == 't' then do
                let (_, rest) ← time after
                return (.moment, ← zone rest)
              else if c == ' ' then
                match time after with
                | some (_, rest) => do return (.moment, ← zone rest)
                | none => some (.moment, rest)
              else some (.moment, rest)
          | [] => some (.moment, [])
      | none => (time cs).map fun (_, rest) => (.moment, rest)

/-- The run of decimal digits and underscores at the front of a text. -/
def digitRun (cs : List Char) : List Char × List Char :=
  (cs.takeWhile fun c => c.isDigit || c == '_', cs.dropWhile fun c => c.isDigit || c == '_')

/-- Digits of a fraction or an exponent: how many there are, and their value. -/
def anyDigits : Reader (Nat × Nat)
  | cs =>
      let (run, rest) := digitRun cs
      (digitsIn 10 run).map fun value => (((run.filter Char.isDigit).length, value), rest)

/-- The exponent of a floating-point number. -/
def exponentPart : Reader Int
  | c :: cs =>
      if c == 'e' || c == 'E' then
        match cs with
        | '-' :: rest => (anyDigits rest).map fun ((_, n), rest) => (-(n : Int), rest)
        | '+' :: rest => (anyDigits rest).map fun ((_, n), rest) => ((n : Int), rest)
        | rest => (anyDigits rest).map fun ((_, n), rest) => ((n : Int), rest)
      else none
  | [] => none

/-- Whether an integer has 64 bits. -/
def fits (n : Int) : Bool := Int64.minValue.toInt ≤ n && n ≤ Int64.maxValue.toInt

/-- Whether `digits * 10 ^ scale` rounds to infinity: the least such number lies half a unit
of the last place above the largest finite one, which has 309 digits. -/
def overflows (digits : Nat) (scale : Int) : Bool :=
  let least := Nat.pow 2 1024 - Nat.pow 2 970
  if 0 ≤ scale then
    if 309 ≤ scale then 0 < digits else least ≤ digits * Nat.pow 10 scale.toNat
  else digits.log2 ≥ 1023 && scale.natAbs ≤ digits.log2 && least * Nat.pow 10 scale.natAbs ≤ digits

/-- A floating-point number; a positive one that rounds to infinity is refused. -/
def float (negative : Bool) (digits : Nat) (scale : Int) (rest : List Char) :
    Option (Item × List Char) :=
  if !negative && overflows digits scale then none else some (.float, rest)

/-- A decimal number, given its sign: a floating-point number when a fraction or an exponent
follows, otherwise an integer. -/
def decimal (negative : Bool) : Reader Item
  | cs => do
      let (run, rest) := digitRun cs
      let whole ← digitsIn 10 run
      if run.head? == some '0' && 1 < run.length then none
      else match rest with
        | '.' :: after => do
            let ((places, fraction), rest) ← anyDigits after
            let digits := whole * Nat.pow 10 places + fraction
            match exponentPart rest with
            | some (exponent, rest) => float negative digits (exponent - places) rest
            | none => float negative digits (-places) rest
        | _ =>
            match exponentPart rest with
            | some (exponent, rest) => float negative whole exponent rest
            | none =>
                let n : Int := if negative then -whole else whole
                if fits n then some (.integer n, rest) else none

/-- An integer in the given base, behind the marker of the base. -/
def basedInteger (base : Nat) : Reader Item
  | cs =>
      let isDigit (c : Char) : Bool := c == '_' || (hexValue? c).any (· < base)
      match digitsIn base (cs.takeWhile isDigit) with
      | some value =>
          if fits value then some (.integer value, cs.dropWhile isDigit) else none
      | none => none

/-- A number, a date or a time. -/
def number : Reader Item
  | cs =>
      match moment cs with
      | some found => some found
      | none =>
          let unsigned (negative : Bool) : Reader Item
            | 'i' :: 'n' :: 'f' :: rest | 'n' :: 'a' :: 'n' :: rest => some (.float, rest)
            | rest => decimal negative rest
          match cs with
          | '0' :: 'x' :: rest => basedInteger 16 rest
          | '0' :: 'o' :: rest => basedInteger 8 rest
          | '0' :: 'b' :: rest => basedInteger 2 rest
          | '+' :: rest => unsigned false rest
          | '-' :: rest => unsigned true rest
          | rest => unsigned false rest

mutual

/-- A value, in which at most the given number of arrays and tables in braces stand inside one
another. -/
def value : Nat → Nat → Reader Item
  | 0, _, _ => none
  | bound + 1, levels, cs =>
      match cs with
      | [] => none
      | '"' :: _ | '\'' :: _ => (string cs).map fun (s, rest) => (.string s, rest)
      | '[' :: rest => do
          if levels == 0 then none
          let (items, rest) ← arrayItems bound (levels - 1) rest
          return (.array items, rest)
      | '\x7b' :: rest => do
          if levels == 0 then none
          let (entries, rest) ← inlineEntries bound (levels - 1) true [] rest
          return (.inlineTable entries, rest)
      | 't' :: _ => (dropWord ['t', 'r', 'u', 'e'] cs).map fun rest => (.boolean true, rest)
      | 'f' :: _ =>
          (dropWord ['f', 'a', 'l', 's', 'e'] cs).map fun rest => (.boolean false, rest)
      | _ => number cs

/-- The items of an array, up to its bracket. -/
def arrayItems : Nat → Nat → Reader (List Item)
  | 0, _, _ => none
  | bound + 1, levels, cs =>
      match skipLines (cs.length + 1) cs with
      | ']' :: rest => some ([], rest)
      | start => do
          let (item, rest) ← value bound levels start
          match skipLines (rest.length + 1) rest with
          | ',' :: rest => do
              let (items, rest) ← arrayItems bound levels rest
              return (item :: items, rest)
          | ']' :: rest => return ([item], rest)
          | _ => none

/-- The entries of a table in braces, up to its brace. Only an empty one may close right
away. -/
def inlineEntries : Nat → Nat → Bool → Entries → Reader Entries
  | 0, _, _, _, _ => none
  | bound + 1, levels, mayClose, entries, cs =>
      match mayClose, skipBlanks cs with
      | true, '\x7d' :: rest => some (entries, rest)
      | _, start => do
          let (path, rest) ← key start
          let after ← dropWord ['='] (skipBlanks rest)
          let (item, rest) ← value bound levels (skipBlanks after)
          let (_, entries) ← addKeyValue path.dropLast (path.getLast?.getD "") item .header entries
          match skipBlanks rest with
          | ',' :: rest => inlineEntries bound levels false entries rest
          | '\x7d' :: rest => return (entries, rest)
          | _ => none

end

/-- A document as far as it has been read: its root, and the header whose table is open. -/
structure Document where
  /-- The values at the top. -/
  root : Entries
  /-- The names of the open header. -/
  header : List String

/-- A header: its names, and whether it may be repeated. -/
def headerLine : Reader (Bool × List String)
  | '[' :: '[' :: cs => do
      let (path, rest) ← key cs
      let rest ← dropWord [']', ']'] rest
      return ((true, path), rest)
  | '[' :: cs => do
      let (path, rest) ← key cs
      let rest ← dropWord [']'] rest
      return ((false, path), rest)
  | _ => none

namespace Document

/-- The document with the table of a header opened. -/
def openHeader (document : Document) (repeated : Bool) (path : List String) :
    Option Document := do
  let last := path.getLast?.getD ""
  let change := if repeated then openRepeated last else openTable last
  let (_, root) ← changeAt false change path.dropLast .header document.root
  return ⟨root, path⟩

/-- The document with a value added to its open table. -/
def add (document : Document) (path : List String) (item : Item) : Option Document := do
  let change := addKeyValue path.dropLast (path.getLast?.getD "") item
  let (_, root) ← changeAt false change document.header .header document.root
  return { document with root }

/-- The document after the lines of a text, at most the given number of them. -/
def readLines : Nat → Document → List Char → Option Document
  | 0, _, _ => none
  | lines + 1, document, cs =>
      match skipBlanks cs with
      | [] => some document
      | start =>
          match endOfLine? start with
          | some rest => readLines lines document rest
          | none => do
              match start with
              | '[' :: _ =>
                  let ((repeated, path), rest) ← headerLine start
                  let opened ← document.openHeader repeated path
                  readLines lines opened (← endOfLine? rest)
              | _ =>
                  let (path, rest) ← key start
                  let after ← dropWord ['='] (skipBlanks rest)
                  let (item, rest) ← value (after.length + 1) maxNesting (skipBlanks after)
                  let extended ← document.add path item
                  readLines lines extended (← endOfLine? rest)

end Document

/-- The document that a text spells; a byte order mark before it is skipped. -/
def parse (text : String) : Option Entries :=
  let cs := match text.toList with
    | '\ufeff' :: rest => rest
    | cs => cs
  (Document.readLines (cs.length + 2) ⟨[], []⟩ cs).map (·.root)

end RecordQuery.Toml
