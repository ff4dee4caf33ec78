import ZipMount.Settings

/-!
# Settings documents

Settings are written as a document of lines, each of the form `key = value`.  `Settings.write`
writes all four keys; `Settings.read` reads any document that sets some of them, each at most once,
and leaves the others at their standard values.

The reader knows the notations in which such a document may be written: keys may be quoted, numbers
may carry a sign, underscores between digits, or a radix mark, lines may hold a comment, and may end
with a carriage return before the line feed.  Numbers are limited to those of a signed 64-bit
integer.  A document that does anything else is refused.
-/

namespace ZipMount

namespace Document

/-- Numbers in a document have 63 bits. -/
def numberBound : Nat := 0x8000000000000000

/-- Whether a character may stand between the parts of a line. -/
def isBlank (c : Char) : Bool := c = ' ' || c = '\t'

/-- Whether a character may stand in a key without quotes. -/
def isBare (c : Char) : Bool := c.isAlphanum || c = '_' || c = '-'

/-- Whether a character may stand in a comment or between quotes. -/
def isPrintable (c : Char) : Bool := c = '\t' || (' ' ≤ c && c ≠ '\x7f')

/-- The value of a hexadecimal digit. -/
def hexDigit? (c : Char) : Option Nat :=
  if '0' ≤ c ∧ c ≤ '9' then some (c.toNat - '0'.toNat)
  else if 'a' ≤ c ∧ c ≤ 'f' then some (c.toNat - 'a'.toNat + 10)
  else if 'A' ≤ c ∧ c ≤ 'F' then some (c.toNat - 'A'.toNat + 10)
  else none

/-- The value of a digit below the radix. -/
def digit? (radix : Nat) (c : Char) : Option Nat :=
  (hexDigit? c).filter (· < radix)

/-- The number that digits stand for, after the digits read so far; an underscore may stand between
two digits.  The flag tells whether the character before was a digit. -/
def digitsFrom (radix : Nat) : Nat → Bool → List Char → Option Nat
  | value, afterDigit, [] => if afterDigit then some value else none
  | value, afterDigit, c :: cs =>
    if c = '_' then if afterDigit then digitsFrom radix value false cs else none
    else
      match digit? radix c with
      | some d => digitsFrom radix (value * radix + d) true cs
      | none => none

/-- The number that digits of the given radix stand for. -/
def digits? (radix : Nat) (cs : List Char) : Option Nat :=
  digitsFrom radix 0 false cs

/-- The number that decimal digits stand for; only zero itself begins with a zero. -/
def decimal? : List Char → Option Nat
  | ['0'] => some 0
  | '0' :: _ => none
  | cs => digits? 10 cs

/-- The number that a text stands for; below zero there is none. -/
def natural? : List Char → Option Nat
  | '0' :: 'x' :: cs => digits? 16 cs
  | '0' :: 'o' :: cs => digits? 8 cs
  | '0' :: 'b' :: cs => digits? 2 cs
  | '+' :: cs => decimal? cs
  | '-' :: cs => (decimal? cs).filter (· = 0)
  | cs => decimal? cs

/-- The number that a text stands for, if a document can hold it. -/
def number? (cs : List Char) : Option Nat :=
  (natural? cs).filter (· < numberBound)

/-- The truth value that a text stands for. -/
def truth? (cs : List Char) : Option Bool :=
  if cs = "true".toList then some true
  else if cs = "false".toList then some false
  else none

/-- The character with the code that hexadecimal digits stand for, if it exists. -/
def escaped? (cs : List Char) : Option Char := do
  let ds ← cs.mapM hexDigit?
  let code := ds.foldl (fun value d => value * 16 + d) 0
  if h : code.isValidChar then some (Char.ofNatAux code h) else none

/-- The text up to the closing double quote, with escapes resolved, and what follows it. -/
def doubleQuoted : List Char → Option (List Char × List Char)
  | [] => none
  | '"' :: rest => some ([], rest)
  | '\\' :: 'u' :: a :: b :: c :: d :: rest => do
    let x ← escaped? [a, b, c, d]
    let (text, after) ← doubleQuoted rest
    return (x :: text, after)
  | '\\' :: 'U' :: a :: b :: c :: d :: e :: f :: g :: h :: rest => do
    let x ← escaped? [a, b, c, d, e, f, g, h]
    let (text, after) ← doubleQuoted rest
    return (x :: text, after)
  | '\\' :: _ => none
  | x :: rest => do
    if isPrintable x then
      let (text, after) ← doubleQuoted rest
      return (x :: text, after)
    else none

/-- The text up to the closing single quote, and what follows it. -/
def singleQuoted : List Char → Option (List Char × List Char)
  | [] => none
  | x :: rest =>
    if x = '\'' then some ([], rest)
    else if isPrintable x then (singleQuoted rest).map fun (text, after) => (x :: text, after)
    else none

/-- The key at the front of a line, and what follows it. -/
def key? : List Char → Option (List Char × List Char)
  | '"' :: rest => doubleQuoted rest
  | '\'' :: rest => singleQuoted rest
  | cs => some (cs.span isBare)

/-- Whether the rest of a line is blank or a comment. -/
def isRemark (cs : List Char) : Bool :=
  match cs.dropWhile isBlank with
  | [] => true
  | '#' :: comment => comment.all isPrintable
  | _ => false

/-- The keys of a document, sizes and the flag. -/
inductive Key
  | size (field : SettingsField)
  | verify
  deriving DecidableEq, Repr

/-- The key under which the flag is written. -/
def verifyKey : String := "verify_checksums"

/-- The key that a text stands for. -/
def Key.ofText? (cs : List Char) : Option Key :=
  match SettingsField.all.find? fun field => field.key.toList = cs with
  | some field => some (.size field)
  | none => if cs = verifyKey.toList then some .verify else none

/-- What a line of a document does. -/
inductive Line
  /-- Nothing. -/
  | remark
  /-- It sets a size. -/
  | size (field : SettingsField) (value : Nat)
  /-- It sets the flag. -/
  | verify (value : Bool)
  deriving DecidableEq, Repr

/-- The key that a line sets, if it sets one. -/
def Line.key? : Line → Option Key
  | .remark => none
  | .size field _ => some (.size field)
  | .verify _ => some .verify

/-- What a line that sets the given key to the given text does. -/
def assign? (key : Key) (text : List Char) : Option Line :=
  match key with
  | .size field => (number? text).map (Line.size field)
  | .verify => (truth? text).map Line.verify

/-- What a line does. -/
def line? (cs : List Char) : Option Line :=
  if isRemark cs then some .remark
  else do
    let (name, rest) ← key? (cs.dropWhile isBlank)
    let key ← Key.ofText? name
    match rest.dropWhile isBlank with
    | '=' :: rest =>
      let (text, rest) := (rest.dropWhile isBlank).span fun c => !isBlank c && c ≠ '#'
      if isRemark rest then assign? key text else none
    | _ => none

/-- The lines of a text; a carriage return belongs to the line feed after it. -/
def lines : List Char → List (List Char)
  | [] => [[]]
  | '\r' :: '\n' :: cs => [] :: lines cs
  | c :: cs =>
    if c = '\n' then [] :: lines cs
    else
      match lines cs with
      | [] => [[c]]
      | l :: ls => (c :: l) :: ls

/-- The text without a byte order mark in front. -/
def withoutMark : List Char → List Char
  | '\uFEFF' :: cs => cs
  | cs => cs

/-- The settings after a line. -/
def apply (s : Settings) : Line → Settings
  | .remark => s
  | .size field value => s.set field value
  | .verify value => { s with verifyChecksums := value }

/-- The settings that a document asks for, if it is one. -/
def settings? (text : List Char) : Option Settings := do
  let ls ← (lines (withoutMark text)).mapM line?
  let keys := ls.filterMap Line.key?
  if keys.eraseDups.length = keys.length then some (ls.foldl apply Settings.standard) else none

/-- A written line that sets a key. -/
def writtenLine (key value : String) : String :=
  key ++ " = " ++ value ++ "\n"

end Document

namespace Settings

/-- The settings in a document, which are checked. -/
def read (document : String) : Except Error Settings :=
  match Document.settings? document.toList with
  | some s => s.checked
  | none => .error (.fault (.settings .malformed))

/-- The document that holds the settings, if its numbers can be held. -/
def write (s : Settings) : Except Error String :=
  if SettingsField.all.all fun field => s.get field < Document.numberBound then
    .ok (String.join (SettingsField.all.map fun field =>
        Document.writtenLine field.key (toString (s.get field))) ++
      Document.writtenLine Document.verifyKey (toString s.verifyChecksums))
  else .error (.fault (.settings .unwritable))

end Settings

end ZipMount
