import IniCompose.Files
import IniCompose.Policy
import IniCompose.Text.Basic

/-!
# Loading settings

Settings are read from the part of TOML that can hold them: assignments of integers and booleans to
root keys, one a line, with comments. Whatever else TOML allows could only stand for an unknown
setting or a value of the wrong kind, which are refused too. A setting may be given once; one that
is not given keeps its default.
-/
namespace IniCompose

namespace Toml

inductive Value
  | integer (n : Int)
  | boolean (b : Bool)
  deriving DecidableEq

/-! ## Characters -/

def isSpace (c : Char) : Bool := c = ' ' || c = '\t'

/-- The characters that may not stand in comments and strings. -/
def isControl (c : Char) : Bool := (c.toNat < 0x20 && c ≠ '\t') || c.toNat = 0x7F

def isBareKeyChar (c : Char) : Bool := c.isAlphanum || c = '_' || c = '-'

/-- The value of a digit of either case in the given base. -/
def digitValue? (base : Nat) (c : Char) : Option Nat :=
  let value :=
    if c.isDigit then c.toNat - '0'.toNat
    else if 'a' ≤ c ∧ c ≤ 'z' then c.toNat - 'a'.toNat + 10
    else if 'A' ≤ c ∧ c ≤ 'Z' then c.toNat - 'A'.toNat + 10
    else base
  if value < base then some value else none

/-! ## Integers -/

def digitsValue? (base : Nat) (digits : List Char) : Option Nat :=
  digits.foldlM (fun n c => (digitValue? base c).map (base * n + ·)) 0

/-- Digits that may be grouped by single underscores. -/
def grouped? (base : Nat) (text : List Char) : Option Nat :=
  let groups := text.splitOn '_'
  if groups.any (·.isEmpty) then none else digitsValue? base groups.flatten

/-- A decimal number, without leading zeros. -/
def decimal? (text : List Char) : Option Nat :=
  if text.head? = some '0' ∧ text.length ≠ 1 then none else grouped? 10 text

def integer? : List Char → Option Int
  | '0' :: 'x' :: rest => (grouped? 16 rest).map Int.ofNat
  | '0' :: 'o' :: rest => (grouped? 8 rest).map Int.ofNat
  | '0' :: 'b' :: rest => (grouped? 2 rest).map Int.ofNat
  | '+' :: rest => (decimal? rest).map Int.ofNat
  | '-' :: rest => (decimal? rest).map fun n => -(n : Int)
  | text => (decimal? text).map Int.ofNat

def value? (text : List Char) : Option Value :=
  if text = "true".toList then some (.boolean true)
  else if text = "false".toList then some (.boolean false)
  else (integer? text).map .integer

/-! ## Keys -/

def charOfHex? (digits : List Char) : Option Char :=
  match digitsValue? 16 digits with
  | some n => if n.isValidChar then some (.ofNat n) else none
  | none => none

def simpleEscape? : Char → Option Char
  | 'b' => some '\x08'
  | 't' => some '\t'
  | 'n' => some '\n'
  | 'f' => some '\x0c'
  | 'r' => some '\r'
  | '"' => some '"'
  | '\\' => some '\\'
  | _ => none

/-- The text up to the closing double quote, unescaped, and what follows the quote. -/
def quotedText? : List Char → Option (List Char × List Char)
  | '"' :: rest => some ([], rest)
  | '\\' :: 'u' :: a :: b :: c :: d :: rest => do
    let char ← charOfHex? [a, b, c, d]
    let (text, rest) ← quotedText? rest
    return (char :: text, rest)
  | '\\' :: 'U' :: a :: b :: c :: d :: e :: f :: g :: h :: rest => do
    let char ← charOfHex? [a, b, c, d, e, f, g, h]
    let (text, rest) ← quotedText? rest
    return (char :: text, rest)
  | '\\' :: c :: rest => do
    let char ← simpleEscape? c
    let (text, rest) ← quotedText? rest
    return (char :: text, rest)
  | c :: rest =>
    if isControl c || c = '\\' then none
    else do
      let (text, rest) ← quotedText? rest
      return (c :: text, rest)
  | [] => none

/-- The text up to the closing single quote, in which nothing is escaped. -/
def literalText? (text : List Char) : Option (List Char × List Char) := do
  let (text, rest) ← Text.cutFirst? (· = '\'') text
  if text.any isControl then none else return (text, rest)

/-- A key and what follows it. -/
def key? : List Char → Option (List Char × List Char)
  | '"' :: rest => quotedText? rest
  | '\'' :: rest => literalText? rest
  | text =>
    let key := text.takeWhile isBareKeyChar
    if key.isEmpty then none else some (key, text.dropWhile isBareKeyChar)

/-! ## Lines -/

/-- Whether nothing but a comment is left of a line. -/
def isRest : List Char → Bool
  | [] => true
  | c :: rest => c = '#' && !rest.any isControl

/-- The assignment behind the spaces of a line. -/
def assignment? (text : List Char) : Option (String × Value) := do
  let (key, rest) ← key? text
  match rest.dropWhile isSpace with
  | '=' :: rest =>
    let rest := rest.dropWhile isSpace
    let ends (c : Char) : Bool := isSpace c || c = '#'
    let value ← value? (rest.takeWhile (!ends ·))
    if isRest ((rest.dropWhile (!ends ·)).dropWhile isSpace) then return (.ofList key, value)
    else none
  | _ => none

/-- A line of the form `key = value`, or nothing if the line says nothing. The outer option is none
for any other line. -/
def line? (line : List Char) : Option (Option (String × Value)) :=
  let text := line.dropWhile isSpace
  if isRest text then some none else (assignment? text).map some

end Toml

namespace Settings

def byte? : Toml.Value → Option UInt8
  | .integer n => if 0 ≤ n ∧ n < 256 then some n.toNat.toUInt8 else none
  | .boolean _ => none

def flag? : Toml.Value → Option Bool
  | .integer _ => none
  | .boolean b => some b

/-- Gives a setting its value; none if there is no such setting or the value is not for it. -/
def assign? (settings : Settings) (key : String) (value : Toml.Value) : Option Settings :=
  if key = "debug_level" then
    (byte? value).map fun level => { settings with debugLevel := level }
  else if key = "exception_control_level" then
    (byte? value).map fun level => { settings with level }
  else if key = "exception_control_compact_warnings" then
    (flag? value).map fun compact => { settings with compactWarnings := compact }
  else if key = "exception_control_silent_warnings" then
    (flag? value).map fun silent => { settings with silentWarnings := silent }
  else none

/-- Reads lines from line number `n` on; `given` are the settings given before. A failure tells the
number of the offending line. -/
def readLines (n : Nat) (given : List String) (settings : Settings) :
    List (List Char) → Except Nat Settings
  | [] => .ok settings
  | line :: rest =>
    match Toml.line? line with
    | none => .error n
    | some none => readLines (n + 1) given settings rest
    | some (some (key, value)) =>
      if key ∈ given then .error n
      else
        match settings.assign? key value with
        | some settings => readLines (n + 1) (key :: given) settings rest
        | none => .error n

/-- Drops a byte order mark. -/
def dropMark : List Char → List Char
  | '\ufeff' :: rest => rest
  | text => text

/-- Reads settings that describe a policy; `origin` names the text in faults. -/
def parse (text origin : String) : Except Fault Settings :=
  match readLines 1 [] {} (Text.lines (dropMark text.toList)) with
  | .error n => .error (.invalidSettings origin ("line " ++ n.repr ++ " gives no setting"))
  | .ok settings => settings.policy.map fun _ => settings

/-- Reads settings from a file; an absent file gives the defaults. -/
def load (files : Files) (path : String) : Except Fault Settings :=
  if files.has path then
    match files.readText path with
    | .ok text => parse text path
    | .error error => .error (.unreadable path error)
  else .ok {}

end Settings

end IniCompose
