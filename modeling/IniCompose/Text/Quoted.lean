/-!
# Quoted texts and the forms made of them

Two ways to write a text between double quotes so that it stays on one line: one for diagnostics,
one for JSON. They differ in which control characters they escape and how. Records, maps and
optional values are shown in the diagnostic form, arrays and objects in the other one; the parts are
already written.
-/
namespace IniCompose.Text

/-- The hexadecimal digits of `n`, lower case, without leading zeros. -/
def hexDigits (n : Nat) : List Char := Nat.toDigits 16 n

/-- A character inside a diagnostic quotation. Characters outside ASCII stand for themselves. -/
def diagnosticChar (c : Char) : List Char :=
  if c = '"' then ['\\', '"']
  else if c = '\\' then ['\\', '\\']
  else if c = '\n' then ['\\', 'n']
  else if c = '\t' then ['\\', 't']
  else if c = '\r' then ['\\', 'r']
  else if c.toNat = 0 then ['\\', '0']
  else if c.toNat < 0x20 || c.toNat = 0x7F then
    ['\\', 'u', '\x7b'] ++ hexDigits c.toNat ++ ['\x7d']
  else [c]

def diagnosticQuoted (text : String) : String :=
  .ofList ('"' :: text.toList.flatMap diagnosticChar ++ ['"'])

/-- A character inside a JSON string: only the quote, the backslash and the characters below
U+0020 are escaped. -/
def jsonChar (c : Char) : List Char :=
  if c = '"' then ['\\', '"']
  else if c = '\\' then ['\\', '\\']
  else if c = '\n' then ['\\', 'n']
  else if c = '\t' then ['\\', 't']
  else if c = '\r' then ['\\', 'r']
  else if c.toNat = 0x08 then ['\\', 'b']
  else if c.toNat = 0x0C then ['\\', 'f']
  else if c.toNat < 0x20 then
    ['\\', 'u', '0', '0', Nat.digitChar (c.toNat / 16), Nat.digitChar (c.toNat % 16)]
  else [c]

def jsonQuoted (text : String) : String :=
  .ofList ('"' :: text.toList.flatMap jsonChar ++ ['"'])

/-! ## Diagnostic forms -/

def inspectMap (fields : List (String × String)) : String :=
  "\x7b" ++ ", ".intercalate (fields.map fun field => diagnosticQuoted field.1 ++ ": " ++ field.2)
    ++ "\x7d"

def inspectOption : Option String → String
  | some text => "Some(" ++ diagnosticQuoted text ++ ")"
  | none => "None"

/-- The fields of a record between braces. -/
def inspectFields (fields : List String) : String :=
  "\x7b " ++ ", ".intercalate fields ++ " \x7d"

def inspectField (field : String × String) : String := field.1 ++ ": " ++ field.2

def inspectRecord (name : String) (fields : List (String × String)) : String :=
  name ++ " " ++ inspectFields (fields.map inspectField)

/-- A record of which some fields are not shown. -/
def inspectPartly (name : String) (fields : List (String × String)) : String :=
  name ++ " " ++ inspectFields (fields.map inspectField ++ [".."])

def inspectBool (b : Bool) : String := if b then "true" else "false"

/-! ## Compact JSON -/

/-- An array of values that are already written. -/
def jsonArray (values : List String) : String :=
  "[" ++ ",".intercalate values ++ "]"

/-- An object whose fields keep their order; the values are already written. -/
def jsonObject (fields : List (String × String)) : String :=
  "\x7b" ++ ",".intercalate (fields.map fun field => jsonQuoted field.1 ++ ":" ++ field.2) ++ "\x7d"

/-- An object of texts. -/
def jsonTexts (fields : List (String × String)) : String :=
  jsonObject (fields.map fun field => (field.1, jsonQuoted field.2))

end IniCompose.Text
