/-!
# JSON texts

JSON values and their text with one element a line and two spaces for each level.
-/

namespace MiniJava

/-- A JSON value. The members of an object keep their order. -/
inductive JsonValue where
  | null
  | bool (value : Bool)
  | nat (value : Nat)
  | str (value : String)
  | arr (items : List JsonValue)
  | obj (members : List (String × JsonValue))

namespace JsonValue

def hexDigit (n : Nat) : Char := Char.ofNat (if n < 10 then 48 + n else 87 + n)

/-- How a string writes a character: quotes, backslashes and control characters are escaped. -/
def escapeChar (c : Char) : List Char :=
  if c = '"' then ['\\', '"']
  else if c = '\\' then ['\\', '\\']
  else if c.toNat = 8 then ['\\', 'b']
  else if c.toNat = 9 then ['\\', 't']
  else if c.toNat = 10 then ['\\', 'n']
  else if c.toNat = 12 then ['\\', 'f']
  else if c.toNat = 13 then ['\\', 'r']
  else if c.toNat < 32 then
    ['\\', 'u', '0', '0', hexDigit (c.toNat / 16), hexDigit (c.toNat % 16)]
  else [c]

def quote (s : String) : String :=
  "\"" ++ String.ofList (s.toList.flatMap escapeChar) ++ "\""

def indentation (level : Nat) : String := String.ofList (List.replicate (2 * level) ' ')

/-- Encloses lines at a level; without lines the brackets stand together. -/
def enclose (opening closing : String) (level : Nat) (lines : List String) : String :=
  if lines.isEmpty then opening ++ closing
  else
    opening ++ "\n" ++ ",\n".intercalate (lines.map (indentation (level + 1) ++ ·)) ++ "\n"
      ++ indentation level ++ closing

mutual

def textAt (level : Nat) : JsonValue → String
  | null => "null"
  | bool value => if value then "true" else "false"
  | nat value => toString value
  | str value => quote value
  | arr items => enclose "[" "]" level (itemTexts (level + 1) items)
  | obj members => enclose "\x7b" "\x7d" level (memberTexts (level + 1) members)

def itemTexts (level : Nat) : List JsonValue → List String
  | [] => []
  | v :: vs => textAt level v :: itemTexts level vs

def memberTexts (level : Nat) : List (String × JsonValue) → List String
  | [] => []
  | (name, v) :: rest => (quote name ++ ": " ++ textAt level v) :: memberTexts level rest

end

def text (v : JsonValue) : String := textAt 0 v

def strings (ss : List String) : JsonValue := arr (ss.map str)

def ofOption {α : Type} (f : α → JsonValue) : Option α → JsonValue
  | some a => f a
  | none => null

end JsonValue

end MiniJava
