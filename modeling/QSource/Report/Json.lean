/-
**JSON values** and their text with one member to a line.

Main definitions:

* `QSource.Report.Json` — values made of numbers, texts, arrays and objects;
* `QSource.Report.quote` — a text in quotes;
* `QSource.Report.Json.render` — the text of a value, indented by two blanks a level.
-/

set_option relaxedAutoImplicit false
set_option autoImplicit false

namespace QSource.Report

/-- A JSON value. The members of an object keep their order. -/
inductive Json where
  | number (n : Nat)
  | text (s : String)
  | array (items : List Json)
  | object (members : List (String × Json))

/-- A character inside quotes. Quotes, backslashes and control characters are escaped, and anything
else stands for itself. -/
def quoteChar (c : Char) : List Char :=
  if c = '"' then ['\\', '"']
  else if c = '\\' then ['\\', '\\']
  else if c = '\n' then ['\\', 'n']
  else if c = '\r' then ['\\', 'r']
  else if c = '\t' then ['\\', 't']
  else if c = '\x08' then ['\\', 'b']
  else if c = '\x0c' then ['\\', 'f']
  else if c.toNat < 32 then
    ['\\', 'u', '0', '0', Nat.digitChar (c.toNat / 16), Nat.digitChar (c.toNat % 16)]
  else [c]

/-- A text in quotes. -/
def quote (s : String) : String := String.ofList ('"' :: s.toList.flatMap quoteChar ++ ['"'])

/-- The blanks before a line at the given depth. -/
def indent (depth : Nat) : String := String.ofList (List.replicate (2 * depth) ' ')

mutual

/-- The text of a value, its further lines indented for the given depth. -/
def Json.render (depth : Nat) : Json → String
  | .number n => n.repr
  | .text s => quote s
  | .array [] => "[]"
  | .array (item :: rest) =>
    "[\n" ++ Json.renderItems (depth + 1) (item :: rest) ++ "\n" ++ indent depth ++ "]"
  | .object [] => "\x7b\x7d"
  | .object (member :: rest) =>
    "\x7b\n" ++ Json.renderMembers (depth + 1) (member :: rest) ++ "\n" ++ indent depth ++ "\x7d"

/-- The items of an array, each on its own lines. -/
def Json.renderItems (depth : Nat) : List Json → String
  | [] => ""
  | [item] => indent depth ++ item.render depth
  | item :: rest => indent depth ++ item.render depth ++ ",\n" ++ Json.renderItems depth rest

/-- The members of an object, each on its own lines. -/
def Json.renderMembers (depth : Nat) : List (String × Json) → String
  | [] => ""
  | [(key, value)] => indent depth ++ quote key ++ ": " ++ value.render depth
  | (key, value) :: rest =>
    indent depth ++ quote key ++ ": " ++ value.render depth ++ ",\n" ++
      Json.renderMembers depth rest

end

end QSource.Report
