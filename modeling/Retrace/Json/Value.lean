/-!
# JSON values and their text

* `Json` — the values this library writes: no number is negative or has a fraction;
* `Json.compact` — the text without blanks;
* `Json.pretty` — the text with one item a line, indented by two spaces a level.

Only what has to be escaped is: quotation marks, backslashes and the characters below `U+0020`, by
their short form where there is one.
-/

namespace Retrace

inductive Json where
  | null
  | num (n : Nat)
  | str (s : String)
  | arr (items : List Json)
  | obj (fields : List (String × Json))
deriving Inhabited

namespace Json

/-- Absent values are written as `null`. -/
def ofOption {α : Type} (f : α → Json) : Option α → Json
  | none => null
  | some a => f a

/-! ## Strings -/

def hexDigit (n : Nat) : Char := "0123456789abcdef".toList.getD n '0'

def escapeChar (c : Char) : List Char :=
  match c with
  | '"' => ['\\', '"']
  | '\\' => ['\\', '\\']
  | '\n' => ['\\', 'n']
  | '\r' => ['\\', 'r']
  | '\t' => ['\\', 't']
  | '\x08' => ['\\', 'b']
  | '\x0c' => ['\\', 'f']
  | c =>
    if c.toNat < 32 then ['\\', 'u', '0', '0', hexDigit (c.toNat / 16), hexDigit (c.toNat % 16)]
    else [c]

def quote (s : String) : List Char := '"' :: s.toList.flatMap escapeChar ++ ['"']

/-- The decimal digits of a number. -/
def digits (n : Nat) : List Char := (toString n).toList

/-! ## Compact text -/

mutual

def compactChars : Json → List Char
  | null => ['n', 'u', 'l', 'l']
  | num n => digits n
  | str s => quote s
  | arr items => '[' :: compactItems items ++ [']']
  | obj fields => '\x7b' :: compactFields fields ++ ['\x7d']

def compactItems : List Json → List Char
  | [] => []
  | [j] => compactChars j
  | j :: k :: rest => compactChars j ++ ',' :: compactItems (k :: rest)

def compactFields : List (String × Json) → List Char
  | [] => []
  | [(name, j)] => quote name ++ ':' :: compactChars j
  | (name, j) :: f :: rest =>
    quote name ++ ':' :: compactChars j ++ ',' :: compactFields (f :: rest)

end

def compact (j : Json) : String := String.ofList (compactChars j)

/-! ## Text with line breaks -/

/-- A line break and the indentation of a level. -/
def newline (level : Nat) : List Char := '\n' :: List.replicate (2 * level) ' '

mutual

def prettyChars (level : Nat) : Json → List Char
  | null => ['n', 'u', 'l', 'l']
  | num n => digits n
  | str s => quote s
  | arr [] => ['[', ']']
  | arr (j :: rest) => '[' :: prettyItems (level + 1) (j :: rest) ++ newline level ++ [']']
  | obj [] => ['\x7b', '\x7d']
  | obj (f :: rest) =>
    '\x7b' :: prettyFields (level + 1) (f :: rest) ++ newline level ++ ['\x7d']

def prettyItems (level : Nat) : List Json → List Char
  | [] => []
  | [j] => newline level ++ prettyChars level j
  | j :: k :: rest => newline level ++ prettyChars level j ++ ',' :: prettyItems level (k :: rest)

def prettyFields (level : Nat) : List (String × Json) → List Char
  | [] => []
  | [(name, j)] => newline level ++ quote name ++ ':' :: ' ' :: prettyChars level j
  | (name, j) :: f :: rest =>
    newline level ++ quote name ++ ':' :: ' ' :: prettyChars level j
      ++ ',' :: prettyFields level (f :: rest)

end

def pretty (j : Json) : String := String.ofList (prettyChars 0 j)

end Json

end Retrace
