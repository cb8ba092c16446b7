/-!
# Reading a text from the front

A `Reader` takes characters off the front of a text and gives what it has read, or fails.

* `Reader.char`, `Reader.literal`, `Reader.satisfy`, `Reader.takeWhile` — characters;
* `Reader.accept`, `Reader.acceptOne`, `Reader.attempt` — going on whether or not something is
  there;
* `Reader.many` — the same thing again and again, until there is none left;
* `Reader.all?` — reading a text to its end.
-/

namespace Retrace

abbrev Reader := StateT (List Char) Option

namespace Reader

variable {α : Type}

def peek? : Reader (Option Char) := fun cs => some (cs.head?, cs)

/-- A character that satisfies `p`. -/
def satisfy (p : Char → Bool) : Reader Char := fun cs =>
  match cs with
  | c :: rest => if p c then some (c, rest) else none
  | [] => none

def char (c : Char) : Reader Unit := do
  let _ ← satisfy (· = c)

/-- The given characters one after another. -/
def literal : List Char → Reader Unit
  | [] => pure ()
  | c :: rest => do
    char c
    literal rest

/-- The longest stretch of characters that satisfy `p`. -/
def takeWhile (p : Char → Bool) : Reader (List Char) := fun cs =>
  some (cs.takeWhile p, cs.dropWhile p)

/-- The same, but at least one character. -/
def takeWhile1 (p : Char → Bool) : Reader (List Char) := do
  let c ← satisfy p
  let rest ← takeWhile p
  pure (c :: rest)

/-- What `r` reads, or nothing and no character taken where it fails. -/
def attempt (r : Reader α) : Reader (Option α) := fun cs =>
  match r cs with
  | some (a, rest) => some (some a, rest)
  | none => some (none, cs)

/-- Takes the given characters if they are there. -/
def accept (s : List Char) : Reader Bool := do
  pure (← attempt (literal s)).isSome

/-- Takes a character if it is one of the given ones. -/
def acceptOne (cs : List Char) : Reader Bool := do
  pure (← attempt (satisfy fun c => c ∈ cs)).isSome

def atEnd : Reader Bool := do
  pure (← peek?).isNone

/-- Everything up to where `item` says that there is no more.  Every item has to take a
character. -/
def manyFrom (item : Reader (Option α)) (cs : List Char) : Option (List α × List Char) :=
  match item cs with
  | none => none
  | some (none, rest) => some ([], rest)
  | some (some a, rest) =>
    if rest.length < cs.length then
      (manyFrom item rest).map fun (as, last) => (a :: as, last)
    else none
termination_by cs.length

def many (item : Reader (Option α)) : Reader (List α) := manyFrom item

/-- What `r` makes of a text, if it takes all of it. -/
def all? (r : Reader α) (cs : List Char) : Option α :=
  match r cs with
  | some (a, []) => some a
  | _ => none

end Reader

end Retrace
