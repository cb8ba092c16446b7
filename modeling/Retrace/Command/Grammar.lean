/-!
# The words of a command line

* `Grammar` — the arguments that a command takes;
* `Reading.step` — what one more word means;
* `Grammar.read` — the arguments in a list of words, or why the words are refused.

An option is called by its name after two dashes, or by its letter after one, where letters of
options without a value may stand before it.  The value of an option is what is left of its word,
with or without an equals sign in front, or else the next word.  Two dashes alone say that no more
options follow.

A value with a word of its own is looked at when the next argument begins, or at the end.  So a word
that is no argument at all is reported even where the value before it is bad.
-/

namespace Retrace.Command

/-- Why words are not carried out as a command. -/
inductive Refusal where
  | help
  | version
  | nothing
  | noCommand
  | unknownCommand
  | unknownArgument
  | noValue
  | badValue
  | excessValue
  | conflict
  | missingArgument
deriving DecidableEq, Repr

def Refusal.message : Refusal → String
  | help => "help was asked for"
  | version => "the version was asked for"
  | nothing => "nothing to do"
  | noCommand => "a command is missing"
  | unknownCommand => "there is no such command"
  | unknownArgument => "an argument was not expected"
  | noValue => "an argument has no value"
  | badValue => "a value cannot be used"
  | excessValue => "an argument takes no value"
  | conflict => "arguments cannot be used together"
  | missingArgument => "an argument is missing"

/-! ## Values -/

inductive Value where
  | flag
  | text (s : String)
  | number (n : Nat)
deriving DecidableEq, Repr, Inhabited

/-- What the value of an argument has to be. -/
inductive Kind where
  | path
  | word32
  | word64
deriving DecidableEq, Repr

/-- The number that decimal digits spell, of which there has to be one at least. -/
def digits? (text : List Char) : Option Nat :=
  if text ≠ [] ∧ text.all Char.isDigit then
    some (text.foldl (fun n c => 10 * n + (c.toNat - 48)) 0)
  else none

/-- A number, with or without a plus sign. -/
def unsigned? : List Char → Option Nat
  | '+' :: text => digits? text
  | text => digits? text

/-- A number that is not below zero, with or without a sign.  Minus zero is zero. -/
def signed? : List Char → Option Nat
  | '-' :: text => (digits? text).filter (· = 0)
  | text => unsigned? text

/-- A path is any text but the empty one. -/
def Kind.read (k : Kind) (text : List Char) : Except Refusal Value :=
  match k with
  | path => if text = [] then .error .noValue else .ok (.text (String.ofList text))
  | word32 => number? 0x100000000 (signed? text)
  | word64 => number? 0x10000000000000000 (unsigned? text)
where
  number? (bound : Nat) (n? : Option Nat) : Except Refusal Value :=
    match n?.filter (· < bound) with
    | some n => .ok (.number n)
    | none => .error .badValue

/-! ## Grammars -/

inductive Effect where
  | help
  | version
  | once
  | repeated
  | value (kind : Kind)
deriving DecidableEq, Repr

structure Opt where
  name : String
  letter : Option Char
  effect : Effect
deriving DecidableEq, Repr

/-- The options, the names of the paths that come without an option, in order, and pairs of options
that exclude each other. -/
structure Grammar where
  options : List Opt
  paths : List String
  exclusive : List (String × String)
deriving DecidableEq, Repr

/-- The arguments given, by name. -/
abbrev Given := List (String × Value)

namespace Given

def has (g : Given) (name : String) : Bool := (g.lookup name).isSome

def count (g : Given) (name : String) : Nat := g.countP (·.1 = name)

def text? (g : Given) (name : String) : Option String :=
  match g.lookup name with
  | some (.text s) => some s
  | _ => none

def number? (g : Given) (name : String) : Option Nat :=
  match g.lookup name with
  | some (.number n) => some n
  | _ => none

end Given

/-! ## Words -/

inductive Word where
  | dashes
  | long (name : List Char) (value : Option (List Char))
  | letters (all : List Char)
  | plain
deriving DecidableEq, Repr

/-- A name, and what follows the first equals sign, if there is one. -/
def splitValue (text : List Char) : List Char × Option (List Char) :=
  match text.dropWhile (· ≠ '=') with
  | [] => (text, none)
  | _ :: value => (text.takeWhile (· ≠ '='), some value)

/-- What a word looks like.  A single dash is plain. -/
def Word.ofText : List Char → Word
  | ['-', '-'] => dashes
  | '-' :: '-' :: text => let (name, value) := splitValue text; long name value
  | ['-'] => plain
  | '-' :: text => letters text
  | _ => plain

/-! ## Reading words -/

/-- An argument whose value has not been looked at, or is still to come. -/
structure Pending where
  name : String
  kind : Kind
  text : Option (List Char)
deriving DecidableEq, Repr

structure Reading where
  given : Given
  pending : Option Pending
  paths : List String
  onlyPaths : Bool
deriving DecidableEq, Repr

namespace Reading

def start (paths : List String) : Reading := ⟨[], none, paths, false⟩

def giveValue (r : Reading) (name : String) (kind : Kind) (text : List Char) :
    Except Refusal Reading := do
  if r.given.has name then .error .conflict
  else pure { r with given := r.given ++ [(name, ← kind.read text)] }

/-- Looks at the value that has been left open. -/
def settle (r : Reading) : Except Refusal Reading :=
  match r.pending with
  | none => .ok r
  | some p =>
    match p.text with
    | none => .error .noValue
    | some text => { r with pending := none }.giveValue p.name p.kind text

/-- An option without a value. -/
def giveFlag (r : Reading) (o : Opt) : Except Refusal Reading := do
  let r ← r.settle
  match o.effect with
  | .help => .error .help
  | .version => .error .version
  | .repeated => pure { r with given := r.given ++ [(o.name, .flag)] }
  | _ =>
    if r.given.has o.name then .error .conflict
    else pure { r with given := r.given ++ [(o.name, .flag)] }

/-- An option with a value, which comes with it or in the next word. -/
def giveOption (r : Reading) (name : String) (kind : Kind) (value : Option (List Char)) :
    Except Refusal Reading := do
  let r ← r.settle
  match value with
  | some text => r.giveValue name kind text
  | none => pure { r with pending := some ⟨name, kind, none⟩ }

def long (g : Grammar) (r : Reading) (name : List Char) (value : Option (List Char)) :
    Except Refusal Reading :=
  match g.options.find? fun o => o.name.toList = name with
  | none => .error .unknownArgument
  | some o =>
    match o.effect, value with
    | .value kind, value => r.giveOption o.name kind value
    | _, some _ => .error .excessValue
    | _, none => r.giveFlag o

/-- What is left of a word after the letter of an option is its value, unless nothing is left. -/
def attached : List Char → Option (List Char)
  | [] => none
  | '=' :: text => some text
  | text => some text

def letters (g : Grammar) (r : Reading) : List Char → Except Refusal Reading
  | [] => .ok r
  | c :: rest =>
    match g.options.find? fun o => o.letter = some c with
    | none => .error .unknownArgument
    | some o =>
      match o.effect with
      | .value kind => r.giveOption o.name kind (attached rest)
      | _ => do letters g (← r.giveFlag o) rest

/-- A path that no option asks for. -/
def path (r : Reading) (text : List Char) : Except Refusal Reading :=
  match r.paths with
  | [] => .error .unknownArgument
  | name :: rest => do
    let r ← r.settle
    pure { r with pending := some ⟨name, .path, some text⟩, paths := rest }

def step (g : Grammar) (r : Reading) (text : List Char) : Except Refusal Reading :=
  if r.onlyPaths then r.path text
  else
    match Word.ofText text with
    | .dashes => .ok { r with onlyPaths := true }
    | .long name value => r.long g name value
    | .letters all => r.letters g all
    | .plain =>
      -- the value of the option in front, if it has none yet
      match r.pending with
      | some ⟨name, kind, none⟩ => .ok { r with pending := some ⟨name, kind, some text⟩ }
      | _ => r.path text

/-- The arguments, when there are no more words. -/
def finish (g : Grammar) (r : Reading) : Except Refusal Given := do
  let r ← r.settle
  if g.exclusive.any fun (a, b) => r.given.has a && r.given.has b then .error .conflict
  else pure r.given

end Reading

def Grammar.read (g : Grammar) (words : List String) : Except Refusal Given := do
  let r ← words.foldlM (fun r w => r.step g w.toList) (Reading.start g.paths)
  r.finish g

end Retrace.Command
