import Retrace.Command.Grammar

/-!
# Commands

* `Command` — what the program can be told to do;
* `Invocation.ofWords` — the command that the words of a command line call for.

Options that say how much to report may stand before the name of the command or after it.  If both
places say how much, the latter counts, except that being quiet always wins.
-/

namespace Retrace

/-! ## Commands -/

/-- How much to report while working. -/
inductive Verbosity where
  | quiet
  | normal
  | verbose
  | debug
deriving DecidableEq, Repr, Inhabited

/-- The least severe messages that are still reported. -/
def Verbosity.level : Verbosity → String
  | quiet => "error"
  | normal => "warn"
  | verbose => "info"
  | debug => "debug"

inductive Command where
  | decode (trace : String) (json : Bool)
  | stack (trace : String) (index context : Nat) (json : Bool)
  | modules (trace : String) (json : Bool)
  | applyEdit (sourceMap edit : String) (output : Option String)
      (generated : Option (String × String))
  | lookup (sourceMap : String) (line column : Nat) (json : Bool)
deriving DecidableEq, Repr, Inhabited

/-- Answers in JSON if `prefers` says so.  The result of an edit has only one form. -/
def Command.preferJson (prefers : Bool) : Command → Command
  | .decode trace json => .decode trace (json || prefers)
  | .stack trace index context json => .stack trace index context (json || prefers)
  | .modules trace json => .modules trace (json || prefers)
  | .applyEdit sourceMap edit output generated => .applyEdit sourceMap edit output generated
  | .lookup sourceMap line column json => .lookup sourceMap line column (json || prefers)

structure Invocation where
  verbosity : Verbosity
  command : Command
deriving DecidableEq, Repr, Inhabited

namespace Command

/-! ## Grammars -/

inductive Name where
  | decode
  | stack
  | modules
  | applyEdit
  | lookup
deriving DecidableEq, Repr

def Name.ofText? : String → Option Name
  | "decode" => some decode
  | "stack" => some stack
  | "modules" => some modules
  | "apply-edit" => some applyEdit
  | "lookup" => some lookup
  | _ => none

/-- The options that may stand on either side of the name of a command. -/
def everywhere : List Opt :=
  [⟨"verbose", some 'v', .repeated⟩, ⟨"quiet", some 'q', .once⟩, ⟨"help", some 'h', .help⟩]

def exclusive : List (String × String) := [("quiet", "verbose")]

/-- What may stand before the name of a command. -/
def front : Grammar := ⟨⟨"version", some 'V', .version⟩ :: everywhere, [], exclusive⟩

def jsonOption : Opt := ⟨"json", none, .once⟩

/-- What may follow the name of a command. -/
def Name.grammar : Name → Grammar
  | decode => ⟨jsonOption :: everywhere, ["trace"], exclusive⟩
  | modules => ⟨jsonOption :: everywhere, ["trace"], exclusive⟩
  | stack =>
    ⟨⟨"index", some 'i', .value .word64⟩ :: ⟨"context", some 'c', .value .word64⟩
      :: jsonOption :: everywhere, ["trace"], exclusive⟩
  | applyEdit =>
    ⟨⟨"source-map", some 'm', .value .path⟩ :: ⟨"edit", some 'e', .value .path⟩
      :: ⟨"output", some 'o', .value .path⟩ :: ⟨"generated", none, .value .path⟩
      :: ⟨"generated-output", none, .value .path⟩ :: everywhere, [], exclusive⟩
  | lookup =>
    ⟨⟨"line", some 'l', .value .word32⟩ :: ⟨"column", some 'c', .value .word32⟩
      :: jsonOption :: everywhere, ["source-map"], exclusive⟩

/-- A pair of paths of which either both or none are given. -/
def pair? : Option String → Option String → Option (Option (String × String))
  | some a, some b => some (some (a, b))
  | none, none => some none
  | _, _ => none

/-- The command with the arguments given, if none is missing. -/
def ofGiven? (name : Name) (g : Given) : Option Command := do
  let json := g.has "json"
  match name with
  | .decode => pure (decode (← g.text? "trace") json)
  | .modules => pure (modules (← g.text? "trace") json)
  | .stack =>
    let context := (g.number? "context").getD 0
    pure (stack (← g.text? "trace") (← g.number? "index") context json)
  | .applyEdit =>
    let generated ← pair? (g.text? "generated") (g.text? "generated-output")
    pure (applyEdit (← g.text? "source-map") (← g.text? "edit") (g.text? "output") generated)
  | .lookup =>
    pure (lookup (← g.text? "source-map") (← g.number? "line") (← g.number? "column") json)

/-- The command that words after its name complete, and what they say about reporting. -/
def ofWords (name : Name) (words : List String) : Except Refusal (Command × Given) := do
  let g ← name.grammar.read words
  match ofGiven? name g with
  | some c => pure (c, g)
  | none => .error .missingArgument

end Command

namespace Verbosity

/-- What is asked for before and after the name of the command. -/
def ofGiven (outer inner : Command.Given) : Verbosity :=
  if outer.has "quiet" || inner.has "quiet" then quiet
  else
    match (if inner.has "verbose" then inner else outer).count "verbose" with
    | 0 => normal
    | 1 => verbose
    | _ => debug

end Verbosity

namespace Invocation

open Command

/-- Asking for help, on the whole program or on one command. -/
def helpOn : List String → Refusal
  | [] => .help
  | [word] => if word = "help" ∨ (Name.ofText? word).isSome then .help else .unknownCommand
  | _ => .unknownCommand

/-- After two dashes, a command can no longer be named. -/
def misplaced (word : String) : Refusal :=
  if word = "help" ∨ (Name.ofText? word).isSome then .unknownArgument else .unknownCommand

/-- Reads on after some words of the front. -/
def ofReading (r : Reading) : List String → Except Refusal Invocation
  | [] => .error (if r.given = [] then .nothing else .noCommand)
  | word :: rest =>
    if r.onlyPaths then .error (misplaced word)
    else if Word.ofText word.toList ≠ .plain then do
      ofReading (← r.step front word.toList) rest
    else if word = "help" then .error (helpOn rest)
    else
      match Name.ofText? word with
      | none => .error .unknownCommand
      | some name => do
        -- what is wrong behind the name is reported first
        let (command, inner) ← ofWords name rest
        let outer ← r.finish front
        pure ⟨Verbosity.ofGiven outer inner, command⟩

/-- The command that a command line calls for, without the name of the program. -/
def ofWords (words : List String) : Except Refusal Invocation :=
  ofReading (Reading.start front.paths) words

end Invocation

end Retrace
