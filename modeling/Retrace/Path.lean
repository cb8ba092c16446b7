/-!
# Paths of files

Paths are texts of components parted by `/`.  Empty components and those that are a single dot lead
nowhere, except for a dot at the very front.

* `Path.parent?` — a path without its last component;
* `Path.join` — a path below another one;
* `Path.components` — where a path leads, starting from the directory it is relative to.
-/

namespace Retrace.Path

/-- The texts between slashes, of which there is always one more than slashes. -/
def split : List Char → List (List Char)
  | [] => [[]]
  | c :: rest =>
    if c = '/' then [] :: split rest
    else
      match split rest with
      | [] => [[c]]
      | part :: others => (c :: part) :: others

def unsplit (parts : List (List Char)) : List Char := List.intercalate ['/'] parts

/-- A component that leads nowhere. -/
def IsTrivial (part : List Char) : Prop := part = [] ∨ part = ['.']

instance (part : List Char) : Decidable (IsTrivial part) :=
  inferInstanceAs (Decidable (_ ∨ _))

def dropTrivialEnd (parts : List (List Char)) : List (List Char) :=
  (parts.reverse.dropWhile fun part => IsTrivial part).reverse

def IsAbsolute (path : List Char) : Prop := path.head? = some '/'

instance (path : List Char) : Decidable (IsAbsolute path) :=
  inferInstanceAs (Decidable (path.head? = some '/'))

/-! ## Parents -/

/-- The part of a path that is no component and goes last: the root, or a dot at the front. -/
def head : List Char → List Char
  | '/' :: _ => ['/']
  | ['.'] => ['.']
  | '.' :: '/' :: _ => ['.']
  | _ => []

/-- The path without its last component, with no trivial components at its end.  The root and the
empty path have none to lose. -/
def parent? (path : List Char) : Option (List Char) :=
  -- a dot at the front is a component, elsewhere it is none
  let front := head path
  let parts := dropTrivialEnd (split (path.drop front.length))
  if parts = [] then if front = ['.'] then some [] else none
  else some (front ++ unsplit (dropTrivialEnd parts.dropLast))

/-! ## Joining -/

/-- The path `below` as seen from the directory `path`.  An absolute one is the same from
everywhere. -/
def join (path below : List Char) : List Char :=
  if IsAbsolute below then below
  else if path = [] ∨ path.getLast? = some '/' then path ++ below
  else path ++ '/' :: below

/-! ## Components -/

/-- The components that lead somewhere. -/
def components (path : List Char) : List (List Char) :=
  (split path).filter fun part => ¬ IsTrivial part

end Retrace.Path
