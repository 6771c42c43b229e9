import Covenant.Text.Bytes

/-!
# Paths

Names of files, with slashes between their parts.  Everything here looks at the text only.
-/

namespace Covenant.Path

def here : Bytes := "."

def up : Bytes := ".."

def isAbsolute (p : Bytes) : Bool :=
  p.head? == some 47

def parts (p : Bytes) : List Bytes :=
  (p.splitOn 47).filter fun part => part ≠ [] ∧ part ≠ here

/-- The parts that are left when each `..` takes away the part before it.  At the root it leads
nowhere; otherwise it stays when there is nothing to take away.  The parts done so far are in
reverse order. -/
def reduce (rooted : Bool) : (done : List Bytes) → List Bytes → List Bytes
  | done, [] => done.reverse
  | done, part :: rest =>
    if part = up then
      match done with
      | [] => reduce rooted (if rooted then [] else [part]) rest
      | top :: below =>
        if top = up then reduce rooted (part :: done) rest else reduce rooted below rest
    else reduce rooted (part :: done) rest

def steps (p : Bytes) : List Bytes :=
  reduce (isAbsolute p) [] (parts p)

def ofSteps (rooted : Bool) (steps : List Bytes) : Bytes :=
  if rooted then "/" ++ Bytes.join "/" steps
  else if steps.isEmpty then here else Bytes.join "/" steps

def clean (p : Bytes) : Bytes :=
  ofSteps (isAbsolute p) (steps p)

def join (ps : List Bytes) : Bytes :=
  match ps.dropWhile List.isEmpty with
  | [] => []
  | rest => clean (Bytes.join "/" rest)

def resolve (directory p : Bytes) : Bytes :=
  if isAbsolute p then p else join [directory, p]

def tail (p : Bytes) : Bytes :=
  (p.reverse.takeWhile (· ≠ 47)).reverse

def directory (p : Bytes) : Bytes :=
  clean (p.reverse.dropWhile (· ≠ 47)).reverse

def base (p : Bytes) : Bytes :=
  if p.isEmpty then here
  else match tail (p.reverse.dropWhile (· = 47)).reverse with
    | [] => "/"
    | name => name

/-- The last part from its last point on; empty when there is no point. -/
def extension (p : Bytes) : Bytes :=
  let name := (tail p).reverse
  match name.dropWhile (· ≠ 46) with
  | [] => []
  | _ :: _ => 46 :: (name.takeWhile (· ≠ 46)).reverse

def below? (root p : Bytes) : Option Bytes :=
  if isAbsolute root ≠ isAbsolute p then none
  else if (steps root).isPrefixOf (steps p) then
    let rest := (steps p).drop (steps root).length
    if rest.head? == some up then none else some (ofSteps false rest)
  else none

end Covenant.Path
