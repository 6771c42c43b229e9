import Covenant.Session
import Covenant.Session.Pending

/-!
# Dialogues

A session that reads its input line by line: it prompts, gathers lines until the input is
complete, and answers.  The dialogue ends with the word `exit` or `quit`, or with the input.
-/

namespace Covenant.Dialogue

/-- A piece of a dialogue. -/
inductive Event where
  /-- A request for a line. -/
  | prompt (text : Bytes)
  /-- An answer. -/
  | output (text : Bytes)

def Event.text : Event → Bytes
  | prompt t => t
  | output t => t

def maxLine : Nat := 4096

/-- The lines of an input, where `taken` holds the bytes of the current line in reverse.  A line
feed, with a carriage return before it, ends a line.  A line that is too long is broken, but not
behind a carriage return. -/
def linesFrom : (taken : Bytes) → (size : Nat) → Bytes → List Bytes
  | taken, _, [] => if taken.isEmpty then [] else [taken.reverse]
  | taken, size, b :: rest =>
    if b = 10 then
      let line := match taken with
        | 13 :: front => front
        | _ => taken
      line.reverse :: linesFrom [] 0 rest
    else if size + 1 = maxLine then
      if b = 13 then taken.reverse :: linesFrom [13] 1 rest
      else (b :: taken).reverse :: linesFrom [] 0 rest
    else linesFrom (b :: taken) (size + 1) rest

def lines (input : Bytes) : List Bytes :=
  linesFrom [] 0 input

def logo : Bytes :=
  "\n█▀ ▀█▀ ▀▄▀ █▀▀\n▄█ ░█░ █░█ █▄▄ "

def greeting (version : Bytes) : Bytes :=
  logo ++ "v " ++ version ++
    "\n\nType 'exit' or Ctrl+D to quit\nType ':help' for REPL commands\n\n"

def prompt (s : Session) (gathered : Bytes) : Bytes :=
  if !gathered.isEmpty then ".. " else if s.showProgram then "ast> " else ">> "

def answer (s : Session) (input : Bytes) : Bytes × Session :=
  match s.eval input with
  | (.ok text, s') => (text ++ "\n", s')
  | (.error f, s') => (f.report, s')

def converse (s : Session) (gathered : Bytes) : List Bytes → List Event
  | [] => [.prompt (prompt s gathered), .output "\nGoodbye!\n"]
  | line :: rest =>
    let word := line.trim
    let fresh := gathered.isEmpty
    .prompt (prompt s gathered) ::
      if fresh && (word == Bytes.ofString "exit" || word == Bytes.ofString "quit") then
        [.output "Goodbye!\n"]
      else if fresh && word.hasPrefix ":" then
        let (text, s') := s.command word
        .output text :: converse s' [] rest
      else if fresh && word.isEmpty then converse s [] rest
      else
        let input := if fresh then line else gathered ++ "\n" ++ line
        if Pending.needsMore input then converse s input rest
        else
          let (text, s') := answer s input
          .output text :: converse s' [] rest

def run (version : Bytes) (s : Session) (input : Bytes) : List Event :=
  .output (greeting version) :: converse s [] (lines input)

def transcript (events : List Event) : Bytes :=
  events.flatMap Event.text

def outputs (events : List Event) : Bytes :=
  events.flatMap fun
    | .prompt _ => []
    | .output t => t

end Covenant.Dialogue
