import Guppy.Lib.Lines
import Guppy.Lib.Words
import Guppy.Pkg.Control

set_option autoImplicit false

/-! # From text to commands

How a command gets its arguments: `split_argv` of `src/helper.c`, `run_command_line` of `src/repl.c`, and the script
runner and `main` of `src/guppy.c`. Each stage has a limit of its own: a script is read in pieces of 1023 bytes, a line
is copied into a buffer of that size, and it is split into at most 32 tokens.
-/

namespace Guppy.Cli

open Vfs (Text)
open Archive (cText)
open Pkg (ascii)

/-! ## Lines -/

/-- The blanks and the quotes of `split_argv` -/
def isSep (c : UInt8) : Bool := c = 32 ∨ c = 9
def isQuote (c : UInt8) : Bool := c = 34 ∨ c = 39

/-- What `rstrip` takes away. -/
def isTrailing (c : UInt8) : Bool := c = 10 ∨ c = 13 ∨ c = 32 ∨ c = 9

/-- `rstrip` -/
def rstrip (s : Text) : Text := s.rdropWhile isTrailing

/-- `rstrip_crlf` -/
def rstripCrlf (s : Text) : Text := s.rdropWhile fun c => c = 10 ∨ c = 13

/-- `is_blank_or_comment` -/
def isBlankOrComment (s : Text) : Bool := (s.dropWhile isSep).head?.all fun c => c = 59 ∨ c = 35

/-- The loop of `split_argv`, with `argc` tokens already taken. -/
def splitArgvFrom (maxv : Nat) : (fuel argc : Nat) → Text → List Text
  | 0, _, _ => []
  | fuel + 1, argc, p =>
      match p.dropWhile isSep with
      | [] => []
      | c :: t =>
          if argc ≥ maxv then []
          else (Words.word isSep isQuote (c :: t)).1 ::
            splitArgvFrom maxv fuel (argc + 1) (Words.word isSep isQuote (c :: t)).2

/-- `split_argv` -/
def splitArgv (line : Text) (maxv : Nat) : List Text := splitArgvFrom maxv line.length 0 line

/-- What `run_command_line` does with a line: the debug switch is not in the table of commands. -/
inductive LineAction
  | nothing
  | debug (on : Bool)
  | command (argv : List Text)
  deriving DecidableEq

/-- `run_command_line`, up to the call of the command -/
def runCommandLine (lineIn : Text) : LineAction :=
  let buf := rstripCrlf (lineIn.take 1023)
  if buf = ascii "debug on" then .debug true
  else if buf = ascii "debug off" then .debug false
  else if buf = [] ∨ buf.head? = some 35 then .nothing
  else if splitArgv buf 32 = [] then .nothing
  else .command (splitArgv buf 32)

/-- What the command of a line receives. -/
def LineAction.argv : LineAction → Option (List Text)
  | .nothing => none
  | .debug on => some [ascii "debug", if on then ascii "on" else ascii "off"]
  | .command argv => some argv

/-- What a line returns, when `exec` is what commands return behind those that were called. -/
def LineAction.rc (exec : List (List Text) → List Text → Int) (called : List (List Text)) : LineAction → Int
  | .nothing => 0
  | .debug _ => 0
  | .command argv => exec called argv

/-! ## Scripts -/

/-- `fgets` into a buffer of `size` bytes: what it stores, and what is left of the file. -/
def fgets (size : Nat) (t : List UInt8) : List UInt8 × List UInt8 :=
  if 10 ∈ t.take (size - 1) then
    ((t.takeWhile fun c => decide (c ≠ 10)) ++ [10], (t.dropWhile fun c => decide (c ≠ 10)).drop 1)
  else (t.take (size - 1), t.drop (size - 1))

def readPiecesFrom : Nat → List UInt8 → List (List UInt8)
  | 0, _ => []
  | _ + 1, [] => []
  | fuel + 1, c :: t => (fgets 1024 (c :: t)).1 :: readPiecesFrom fuel (fgets 1024 (c :: t)).2

/-- What the script runner reads, buffer by buffer. -/
def readPieces (file : List UInt8) : List (List UInt8) := readPiecesFrom file.length file

/-- The loop of `handle_do`: what it returns, and what the commands have received. -/
def doLoop (exec : List (List Text) → List Text → Int) : List (List UInt8) → List (List Text) → Int × List (List Text)
  | [], called => (0, called)
  | piece :: pieces, called =>
      let line := rstrip (cText piece)
      if isBlankOrComment line then doLoop exec pieces called
      else
        let a := runCommandLine line
        let rc := a.rc exec called
        if rc ≠ 0 then (rc, called ++ a.argv.toList) else doLoop exec pieces (called ++ a.argv.toList)

/-- `handle_do`; `fopen` gives the contents of a file. -/
def handleDo (fopen : Text → Option (List UInt8)) (exec : List (List Text) → List Text → Int) :
    List Text → Int × List (List Text)
  | _ :: path :: options =>
      if options.any (· ≠ ascii "-v") then (2, [])
      else
        match fopen path with
        | none => (2, [])
        | some file => doLoop exec (readPieces file) []
  | _ => (2, [])

/-! ## The arguments of the program -/

/-- `ends_with` -/
def endsWith (s suffix : Text) : Bool := suffix <:+ s

/-- The arguments with blanks between them. -/
def joinArgs : List Text → Text
  | [] => []
  | [a] => a
  | a :: b :: args => a ++ 32 :: joinArgs (b :: args)

/-- What `main` does: it reads commands, runs a script or one line; some of these are followed by reading commands. -/
inductive Start
  | repl
  | script (doArgv : List Text) (interactive : Bool)
  | doCommand (doArgv : List Text)
  | oneShot (line : Text) (interactive : Bool)
  deriving DecidableEq

/-- `main`, for the arguments behind the name of the program -/
def mainDispatch : List Text → Start
  | [] => .repl
  | path :: rest =>
      if endsWith path (ascii ".script") then
        .script [ascii "do", path] (rest.head? = some (ascii "--interactive"))
      else if path = ascii "do" then .doCommand (path :: rest)
      else .oneShot (joinArgs (path :: rest)) ((path :: rest).any (· = ascii "--interactive"))

end Guppy.Cli
