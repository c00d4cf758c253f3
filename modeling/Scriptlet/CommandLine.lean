import Scriptlet.Node.Outline
import Scriptlet.Session

/-! # The command line

The program shows the tokens of a file, or runs it and reports on every statement. What
it prints is a function of its arguments, of the file and of its surroundings;
`CommandLine.respond` asks for the file only when the arguments name one.
-/

namespace Scriptlet

/-- What is done with a file. -/
inductive Mode where
  | run
  /-- Show the tokens only. -/
  | tokens
  /-- Run, and show the outline of each statement too. -/
  | outline
  deriving Repr, DecidableEq

/-- How a file is processed. -/
structure Options where
  mode : Mode := .run
  color : Bool
  deriving Repr, DecidableEq

/-- What the arguments ask for. -/
inductive Command where
  | help
  | version
  | process (options : Options) (file : String)
  deriving Repr, DecidableEq

/-- Why arguments are refused. -/
inductive UsageError where
  | unknownOption (arg : String)
  | severalFiles
  | noFile
  deriving Repr, DecidableEq

def UsageError.message : UsageError → String
  | unknownOption arg => "unknown option '" ++ arg ++ "'"
  | severalFiles => "more than one input file"
  | noFile => "no input file provided"

/-- Read arguments from the left, with the options and the file given so far. The first
    argument that asks for an answer of its own, or is refused, decides. -/
def Command.parse (options : Options) (file : Option String) :
    List String → Except UsageError Command
  | [] =>
      match file with
      | some file => .ok (.process options file)
      | none => .error .noFile
  | arg :: rest =>
      if arg = "--help" ∨ arg = "-h" then .ok .help
      else if arg = "--version" ∨ arg = "-V" then .ok .version
      else if arg = "--tokens" then parse { options with mode := .tokens } file rest
      else if arg = "--ast" then parse { options with mode := .outline } file rest
      else if arg = "--no-color" then parse { options with color := false } file rest
      else if arg.toList.head? = some '-' then .error (.unknownOption arg)
      else if file.isSome then .error .severalFiles
      else parse options (some arg) rest

/-! ## What is printed -/

/-- Where something is printed. -/
inductive Channel where
  | out
  | err
  deriving Repr, DecidableEq

/-- A text printed with a line break behind it. -/
structure Line where
  channel : Channel
  text : String
  deriving Repr, DecidableEq

/-- What the program leaves behind. -/
structure Report where
  lines : List Line
  failed : Bool := false
  deriving Repr, DecidableEq

namespace Report

/-- Everything printed to a channel. -/
def printed (r : Report) (channel : Channel) : String :=
  String.join ((r.lines.filter (·.channel = channel)).map (·.text ++ "\n"))

def exitCode (r : Report) : UInt32 :=
  if r.failed then 1 else 0

end Report

/-- What colors set apart. -/
inductive Style where
  | statement
  | fault
  | place
  deriving Repr, DecidableEq

namespace Style

/-- The control sequence that a terminal needs before such a text. -/
def opening : Style → String
  | statement => "\x1b[38;5;14m"
  | fault => "\x1b[38;5;9m\x1b[1m"
  | place => "\x1b[38;5;8m"

/-- The control sequence behind such a text. -/
def closing : Style → String
  | statement | place => "\x1b[39m"
  | fault => "\x1b[0m"

/-- Color a text, if there are colors. -/
def paint (s : Style) (color : Bool) (text : String) : String :=
  if color then s.opening ++ text ++ s.closing else text

end Style

namespace CommandLine

/-- How the program is called. -/
def usage : String :=
  "Usage: newlang [--tokens | --ast] [--no-color] <file>"

def helpLines : List Line :=
  [⟨.out, usage⟩,
    ⟨.out, ""⟩,
    ⟨.out, "  --tokens    print the token stream instead of running"⟩,
    ⟨.out, "  --ast       print each statement's syntax tree before running it"⟩,
    ⟨.out, "  --no-color  disable colored output"⟩]

def versionLines : List Line :=
  [⟨.out, "newlang 0.1.0"⟩]

end CommandLine

/-- A report on an error that kept the program from starting. -/
def Report.refusal (message : String) (more : List Line := []) : Report :=
  ⟨⟨.err, "Error: " ++ message⟩ :: more, true⟩

def UsageError.report (e : UsageError) : Report :=
  .refusal e.message [⟨.err, ""⟩, ⟨.err, CommandLine.usage⟩]

/-- Why a file could not be read. -/
inductive FileError where
  | missing
  | unreadable (reason : String)
  deriving Repr, DecidableEq

def FileError.message (e : FileError) (file : String) : String :=
  match e with
  | missing => "File '" ++ file ++ "' not found"
  | unreadable reason => "cannot read '" ++ file ++ "': " ++ reason

/-- One token, behind its place. -/
def Token.line (color : Bool) (t : Token) : Line :=
  ⟨.out, Style.place.paint color t.location.text ++ " " ++ t.describe⟩

/-- What became of one statement. -/
def Outcome.lines (o : Outcome) (options : Options) (name : Option String) : List Line :=
  let statement :=
    match o.statement with
    | some n =>
        (if options.mode = .outline then [⟨.out, n.outlineText⟩] else []) ++
          [⟨.out, " parse: " ++ Style.statement.paint options.color n.text⟩]
    | none => []
  let result :=
    match o.result with
    | .ok v => ⟨.out, "result: " ++ v.inspect⟩
    | .error e => ⟨.err, Style.fault.paint options.color (e.diagnostic name)⟩
  statement ++ [result, ⟨.out, ""⟩]

/-- Report on statements that were run. -/
def Report.ofOutcomes (options : Options) (file : String) (outcomes : List Outcome) : Report :=
  let failures := outcomes.countP (!·.isOk)
  let summary :=
    if failures = 0 then []
    else
      [⟨.err, toString failures ++ " of " ++ toString outcomes.length ++ " statements failed."⟩]
  { lines :=
      ⟨.err, "Running " ++ file ++ "..."⟩ ::
        outcomes.flatMap (·.lines options (some file)) ++ summary
    failed := failures ≠ 0 }

/-- Process the text of a file. -/
def Options.report (options : Options) (file text : String) : Report :=
  let source := Source.ofString text (some file)
  if options.mode = .tokens then ⟨source.tokens.1.map (·.line options.color), false⟩
  else .ofOutcomes options file (({} : Environment).run source).1

/-- Where the program runs. -/
structure Surroundings where
  /-- Is standard output a terminal? -/
  terminal : Bool
  /-- The setting by which a user switches colors off. -/
  noColor : Option String
  deriving Repr, DecidableEq

/-- A user switches colors off with any text that is not empty. -/
def Surroundings.allowsColor (s : Surroundings) : Bool :=
  s.noColor.all (· = "")

namespace CommandLine

/-- The text that the bytes of a file stand for. -/
def decodeFile (bytes : ByteArray) : Except FileError String :=
  match String.fromUTF8? bytes with
  | some text => .ok text
  | none => .error (.unreadable "stream did not contain valid UTF-8")

/-- Answer a command line. `read` gives the bytes of a file. Colors are for terminals
    only, whatever the options say. -/
def respond {m : Type → Type} [Monad m] (surroundings : Surroundings)
    (read : String → m (Except FileError ByteArray)) (args : List String) : m Report := do
  match Command.parse { color := surroundings.allowsColor } none args with
  | .error e => return e.report
  | .ok .help => return ⟨helpLines, false⟩
  | .ok .version => return ⟨versionLines, false⟩
  | .ok (.process options file) =>
      match (← read file) >>= decodeFile with
      | .error e => return .refusal (e.message file)
      | .ok text =>
          return Options.report
            { options with color := options.color && surroundings.terminal } file text

end CommandLine

end Scriptlet
