import LiveTemplate.Command.Run

/-!
# LiveTemplate.Main

The program: reads the files that a task names, runs it and prints what comes of it.
-/

namespace LiveTemplate
namespace Command

def programName : String := "livetemplate"

def programVersion : String := "0.1.0"

def usageText : String :=
  "Compile and render templates\n\nUsage:\n"
    ++ s!"  {programName} [-v] inspect <input> [--format <format>]\n"
    ++ s!"  {programName} [-v] render <input> [--scope <scope>] [--then <scope>]... "
    ++ "[--format <format>]\n\n"
    ++ "Formats: markup, json. A scope is a JSON object, or @ and the name of a file with one.\n"

def UsageError.text : UsageError → String
  | .help | .noArguments => usageText
  | .version => s!"{programName} {programVersion}\n"
  | .missingSubcommand => "error: a subcommand is required\n"
  | .missingInput => "error: a template file is required\n"
  | .unknownSubcommand => "error: unrecognized subcommand\n"
  | .unknownArgument => "error: unexpected argument\n"
  | .invalidValue => "error: invalid or missing value of an argument\n"
  | .unexpectedValue => "error: unexpected value of an option\n"
  | .repeatedOption => "error: an option cannot be used multiple times\n"

def Reason.message : Reason → String
  | .text s => s
  | .unreadable => "the file cannot be read"
  | .notJson => "the text is not valid JSON"

/-- The outermost reason, and the ones behind it on lines of their own. -/
def Failure.message (failure : Failure) : String :=
  match failure.reasons.map Reason.message with
  | [] => "Error\n"
  | outer :: causes =>
    let list := String.join (causes.map fun cause => s!"    {cause}\n")
    if causes.isEmpty then s!"Error: {outer}\n" else s!"Error: {outer}\n\nCaused by:\n{list}"

/-- The content of a file, nothing if it cannot be read as text. -/
def readFile? (path : String) : IO (Option String) := do
  try
    return some (← IO.FS.readFile path)
  catch _ =>
    return none

end Command
end LiveTemplate

open LiveTemplate LiveTemplate.Command in
def main (args : List String) : IO UInt32 := do
  match readArguments args with
  | .error e =>
    if e = .help || e = .version then
      IO.print e.text
      return 0
    else
      IO.eprint e.text
      return 2
  | .ok invocation =>
    let contents ← invocation.task.files.mapM fun path => do
      return (path, ← readFile? path)
    let files : Files := fun path => (contents.lookup path).join
    match run files invocation.task with
    | .ok output =>
      IO.print output
      return 0
    | .error failure =>
      IO.eprint failure.message
      return 1
