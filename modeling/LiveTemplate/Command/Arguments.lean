import LiveTemplate.Text.Search

/-!
# LiveTemplate.Command.Arguments

The arguments of the command line. They are read from left to right and the first fault counts;
what is missing altogether shows only at the end. An option waits for its value until the next
argument comes, so a value that is missing shows there.
-/

namespace LiveTemplate
namespace Command

inductive Format where
  | markup
  | json
  deriving DecidableEq, Repr

/-- What the command line can be asked to do. -/
inductive Task where
  | inspect (input : String) (format : Format)
  | render (input : String) (scope : Option String) (updates : List String) (format : Format)
  deriving DecidableEq, Repr

structure Invocation where
  task : Task
  verbosity : Nat
  deriving DecidableEq, Repr

/-- Why arguments give no task. -/
inductive UsageError where
  | help
  | version
  | noArguments
  | missingSubcommand
  | missingInput
  | unknownSubcommand
  | unknownArgument
  | invalidValue
  | unexpectedValue
  | repeatedOption
  deriving DecidableEq, Repr

/-- The tasks by name. -/
inductive Subcommand where
  | inspect
  | render
  deriving DecidableEq, Repr

/-- The things a subcommand takes. -/
inductive Field where
  | input
  | scope
  | update
  | format
  deriving DecidableEq, Repr

/-- Counts of flags stop here. -/
def verbosityLimit : Nat := 255

/-- An argument as it looks. -/
inductive Shape where
  /-- Two hyphens alone: only plain arguments follow. -/
  | endOfOptions
  | long (name : String) (value : Option String)
  | short (flags : List Char)
  | plain
  deriving DecidableEq, Repr

def shapeOf (arg : String) : Shape :=
  match arg.toList with
  | ['-', '-'] => .endOfOptions
  | '-' :: '-' :: rest =>
    match Text.breakOn? ['='] rest with
    | some (name, value) => .long (String.ofList name) (some (String.ofList value))
    | none => .long (String.ofList rest) none
  | ['-'] => .plain
  | '-' :: flags => .short flags
  | _ => .plain

/-! ## Inside a subcommand -/

/-- What is read so far. `pending` waits: for its value, or to be taken in once the next argument
comes. -/
structure Progress where
  input : Option String := none
  scope : Option String := none
  updates : List String := []
  format : Option Format := none
  verbosity : Nat := 0
  pending : Option (Field × Option String) := none

def readFormat? (value : String) : Option Format :=
  if value = "markup" then some .markup else if value = "json" then some .json else none

namespace Progress

/-- Takes a value in. All but the updates can be given once. -/
def take (p : Progress) (field : Field) (value : String) : Except UsageError Progress :=
  match field with
  | .input => if value = "" then .error .invalidValue else .ok { p with input := some value }
  | .scope =>
    if p.scope.isSome then .error .repeatedOption else .ok { p with scope := some value }
  | .update => .ok { p with updates := p.updates ++ [value] }
  | .format =>
    if p.format.isSome then .error .repeatedOption
    else
      match readFormat? value with
      | some format => .ok { p with format := some format }
      | none => .error .invalidValue

/-- Takes in what is pending. -/
def settle (p : Progress) : Except UsageError Progress :=
  match p.pending with
  | none => .ok p
  | some (_, none) => .error .invalidValue
  | some (field, some value) => take { p with pending := none } field value

/-- One more occurrence of the flag for verbosity. -/
def raise (p : Progress) : Except UsageError Progress := do
  let p ← p.settle
  return { p with verbosity := min (p.verbosity + 1) verbosityLimit }

/-- The option of that name. -/
def option? (command : Subcommand) (name : String) : Option Field :=
  match command, name with
  | _, "format" => some .format
  | .render, "scope" => some .scope
  | .render, "then" => some .update
  | _, _ => none

def long (command : Subcommand) (p : Progress) (name : String) (value : Option String) :
    Except UsageError Progress :=
  if name = "verbose" || name = "help" then
    if value.isSome then .error .unexpectedValue
    else if name = "verbose" then p.raise
    else p.settle.bind fun _ => .error .help
  else
    match option? command name with
    | none => .error .unknownArgument
    | some field => do
      let p ← p.settle
      match value with
      | some value => p.take field value
      | none => return { p with pending := some (field, none) }

def short (p : Progress) : List Char → Except UsageError Progress
  | [] => .ok p
  | 'v' :: flags => do
    let p ← p.raise
    p.short flags
  | 'h' :: _ => p.settle.bind fun _ => .error .help
  | _ => .error .unknownArgument

/-- An argument that is no option: the value that is waited for, or the input. Behind the end of
the options nothing is a value any more. -/
def plain (p : Progress) (optionsEnded : Bool) (arg : String) : Except UsageError Progress :=
  match p.pending, optionsEnded with
  | some (field, none), false => .ok { p with pending := some (field, some arg) }
  | pending, _ =>
    if p.input.isSome || pending.any (·.1 = .input) then .error .unknownArgument
    else do
      let p ← p.settle
      return { p with pending := some (.input, some arg) }

def read (command : Subcommand) (p : Progress) (optionsEnded : Bool) :
    List String → Except UsageError Progress
  | [] => p.settle
  | arg :: rest =>
    if optionsEnded then do
      let p ← p.plain true arg
      p.read command true rest
    else
      match shapeOf arg with
      | .endOfOptions => p.read command true rest
      | .long name value => do
        let p ← p.long command name value
        p.read command false rest
      | .short flags => do
        let p ← p.short flags
        p.read command false rest
      | .plain => do
        let p ← p.plain false arg
        p.read command false rest

end Progress

/-- Reads the arguments of a subcommand. Flags for verbosity in front of it count only if there are
none behind it. -/
def readSubcommand (command : Subcommand) (before : Nat) (args : List String) :
    Except UsageError Invocation := do
  let p ← Progress.read command {} false args
  match p.input with
  | none => throw .missingInput
  | some input =>
    let format := p.format.getD .markup
    let task :=
      match command with
      | .inspect => Task.inspect input format
      | .render => .render input p.scope p.updates format
    return ⟨task, if p.verbosity = 0 then before else p.verbosity⟩

/-! ## In front of the subcommand -/

def subcommand? (name : String) : Option Subcommand :=
  if name = "inspect" then some .inspect else if name = "render" then some .render else none

/-- Flags in one argument, in front of the subcommand. -/
def leadingFlags (verbosity : Nat) : List Char → Except UsageError Nat
  | [] => .ok verbosity
  | 'v' :: flags => leadingFlags (min (verbosity + 1) verbosityLimit) flags
  | 'h' :: _ => .error .help
  | 'V' :: _ => .error .version
  | _ => .error .unknownArgument

/-- Asking for help on a subcommand. -/
def helpOn : List String → UsageError
  | [] => .help
  | name :: rest =>
    if name = "help" || (subcommand? name).isSome then
      if rest.isEmpty then .help else .unknownSubcommand
    else .unknownSubcommand

def readLeading (verbosity : Nat) : List String → Except UsageError Invocation
  | [] => .error (if verbosity = 0 then .noArguments else .missingSubcommand)
  | arg :: rest =>
    if arg = "help" then .error (helpOn rest)
    else
      match subcommand? arg with
      | some command => readSubcommand command verbosity rest
      | none =>
        match shapeOf arg with
        | .endOfOptions =>
          match rest with
          | [] => .error (if verbosity = 0 then .noArguments else .missingSubcommand)
          | next :: _ =>
            .error (if next = "help" || (subcommand? next).isSome then .unknownArgument
              else .unknownSubcommand)
        | .long name value =>
          if name = "verbose" || name = "help" || name = "version" then
            if value.isSome then .error .unexpectedValue
            else if name = "verbose" then
              readLeading (min (verbosity + 1) verbosityLimit) rest
            else .error (if name = "help" then .help else .version)
          else .error .unknownArgument
        | .short flags => do
          let verbosity ← leadingFlags verbosity flags
          readLeading verbosity rest
        | .plain => .error .unknownSubcommand

/-- Reads the arguments after the program's name. -/
def readArguments (args : List String) : Except UsageError Invocation := readLeading 0 args

end Command
end LiveTemplate
