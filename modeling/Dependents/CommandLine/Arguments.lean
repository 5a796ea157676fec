import Dependents.Config.Json
import Dependents.Text.LineCol

/-! The arguments of the command line, read from left to right. An option's value is checked when the
next known argument begins, so an unknown argument outranks a bad value right before it. -/
namespace Dependents.CommandLine

inductive UsageFault where
  | missingRequiredArgument
  | argumentConflict
  | invalidValue
  | valueValidation
  | unknownArgument
  | tooManyValues
  | displayHelp
  | displayVersion
deriving DecidableEq, Repr

inductive OutputFormat where
  | text
  | json
deriving DecidableEq, Repr

def OutputFormat.ofName? : String → Option OutputFormat
  | "text" => some .text
  | "json" => some .json
  | _ => none

inductive Parameter where
  | input
  | target
  | function
  | offset
  | cursor
  | format
  | output
  | resolution
  | extensions
  | exclude
  | cacheDir
  | config
  | verbose
  | help
  | version
deriving DecidableEq, Repr

namespace Parameter

def ofLong? : String → Option Parameter
  | "input" => some .input
  | "function" => some .function
  | "offset" => some .offset
  | "at" => some .cursor
  | "format" => some .format
  | "output" => some .output
  | "resolution" => some .resolution
  | "extensions" => some .extensions
  | "exclude" => some .exclude
  | "cache-dir" => some .cacheDir
  | "config" => some .config
  | "verbose" => some .verbose
  | "help" => some .help
  | "version" => some .version
  | _ => none

def ofShort? : Char → Option Parameter
  | 'i' => some .input
  | 'f' => some .function
  | 'o' => some .output
  | 'v' => some .verbose
  | 'h' => some .help
  | 'V' => some .version
  | _ => none

def takesValue : Parameter → Bool
  | .verbose | .help | .version => false
  | _ => true

end Parameter

structure Arguments where
  inputs : List Path
  target : Option Path
  function : Option String
  offset : Option Nat
  cursor : Option Position
  format : Option OutputFormat
  output : Option Path
  resolution : Option ResolutionPolicy
  extensions : Option (List String)
  exclude : Option (List String)
  cacheDir : Option Path
  config : Option Path
deriving DecidableEq, Repr

namespace Arguments

def empty : Arguments :=
  ⟨[], none, none, none, none, none, none, none, none, none, none, none⟩

end Arguments

/-- A value that may be given once: a second one is a conflict, whatever it is. -/
def once {α : Type} (given : Option α) (value : Except UsageFault α) : Except UsageFault (Option α) :=
  match given with
  | some _ => .error .argumentConflict
  | none => value.map some

def pathValue (value : String) : Except UsageFault Path :=
  if value.isEmpty then .error .invalidValue else .ok ⟨value⟩

def choice {α : Type} (ofName? : String → Option α) (value : String) : Except UsageFault α :=
  match ofName? value with
  | some a => .ok a
  | none => .error .invalidValue

def checked {α : Type} (read? : String → Option α) (value : String) : Except UsageFault α :=
  match read? value with
  | some a => .ok a
  | none => .error .valueValidation

def items : List Char → List (List Char)
  | [] => [[]]
  | c :: cs =>
    if c = ',' then [] :: items cs
    else match items cs with
      | [] => [[c]]
      | item :: rest => (c :: item) :: rest

/-- Adds the items of a list with commas to those given before. -/
def withItems (given : Option (List String)) (value : String) : Option (List String) :=
  some (given.getD [] ++ (items value.toList).map String.ofList)

namespace Arguments

/-- Takes the value of a parameter in. -/
def accept (args : Arguments) (parameter : Parameter) (value : String) :
    Except UsageFault Arguments :=
  match parameter with
  | .input => return { args with inputs := args.inputs ++ [← pathValue value] }
  | .target => return { args with target := ← once args.target (pathValue value) }
  | .function => return { args with function := ← once args.function (.ok value) }
  | .offset =>
    return { args with
      offset := ← once args.offset (checked (fun s => Text.readWord? s.toList) value) }
  | .cursor =>
    return { args with
      cursor := ← once args.cursor (checked (fun s => (Position.ofLocation s).toOption) value) }
  | .format => return { args with format := ← once args.format (choice OutputFormat.ofName? value) }
  | .output => return { args with output := ← once args.output (pathValue value) }
  | .resolution =>
    return { args with
      resolution := ← once args.resolution (choice ResolutionPolicy.ofName? value) }
  | .extensions => return { args with extensions := withItems args.extensions value }
  | .exclude => return { args with exclude := withItems args.exclude value }
  | .cacheDir => return { args with cacheDir := ← once args.cacheDir (pathValue value) }
  | .config => return { args with config := ← once args.config (pathValue value) }
  | .verbose | .help | .version => return args

end Arguments

/-- An argument that is not settled yet. -/
inductive Pending where
  | awaiting (parameter : Parameter)
  | filled (parameter : Parameter) (value : String)
deriving DecidableEq, Repr

structure Reading where
  args : Arguments
  pending : Option Pending
  targeted : Bool
  trailing : Bool
deriving DecidableEq, Repr

namespace Reading

def start : Reading := ⟨.empty, none, false, false⟩

def settle (r : Reading) : Except UsageFault Reading :=
  match r.pending with
  | none => .ok r
  | some (.awaiting _) => .error .invalidValue
  | some (.filled parameter value) => do
    return { r with args := ← r.args.accept parameter value, pending := none }

/-- Meets an option that takes a value, which may be attached to it. -/
def valued (r : Reading) (parameter : Parameter) (attached : Option String) :
    Except UsageFault Reading := do
  let r ← r.settle
  match attached with
  | some value => return { r with args := ← r.args.accept parameter value }
  | none => return { r with pending := some (.awaiting parameter) }

def bare (r : Reading) (parameter : Parameter) : Except UsageFault Reading := do
  let r ← r.settle
  match parameter with
  | .help => throw .displayHelp
  | .version => throw .displayVersion
  | _ => return r

def long (r : Reading) (cs : List Char) : Except UsageFault Reading :=
  let attached := match cs.dropWhile (· != '=') with
    | [] => none
    | _ :: value => some (String.ofList value)
  match Parameter.ofLong? (String.ofList (cs.takeWhile (· != '='))) with
  | none => .error .unknownArgument
  | some parameter =>
    if parameter.takesValue then r.valued parameter attached
    -- What is pending is not settled first, so this outranks a bad value before it.
    else if attached.isSome then .error .tooManyValues
    else r.bare parameter

/-- Meets a cluster of letters, without its dash. The rest of the cluster is the value of the first
letter that takes one. -/
def short (r : Reading) : List Char → Except UsageFault Reading
  | [] => .ok r
  | c :: rest =>
    match Parameter.ofShort? c with
    | none => .error .unknownArgument
    | some parameter =>
      if parameter.takesValue then
        r.valued parameter <| match rest with
          | [] => none
          | '=' :: value => some (String.ofList value)
          | value => some (String.ofList value)
      else do
        let r ← r.bare parameter
        r.short rest

/-- Meets something that is no option: the value that is awaited, or the target. -/
def plain (r : Reading) (value : String) : Except UsageFault Reading :=
  match r.pending, r.trailing with
  -- Behind two dashes nothing is a value any more, not even of an option that awaits one.
  | some (.awaiting parameter), false => .ok { r with pending := some (.filled parameter value) }
  | _, _ =>
    if r.targeted then .error .unknownArgument
    else do
      let r ← r.settle
      return { r with pending := some (.filled .target value), targeted := true }

def step (r : Reading) (arg : String) : Except UsageFault Reading :=
  if r.trailing then r.plain arg
  else match arg.toList with
    | ['-', '-'] => .ok { r with trailing := true }
    | '-' :: '-' :: rest => r.long rest
    -- One dash alone is no option.
    | ['-'] => r.plain arg
    | '-' :: rest => r.short rest
    | _ => r.plain arg

end Reading

namespace Arguments

/-- How many ways of naming a function are used. They exclude each other. -/
def selectors (args : Arguments) : Nat :=
  args.function.toList.length + args.offset.toList.length + args.cursor.toList.length

/-- Refuses what does not go together, then what is incomplete. -/
def checkTogether (args : Arguments) : Except UsageFault Arguments :=
  if 1 < args.selectors then .error .argumentConflict
  else if args.inputs.isEmpty then .error .missingRequiredArgument
  else if 0 < args.selectors ∧ args.target.isNone then .error .missingRequiredArgument
  else .ok args

def read (args : List String) : Except UsageFault Arguments := do
  let r ← args.foldlM Reading.step Reading.start
  let r ← r.settle
  r.args.checkTogether

end Arguments

end Dependents.CommandLine
