import LogRules.Engine
import LogRules.Json.Decode
import LogRules.Json.Encode

/-!
The command line: checking sources, printing their canonical text, and simulating the run of a
message. A command sees the files that it names, and answers with a text to print and perhaps an
error.
-/
namespace LogRules

namespace Command

structure SimulateOptions where
  rules : List String
  pipelines : List String
  message : String
  streams : List String
  /-- The pipelines to run; none means all of them. -/
  run : List String
  config : Option String
deriving Inhabited

inductive Request
  | check (files : List String)
  | format (file : String)
  | simulate (options : SimulateOptions)
deriving Inhabited

def Request.paths : Request → List String
  | check files => files
  | format file => [file]
  | simulate options => options.config.toList ++ options.rules ++ options.pipelines

/-- The options of a simulation with the values that were given to them, in order. -/
structure Given where
  rules : List String
  pipelines : List String
  message : List String
  streams : List String
  run : List String
  config : List String

inductive Flag
  | rules
  | pipeline
  | message
  | stream
  | run
  | config
deriving DecidableEq

def flagNames : List (String × Flag) :=
  [("--rules", .rules), ("--pipeline", .pipeline), ("--message", .message),
    ("--stream", .stream), ("--run", .run), ("--config", .config)]

/-- Options whose values go on up to the next option. -/
def Flag.takesMany (flag : Flag) : Bool := flag == .rules || flag == .pipeline

def Given.add (given : Given) (flag : Flag) (values : List String) : Given :=
  match flag with
  | .rules => { given with rules := given.rules ++ values }
  | .pipeline => { given with pipelines := given.pipelines ++ values }
  | .message => { given with message := given.message ++ values }
  | .stream => { given with streams := given.streams ++ values }
  | .run => { given with run := given.run ++ values }
  | .config => { given with config := given.config ++ values }

/-- Whether an argument is an option rather than a value. A hyphen alone is a value. -/
def isOption (argument : String) : Bool :=
  match argument.toList with
  | '-' :: _ :: _ => true
  | _ => false

/-- An option and the value that is joined to it by an equals sign, if there is one. -/
def splitOption (argument : String) : String × Option String :=
  let cs := argument.toList
  let name := cs.takeWhile (· != '=')
  match cs.drop name.length with
  | _ :: value => (String.ofList name, some (String.ofList value))
  | [] => (argument, none)

/-- The argument that ends the options. What follows it is no option, whatever it looks like. -/
def endOfOptions : String := "--"

/-- Reads options one by one; there are at most as many as there are arguments. No value may stand
by itself, so nothing may follow the end of the options. -/
def readOptions : Nat → List String → Given → Option Given
  | _, [], given => some given
  | 0, _ :: _, _ => none
  | fuel + 1, argument :: rest, given =>
    let (name, joined) := splitOption argument
    match (flagNames.find? (·.1 == name)).map (·.2), joined with
    | none, _ => if argument = endOfOptions ∧ rest.isEmpty then some given else none
    | some flag, some value => readOptions fuel rest (given.add flag [value])
    | some flag, none =>
      let values := rest.takeWhile (!isOption ·)
      let taken := if flag.takesMany then values else values.take 1
      if taken.isEmpty then none
      else readOptions fuel (rest.drop taken.length) (given.add flag taken)

def Given.toRequest? (given : Given) : Option Request :=
  match given.message with
  | [message] =>
    if given.config.length ≤ 1 then
      some (.simulate ⟨given.rules, given.pipelines, message, given.streams, given.run,
        given.config.head?⟩)
    else none
  | _ => none

def readFiles? (arguments : List String) : Option (List String) :=
  let plain := arguments.takeWhile (· != endOfOptions)
  if plain.any isOption then none
  else some (plain ++ (arguments.drop plain.length).drop 1)

/-- What the arguments ask for, whatever the paths are. -/
def Request.read? : List String → Option Request
  | "check" :: arguments =>
    (readFiles? arguments).bind fun files => if files.isEmpty then none else some (.check files)
  | "fmt" :: arguments =>
    (readFiles? arguments).bind fun files => match files with
      | [file] => some (.format file)
      | _ => none
  | "simulate" :: options =>
    (readOptions options.length options ⟨[], [], [], [], [], []⟩).bind Given.toRequest?
  | _ => none

/-- What the arguments ask for; nothing if they are not understood. No path is empty. -/
def Request.ofArgs? (arguments : List String) : Option Request :=
  (Request.read? arguments).filter fun request => !request.paths.contains ""

/-- What a command prints, line by line, and the error that it ends with. -/
structure Outcome where
  output : List String
  error : Option String
deriving DecidableEq, Inhabited, Repr

/-- What a command is run with: the files that can be read, the functions of sources, and the
identifier and time of a new message. -/
structure World where
  file? : String → Option String
  registry : Registry
  id : MessageId
  timestamp : Instant

/-- A computation that prints and may end with an error. -/
abbrev CommandM := ExceptT String (StateM (List String))

def print (line : String) : CommandM Unit := modify (· ++ [line])

def readSource (world : World) (path : String) : CommandM String :=
  match world.file? path with
  | some text => return text
  | none => throw s!"Failed to read source: {Text.spell path}"

/-- Prints what is wrong with a source behind its label. -/
def printErrors (label : String) (errors : List Diagnostic) : CommandM Unit :=
  errors.forM fun error => print (label ++ ":" ++ error.text)

def checkFiles (world : World) : List String → CommandM Nat
  | [] => return 0
  | file :: rest => do
    let parsed := parseSource (← readSource world file) world.registry
    printErrors file parsed.errors
    return parsed.errors.length + (← checkFiles world rest)

def runCheck (world : World) (files : List String) : CommandM Unit := do
  let failures ← checkFiles world files
  if 0 < failures then throw s!"{failures} diagnostic(s)"
  print s!"{files.length} file(s) ok"

def runFormat (world : World) (file : String) : CommandM Unit := do
  let parsed := parseSource (← readSource world file) world.registry
  if parsed.isClean then print parsed.text
  else
    printErrors file parsed.errors
    throw s!"{file} has diagnostics, not formatting"

def loadConfig (world : World) : Option String → CommandM Config
  | none => return .standard
  | some path =>
    match world.file? path with
    | none => throw s!"Failed to read config: {Text.spell path}"
    | some text =>
      match Config.ofJson? text with
      | some config => return config
      | none => throw "Failed to deserialize config"

def loadUnits (world : World) (paths : List String) : CommandM (List SourceUnit) :=
  paths.mapM fun path => return ⟨path, ← readSource world path⟩

def runSimulate (world : World) (options : SimulateOptions) : CommandM Unit := do
  let config ← loadConfig world options.config
  let ruleUnits ← loadUnits world options.rules
  let pipelineUnits ← loadUnits world options.pipelines
  match Deployment.build ruleUnits pipelineUnits world.registry with
  | .error invalid =>
    invalid.sources.forM fun source => printErrors source.label source.diagnostics.errors
    throw invalid.text
  | .ok deployment =>
    let names := if options.run.isEmpty then deployment.pipelines.keys else options.run
    match Value.fieldsOfJson? options.message with
    | none => throw "Failed to parse --message JSON"
    | some fields =>
      let message := options.streams.foldl Message.addStream
        { Message.empty world.id world.timestamp with fields }
      let (processed, _) :=
        (Engine.deploy config deployment).simulate message options.streams names
      processed.trace.forM print
      print processed.message.toJson.pretty

def Request.run (world : World) (request : Request) : Outcome :=
  let body := match request with
    | .check files => runCheck world files
    | .format file => runFormat world file
    | .simulate options => runSimulate world options
  match (ExceptT.run body).run [] with
  | (.ok (), output) => ⟨output, none⟩
  | (.error error, output) => ⟨output, some error⟩

end Command

end LogRules
