import Deduction.Batch.Pool

/-!
# The command line

The options, and what a run prints: responses on standard output and a log on
standard error.
-/

namespace Deduction.CommandLine

/-- How much is logged. -/
inductive LogLevel where
  | off
  | error
  | warn
  | info
  | debug
  | trace
  deriving DecidableEq, Repr

/-- Levels that log more have greater ranks. -/
def LogLevel.rank : LogLevel → Nat
  | off => 0
  | error => 1
  | warn => 2
  | info => 3
  | debug => 4
  | trace => 5

/-- The level with a name. -/
def LogLevel.ofName? (name : String) : Option LogLevel :=
  [("off", off), ("error", error), ("warn", warn), ("info", info), ("debug", debug),
    ("trace", trace)].lookup name

/-- The options of a run. -/
structure Options where
  /-- The file with the requests; standard input if there is none. -/
  path : Option String := none
  /-- The number of workers. -/
  jobs : Nat := 1
  /-- How much is logged. -/
  level : LogLevel := .warn
  /-- Whether only the names of the calculi are listed. -/
  list : Bool := false
  deriving DecidableEq, Repr

/-- What is asked for on the command line. -/
inductive Command where
  /-- A run with options. -/
  | run (options : Options)
  /-- A description of the command line. -/
  | help
  /-- Nothing that is understood. -/
  | unusable
  deriving DecidableEq, Repr

/-- The arguments as they stand, before they are given a meaning. An option that has been given
no value stands with none. -/
structure Given where
  /-- What stands alone. -/
  paths : List String := []
  /-- The values of `--jobs`. -/
  jobs : List (Option String) := []
  /-- The values of `--log-level`. -/
  levels : List (Option String) := []
  /-- How often `--list` is given. -/
  lists : Nat := 0
  deriving DecidableEq, Repr

/-- The name and the value of a long option; further hyphens before the name and equality signs
before the value are skipped. -/
def splitOption (arg : List Char) : String × Option String :=
  let body := arg.dropWhile (· == '-')
  let name := String.ofList (body.takeWhile (· != '='))
  match body.dropWhile (· != '=') with
  | [] => (name, none)
  | value => (name, some (String.ofList (value.dropWhile (· == '='))))

/-- Whether an argument can be the value of the option before it. -/
def isValue (arg : String) : Bool :=
  match arg.toList with
  | '-' :: _ :: _ => false
  | _ => true

/-- The value of an option and the arguments behind it. -/
def takeValue (value : Option String) (rest : List String) : Option String × List String :=
  match value, rest with
  | some v, _ => (some v, rest)
  | none, [] => (none, [])
  | none, arg :: rest' => if isValue arg then (some arg, rest') else (none, arg :: rest')

theorem length_takeValue (value : Option String) (rest : List String) :
    (takeValue value rest).2.length ≤ rest.length := by
  unfold takeValue
  split
  · simp
  · simp
  · split <;> simp

/-- Sort the arguments by option. An option that is not known ends it. -/
def collect (given : Given) : List String → Except Command Given
  | [] => .ok given
  | arg :: rest =>
    match arg.toList with
    | ['-', '-'] => .ok { given with paths := given.paths ++ rest }
    | '-' :: '-' :: _ =>
      let (name, value) := splitOption arg.toList
      if name = "list" then collect { given with lists := given.lists + 1 } rest
      else if name = "jobs" then
        let taken := takeValue value rest
        collect { given with jobs := given.jobs ++ [taken.1] } taken.2
      else if name = "log-level" then
        let taken := takeValue value rest
        collect { given with levels := given.levels ++ [taken.1] } taken.2
      else if name = "help" || name = "version" then .error .help
      else .error .unusable
    | '-' :: c :: _ => .error (if c = 'h' || c = 'V' then .help else .unusable)
    | _ => collect { given with paths := given.paths ++ [arg] } rest
termination_by args => args.length
decreasing_by
  · simp
  · have := length_takeValue value rest
    simp only [List.length_cons]
    omega
  · have := length_takeValue value rest
    simp only [List.length_cons]
    omega
  · simp

/-- The value of an option that may be given once, with a default for when it is not given or has
no value. -/
def once {α : Type} (default : α) (read : String → Option α) : List (Option String) → Option α
  | [] => some default
  | [none] => some default
  | [some text] => read text
  | _ => none

/-- The options that the arguments stand for. -/
def Given.options (given : Given) : Option Options := do
  if given.lists > 1 || given.paths.length > 1 then none
  let defaults : Options := {}
  let jobs ← once defaults.jobs (fun text => Decimal.readWord? text.toList) given.jobs
  let level ← once defaults.level LogLevel.ofName? given.levels
  return ⟨given.paths.head?, jobs, level, given.lists == 1⟩

/-- Read the command line. -/
def parse (args : List String) : Command :=
  match collect {} args with
  | .error command => command
  | .ok given =>
    match given.options with
    | some options => .run options
    | none => .unusable

/-- What a run prints and how it ends. -/
structure Report where
  /-- The lines on standard output. -/
  output : List String
  /-- The entries of the log. -/
  log : List String
  /-- The exit code. -/
  code : UInt32
  deriving DecidableEq, Repr

/-- A description of the command line. -/
def usage : List String :=
  ["usage: deduction [--jobs <jobs>] [--log-level <log-level>] [--list] [path]",
    "",
    "Reads one JSON request per line from the path or from standard input and writes one",
    "JSON response per request."]

/-- The log entry for a rejected request. -/
def rejectionEntry (r : Batch.Rejection) : String :=
  "% [WARN worker-" ++ Decimal.render r.worker ++ "] request " ++ Decimal.render (r.index + 1) ++
    " rejected: " ++ r.error.kind ++ ": " ++ r.error.message

/-- The log entries for the counters. -/
def statisticsEntries (s : Statistics) : List String :=
  ["% [INFO] requests: " ++ Decimal.render s.requests.toNat,
    "% [INFO] accepted: " ++ Decimal.render s.accepted.toNat,
    "% [INFO] rejected: " ++ Decimal.render s.rejected.toNat]

/-- Entries that are logged from a level on. -/
def Options.logged (options : Options) (level : LogLevel) (entries : List String) : List String :=
  if level.rank ≤ options.level.rank then entries else []

/-- Answer the requests in a text. -/
def Options.answer (options : Options) (text : String) : Report :=
  let pool := Batch.process (Batch.readRequests text) options.jobs
  { output := pool.responses
    log := options.logged .warn (pool.rejections.map rejectionEntry) ++
      options.logged .info (statisticsEntries pool.statistics)
    code := if pool.statistics.allAccepted then 0 else 1 }

/-- The report on requests that could not be read. -/
def Options.unread (options : Options) (reason : String) : Report :=
  ⟨[], options.logged .error ["% [ERROR] failed to read requests: " ++ reason], 1⟩

/-- What a command prints, given what its input holds or why it cannot be read. -/
def Command.report (command : Command) (input : Except String String) : Report :=
  match command with
  | .help => ⟨usage, [], 0⟩
  | .unusable => ⟨[], [], 1⟩
  | .run options =>
    if options.list then ⟨Calculus.names, [], 0⟩
    else
      match input with
      | .ok text => options.answer text
      | .error reason => options.unread reason

end Deduction.CommandLine
