import ShotSim.Document
import ShotSim.Session

/-!
# The command line

Runs one of four demonstration circuits and prints a summary of the shots, or all of them as JSON.
-/

namespace ShotSim

namespace CommandLine

inductive Circuit
  /-- Two qubits in a Bell state. -/
  | bell
  /-- All qubits in one superposition of all 0 and all 1. -/
  | ghz
  /-- A Bell state under depolarizing noise and loss. -/
  | noisy
  /-- A superposition that decays while its qubits wait. -/
  | idle
  deriving DecidableEq, Repr

namespace Circuit

def name : Circuit → String
  | bell => "bell"
  | ghz => "ghz"
  | noisy => "noisy"
  | idle => "idle"

def ofName? (text : String) : Option Circuit := [bell, ghz, noisy, idle].find? (·.name = text)

end Circuit

/-!
## Arguments
-/

structure Options where
  circuit : Option Circuit
  qubits : Option Nat
  shots : Option Nat
  seed : Option Nat
  backend : Option Backend
  json : Bool
  deriving DecidableEq, Repr

inductive Request
  | run (options : Options)
  | help
  /-- The arguments make no sense. -/
  | refused
  deriving DecidableEq, Repr

inductive Setting
  | qubits
  | shots
  | seed
  | backend
  deriving DecidableEq, Repr

namespace Setting

def ofLong? : String → Option Setting
  | "qubits" => some qubits
  | "shots" => some shots
  | "seed" => some seed
  | "backend" => some backend
  | _ => none

def ofLetter? : Char → Option Setting
  | 'q' => some qubits
  | 's' => some shots
  | _ => none

end Setting

namespace Options

def empty : Options := ⟨none, none, none, none, none, false⟩

/-- A field that may be given only once. -/
def once {α : Type} (old new : Option α) : Option (Option α) :=
  match old, new with
  | none, some x => some (some x)
  | _, _ => none

/-- A 32-bit integer with an optional sign. Zero may be negative. -/
def number? (text : String) : Option Nat :=
  match text.toList with
  | '-' :: digits => (Environment.digits? digits).filter (· = 0)
  | _ => Environment.count? text 32

def assign (o : Options) (s : Setting) (value : String) : Option Options :=
  match s with
  | .qubits => (once o.qubits (number? value)).map fun x => { o with qubits := x }
  | .shots => (once o.shots (number? value)).map fun x => { o with shots := x }
  | .seed => (once o.seed (number? value)).map fun x => { o with seed := x }
  | .backend => (once o.backend (Backend.ofName? value)).map fun x => { o with backend := x }

def choose (o : Options) (text : String) : Option Options :=
  (once o.circuit (Circuit.ofName? text)).map fun x => { o with circuit := x }

def askJson (o : Options) : Option Options := if o.json then none else some { o with json := true }

end Options

inductive Argument
  /-- Everything after it names a circuit. -/
  | terminator
  | help
  | json
  /-- A setting whose value is the next argument. -/
  | pending (setting : Setting)
  | assigned (setting : Setting) (value : String)
  | bad
  | plain (text : String)

/-- The part before the first equals sign and, if there is one, the part after it. -/
def splitEquals (chars : List Char) : List Char × Option (List Char) :=
  match chars.dropWhile (· != '=') with
  | [] => (chars, none)
  | _ :: value => (chars.takeWhile (· != '='), some value)

def classifyLong (chars : List Char) : Argument :=
  let (key, value) := splitEquals chars
  match String.ofList key, value with
  | "json", none => .json
  | "help", none => .help
  | key, value =>
    match Setting.ofLong? key, value with
    | some s, none => .pending s
    | some s, some value => .assigned s (String.ofList value)
    | none, _ => .bad

/-- Parses a short option without its dash. A value may follow directly or after an equals sign. -/
def classifyShort : List Char → Argument
  | 'h' :: _ => .help
  | c :: value =>
    match Setting.ofLetter? c, value with
    | some s, [] => .pending s
    | some s, '=' :: value => .assigned s (String.ofList value)
    | some s, value => .assigned s (String.ofList value)
    | none, _ => .bad
  | [] => .bad

/-- Parses one argument. A single dash is not an option. -/
def classify (text : String) : Argument :=
  match text.toList with
  | ['-'] => .plain text
  | ['-', '-'] => .terminator
  | '-' :: '-' :: chars => classifyLong chars
  | '-' :: chars => classifyShort chars
  | _ => .plain text

def parsePlain : List String → Options → Request
  | [], o => .run o
  | text :: rest, o =>
    match o.choose text with
    | some o => parsePlain rest o
    | none => .refused

/-- Parses arguments from left to right; `awaiting` is a setting whose value comes next. -/
def parseFrom : List String → Option Setting → Options → Request
  | [], none, o => .run o
  | [], some _, _ => .refused
  | text :: rest, awaiting, o =>
    match classify text, awaiting with
    | .plain value, some s =>
      match o.assign s value with
      | some o => parseFrom rest none o
      | none => .refused
    | _, some _ => .refused
    | .plain value, none =>
      match o.choose value with
      | some o => parseFrom rest none o
      | none => .refused
    | .terminator, none => parsePlain rest o
    | .help, none => .help
    | .json, none =>
      match o.askJson with
      | some o => parseFrom rest none o
      | none => .refused
    | .pending s, none => parseFrom rest (some s) o
    | .assigned s value, none =>
      match o.assign s value with
      | some o => parseFrom rest none o
      | none => .refused
    | .bad, none => .refused

def parse (args : List String) : Request := parseFrom args none .empty

/-!
## Circuits
-/

section Programs

variable {R : Type} [Scalar R]

/-- Prepares the GHZ state on `qubits` qubits. -/
def ghzProgram (qubits : Nat) : List (Op R) :=
  .h 0 :: (List.range' 1 (qubits - 1)).map fun q => .cx (q - 1) q

def measurements (qubits : Nat) : List (Op R) := (List.range qubits).map fun q => .mz q q

end Programs

/-- Depolarizing and loss noise on one-qubit gates, stronger depolarizing noise on two-qubit
gates. -/
def noisyModel : NoiseModel Float32 :=
  .uniform ((NoiseTable.depolarizing 1 0.01).withLoss 0.005) (.depolarizing 2 0.02)

def idleModel : IdleModel Float32 :=
  ((IdleModel.ofTimes 50 70 IdleModel.defaultDueFraction).withDurations
    [.h, .x, .id] 1).withDuration .cx 2

def build (o : Options) : List (Op Float32) × Config Float32 :=
  let qubits := max (o.qubits.getD 2) 2
  let config :=
    { Config.standard with
      qubits := qubits
      shots := o.shots.getD 10
      seed := UInt32.ofNat (o.seed.getD 0)
      backend := o.backend.getD .auto }
  match o.circuit.getD .bell with
  | .bell => (ghzProgram 2, config)
  | .ghz => (ghzProgram qubits, config)
  | .noisy =>
    (ghzProgram 2 ++ measurements 2, { config with resultCount := 2, noise := some noisyModel })
  | .idle =>
    (ghzProgram qubits ++ measurements qubits,
      { config with resultCount := qubits, idle := some idleModel })

/-!
## Output
-/

/-- The binary digits of a basis index, at least `width` of them, qubit 0 last. -/
def basisLabel (index width : Nat) : String :=
  let digits := Nat.toDigits 2 index
  "|" ++ String.ofList (List.replicate (width - digits.length) '0' ++ digits) ++ "⟩"

def summaryLines (r : RunResults Float32) (qubits : Nat) : List String :=
  let header := s!"Ran {r.shots.length} shots on {r.device}"
  let states := r.aggregate.map fun (index, p) =>
    "  " ++ basisLabel index qubits ++ ": " ++ Decimal.fixed p 4
  let shots := (r.shots.filter (!·.measurements.isEmpty)).map fun shot =>
    s!"  shot {shot.id.toNat}: [" ++
      String.intercalate ", " (shot.measurements.map fun o => toString o.toNat) ++ "]"
  let failed := r.failed.length
  let failures := if 0 < failed then [s!"  {failed} shots failed"] else []
  header :: states ++ shots ++ failures

/-- Output and exit code of the program. -/
structure Ending where
  code : Nat
  output : String
  deriving DecidableEq, Repr

def usage : String :=
  "Run demo circuits on the state vector simulator\n\n" ++
  "Usage: [OPTIONS] [CIRCUIT]\n\n" ++
  "Circuits: bell (default), ghz, noisy, idle\n" ++
  "Options: -q, --qubits <N>; -s, --shots <N>; --seed <N>; --backend <NAME>; --json; -h, --help\n"

def respond (args : List String) (host : Host Float32) : Ending :=
  match parse args with
  | .refused => ⟨2, ""⟩
  | .help => ⟨0, usage⟩
  | .run o =>
    let (program, config) := build o
    match (runProgram program config host).result with
    | .error _ => ⟨1, ""⟩
    | .ok r =>
      let text :=
        if o.json then r.document.pretty ++ "\n"
        else String.join ((summaryLines r config.qubits).map (· ++ "\n"))
      ⟨if r.success then 0 else 1, text⟩

end CommandLine

end ShotSim
