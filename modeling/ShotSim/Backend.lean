/-!
# Backends

Where a run is to be carried out: on a GPU, if the search for an adapter finds one, or on the
processor.
-/

namespace ShotSim

inductive Backend
  /-- A GPU if there is one, else the processor. -/
  | auto
  | cpu
  | gpu
  deriving DecidableEq, Repr

namespace Backend

def name : Backend → String
  | auto => "auto"
  | cpu => "cpu"
  | gpu => "gpu"

def lowerCase (text : String) : String := text.map Char.toLower

def ofName? (text : String) : Option Backend :=
  [auto, cpu, gpu].find? (·.name = lowerCase text)

def unknownMessage (text : String) : String :=
  "unknown backend `" ++ lowerCase text ++ "`, expected auto, cpu or gpu"

end Backend

end ShotSim
