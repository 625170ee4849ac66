import ShotSim.CommandLine

/-!
# The program

Hands the arguments and the environment to the command line and prints what it returns.
-/

def main (args : List String) : IO UInt32 := do
  let maxOps ← IO.getEnv "QDK_SV_MAX_OPS_PER_DISPATCH"
  let backend ← IO.getEnv "QDK_SV_BACKEND"
  let ending := ShotSim.CommandLine.respond args (⟨maxOps, backend⟩ : ShotSim.Environment)
  IO.print ending.output
  return UInt32.ofNat ending.code
