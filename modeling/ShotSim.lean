import ShotSim.CommandLine
import ShotSim.Main
import ShotSim.Single
import ShotSim.Proofs.ScalarLaws
import ShotSim.Proofs.RealScalar
import ShotSim.Proofs.Placement
import ShotSim.Proofs.Partition
import ShotSim.Proofs.Sweep
import ShotSim.Proofs.Prepare
import ShotSim.Proofs.Workgroups
import ShotSim.Proofs.Execute
import ShotSim.Proofs.Admission
import ShotSim.Proofs.MachineRun
import ShotSim.Proofs.Weave
import ShotSim.Proofs.ShotStatus
import ShotSim.Proofs.FreshStart
import ShotSim.Proofs.SignedZero
import ShotSim.Proofs.StreamInputs
import ShotSim.Proofs.History
import ShotSim.Proofs.Echo
import ShotSim.Proofs.Resolve
import ShotSim.Proofs.RandomStream
import ShotSim.Proofs.Schedules
import ShotSim.Proofs.Isolation
import ShotSim.Proofs.StartOver
import ShotSim.Proofs.Freshness
import ShotSim.Proofs.NullNumbers
import ShotSim.Proofs.ParkedQubits
import ShotSim.Proofs.Timetable
import ShotSim.Proofs.MeanProbability
import ShotSim.Proofs.BasisStates
import ShotSim.Proofs.Reports
import ShotSim.Proofs.GuardedMachine
import ShotSim.Proofs.GuardedStream
import ShotSim.Proofs.GuardedRun
import ShotSim.Proofs.ReusedMemory
import ShotSim.Proofs.FrozenShots
import ShotSim.Proofs.DecayPoints
import ShotSim.Proofs.ExactArithmetic
import ShotSim.Proofs.Repeatability
import ShotSim.Proofs.Addressing
import ShotSim.Proofs.PermutationGates
import ShotSim.Proofs.Marginals
import ShotSim.Proofs.Interleaving
import ShotSim.Proofs.Extraction
import ShotSim.Proofs.Batches
import ShotSim.Proofs.WovenBlocks
import ShotSim.Proofs.Ledger
import ShotSim.Proofs.TimeAccounts
import ShotSim.Proofs.Generators
import ShotSim.Proofs.LastOutcomes
import ShotSim.Proofs.QubitMaps
import ShotSim.Proofs.FusedDecay
import ShotSim.Proofs.PauliTables
import ShotSim.Proofs.Unitarity
import ShotSim.Proofs.StrideWalk
