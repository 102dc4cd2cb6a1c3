import SymbolicMachine.Explore.Exploration
import SymbolicMachine.Explore.Hook
import SymbolicMachine.Oracle.Scripted
import SymbolicMachine.Report.Describe
import SymbolicMachine.Report.Snapshot
import SymbolicMachine.Proofs.Arrays.Forks
import SymbolicMachine.Proofs.Arrays.Maps
import SymbolicMachine.Proofs.Branches.Tree
import SymbolicMachine.Proofs.Effects.Steps
import SymbolicMachine.Proofs.Explore.Isolation
import SymbolicMachine.Proofs.Explore.Order
import SymbolicMachine.Proofs.Explore.Received
import SymbolicMachine.Proofs.Explore.Triggers
import SymbolicMachine.Proofs.Explore.Watchdog
import SymbolicMachine.Proofs.Fields.Instances
import SymbolicMachine.Proofs.HandOff.Steps
import SymbolicMachine.Proofs.Inputs.Partition
import SymbolicMachine.Proofs.Oracle.Transparency
import SymbolicMachine.Proofs.Path.Freshness
import SymbolicMachine.Proofs.Path.Index
import SymbolicMachine.Proofs.Path.Origins
import SymbolicMachine.Proofs.Report.Inputs
import SymbolicMachine.Proofs.Targets.Members
import SymbolicMachine.Proofs.Terms.Support
import SymbolicMachine.Proofs.Thread.Arguments
import SymbolicMachine.Proofs.Types.Assignability
import SymbolicMachine.Proofs.Natives.Commutation
import SymbolicMachine.Proofs.Natives.Receivers
import SymbolicMachine.Proofs.Numeric.TwoRoundings
