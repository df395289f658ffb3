import Rtl.Main
import Rtl.Statement.Replacement
import Rtl.Proofs.SiblingWires
import Rtl.Proofs.Selected
import Rtl.Proofs.AssignmentReads
import Rtl.Proofs.Resets
import Rtl.Proofs.Cells
import Rtl.Proofs.DelayRegisters
import Rtl.Proofs.BareCells
import Rtl.Proofs.DomainRenaming
import Rtl.Proofs.Programs
import Rtl.Proofs.Nesting
import Rtl.Proofs.StateMachines
import Rtl.Proofs.StateNames
import Rtl.Proofs.ReportedErrors
import Rtl.Proofs.DriverDomains
import Rtl.Proofs.ConflictModes
import Rtl.Proofs.RequestedPorts
import Rtl.Proofs.BidirectionalPorts
import Rtl.Proofs.ContractChecking
import Rtl.Proofs.StructuralKeys
import Rtl.Proofs.Widths
import Rtl.Proofs.DomainIdentity
import Rtl.Proofs.Driving
import Rtl.Proofs.Cleaning
import Rtl.Proofs.WrittenTogether
import Rtl.Proofs.ControlledRegisters
import Rtl.Proofs.AbandonedConstructs
import Rtl.Proofs.PatternTests
import Rtl.Proofs.Selections
import Rtl.Proofs.MuxTrees
import Rtl.Proofs.NetNames
import Rtl.Proofs.Constants
import Rtl.Proofs.MemoryPorts
import Rtl.Proofs.IndexedContainers
import Rtl.Proofs.ShapeKeeping
import Rtl.Proofs.NamedSamples
