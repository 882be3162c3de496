import SphereMultithreading.Soundness.P1.Ownership
import SphereMultithreading.Soundness.P1.Tiling
import SphereMultithreading.Soundness.P5.MapRefinement
import SphereMultithreading.Soundness.P6.MapRefinement
import SphereMultithreading.Soundness.P6.Representation
import SphereMultithreading.Soundness.P7.Search
import SphereMultithreading.Soundness.P6.Exclusion
import SphereMultithreading.Soundness.P5.Protection
import SphereMultithreading.Soundness.P5.Deadlock
import SphereMultithreading.Soundness.P5.Routing
import SphereMultithreading.Soundness.P5.Phantoms
import SphereMultithreading.Soundness.P5.ProgramOrder
import SphereMultithreading.Soundness.P2.Drain
import SphereMultithreading.Soundness.P6.Passing
import SphereMultithreading.Soundness.Survival
import SphereMultithreading.Soundness.P6.Framing
import SphereMultithreading.Soundness.P3.Relay
import SphereMultithreading.Soundness.P4.AndOr
import SphereMultithreading.Soundness.P9.Agreement
import SphereMultithreading.Model.P4.Processes
import SphereMultithreading.Proofs.P4.Processes
import SphereMultithreading.Proofs.P4.Loop
import SphereMultithreading.Soundness.P4.Statuses
import SphereMultithreading.Soundness.P4.Containment
import SphereMultithreading.Model.P10.Exponential
import SphereMultithreading.Soundness.P10.Series
import SphereMultithreading.Proofs.P1.Bytes
import SphereMultithreading.Soundness.P1.Compaction
import SphereMultithreading.Machine.Stretch
import SphereMultithreading.Proofs.P1.Merging
import SphereMultithreading.Soundness.P1.FreeOrder
import SphereMultithreading.Soundness.P1.Coalescing
import SphereMultithreading.Soundness.P1.Failures
import SphereMultithreading.Soundness.P1.Contents
import SphereMultithreading.Model.P5.Workers
import SphereMultithreading.Soundness.P5.Conservation
import SphereMultithreading.Soundness.P6.Cleaning
import SphereMultithreading.Soundness.P2.Blocks
import SphereMultithreading.Soundness.P2.Typing
import SphereMultithreading.Soundness.P2.Lines
import SphereMultithreading.Proofs.Stdio
import SphereMultithreading.Model.P2.Client
import SphereMultithreading.Soundness.P2.Asked
import SphereMultithreading.Model.P7.Dictionary
import SphereMultithreading.Proofs.P7.Dictionary
import SphereMultithreading.Soundness.P7.Dictionary
import SphereMultithreading.Soundness.P7.Spelling
import SphereMultithreading.Soundness.P7.Destruction
import SphereMultithreading.Model.P7.Reload
import SphereMultithreading.Soundness.P7.Reload
import SphereMultithreading.Soundness.Grammar
import SphereMultithreading.Machine.Arrays
import SphereMultithreading.Model.Buffers
import SphereMultithreading.Proofs.Buffers
import SphereMultithreading.Soundness.Buffers
import SphereMultithreading.Model.Iostream
import SphereMultithreading.Model.P3.ConfigParser
import SphereMultithreading.Proofs.P3.ConfigParser
import SphereMultithreading.Soundness.P3.Config
import SphereMultithreading.Model.P4.Parser
import SphereMultithreading.Proofs.P4.Parser
import SphereMultithreading.Soundness.P4.Tokens
import SphereMultithreading.Machine.Holders
import SphereMultithreading.Model.P4.Construction
import SphereMultithreading.Proofs.P4.Construction
import SphereMultithreading.Soundness.P4.Vectors
import SphereMultithreading.Proofs.P4.Descriptors
import SphereMultithreading.Soundness.P4.Leaks
import SphereMultithreading.Model.P9.Checked
import SphereMultithreading.Soundness.P9.Sorting
import SphereMultithreading.Machine.Lookup
import SphereMultithreading.Proofs.P1.Lookup
import SphereMultithreading.Proofs.P1.Growth
import SphereMultithreading.Soundness.P1.Lookup
import SphereMultithreading.Machine.StableMerge
import SphereMultithreading.Model.P10.Ranks
import SphereMultithreading.Model.P5.Shutdown
import SphereMultithreading.Proofs.P5.Shutdown
import SphereMultithreading.Soundness.P10.Ranks
import SphereMultithreading.Soundness.P5.Shutdown
import SphereMultithreading.Soundness.P9.Refinement
import SphereMultithreading.Soundness.P6.Progress
import SphereMultithreading.Soundness.P6.Expiry
import SphereMultithreading.Soundness.P6.Custody
import SphereMultithreading.Soundness.P6.Serving
import SphereMultithreading.Soundness.P5.Linearization
import SphereMultithreading.Soundness.P2.Agreement
import SphereMultithreading.Soundness.P1.Heap
import SphereMultithreading.Soundness.P1.Recovery
import SphereMultithreading.Soundness.P7.Serving
import SphereMultithreading.Machine.Pipelines
import SphereMultithreading.Model.P4.Pipes
import SphereMultithreading.Proofs.P4.Pipes
import SphereMultithreading.Proofs.P4.Foreground
import SphereMultithreading.Soundness.P4.Pipelines
import SphereMultithreading.Model.P3.Proxy
import SphereMultithreading.Model.P4.Signals
import SphereMultithreading.Soundness.P3.Proxy
import SphereMultithreading.Soundness.P4.Interrupts
