import RegionHeap.Boot.Kernel
import RegionHeap.Chunk.Lemmas
import RegionHeap.Heap.Audit
import RegionHeap.Heap.Description
import RegionHeap.Json.Error
import RegionHeap.Json.Stats
import RegionHeap.Report
import RegionHeap.Tiling
import RegionHeap.Proofs.Blocks
import RegionHeap.Proofs.Chain
import RegionHeap.Proofs.Rings
import RegionHeap.Proofs.Holding
import RegionHeap.Proofs.SizeClass
import RegionHeap.Proofs.Allocation
import RegionHeap.Proofs.Release
import RegionHeap.Proofs.Represents
import RegionHeap.Proofs.Setup
import RegionHeap.Proofs.Calls
import RegionHeap.Proofs.Walk
import RegionHeap.Proofs.Audit
import RegionHeap.Proofs.Client
import RegionHeap.Proofs.Integrity
import RegionHeap.Proofs.Separation
import RegionHeap.Proofs.Misuse
import RegionHeap.Proofs.Refinement
import RegionHeap.Proofs.Placement
import RegionHeap.Proofs.Program
import RegionHeap.Proofs.Leases
import RegionHeap.Proofs.Contents
import RegionHeap.Proofs.Reclaim
import RegionHeap.Proofs.Ascent
import RegionHeap.Proofs.Vetting
import RegionHeap.Proofs.Soundness
import RegionHeap.Proofs.Diagnostics
import RegionHeap.Proofs.Intervals
import RegionHeap.Proofs.Occupancy
import RegionHeap.Proofs.BinLists
import RegionHeap.Proofs.Totals
import RegionHeap.Proofs.Indifference
import RegionHeap.Proofs.Renewal
import RegionHeap.Proofs.Boot
import RegionHeap.Proofs.Validation
import RegionHeap.Proofs.Footprint
import RegionHeap.Proofs.Hardening
import RegionHeap.Proofs.Selection
import RegionHeap.Proofs.Undo
import RegionHeap.Proofs.Admission
import RegionHeap.Proofs.Errands
import RegionHeap.Proofs.Confinement
import RegionHeap.Proofs.Snapshot
import RegionHeap.Proofs.Gaps
import RegionHeap.Proofs.Confluence
import RegionHeap.Proofs.Widening
import RegionHeap.Proofs.Capacity
import RegionHeap.Proofs.Verdict
import RegionHeap.Proofs.Imprint
import RegionHeap.Proofs.Remnants
import RegionHeap.Proofs.Reports
import RegionHeap.Proofs.Stale
import RegionHeap.Proofs.Scan
import RegionHeap.Proofs.Outset
import RegionHeap.Proofs.Lifetime
import RegionHeap.Proofs.Spelling
import RegionHeap.Proofs.RoundTrip
import RegionHeap.Proofs.StatusReport
