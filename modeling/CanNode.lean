import CanNode.Engine.TailByte
import CanNode.Engine.Traced
import CanNode.Heap.Audit
import CanNode.Node.Spin
import CanNode.Proofs.Heap.Shape
import CanNode.Proofs.Heap.Boundaries
import CanNode.Proofs.Heap.Allocation
import CanNode.Proofs.Heap.Audit
import CanNode.Proofs.Heap.Format
import CanNode.Proofs.Heap.Payload
import CanNode.Proofs.Heap.Release
import CanNode.Proofs.Heap.Ledger
import CanNode.Proofs.Heap.Isolation
import CanNode.Proofs.Heap.Structure
import CanNode.Proofs.Heap.Canonical
import CanNode.Proofs.Heap.Safety
import CanNode.Proofs.Node.History
import CanNode.Proofs.Engine.Queue
import CanNode.Proofs.Node.Computation
import CanNode.Proofs.Node.Transmission
import CanNode.Proofs.Node.Script
import CanNode.Proofs.Engine.Ownership
import CanNode.Proofs.Node.Balance
import CanNode.Proofs.Node.Dispatch
import CanNode.Proofs.Registry.Subscription
import CanNode.Proofs.Node.Sessions
import CanNode.Proofs.Queue.Fifo
import CanNode.Proofs.Queue.Admission
import CanNode.Proofs.Identifier.Layout
import CanNode.Proofs.Identifier.RoundTrip
import CanNode.Proofs.Heap.Contents
import CanNode.Proofs.Node.Payloads
import CanNode.Proofs.Node.Counters
import CanNode.Proofs.Node.Arrivals
import CanNode.Proofs.Heap.Foreign
import CanNode.Proofs.Transfer.Reception
import CanNode.Proofs.Heap.Placement
import CanNode.Proofs.Heap.Replies
import CanNode.Proofs.Heap.Undo
import CanNode.Proofs.Node.TransmitPhase
import CanNode.Proofs.Node.ReceivePhase
import CanNode.Proofs.Heap.Metering
import CanNode.Proofs.Node.Deadlines
import CanNode.Proofs.Heap.FreeSpace
import CanNode.Proofs.Identifier.Arbitration
import CanNode.Proofs.Queue.Loopback
import CanNode.Proofs.Heap.Consistency
import CanNode.Proofs.Heap.Relinking
import CanNode.Proofs.Heap.Walk
