import Handoff.Block
import Handoff.Chunk.Script
import Handoff.Proofs.Agreement
import Handoff.Proofs.Window
import Handoff.Scenario.Run
import Handoff.Workload
import Handoff.Proofs.Fifo
import Handoff.Proofs.Ring
import Handoff.Proofs.RingFifo
import Handoff.Proofs.Capacity
import Handoff.Proofs.RingContract
import Handoff.Proofs.RingLayout
import Handoff.Proofs.Tape
import Handoff.Proofs.TapeInvariant
import Handoff.Proofs.Arena
import Handoff.Proofs.Chain
import Handoff.Proofs.ChainProduce
import Handoff.Proofs.ChainConsume
import Handoff.Proofs.ChainTape
import Handoff.Proofs.Recording
import Handoff.Proofs.ChainDelivery
import Handoff.Proofs.ChainLayout
import Handoff.Proofs.Orders
import Handoff.Proofs.TapeOrders
import Handoff.Proofs.ChainOrders
import Handoff.Proofs.ChainFill
import Handoff.Proofs.Streaming
import Handoff.Proofs.StreamingLoops
import Handoff.Proofs.RingStreaming
import Handoff.Proofs.ChainStreaming
import Handoff.Proofs.StreamingContract
import Handoff.Proofs.Links
import Handoff.Proofs.Row
import Handoff.Proofs.Register
import Handoff.Proofs.RegisterInvariant
import Handoff.Proofs.RegisterSharing
import Handoff.Proofs.ChainRegister
import Handoff.Proofs.ProducerKnowledge
import Handoff.Proofs.ProducerSteps
import Handoff.Proofs.ConsumerSteps
import Handoff.Proofs.Interleaving
import Handoff.Proofs.InterleavingSafety
import Handoff.Proofs.Campaign
import Handoff.Proofs.Bookkeeping
import Handoff.Proofs.Gauges
import Handoff.Proofs.ChainGauges
import Handoff.Proofs.Auditing
import Handoff.Proofs.RingAudit
import Handoff.Proofs.Untouched
import Handoff.Proofs.Closing
import Handoff.Proofs.Departures
import Handoff.Proofs.RingInterleaving
import Handoff.Proofs.RingInterleavingSafety
import Handoff.Proofs.RingIndices
import Handoff.Proofs.InterleavingCounts
import Handoff.Proofs.ChainGrowth
import Handoff.Proofs.ChainBatch
import Handoff.Proofs.Framing
import Handoff.Proofs.ChainNesting
import Handoff.Proofs.Returning
import Handoff.Proofs.ChainFillAll
import Handoff.Proofs.Pausing
import Handoff.Proofs.ChainPeeking
import Handoff.Proofs.Construction
import Handoff.Proofs.ChainDrain
import Handoff.Proofs.Trails
import Handoff.Proofs.ChunkScript
import Handoff.Proofs.Oversight
import Handoff.Proofs.Solo
import Handoff.Proofs.SoloConsumer
import Handoff.Proofs.ChainProgress
import Handoff.Proofs.Masking
import Handoff.Proofs.Backoff
import Handoff.Proofs.Layout
import Handoff.Proofs.Block
import Handoff.Proofs.Scenarios
import Handoff.Proofs.WorkloadDelivery
