import CharmExperiments.Hypercomm.Mailbox
import CharmExperiments.Hypercomm.Leaving
import CharmExperiments.Hypercomm.Payload
import CharmExperiments.Hypercomm.Buffers
import CharmExperiments.Hypercomm.MigrationRuns
import CharmExperiments.Charmlite.CompletionSound
import CharmExperiments.Charmlite.CompletionOnce
import CharmExperiments.Charmlite.CompletionOrder
import CharmExperiments.Charmlite.ConstructIds
import CharmExperiments.Charmlite.BcastNumber
import CharmExperiments.Charmlite.BcastOrder
import CharmExperiments.Charmlite.DeliverReturns
import CharmExperiments.Charmlite.AllReduce
import CharmExperiments.Charmlite.Sends
import CharmExperiments.Charmlite.Merging
import CharmExperiments.Charmlite.ObjectsInv
import CharmExperiments.Charmlite.ElementIndex
import CharmExperiments.Lfq.Fifo
import CharmExperiments.Lfq.Open
import CharmExperiments.Lfq.Tester
import CharmExperiments.XpmemExperiments.Relay
import CharmExperiments.Comex.Reentry
import CharmExperiments.Comex.Outbox
import CharmExperiments.Comex.InOrder
import CharmExperiments.Comex.Activation
import CharmExperiments.Comex.Quiescence
import CharmExperiments.Comex.Exchanger
import CharmExperiments.Ipc.QueueOrder
import CharmExperiments.Ipc.PoolInv
import CharmExperiments.Ipc.Retained
import CharmExperiments.Ipc.Populate
import CharmExperiments.Ipc.Xpmem
import CharmExperiments.Warp.Probing
import CharmExperiments.Warp.Requests
import CharmExperiments.Warp.Pingpong
import CharmExperiments.Ipc.RingEnds
