import StreamsConsumer.Clients.Native
import StreamsConsumer.Core.Keys
import StreamsConsumer.Core.PollBackoff
import StreamsConsumer.Core.Rebalance
import StreamsConsumer.Core.Taking
import StreamsConsumer.Formal.Termination
import StreamsConsumer.Lease.Fencing
import StreamsConsumer.Source.Describe
import StreamsConsumer.Source.Healing
import StreamsConsumer.Source.Payload
import StreamsConsumer.Worker.Acked
import StreamsConsumer.Worker.Backoff
import StreamsConsumer.Worker.Cleanup
import StreamsConsumer.Worker.Handover
import StreamsConsumer.Worker.LatestPass
import StreamsConsumer.Worker.LeaseCap
import StreamsConsumer.Worker.Liveness
import StreamsConsumer.Worker.LostReports
import StreamsConsumer.Worker.Multiplexed
import StreamsConsumer.Worker.OneShard
import StreamsConsumer.Worker.OpenShards
import StreamsConsumer.Worker.PassRun
import StreamsConsumer.Worker.PendingRun
import StreamsConsumer.Worker.Republish
import StreamsConsumer.Worker.Reserved
import StreamsConsumer.Worker.StartMode
import StreamsConsumer.Worker.Stored
import StreamsConsumer.Worker.Tombstone
import StreamsConsumer.Worker.Verdict
