import OrderCqrs.Logic.Runs
import OrderCqrs.Domain.Events
import OrderCqrs.Domain.Aggregate
import OrderCqrs.Command.EventStore
import OrderCqrs.Command.Handlers
import OrderCqrs.Command.Moves
import OrderCqrs.Command.Invariant
import OrderCqrs.Command.Serializability
import OrderCqrs.Logic.Lists
import OrderCqrs.Logic.Partitions
import OrderCqrs.Command.Payments
import OrderCqrs.Command.DualWrite
import OrderCqrs.Command.TopicOrder
import OrderCqrs.Logic.LastWriter
import OrderCqrs.Projection.Columns
import OrderCqrs.Projection.ReadModel
import OrderCqrs.Logic.Keyed
import OrderCqrs.Projection.Effects
import OrderCqrs.Projection.Image
import OrderCqrs.Projection.Simulation
import OrderCqrs.Projection.Money
import OrderCqrs.Delivery.Consumer
import OrderCqrs.Delivery.ExactlyOnce
import OrderCqrs.Projection.Replay
import OrderCqrs.Projection.Reordering
import OrderCqrs.Delivery.LateRetry
import OrderCqrs.Command.Lifecycle
import OrderCqrs.Command.Idempotency
import OrderCqrs.Projection.Independence
import OrderCqrs.Delivery.Lineage
import OrderCqrs.Platform.System
import OrderCqrs.Platform.Expiry
import OrderCqrs.Archive.Archiver
import OrderCqrs.Query.Cache
import OrderCqrs.Archive.Keys
import OrderCqrs.Delivery.RawConsumer
import OrderCqrs.Projection.Totals
import OrderCqrs.Projection.LastOrdered
import OrderCqrs.Projection.Accepted
import OrderCqrs.Projection.Reported
import OrderCqrs.Platform.Cancelled
import OrderCqrs.Logic.Markers
import OrderCqrs.Command.Publisher
import OrderCqrs.Logic.Loops
import OrderCqrs.Delivery.Batch
import OrderCqrs.Delivery.PoisonPill
import OrderCqrs.Logic.Slots
import OrderCqrs.Platform.Retention
import OrderCqrs.Platform.Versions
import OrderCqrs.Platform.Revival
import OrderCqrs.Platform.Revived
import OrderCqrs.Logic.SortedFolds
import OrderCqrs.Domain.Rebuild
import OrderCqrs.Logic.Rows
import OrderCqrs.Projection.Records
import OrderCqrs.Query.Stats
import OrderCqrs.Query.Revenue
import OrderCqrs.Domain.Loads
import OrderCqrs.Domain.RoundTrip
import OrderCqrs.Delivery.Wire
import OrderCqrs.Logic.Rewinds
import OrderCqrs.Projection.Rewound
import OrderCqrs.Archive.Replay
import OrderCqrs.Platform.Provenance
import OrderCqrs.Logic.Paging
import OrderCqrs.Query.Listing
import OrderCqrs.Query.Audit
import OrderCqrs.Platform.Convergence
import OrderCqrs.Platform.Rebuilt
import OrderCqrs.Query.Staleness
import OrderCqrs.Command.Progress
import OrderCqrs.Projection.Rounding
import OrderCqrs.Command.Failures
import OrderCqrs.Delivery.Draining
import OrderCqrs.Delivery.Fates
