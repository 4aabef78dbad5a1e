import EventSourcery.AggregateReuse
import EventSourcery.Annotations
import EventSourcery.AppendAttempts
import EventSourcery.Backend
import EventSourcery.BackendWiring
import EventSourcery.Conformance
import EventSourcery.ConsecutiveNumbers
import EventSourcery.Containers
import EventSourcery.Cursors
import EventSourcery.DictEntries
import EventSourcery.DictHeaps
import EventSourcery.DjangoAutocommit
import EventSourcery.DjangoStore
import EventSourcery.DjangoTenants
import EventSourcery.DjangoVersions
import EventSourcery.DjangoViews
import EventSourcery.Dto
import EventSourcery.Encryption
import EventSourcery.EventRegistration
import EventSourcery.EventStore
import EventSourcery.FailedAppends
import EventSourcery.FailedRegistrations
import EventSourcery.GapDetection
import EventSourcery.Identifiers
import EventSourcery.InMemory
import EventSourcery.InMemoryConformance
import EventSourcery.InMemoryHistory
import EventSourcery.InMemoryOutbox
import EventSourcery.InMemoryRanges
import EventSourcery.InMemorySessions
import EventSourcery.InMemorySubscriptions
import EventSourcery.InMemoryTenants
import EventSourcery.InMemoryVersions
import EventSourcery.Insertions
import EventSourcery.JsonText
import EventSourcery.KeyChanges
import EventSourcery.KeyStorage
import EventSourcery.KurrentBounds
import EventSourcery.KurrentCodec
import EventSourcery.KurrentConcurrency
import EventSourcery.KurrentConformance
import EventSourcery.KurrentDeletion
import EventSourcery.KurrentFilters
import EventSourcery.KurrentNames
import EventSourcery.KurrentOutbox
import EventSourcery.KurrentReconnects
import EventSourcery.KurrentServer
import EventSourcery.KurrentSettlements
import EventSourcery.KurrentStore
import EventSourcery.KurrentSubscriptions
import EventSourcery.KurrentTenants
import EventSourcery.LastVersions
import EventSourcery.Ledger
import EventSourcery.Listeners
import EventSourcery.NestedDict
import EventSourcery.NestedDictHeap
import EventSourcery.NestedDispatch
import EventSourcery.OutboxCodec
import EventSourcery.OutboxWorkers
import EventSourcery.PagedLogs
import EventSourcery.Paging
import EventSourcery.Projector
import EventSourcery.ProjectorConcurrency
import EventSourcery.ProjectorSnapshots
import EventSourcery.ProjectorTenants
import EventSourcery.RangedReads
import EventSourcery.ReferenceStore
import EventSourcery.Registry
import EventSourcery.RegularExpressions
import EventSourcery.RejectedAppends
import EventSourcery.Replay
import EventSourcery.Repository
import EventSourcery.RetryQueue
import EventSourcery.RowVersions
import EventSourcery.Runs
import EventSourcery.SessionConformance
import EventSourcery.Sessions
import EventSourcery.ShortBatches
import EventSourcery.Shredding
import EventSourcery.SqlAlchemyDeletion
import EventSourcery.SqlAlchemySchedules
import EventSourcery.SqlAlchemySessions
import EventSourcery.SqlAlchemySharedSessions
import EventSourcery.SqlAlchemyStore
import EventSourcery.SqlAlchemyTenants
import EventSourcery.SqlAlchemyTransactions
import EventSourcery.SqlAlchemyVersions
import EventSourcery.SqlAlchemyViews
import EventSourcery.SqlConformance
import EventSourcery.SqlOutboxes
import EventSourcery.SqlStores
import EventSourcery.StreamIdentity
import EventSourcery.StreamIds
import EventSourcery.StreamSelections
import EventSourcery.Subjects
import EventSourcery.SubscribedStores
import EventSourcery.SubscriptionBuilders
import EventSourcery.Subscriptions
import EventSourcery.TableLogs
import EventSourcery.Tables
import EventSourcery.Tenants
import EventSourcery.Texts
import EventSourcery.VersioningModes
import EventSourcery.VersionlessStreams
