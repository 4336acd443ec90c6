import FluxCore.Kvs.Follower
import FluxCore.Kvs.Answer
import FluxCore.Kvs.Fence
import FluxCore.Kvs.Respond
import FluxCore.Kvs.Leader.Chain
import FluxCore.Kvs.Leader.Integrity
import FluxCore.Kvs.Leader.Announce
import FluxCore.Kvs.Leader.Fallback
import FluxCore.Kvs.Lookup.Snapshot
import FluxCore.KvsWatch.Assert
import FluxCore.KvsWatch.Lifecycle
import FluxCore.KvsWatch.Order
import FluxCore.ConnectorLocal
import FluxCore.ConnectorLocal.Private
import FluxCore.ConnectorLocal.Forge
import FluxCore.Libflux.CompositeFuture
import FluxCore.Libflux.FutureWait
import FluxCore.Libflux.Recv
import FluxCore.Libflux.Rpc
import FluxCore.Broker.Retrace
import FluxCore.Broker.ContentTree.Loadable
import FluxCore.Broker.Hello
import FluxCore.Broker.Log
import FluxCore.Kvs.Endless
import FluxCore.Broker.Events.Delivery
import FluxCore.Libidset.Strings
import FluxCore.Aggregator.Exact
import FluxCore.Barriers.Generations
import FluxCore.Libpmi.Clique
import FluxCore.Libpmi.Simple
import FluxCore.Libflux.Matchtag
import FluxCore.Libjob.SignNone
import FluxCore.Broker.Attr
import FluxCore.Cron.Sync
import FluxCore.Util.Fluid
import FluxCore.Util.Digest
import FluxCore.Userdb
