import Exchange.Analytics.L2Feed
import Exchange.Analytics.OrderQueries
import Exchange.Analytics.Prediction
import Exchange.Analytics.Vwap
import Exchange.Concurrent.QueueThreads
import Exchange.Concurrent.ThreadPool
import Exchange.Core.Accounting
import Exchange.Core.Amendment
import Exchange.Core.BookIterator
import Exchange.Core.Identity
import Exchange.Core.Lifecycle
import Exchange.Core.Splitting
import Exchange.Core.TrancheRuns
import Exchange.Core.Turnover
import Exchange.Net.Backpressure
import Exchange.Net.ClientView
import Exchange.Net.Closing
import Exchange.Net.Delivery
import Exchange.Net.Descriptors
import Exchange.Net.Inbound
import Exchange.Net.Layout
import Exchange.Net.Ordering
import Exchange.Net.Outbound
import Exchange.Net.Outcomes
import Exchange.Net.Requests
import Exchange.Net.Routing
import Exchange.Net.Shutdown
import Exchange.Store.Amounts
import Exchange.Store.Burst
import Exchange.Store.Durability
import Exchange.Store.Queries
import Exchange.Store.RecoverDatabase
import Exchange.Store.Totality
