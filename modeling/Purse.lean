import Purse.Account
import Purse.Amount
import Purse.Asset
import Purse.Codec.Accounts
import Purse.Codec.Events
import Purse.Codec.Selection
import Purse.Codec.Totals
import Purse.Config
import Purse.Decimal
import Purse.Digest
import Purse.Double
import Purse.Double.Reading
import Purse.Double.Shortest
import Purse.Engine
import Purse.Engine.InMemory
import Purse.Engine.Monitored
import Purse.Engine.Report
import Purse.EventBus
import Purse.Failure
import Purse.Instant
import Purse.Instant.Text
import Purse.Json
import Purse.Json.Decode
import Purse.Json.Reader
import Purse.Json.Token
import Purse.Json.Writer
import Purse.Keyed
import Purse.Logging
import Purse.Notification
import Purse.OutPoint
import Purse.Output
import Purse.Proofs.Amount.Text
import Purse.Proofs.Codec.Accounts
import Purse.Proofs.Codec.Crossing
import Purse.Proofs.Codec.Outputs
import Purse.Proofs.Course
import Purse.Proofs.Decimal
import Purse.Proofs.Double.Nearest
import Purse.Proofs.Double.Order
import Purse.Proofs.Engine.Amounts
import Purse.Proofs.Engine.Balances
import Purse.Proofs.Engine.Coins
import Purse.Proofs.Engine.Outputs
import Purse.Proofs.EventBus
import Purse.Proofs.EventBus.Accounting
import Purse.Proofs.EventBus.Backlog
import Purse.Proofs.Instant.Calendar
import Purse.Proofs.Instant.Text
import Purse.Proofs.Interference
import Purse.Proofs.Json.Decode
import Purse.Proofs.Json.Scan
import Purse.Proofs.Json.Text
import Purse.Proofs.Registry.Agreement
import Purse.Proofs.Registry.Alone
import Purse.Proofs.Registry.Apart
import Purse.Proofs.Registry.Callers
import Purse.Proofs.Registry.Chores
import Purse.Proofs.Registry.Company
import Purse.Proofs.Registry.Course
import Purse.Proofs.Registry.Creating
import Purse.Proofs.Registry.Creations
import Purse.Proofs.Registry.Errands
import Purse.Proofs.Registry.Exchanges
import Purse.Proofs.Registry.Gathering
import Purse.Proofs.Registry.Holding
import Purse.Proofs.Registry.Lines
import Purse.Proofs.Registry.Listings
import Purse.Proofs.Registry.Locking
import Purse.Proofs.Registry.Mixing
import Purse.Proofs.Registry.Numbers
import Purse.Proofs.Registry.Pictures
import Purse.Proofs.Registry.Reached
import Purse.Proofs.Registry.Refresh
import Purse.Proofs.Registry.Returning
import Purse.Proofs.Registry.Secured
import Purse.Proofs.Registry.Sound
import Purse.Proofs.Registry.Tallies
import Purse.Proofs.Registry.Totals
import Purse.Proofs.Registry.Untouched
import Purse.Proofs.Registry.Workers
import Purse.Proofs.Relay.Abandoned
import Purse.Proofs.Relay.Abandonment
import Purse.Proofs.Relay.Announcement
import Purse.Proofs.Relay.Answers
import Purse.Proofs.Relay.Batches
import Purse.Proofs.Relay.Closing
import Purse.Proofs.Relay.Completion
import Purse.Proofs.Relay.Delivery
import Purse.Proofs.Relay.Dispatcher
import Purse.Proofs.Relay.History
import Purse.Proofs.Relay.House
import Purse.Proofs.Relay.Household
import Purse.Proofs.Relay.Pages
import Purse.Proofs.Relay.Reports
import Purse.Proofs.Selection.Clicks
import Purse.Proofs.Selection.Failures
import Purse.Proofs.Selection.Frozen
import Purse.Proofs.Selection.Index
import Purse.Proofs.Selection.Order
import Purse.Proofs.Selection.Picks
import Purse.Proofs.Selection.Reversal
import Purse.Proofs.Selection.Run
import Purse.Proofs.Selection.Showing
import Purse.Proofs.Selection.Size
import Purse.Proofs.Selection.Sorting
import Purse.Proofs.Selection.Stable
import Purse.Proofs.Selection.Steady
import Purse.Proofs.Selection.Submission
import Purse.Proofs.Selection.Totals
import Purse.Registry
import Purse.Registry.Access
import Purse.Registry.Accounts
import Purse.Relay
import Purse.Relay.Dispatcher
import Purse.Relay.Page
import Purse.Relay.Turn
import Purse.Selection
import Purse.Selection.Fetch
import Purse.Selection.Order
import Purse.Sizing
import Purse.Totals
import Purse.Turns
