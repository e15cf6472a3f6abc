import SmtpSwitch.System
import SmtpSwitch.Coop.Ledger
import SmtpSwitch.Limits.Protocol
import SmtpSwitch.Limits.Safety
import SmtpSwitch.Limits.Account
import SmtpSwitch.Limits.Books
import SmtpSwitch.Limits.Headroom
import SmtpSwitch.Limits.Pruning
import SmtpSwitch.Limits.Periods
import SmtpSwitch.Delivery.Requeue
import SmtpSwitch.Delivery.Columns
import SmtpSwitch.Delivery.Retention
import SmtpSwitch.Delivery.Numbering
import SmtpSwitch.Delivery.Retry
import SmtpSwitch.Delivery.Backoff
import SmtpSwitch.Delivery.Wakeup
import SmtpSwitch.Delivery.Upkeep
import SmtpSwitch.Delivery.Failover
import SmtpSwitch.Delivery.Table
import SmtpSwitch.Delivery.Rejection
import SmtpSwitch.Settlement.Process
import SmtpSwitch.Settlement.Slots
import SmtpSwitch.Delivery.Process
import SmtpSwitch.Delivery.Budget
import SmtpSwitch.Delivery.Sent
import SmtpSwitch.Accounts
import SmtpSwitch.Registry
import SmtpSwitch.Selection
import SmtpSwitch.Acceptance
import SmtpSwitch.Revocation
import SmtpSwitch.Allowlist
import SmtpSwitch.Breaker.Cooldown
import SmtpSwitch.Breaker.History
import SmtpSwitch.Breaker.Restart
import SmtpSwitch.Breaker.Mirror
import SmtpSwitch.Classification
import SmtpSwitch.Workload
import SmtpSwitch.Delivery.Queue
import SmtpSwitch.Delivery.Files
import SmtpSwitch.Delivery.Overtaking
import SmtpSwitch.Delivery.Lifecycle
import SmtpSwitch.Delivery.Sweep
import SmtpSwitch.Delivery.Drain
import SmtpSwitch.Overview
import SmtpSwitch.Dashboard
import SmtpSwitch.Pages
import SmtpSwitch.Submission
