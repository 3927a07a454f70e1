import GraphStack.Config.File
import GraphStack.Contention.Budget
import GraphStack.Contention.Payload
import GraphStack.Pool.Command
import GraphStack.Proofs.Execution.Accounts
import GraphStack.Proofs.Execution.Counts
import GraphStack.Proofs.Execution.LastWrite
import GraphStack.Proofs.Execution.Teardown
import GraphStack.Proofs.Session.Commands
import GraphStack.Session.Command
import GraphStack.Span.Json
import GraphStack.Proofs.Contention.Budget
import GraphStack.Proofs.Contention.Payload
import GraphStack.Proofs.Execution.Links
import GraphStack.Proofs.Execution.Reclaim
import GraphStack.Proofs.Config.Json
import GraphStack.Proofs.Execution.Weak
import GraphStack.Proofs.Execution.Journal
import GraphStack.Proofs.Contention.Outcome
import GraphStack.Proofs.Contention.Turns
import GraphStack.Proofs.Config.Yaml
import GraphStack.Proofs.Config.Labels
import GraphStack.Proofs.Pool.Agreement
import GraphStack.Proofs.Execution.Refusals
import GraphStack.Proofs.Execution.Orders
import GraphStack.Proofs.Execution.Calls
import GraphStack.Proofs.Execution.Copies
import GraphStack.Proofs.Execution.Scopes
import GraphStack.Proofs.Execution.Termination
import GraphStack.Proofs.Execution.Depth
import GraphStack.Proofs.Execution.Unlinking
import GraphStack.Proofs.Value.Display
import GraphStack.Proofs.Value.Equality
import GraphStack.Proofs.Value.Json
import GraphStack.Proofs.Session.Keys
