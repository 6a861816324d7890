import Aesd.Driver.Range
import Aesd.Driver.Fifo
import Aesd.Driver.Conservation
import Aesd.Driver.Ownership
import Aesd.Driver.Grouping
import Aesd.Driver.NewlineSearch
import Aesd.Driver.Reader
import Aesd.Driver.Statements
import Aesd.Driver.Interleaving
import Aesd.Driver.Faults
import Aesd.Driver.Account
import Aesd.Driver.Lifecycle
import Aesd.Driver.LogDevice
import Aesd.Driver.Refinement
import Aesd.Server.Reply
import Aesd.Server.SeekReply
import Aesd.Server.Conversation
import Aesd.Server.Cutting
import Aesd.Server.Handling
import Aesd.Server.Delivery
import Aesd.Server.ReceiveLoop
import Aesd.Server.Cleanup
import Aesd.Server.Connections
import Aesd.Server.Releases
import Aesd.Server.Grammar
import Aesd.Server.Closing
import Aesd.Server.Calls
import Aesd.Server.Schedule
import Aesd.Server.Progress
import Aesd.Server.Leftovers
import Aesd.Server.LogService
import Aesd.Server.Stopping
import Aesd.Server.Clients
import Aesd.Server.Restarts
