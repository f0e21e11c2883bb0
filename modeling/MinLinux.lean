import MinLinux.Transition
import MinLinux.Action
import MinLinux.Dialog
import MinLinux.Locality
import MinLinux.Mirror
import MinLinux.Contract
import MinLinux.Files
import MinLinux.Text
import MinLinux.Numeral
import MinLinux.Bytes
import MinLinux.Acyclic
import MinLinux.Ring.Window
import MinLinux.Ring.Fifo
import MinLinux.Uring.Queue
import MinLinux.Uring.Submission
import MinLinux.Uring.Completion
import MinLinux.Uring.Mapping
import MinLinux.Uring.Mapped
import MinLinux.Uring.Shared
import MinLinux.Util.Memory
import MinLinux.Util.Compare
import MinLinux.Util.Decimal
import MinLinux.Command.System
import MinLinux.Command.Arguments
import MinLinux.Command.Builtins
import MinLinux.Command.Effects
import MinLinux.Command.Output
import MinLinux.Command.Parsing
import MinLinux.Command.Meaning
import MinLinux.Command.Descriptors
import MinLinux.Command.Contracts
import MinLinux.Command.Inheritance
import MinLinux.Command.Children
import MinLinux.Command.Child
import MinLinux.Command.Confinement
import MinLinux.Command.Vector
import MinLinux.Command.Shell
import MinLinux.Command.Listing
import MinLinux.Command.Transfer
import MinLinux.Init.Requests
import MinLinux.Init.EventLoop
import MinLinux.Init.Tokens
import MinLinux.Init.Refinement
import MinLinux.Init.Simulation
import MinLinux.Init.Guarantees
import MinLinux.Init.Entries
import MinLinux.Init.Machine
import MinLinux.Init.Console
import MinLinux.Init.Spawn
import MinLinux.Init.Isolation
import MinLinux.Init.Buffer
import MinLinux.Init.Session
import MinLinux.Init.Conversation
import MinLinux.Init.Alternation
import MinLinux.Init.PromptFailure
import MinLinux.Init.Boot
import MinLinux.Init.OpenFiles
import MinLinux.Build.Target
import MinLinux.Build.Rules
import MinLinux.Build.Traversal
import MinLinux.Build.KernelConfig
import MinLinux.Build.ConfigOrder
import MinLinux.Build.Project
import MinLinux.Build.Compilation
import MinLinux.Build.Incremental
