import ImplementorIndex.Fragment.Writer
import ImplementorIndex.Main
import ImplementorIndex.Proofs.Threads.Transition
import ImplementorIndex.Scenario
import ImplementorIndex.Session.Run
import ImplementorIndex.Proofs.Threads.Delivery
import ImplementorIndex.Proofs.Threads.Promises
import ImplementorIndex.Proofs.Threads.Calls
import ImplementorIndex.Proofs.Threads.ExactlyOnce
import ImplementorIndex.Proofs.Threads.Replies
import ImplementorIndex.Proofs.Json.RoundTrip
import ImplementorIndex.Proofs.Json.Pieces
import ImplementorIndex.Proofs.Fragment.Nesting
import ImplementorIndex.Proofs.Fragment.Grammar
import ImplementorIndex.Proofs.Fragment.RoundTrip
import ImplementorIndex.Proofs.Threads.Drainer
import ImplementorIndex.Proofs.Threads.Waiting
import ImplementorIndex.Proofs.Threads.Consumer
import ImplementorIndex.Proofs.Threads.Installation
import ImplementorIndex.Proofs.Threads.Conservation
import ImplementorIndex.Proofs.Threads.Panics
import ImplementorIndex.Proofs.Threads.Sequential
import ImplementorIndex.Proofs.Threads.Plain
import ImplementorIndex.Proofs.Page.Rendering
import ImplementorIndex.Proofs.Threads.Linearization
import ImplementorIndex.Proofs.Rows
import ImplementorIndex.Proofs.Page.Merging
import ImplementorIndex.Proofs.Command.Replay
import ImplementorIndex.Proofs.Registry.Malformed
import ImplementorIndex.Proofs.Json.Exact
import ImplementorIndex.Proofs.Json.Words
import ImplementorIndex.Proofs.Json.Containers
import ImplementorIndex.Proofs.Fragment.Forms
import ImplementorIndex.Proofs.Fragment.Shapes
import ImplementorIndex.Proofs.Order
import ImplementorIndex.Proofs.Page.Skipping
import ImplementorIndex.Proofs.Path
import ImplementorIndex.Proofs.Registry.BreadthFirst
import ImplementorIndex.Proofs.Files.Walk
import ImplementorIndex.Proofs.Fragment.Loading
import ImplementorIndex.Proofs.Command.Agreement
import ImplementorIndex.Proofs.Page.Overview
import ImplementorIndex.Proofs.Page.Repetition
import ImplementorIndex.Proofs.Page.LoadOrder
import ImplementorIndex.Proofs.Fragment.Location
import ImplementorIndex.Proofs.Fragment.Recovery
import ImplementorIndex.Proofs.Json.Grammar
import ImplementorIndex.Proofs.Fragment.Bytewise
import ImplementorIndex.Proofs.Fragment.NameTail
import ImplementorIndex.Proofs.Fragment.BytewiseSearch
import ImplementorIndex.Proofs.Fragment.Faultless
import ImplementorIndex.Proofs.Json.Arrays
import ImplementorIndex.Proofs.Fragment.ListLiteral
