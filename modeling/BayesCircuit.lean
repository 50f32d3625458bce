import BayesCircuit.Main
import BayesCircuit.Multigraph.Evaluate
import BayesCircuit.Proofs.Decision.Forward
import BayesCircuit.Proofs.Collection.Ascending
import BayesCircuit.Proofs.Composition
import BayesCircuit.Proofs.Counter.Held
import BayesCircuit.Proofs.InteractionGraph
import BayesCircuit.Proofs.Multigraph.Level
import BayesCircuit.Proofs.Multigraph.Layers
import BayesCircuit.Proofs.PseudoTree.Build
import BayesCircuit.Proofs.Parallel.Compile
import BayesCircuit.Proofs.References.Released
import BayesCircuit.Proofs.Parallel.Places
import BayesCircuit.Proofs.Ordering.Valid
import BayesCircuit.Proofs.Ordering.RootOrders
import BayesCircuit.Proofs.Ordering.BestFirst
import BayesCircuit.Proofs.Rows.Represents
import BayesCircuit.Proofs.Network.Accepted
import BayesCircuit.Proofs.Network.Grammar
import BayesCircuit.Proofs.Decision.Circuit
import BayesCircuit.Proofs.Decision.Shared
import BayesCircuit.Proofs.Decision.Sweep
import BayesCircuit.Proofs.Tables.Represents
import BayesCircuit.Proofs.Tables.Conjunction
import BayesCircuit.Proofs.Encoding.MappingReader
import BayesCircuit.Proofs.Encoding.Numbering
import BayesCircuit.Proofs.Multigraph.Sharing
import BayesCircuit.Proofs.Multigraph.Reduction
import BayesCircuit.Proofs.Decision.Canonical
import BayesCircuit.Proofs.Bound.Saturation
import BayesCircuit.Proofs.Bound.Visited
import BayesCircuit.Proofs.PseudoTree.Induced
import BayesCircuit.Proofs.SpanningTree.Contents
import BayesCircuit.Proofs.PseudoTree.Grammar
import BayesCircuit.Proofs.Composition.Score
import BayesCircuit.Proofs.Multigraph.Dump
import BayesCircuit.Proofs.Ordering.Files
import BayesCircuit.Proofs.Compiler.Reading
import BayesCircuit.Proofs.Ordering.Annealing
import BayesCircuit.Proofs.Ordering.Backtracking
import BayesCircuit.Proofs.Encoding.Exchange
import BayesCircuit.Proofs.References.Dangling
