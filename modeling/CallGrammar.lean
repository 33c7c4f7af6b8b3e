import CallGrammar.Dfa.Isomorphism
import CallGrammar.Expr.Language
import CallGrammar.Main
import CallGrammar.Proofs.Language
import CallGrammar.Proofs.Route
import CallGrammar.Proofs.Fragment
import CallGrammar.Proofs.Subsets
import CallGrammar.Proofs.Derivation
import CallGrammar.Proofs.Parser
import CallGrammar.Proofs.Trim
import CallGrammar.Proofs.Chain
import CallGrammar.Proofs.Refusal
import CallGrammar.Proofs.Liveness
import CallGrammar.Proofs.Lexer
import CallGrammar.Proofs.Viable
import CallGrammar.Proofs.FirstFault
import CallGrammar.Proofs.Limit
import CallGrammar.Proofs.Spelling
import CallGrammar.Proofs.Normalization
import CallGrammar.Proofs.DepthLimit
import CallGrammar.Proofs.StateLimit
import CallGrammar.Proofs.Meaning
import CallGrammar.Proofs.Printing
import CallGrammar.Proofs.Renaming
import CallGrammar.Proofs.Discovery
import CallGrammar.Proofs.Isomorphism
import CallGrammar.Proofs.Walk
import CallGrammar.Proofs.Invocation
import CallGrammar.Proofs.Report
import CallGrammar.Proofs.SameWalk
import CallGrammar.Proofs.LongestMatch
import CallGrammar.Proofs.Partition
import CallGrammar.Proofs.Provenance
import CallGrammar.Proofs.Resolution
import CallGrammar.Chain.Traced
import CallGrammar.Proofs.Colours
import CallGrammar.Proofs.Tracing
import CallGrammar.Proofs.Outline
import CallGrammar.Proofs.Replay
import CallGrammar.Proofs.Bounds
import CallGrammar.Proofs.CallToken
import CallGrammar.Proofs.Isolation
import CallGrammar.Proofs.Dump
import CallGrammar.Proofs.BreadthFirst
import CallGrammar.Proofs.Interning
