import StyleLang.Check
import StyleLang.CommandLine.Run
import StyleLang.Compile
import StyleLang.Main
import StyleLang.Scope.Shared
import StyleLang.Transform
import StyleLang.Typing.Operation
import StyleLang.Proofs.Pass.Environment
import StyleLang.Proofs.Pass.Lexical
import StyleLang.Proofs.Pass.Moments
import StyleLang.Proofs.Pass.Yields
import StyleLang.Proofs.Syntax.Place
import StyleLang.Proofs.Typing.Rules
import StyleLang.Proofs.Typing.Soundness
import StyleLang.Proofs.Grammar.Acceptance
import StyleLang.Proofs.Grammar.Correctness
import StyleLang.Proofs.Compile.Endings
import StyleLang.Proofs.Compile.Logging
import StyleLang.Proofs.Css.RoundTrip
import StyleLang.Proofs.Grammar.Prefixes
import StyleLang.Proofs.Grammar.Variables
import StyleLang.Proofs.Pass.Isolation
import StyleLang.Proofs.Pass.Session
import StyleLang.Proofs.Scope.History
import StyleLang.Proofs.Scope.Snapshot
import StyleLang.Proofs.Pass.Folding
import StyleLang.Proofs.Pass.Renaming
import StyleLang.Proofs.Typing.Explanations
import StyleLang.Proofs.CommandLine.Agreement
import StyleLang.Proofs.Compile.Positions
import StyleLang.Proofs.Pass.Flattening
import StyleLang.Proofs.Pass.Repetition
import StyleLang.Proofs.Typing.Arithmetic
import StyleLang.Proofs.Pass.Commuting
import StyleLang.Proofs.Pass.Sequence
import StyleLang.Proofs.Pass.Refusals
import StyleLang.Proofs.Pass.DeadBranches
import StyleLang.Proofs.Pass.Foresight
import StyleLang.Proofs.Grammar.FirstTokens
import StyleLang.Proofs.Grammar.FirstFlaw
import StyleLang.Proofs.Scope.Restoration
import StyleLang.Proofs.Css.Offences
import StyleLang.Proofs.Grammar.Notices
import StyleLang.Proofs.Grammar.Printing
import StyleLang.Proofs.Scope.Writing
import StyleLang.Proofs.Scope.EmptyStack
import StyleLang.Proofs.CommandLine.Delivery
import StyleLang.Proofs.CommandLine.Verbosity
import StyleLang.Proofs.Typing.Inference
