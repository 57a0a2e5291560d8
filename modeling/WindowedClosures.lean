import WindowedClosures.Main
import WindowedClosures.Proofs.Code.Blocks
import WindowedClosures.Proofs.Code.Bodies
import WindowedClosures.Proofs.Code.Calling
import WindowedClosures.Proofs.Code.Chains
import WindowedClosures.Proofs.Code.Choices
import WindowedClosures.Proofs.Code.Comparisons
import WindowedClosures.Proofs.Code.Confinement
import WindowedClosures.Proofs.Code.Copying
import WindowedClosures.Proofs.Code.Discipline
import WindowedClosures.Proofs.Code.Effects
import WindowedClosures.Proofs.Code.Emission
import WindowedClosures.Proofs.Code.Evaluation
import WindowedClosures.Proofs.Code.Faults
import WindowedClosures.Proofs.Code.Folding
import WindowedClosures.Proofs.Code.Footprint
import WindowedClosures.Proofs.Code.Format
import WindowedClosures.Proofs.Code.Frames
import WindowedClosures.Proofs.Code.FunctionValues
import WindowedClosures.Proofs.Code.Handing
import WindowedClosures.Proofs.Code.Inferred
import WindowedClosures.Proofs.Code.Laying
import WindowedClosures.Proofs.Code.Literals
import WindowedClosures.Proofs.Code.Marks
import WindowedClosures.Proofs.Code.Members
import WindowedClosures.Proofs.Code.Mentions
import WindowedClosures.Proofs.Code.Numbers
import WindowedClosures.Proofs.Code.Outputs
import WindowedClosures.Proofs.Code.Places
import WindowedClosures.Proofs.Code.Playing
import WindowedClosures.Proofs.Code.PrintBuffer
import WindowedClosures.Proofs.Code.Records
import WindowedClosures.Proofs.Code.Requests
import WindowedClosures.Proofs.Code.Shapes
import WindowedClosures.Proofs.Code.Soundness
import WindowedClosures.Proofs.Code.Texts
import WindowedClosures.Proofs.Code.Treading
import WindowedClosures.Proofs.Code.Tuples
import WindowedClosures.Proofs.Expr.Nodes
import WindowedClosures.Proofs.Grammar.Annotations
import WindowedClosures.Proofs.Grammar.Assignments
import WindowedClosures.Proofs.Grammar.Climbing
import WindowedClosures.Proofs.Grammar.Parsing
import WindowedClosures.Proofs.Grammar.Placement
import WindowedClosures.Proofs.Grammar.Printing
import WindowedClosures.Proofs.Grammar.Readers
import WindowedClosures.Proofs.Grammar.Rereading
import WindowedClosures.Proofs.Grammar.RoundTrip
import WindowedClosures.Proofs.Grammar.Sources
import WindowedClosures.Proofs.Grammar.Spelling
import WindowedClosures.Proofs.Grammar.Types
import WindowedClosures.Proofs.Machine.Calls
import WindowedClosures.Proofs.Machine.Claims
import WindowedClosures.Proofs.Machine.Closures
import WindowedClosures.Proofs.Machine.Contracts
import WindowedClosures.Proofs.Machine.Extension
import WindowedClosures.Proofs.Machine.Lockstep
import WindowedClosures.Proofs.Machine.Passage
import WindowedClosures.Proofs.Machine.Pool
import WindowedClosures.Proofs.Machine.PoolBounds
import WindowedClosures.Proofs.Machine.Runs
import WindowedClosures.Proofs.Machine.Stepping
import WindowedClosures.Proofs.Machine.Straight
import WindowedClosures.Proofs.Machine.Texts
import WindowedClosures.Proofs.Machine.Windows
import WindowedClosures.Proofs.Outcome
import WindowedClosures.Proofs.Scope.Ancestry
import WindowedClosures.Proofs.Scope.Arms
import WindowedClosures.Proofs.Scope.Captures
import WindowedClosures.Proofs.Scope.Currying
import WindowedClosures.Proofs.Scope.Desugaring
import WindowedClosures.Proofs.Scope.Enumeration
import WindowedClosures.Proofs.Scope.Forest
import WindowedClosures.Proofs.Scope.Names
import WindowedClosures.Proofs.Scope.Nesting
import WindowedClosures.Proofs.Scope.Numbered
import WindowedClosures.Proofs.Scope.Occurrences
import WindowedClosures.Proofs.Scope.Ownership
import WindowedClosures.Proofs.Scope.Passes
import WindowedClosures.Proofs.Scope.Preorder
import WindowedClosures.Proofs.Scope.Reading
import WindowedClosures.Proofs.Scope.Rows
import WindowedClosures.Proofs.Scope.Sugar
import WindowedClosures.Proofs.Scope.Walking
import WindowedClosures.Proofs.Token.Bare
import WindowedClosures.Proofs.Token.Coverage
import WindowedClosures.Proofs.Token.Describing
import WindowedClosures.Proofs.Token.Drawing
import WindowedClosures.Proofs.Token.Grouping
import WindowedClosures.Proofs.Token.Joining
import WindowedClosures.Proofs.Token.Matching
import WindowedClosures.Proofs.Token.Scanning
import WindowedClosures.Proofs.Token.Semicolons
import WindowedClosures.Proofs.Ty.Callables
import WindowedClosures.Proofs.Ty.Matching
import WindowedClosures.Proofs.Ty.Selection
import WindowedClosures.Scope.Walk
