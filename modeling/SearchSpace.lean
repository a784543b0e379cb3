import SearchSpace.Integer
import SearchSpace.Binary64.Rounding
import SearchSpace.Binary64.SignedFloat
import SearchSpace.Binary64.Elementary
import SearchSpace.Decimal.Layout
import SearchSpace.Value
import SearchSpace.Operator
import SearchSpace.Comparison
import SearchSpace.Interval
import SearchSpace.Law.Sampling
import SearchSpace.Law.Buffer
import SearchSpace.Rejection
import SearchSpace.Identifier
import SearchSpace.Parameter.Domain
import SearchSpace.Parameter.Sampling
import SearchSpace.Scope
import SearchSpace.Expr.Parser
import SearchSpace.Expr.Eval
import SearchSpace.Expr.Check
import SearchSpace.DependencyGraph
import SearchSpace.Assignment
import SearchSpace.Configuration
import SearchSpace.Space.Activation
import SearchSpace.Space.Sampling
import SearchSpace.Exchange.Codec
import SearchSpace.Session
import SearchSpace.Proofs.Outcome
import SearchSpace.Proofs.Law.Shape
import SearchSpace.Proofs.Assignment.Links
import SearchSpace.Proofs.DependencyGraph.Ascending
import SearchSpace.Proofs.DependencyGraph.Children
import SearchSpace.Proofs.DependencyGraph.Order
import SearchSpace.Proofs.DependencyGraph.Cycle
import SearchSpace.Proofs.Assignment.Invariant
import SearchSpace.Proofs.Assignment.Step
import SearchSpace.Proofs.Assignment.Representation
import SearchSpace.Proofs.Expr.Reads
import SearchSpace.Proofs.Parameter.Domain
import SearchSpace.Proofs.Space.Activation
import SearchSpace.Proofs.Space.Call
import SearchSpace.Proofs.Space.Consistency
import SearchSpace.Proofs.Generator
import SearchSpace.Proofs.Weights
import SearchSpace.Proofs.Interval
import SearchSpace.Proofs.Interval.Sets
import SearchSpace.Proofs.Law.Leaves
import SearchSpace.Proofs.Law.Support
import SearchSpace.Proofs.Law.Buffer
import SearchSpace.Proofs.Law.Layout
import SearchSpace.Proofs.Law.Columns
import SearchSpace.Proofs.Law.Integers
import SearchSpace.Proofs.Rejection
import SearchSpace.Proofs.Rejection.Requests
import SearchSpace.Proofs.Assignment.Drawing
import SearchSpace.Proofs.Space.Sampling
import SearchSpace.Proofs.Binary64.Rounds
import SearchSpace.Proofs.Binary64.Packing
import SearchSpace.Proofs.Binary64.Nearest
import SearchSpace.Proofs.Binary64.Sign
import SearchSpace.Proofs.Decimal.Numeral
import SearchSpace.Proofs.Decimal.Nearest
import SearchSpace.Proofs.Decimal.ReadBack
import SearchSpace.Proofs.Expr.Grammar
import SearchSpace.Proofs.Expr.Lexing
import SearchSpace.Proofs.Expr.Spelling
import SearchSpace.Proofs.Expr.Writing
import SearchSpace.Proofs.Expr.Printing
import SearchSpace.Proofs.Expr.Made
import SearchSpace.Proofs.Expr.RoundTrip
import SearchSpace.Proofs.Expr.Resolution
import SearchSpace.Proofs.Expr.Groups
import SearchSpace.Proofs.Expr.Parentheses
import SearchSpace.Proofs.Expr.Derivation
import SearchSpace.Proofs.Expr.Safety
import SearchSpace.Proofs.Expr.Faults
import SearchSpace.Proofs.Space.Fixpoint
import SearchSpace.Proofs.Space.Validity
import SearchSpace.Proofs.Space.Verdict
import SearchSpace.Proofs.Assignment.Refinement
import SearchSpace.Proofs.Expr.Sides
import SearchSpace.Proofs.Parameter.Conversion
import SearchSpace.Proofs.Space.Budget
import SearchSpace.Proofs.Parameter.Canonical
import SearchSpace.Proofs.Expr.Comparable
import SearchSpace.Proofs.Binary64.Nonnegative
import SearchSpace.Proofs.Weights.Zero
import SearchSpace.Proofs.Expr.Chains
import SearchSpace.Proofs.Expr.Integers
import SearchSpace.Proofs.Parameter.Grid
import SearchSpace.Proofs.Parameter.Unchecked
import SearchSpace.Proofs.Parameter.Discrete
import SearchSpace.Proofs.Expr.Occurrences
import SearchSpace.Proofs.Weights.Search
import SearchSpace.Proofs.Session.Lifetime
