import SecondOrder.Operand.Lambda
import SecondOrder.Expr.Comparison
import SecondOrder.Search.Stream
import SecondOrder.Proofs.Expr.Alpha
import SecondOrder.Proofs.Expr.Subst
import SecondOrder.Proofs.Equation.Apply
import SecondOrder.Proofs.Equation.Align
import SecondOrder.Proofs.Equation.Solution
import SecondOrder.Proofs.Search.Progress
import SecondOrder.Proofs.Search.Cleanup
import SecondOrder.Proofs.Search.Depth
import SecondOrder.Proofs.Search.Enumeration
import SecondOrder.Proofs.Search.Exclusion
import SecondOrder.Proofs.Search.Retry
import SecondOrder.Proofs.Search.Branched
import SecondOrder.Proofs.Search.Soundness
import SecondOrder.Proofs.Equation.Flat
import SecondOrder.Proofs.Search.Choice
import SecondOrder.Proofs.Search.Completeness
import SecondOrder.Proofs.Search.Exactness
import SecondOrder.Proofs.Search.History
import SecondOrder.Proofs.Equation.Vocabulary
import SecondOrder.Proofs.Search.Answers
import SecondOrder.Proofs.Search.Callable
import SecondOrder.Proofs.Search.Finite
import SecondOrder.Proofs.Search.Verdict
import SecondOrder.Proofs.Expr.Below
import SecondOrder.Proofs.Search.Freshness
import SecondOrder.Proofs.Search.FirstOrder
import SecondOrder.Proofs.Search.Renaming
import SecondOrder.Proofs.Expr.Comparison
import SecondOrder.Proofs.Expr.Replacement
import SecondOrder.Proofs.Expr.Reduction
import SecondOrder.Proofs.Expr.Capture
import SecondOrder.Proofs.Expr.Conversion
import SecondOrder.Proofs.Expr.Simultaneous
import SecondOrder.Proofs.Equation.NormalForm
import SecondOrder.Proofs.Search.Decision
import SecondOrder.Proofs.EquationSet.Exchange
import SecondOrder.Proofs.EquationSet.Exclusions
import SecondOrder.Proofs.Operand.Guess
import SecondOrder.Proofs.Equation.Classification
import SecondOrder.Proofs.EquationSet.Membership
import SecondOrder.Proofs.EquationSet.Copies
import SecondOrder.Proofs.Expr.Freeness
import SecondOrder.Proofs.Search.Assigned
import SecondOrder.Proofs.Expr.Position
import SecondOrder.Proofs.Expr.Numeral
