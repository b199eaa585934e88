import ElementKernel.Code.Expr
import ElementKernel.Code.FloatLiteral
import ElementKernel.Code.Lines
import ElementKernel.Code.Render
import ElementKernel.Code.Stmt
import ElementKernel.Decimal.Binary
import ElementKernel.Decimal.Fraction
import ElementKernel.Decimal.Layout
import ElementKernel.Decimal.Nearest
import ElementKernel.Decimal.Shortest
import ElementKernel.Element.Cell
import ElementKernel.Element.Descriptor
import ElementKernel.Element.Info
import ElementKernel.Element.Reference
import ElementKernel.Fault
import ElementKernel.Index.Arena
import ElementKernel.Index.Binding
import ElementKernel.Index.Counter
import ElementKernel.Index.MonomialIndex
import ElementKernel.Index.Role
import ElementKernel.Integrand.Block
import ElementKernel.Integrand.Contribution
import ElementKernel.Integrand.Graph
import ElementKernel.Integrand.Inconsistency
import ElementKernel.Integrand.Integral
import ElementKernel.Integrand.Operator
import ElementKernel.Integrand.Table
import ElementKernel.Integrand.Terminal
import ElementKernel.Interchange.Element
import ElementKernel.Interchange.Index
import ElementKernel.Interchange.Integrand
import ElementKernel.Interchange.Json
import ElementKernel.Interchange.JsonText
import ElementKernel.Interchange.Monomial
import ElementKernel.Interchange.Quadrature
import ElementKernel.Kernel.BlockCode
import ElementKernel.Kernel.Error
import ElementKernel.Kernel.Generation
import ElementKernel.Kernel.OperatorCall
import ElementKernel.Kernel.PartitionCode
import ElementKernel.Kernel.Target
import ElementKernel.Kernel.TerminalAccess
import ElementKernel.Monomial.Classification
import ElementKernel.Monomial.Form
import ElementKernel.Monomial.JacobianEntry
import ElementKernel.Monomial.Measure
import ElementKernel.Monomial.Raw
import ElementKernel.Monomial.TransformError
import ElementKernel.Monomial.Transformation
import ElementKernel.Monomial.Transformed
import ElementKernel.OrderedMap
import ElementKernel.Proofs.Acceptable
import ElementKernel.Proofs.Acceptance
import ElementKernel.Proofs.Arrays.Brackets
import ElementKernel.Proofs.Arrays.Initializers
import ElementKernel.Proofs.Arrays.TableSizes
import ElementKernel.Proofs.BlockStructure.Leaves
import ElementKernel.Proofs.BlockStructure.Phrases
import ElementKernel.Proofs.BlockStructure.Reader
import ElementKernel.Proofs.BlockStructure.Statements
import ElementKernel.Proofs.CSource.Grammar
import ElementKernel.Proofs.CSource.Meaning
import ElementKernel.Proofs.CSource.Numerals
import ElementKernel.Proofs.CSource.Rendering
import ElementKernel.Proofs.CSource.Tokens
import ElementKernel.Proofs.CellRules.Assembly
import ElementKernel.Proofs.CellRules.Counts
import ElementKernel.Proofs.CellRules.Exactness
import ElementKernel.Proofs.CellRules.LineExactness
import ElementKernel.Proofs.CellRules.Moments
import ElementKernel.Proofs.Construction
import ElementKernel.Proofs.Contributions.Insertion
import ElementKernel.Proofs.Contributions.Reordering
import ElementKernel.Proofs.DecimalDigits
import ElementKernel.Proofs.Execution.Blocks
import ElementKernel.Proofs.Execution.Consistency
import ElementKernel.Proofs.Execution.Correctness
import ElementKernel.Proofs.Execution.FlatIndices
import ElementKernel.Proofs.Execution.Inputs
import ElementKernel.Proofs.Execution.Integrands
import ElementKernel.Proofs.Execution.Meaning
import ElementKernel.Proofs.Execution.Nodes
import ElementKernel.Proofs.Execution.Operators
import ElementKernel.Proofs.Execution.Positions
import ElementKernel.Proofs.Execution.Runs
import ElementKernel.Proofs.Execution.Statements
import ElementKernel.Proofs.Execution.Tables
import ElementKernel.Proofs.Execution.Terminals
import ElementKernel.Proofs.Execution.Values
import ElementKernel.Proofs.Execution.Visibility
import ElementKernel.Proofs.FaultFree
import ElementKernel.Proofs.FloatBits
import ElementKernel.Proofs.FloatLiterals
import ElementKernel.Proofs.Forms.FirstFailure
import ElementKernel.Proofs.Forms.Texts
import ElementKernel.Proofs.LegendrePolynomials
import ElementKernel.Proofs.NodeAcceptance
import ElementKernel.Proofs.Outcome
import ElementKernel.Proofs.PointCounts
import ElementKernel.Proofs.PolynomialDimensions
import ElementKernel.Proofs.Portability.Agreement
import ElementKernel.Proofs.Portability.Evaluation
import ElementKernel.Proofs.Portability.Kernels
import ElementKernel.Proofs.Portability.Literals
import ElementKernel.Proofs.Portability.Nodes
import ElementKernel.Proofs.Portability.Statements
import ElementKernel.Proofs.Pullback.Assignment
import ElementKernel.Proofs.Pullback.Bookkeeping
import ElementKernel.Proofs.Pullback.Components
import ElementKernel.Proofs.Pullback.Factors
import ElementKernel.Proofs.Pullback.Keys
import ElementKernel.Proofs.Pullback.Meaning
import ElementKernel.Proofs.Pullback.Numbering
import ElementKernel.Proofs.Pullback.Parts
import ElementKernel.Proofs.Pullback.Placement
import ElementKernel.Proofs.Pullback.Preservation
import ElementKernel.Proofs.Pullback.Product
import ElementKernel.Proofs.Pullback.Steps
import ElementKernel.Proofs.Pullback.Variables
import ElementKernel.Proofs.Records.Acceptance
import ElementKernel.Proofs.Records.Addresses
import ElementKernel.Proofs.Records.Determinant
import ElementKernel.Proofs.Records.Factors
import ElementKernel.Proofs.Records.Ledger
import ElementKernel.Proofs.Records.Links
import ElementKernel.Proofs.Records.Occurrences
import ElementKernel.Proofs.Records.Permutation
import ElementKernel.Proofs.Records.Runs
import ElementKernel.Proofs.Records.UniqueIndices
import ElementKernel.Proofs.Requirements.Integrands
import ElementKernel.Proofs.Requirements.Kernels
import ElementKernel.Proofs.Requirements.Rendering
import ElementKernel.Proofs.Requirements.Terminals
import ElementKernel.Proofs.Requirements.Words
import ElementKernel.Proofs.Roles.Balance
import ElementKernel.Proofs.Roles.Contraction
import ElementKernel.Proofs.Roles.Factors
import ElementKernel.Proofs.Roles.Slots
import ElementKernel.Proofs.Roles.Stops
import ElementKernel.Proofs.Roles.Visits
import ElementKernel.Proofs.RoundTrip.Elements
import ElementKernel.Proofs.RoundTrip.Formats
import ElementKernel.Proofs.RoundTrip.Integrals
import ElementKernel.Proofs.RustSource.Grammar
import ElementKernel.Proofs.RustSource.Meaning
import ElementKernel.Proofs.RustSource.Numerals
import ElementKernel.Proofs.RustSource.Rendering
import ElementKernel.Proofs.RustSource.Tokens
import ElementKernel.Proofs.Scoping.ArgumentTables
import ElementKernel.Proofs.Scoping.Codes
import ElementKernel.Proofs.Scoping.Counters
import ElementKernel.Proofs.Scoping.Declarations
import ElementKernel.Proofs.Scoping.Names
import ElementKernel.Proofs.Scoping.Order
import ElementKernel.Proofs.Scoping.Placement
import ElementKernel.Proofs.Scoping.Readings
import ElementKernel.Proofs.Scoping.Slots
import ElementKernel.Proofs.Scoping.Statements
import ElementKernel.Proofs.Scoping.TensorBounds
import ElementKernel.Proofs.Scoping.Variables
import ElementKernel.Proofs.SubElements.Components
import ElementKernel.Proofs.SubElements.Offsets
import ElementKernel.Quadrature.CellRule
import ElementKernel.Quadrature.Gauss
import ElementKernel.Quadrature.GaussJacobi
import ElementKernel.Quadrature.Legendre
import ElementKernel.Quadrature.PointCount
import ElementKernel.Quadrature.Reference
import ElementKernel.Quadrature.Rule
import ElementKernel.Quadrature.Tridiagonal
import ElementKernel.Word
