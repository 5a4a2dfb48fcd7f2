import Conform.Text.Numeral
import Conform.Fields
import Conform.Token
import Conform.Json
import Conform.Class
import Conform.Heap
import Conform.Decimal.Layout
import Conform.Decimal.Reading
import Conform.Text.Blank
import Conform.Text.Lines
import Conform.Text.Printable
import Conform.Text.Quoted
import Conform.Definition
import Conform.Outcome
import Conform.Store
import Conform.Json.Error
import Conform.Json.Reader
import Conform.Judgement
import Conform.Proofs.Inquiry
import Conform.Proofs.TokenText
import Conform.Proofs.Graph
import Conform.Proofs.Call
import Conform.Proofs.Position
import Conform.Proofs.Cycle
import Conform.Proofs.Depth
import Conform.Proofs.Conformance
import Conform.Proofs.ClassOrder
import Conform.Proofs.TokenForms
import Conform.Proofs.Unguarded
import Conform.Proofs.Trace
import Conform.Proofs.Limit
import Conform.Proofs.Context
import Conform.Proofs.Order
import Conform.Proofs.Loosening
import Conform.Proofs.Likeness
import Conform.Proofs.Unfolding
import Conform.Proofs.Evaluation
import Conform.Debug
import Conform.Json.Pointer
import Conform.Json.Printer
import Conform.Tree
import Conform.Tree.OfJson
import Conform.Document
import Conform.Proofs.Readers
import Conform.Proofs.Walks
import Conform.Proofs.Levels
import Conform.Proofs.Envelope
import Conform.Proofs.DistinctKeys
import Conform.Proofs.Double
import Conform.Proofs.Expressible
import Conform.Proofs.PointerNames
import Conform.Proofs.Properties
import Conform.Proofs.Faults
import Conform.Proofs.Malformation
import Conform.Proofs.OptionReading
import Conform.Proofs.Growth
import Conform.Proofs.Building
import Conform.Proofs.Height
import Conform.Proofs.Planting
import Conform.Proofs.KeyOrder
import Conform.Proofs.Locality
import Conform.Proofs.Representation
import Conform.Proofs.Nesting
import Conform.Proofs.Mutation
import Conform.Filter.Expression
import Conform.Filter.Lexeme
import Conform.Filter.Parser
import Conform.Filter.Meaning
import Conform.Filter.Run
import Conform.Filter.Fragment
import Conform.Files.Path
import Conform.Files.System
import Conform.Files.Tree
import Conform.Files.Glob
import Conform.Files.Search
import Conform.Check
import Conform.Proofs.Sampling
import Conform.Proofs.Printing
import Conform.Proofs.Delivery
import Conform.Proofs.Channels
import Conform.Proofs.Atomicity
import Conform.Token.Explanation
import Conform.Proofs.Explanation
import Conform.CommandLine
import Conform.Main
