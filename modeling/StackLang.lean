import StackLang.Location
import StackLang.Text
import StackLang.Prim
import StackLang.Kind
import StackLang.Token
import StackLang.Lexeme
import StackLang.Token.Dump
import StackLang.Diagnostic
import StackLang.Program
import StackLang.Source.Tree
import StackLang.Source.Prelude
import StackLang.Body
import StackLang.Declaration
import StackLang.Front
import StackLang.Validation
import StackLang.Program.Wire
import StackLang.Program.Listing
import StackLang.Compile
import StackLang.Command
import StackLang.Main
import StackLang.Proofs.Nesting
import StackLang.Proofs.Reading
import StackLang.Proofs.WellRead
import StackLang.Proofs.Walking
import StackLang.Proofs.Matching
import StackLang.Proofs.Validated
import StackLang.Proofs.ControlFlow
import StackLang.Proofs.InternalErrors
import StackLang.Proofs.Machine
import StackLang.Proofs.Cells
import StackLang.Proofs.Processor
import StackLang.Proofs.Image
import StackLang.Proofs.Straight
import StackLang.Proofs.Placement
import StackLang.Proofs.StackSafety
import StackLang.Proofs.Simulation
import StackLang.Proofs.Blocks
import StackLang.Proofs.SyntaxTree
import StackLang.Proofs.Compositional
import StackLang.Proofs.Tagging
import StackLang.Proofs.ExactKinds
import StackLang.Proofs.Linked
import StackLang.Proofs.AssemblyText
import StackLang.Proofs.CallGraph
import StackLang.Proofs.Closure
import StackLang.Proofs.Codecs
import StackLang.Proofs.ProgramBytes
import StackLang.Proofs.Truncation
import StackLang.Proofs.Revalidation
import StackLang.Proofs.Appended
import StackLang.Proofs.Footprint
import StackLang.Proofs.Lexing
import StackLang.Proofs.Spelling
import StackLang.Proofs.Declared
import StackLang.Proofs.Discovery
import StackLang.Proofs.Relocation
import StackLang.Proofs.Layout
import StackLang.Proofs.Tables
import StackLang.Proofs.Reachability
import StackLang.Proofs.FrameSlots
import StackLang.Proofs.Provenance
import StackLang.Proofs.StackBound
import StackLang.Proofs.FrameRule
import StackLang.Proofs.Recovery
import StackLang.Proofs.BindingTable
import StackLang.Proofs.Console
import StackLang.Proofs.Library
import StackLang.Proofs.Printing
import StackLang.Proofs.Grammar
import StackLang.Proofs.Positions
import StackLang.Proofs.LineLocality
import StackLang.Proofs.Literals
import StackLang.Proofs.Comments
