import ContextFree.Binary
import ContextFree.CommandLine
import ContextFree.Conversion
import ContextFree.Derivation
import ContextFree.Directory
import ContextFree.Document
import ContextFree.Draws
import ContextFree.EpsilonFree
import ContextFree.Fresh
import ContextFree.Grammar
import ContextFree.Location
import ContextFree.Main
import ContextFree.NormalForm
import ContextFree.Nullable
import ContextFree.Production
import ContextFree.Proofs.Binary
import ContextFree.Proofs.Conversion
import ContextFree.Proofs.Document
import ContextFree.Proofs.Droppings
import ContextFree.Proofs.EmptyWord
import ContextFree.Proofs.EpsilonFree
import ContextFree.Proofs.Filling
import ContextFree.Proofs.Issue
import ContextFree.Proofs.Items
import ContextFree.Proofs.Layout
import ContextFree.Proofs.Limit
import ContextFree.Proofs.Lines
import ContextFree.Proofs.Marks
import ContextFree.Proofs.Membership
import ContextFree.Proofs.Naming
import ContextFree.Proofs.NormalForm
import ContextFree.Proofs.Nullable
import ContextFree.Proofs.Order
import ContextFree.Proofs.Printed
import ContextFree.Proofs.Reading
import ContextFree.Proofs.Renaming
import ContextFree.Proofs.Rewriting
import ContextFree.Proofs.Run
import ContextFree.Proofs.Sampling
import ContextFree.Proofs.Search
import ContextFree.Proofs.Symbols
import ContextFree.Proofs.Table
import ContextFree.Proofs.Token
import ContextFree.Proofs.Trees
import ContextFree.Proofs.Unchanged
import ContextFree.Proofs.Unfolding
import ContextFree.Proofs.UnitFree
import ContextFree.Proofs.Wrappers
import ContextFree.Recognizer
import ContextFree.Run
import ContextFree.Sampling
import ContextFree.Search
import ContextFree.Symbol
import ContextFree.Text
import ContextFree.Token
import ContextFree.UnitFree
