import SharpTree.CSharp.Keyword
import SharpTree.CSharp.Render
import SharpTree.CSharp.Warning
import SharpTree.CodeUnit
import SharpTree.Command.Arguments
import SharpTree.Command.Run
import SharpTree.Decimal.Scientific
import SharpTree.Decimal.Shortest
import SharpTree.Event
import SharpTree.Files.Basic
import SharpTree.Files.Path
import SharpTree.Json.Printer
import SharpTree.Json.Value
import SharpTree.Loader
import SharpTree.Main
import SharpTree.Node.Accessor
import SharpTree.Node.Basic
import SharpTree.Node.BlockKind
import SharpTree.Node.Form
import SharpTree.Node.Kind
import SharpTree.Node.Mismatch
import SharpTree.Node.Modifier
import SharpTree.Node.Reading
import SharpTree.Node.Schema
import SharpTree.Node.Writer
import SharpTree.Proofs.CSharp.Brackets
import SharpTree.Proofs.CSharp.Composition
import SharpTree.Proofs.CSharp.Grouping
import SharpTree.Proofs.CSharp.Pieces
import SharpTree.Proofs.CSharp.Placeholders
import SharpTree.Proofs.CSharp.Postfix
import SharpTree.Proofs.CSharp.Replacement
import SharpTree.Proofs.CSharp.Statements
import SharpTree.Proofs.CSharp.Trace
import SharpTree.Proofs.CSharp.Warnings
import SharpTree.Proofs.Command.Checking
import SharpTree.Proofs.Command.Emission
import SharpTree.Proofs.Decimal.Range
import SharpTree.Proofs.Decimal.Rounding
import SharpTree.Proofs.Decimal.Shortest
import SharpTree.Proofs.Degradation
import SharpTree.Proofs.Files.Opening
import SharpTree.Proofs.Files.Place
import SharpTree.Proofs.Files.Writing
import SharpTree.Proofs.Json.Canonical
import SharpTree.Proofs.Json.Doubles
import SharpTree.Proofs.Json.Grammar
import SharpTree.Proofs.Json.Magnitude
import SharpTree.Proofs.Json.Pointer
import SharpTree.Proofs.Json.Printing
import SharpTree.Proofs.Json.Spelling
import SharpTree.Proofs.Node.Accessor
import SharpTree.Proofs.Node.Depth
import SharpTree.Proofs.Node.Explicit
import SharpTree.Proofs.Node.Fields
import SharpTree.Proofs.Node.Layer
import SharpTree.Proofs.Node.Meaning
import SharpTree.Proofs.Node.Position
import SharpTree.Proofs.Node.Rewriting
import SharpTree.Proofs.Node.RoundTrip
import SharpTree.Proofs.Node.Substitution
import SharpTree.Proofs.Node.Writing
import SharpTree.Proofs.Source.Malformed
import SharpTree.Proofs.Source.Number
import SharpTree.Proofs.Source.Refusal
import SharpTree.Proofs.Source.Site
import SharpTree.Proofs.Source.Tags
import SharpTree.Proofs.Source.Text
import SharpTree.Proofs.Source.Tree
import SharpTree.Proofs.Source.Value
import SharpTree.Session
import SharpTree.Source.Fault
import SharpTree.Source.Number
import SharpTree.Source.ParseError
import SharpTree.Source.Text
import SharpTree.Source.Tree
import SharpTree.Source.Value
import SharpTree.Text.Blank
import SharpTree.Text.Hidden
import SharpTree.Text.Location
import SharpTree.Text.Quoted
import SharpTree.Proofs.Node.Objects
import SharpTree.Proofs.Source.Places
import SharpTree.Proofs.Source.Property
import SharpTree.Proofs.Source.Location
import SharpTree.Proofs.Files.Path
import SharpTree.Proofs.CodeUnit.Generation
import SharpTree.Proofs.Source.Literals
import SharpTree.Proofs.CodeUnit.Writing
import SharpTree.Proofs.Source.Normalization
import SharpTree.Proofs.Source.Blocks
