import FourVin.Assembler
import FourVin.Binary.Decimal
import FourVin.Binary.Double
import FourVin.Binary.Format
import FourVin.Binary.Shortest
import FourVin.Command.Arguments
import FourVin.Command.Directory
import FourVin.Command.ListingText
import FourVin.Command.Path
import FourVin.Command.Run
import FourVin.Diagnostic
import FourVin.Expansion
import FourVin.Image
import FourVin.Image.Decoding
import FourVin.Image.Draft
import FourVin.Image.Encoding
import FourVin.InstructionSet
import FourVin.Journal
import FourVin.LabelTable
import FourVin.Main
import FourVin.Program
import FourVin.Program.Reading
import FourVin.Proofs.Assembler.Checked
import FourVin.Proofs.Assembler.FloatWords
import FourVin.Proofs.Assembler.HexText
import FourVin.Proofs.Assembler.Renaming
import FourVin.Proofs.Assembler.Rendering
import FourVin.Proofs.Assembler.RoundTrip
import FourVin.Proofs.Assembler.Spelling
import FourVin.Proofs.Binary.Halfway
import FourVin.Proofs.Binary.Narrowing
import FourVin.Proofs.Binary.ReadBack
import FourVin.Proofs.Binary.Rounding
import FourVin.Proofs.Command.Effects
import FourVin.Proofs.Command.Names
import FourVin.Proofs.Command.Settings
import FourVin.Proofs.Expansion.Filling
import FourVin.Proofs.Expansion.Primitives
import FourVin.Proofs.Expansion.Rewrite
import FourVin.Proofs.FirstFault
import FourVin.Proofs.Image.Addresses
import FourVin.Proofs.Image.Canonical
import FourVin.Proofs.Image.Contents
import FourVin.Proofs.Image.Delimiting
import FourVin.Proofs.Image.Disassembly
import FourVin.Proofs.Image.Encoding
import FourVin.Proofs.Image.Faults
import FourVin.Proofs.Image.Layouts
import FourVin.Proofs.Image.Linking
import FourVin.Proofs.Image.Listing
import FourVin.Proofs.Image.Patching
import FourVin.Proofs.Image.Renaming
import FourVin.Proofs.Image.TwoPass
import FourVin.Proofs.Outcome
import FourVin.Proofs.Program.Acceptance
import FourVin.Proofs.Program.Concatenation
import FourVin.Proofs.Program.Content
import FourVin.Proofs.Program.FloatOperands
import FourVin.Proofs.Program.Grammar
import FourVin.Proofs.Program.Guarantees
import FourVin.Proofs.Program.Locations
import FourVin.Proofs.Program.RoundTrip
import FourVin.Proofs.Program.Skeleton
import FourVin.Proofs.Program.Soundness
import FourVin.Proofs.Program.ViablePrefix
import FourVin.Proofs.Program.WrittenForm
import FourVin.Proofs.Symbols.Renaming
import FourVin.Proofs.Symbols.Verdict
import FourVin.Proofs.Symbols.WellFormed
import FourVin.Proofs.Text.Lines
import FourVin.Proofs.Token.Faults
import FourVin.Proofs.Token.FloatLiterals
import FourVin.Proofs.Token.Forms
import FourVin.Proofs.Token.Lexing
import FourVin.Proofs.Token.Lines
import FourVin.Proofs.Token.LongestMatch
import FourVin.Proofs.Token.Order
import FourVin.Proofs.Token.Spacing
import FourVin.Proofs.Token.Tiling
import FourVin.Register
import FourVin.Symbols
import FourVin.Template
import FourVin.Text.Blank
import FourVin.Text.Digit
import FourVin.Text.Hex
import FourVin.Text.Position
import FourVin.Text.Quoted
import FourVin.Token
import FourVin.Token.Rule
import FourVin.Token.Scan
import FourVin.Value
import FourVin.Word
