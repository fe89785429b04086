import Markwright.CommandLine.Folder
import Markwright.Main
import Markwright.Printer.Script
import Markwright.Proofs.Reading
import Markwright.Renderer
import Markwright.Proofs.Escaping
import Markwright.Proofs.Balance
import Markwright.Proofs.Counters
import Markwright.Proofs.Neutral
import Markwright.Proofs.Letters
import Markwright.Proofs.Telling
import Markwright.Proofs.Flat
import Markwright.Proofs.FlatPage
import Markwright.Proofs.JsonText
import Markwright.Proofs.Stored
import Markwright.Proofs.Loading
import Markwright.Proofs.Waiting
import Markwright.Proofs.Surroundings
import Markwright.Proofs.QuoteMarks
import Markwright.Proofs.Recut
import Markwright.Proofs.AnyTree
import Markwright.Proofs.Tables
import Markwright.Proofs.LiveLine
import Markwright.Proofs.ParagraphLines
import Markwright.Proofs.Bars
import Markwright.Proofs.TableLines
import Markwright.Proofs.WellNested
import Markwright.Proofs.Observers
import Markwright.Proofs.Inserted
import Markwright.Proofs.Openings
import Markwright.Proofs.Unmarked
import Markwright.Proofs.Scripts
import Markwright.Proofs.Brackets
import Markwright.Proofs.Targets
import Markwright.Proofs.TableReading
import Markwright.Proofs.Narrowing
import Markwright.Proofs.Budgets
import Markwright.Proofs.HeaderRows
import Markwright.Proofs.BarOffsets
import Markwright.Proofs.Dividers
import Markwright.Proofs.Moves
import Markwright.Proofs.Suppression
import Markwright.Proofs.Entries
import Markwright.Proofs.ItemBreaks
import Markwright.Proofs.EntryLines
import Markwright.Proofs.MidLine
import Markwright.Proofs.ItemTexts
import Markwright.Proofs.Cutting
import Markwright.Proofs.Arguments
import Markwright.Proofs.Calls
import Markwright.Proofs.CodeMarks
import Markwright.Proofs.Spacing
import Markwright.Proofs.Layers
import Markwright.Proofs.ScriptSpaces
import Markwright.Proofs.TokenRow
import Markwright.Proofs.Pieces
import Markwright.Proofs.BasePrefix
import Markwright.Proofs.Capturing
