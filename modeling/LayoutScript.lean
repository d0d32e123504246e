import LayoutScript.Bits.Buffered
import LayoutScript.Main
import LayoutScript.Supply.CustomType
import LayoutScript.Proofs.AnyCode
import LayoutScript.Proofs.AskedNames
import LayoutScript.Proofs.BitTape
import LayoutScript.Proofs.BufferedReading
import LayoutScript.Proofs.ClassifiedSizes
import LayoutScript.Proofs.Halting
import LayoutScript.Proofs.ListedLines
import LayoutScript.Proofs.LoweredScript
import LayoutScript.Proofs.PathGrammar
import LayoutScript.Proofs.PlainSource
import LayoutScript.Proofs.PrintedScript
import LayoutScript.Proofs.Progress
import LayoutScript.Proofs.Providers
import LayoutScript.Proofs.ReadAhead
import LayoutScript.Proofs.ReadingHistory
import LayoutScript.Proofs.Selection
import LayoutScript.Proofs.TreeNumbers
import LayoutScript.Proofs.Truncation
import LayoutScript.Proofs.WellFormed
import LayoutScript.Proofs.WholeBytes
import LayoutScript.Proofs.WriteBack
import LayoutScript.Proofs.WrittenBits
