import QRCode.Reader
import QRCode.SegmentFormat
import QRCode.Settings
import QRCode.Utf16
import QRCode.Proofs.Bytes
import QRCode.Proofs.Packing
import QRCode.Proofs.Encoding
import QRCode.Proofs.Interleaving
import QRCode.Proofs.Field
import QRCode.Proofs.Remainder
import QRCode.Proofs.Distance
import QRCode.Proofs.Blocks
import QRCode.Proofs.Region
import QRCode.Proofs.Drawing
import QRCode.Proofs.Reading
import QRCode.Proofs.Building
import QRCode.Proofs.Recovery
import QRCode.Proofs.Checked.Blocks
import QRCode.Proofs.Checked.Drawing
import QRCode.Proofs.Checked.Building
import QRCode.Proofs.Outcome
import QRCode.Proofs.Detection
import QRCode.Proofs.Choices
import QRCode.Proofs.Segments
import QRCode.Proofs.Patterns
import QRCode.Proofs.Edits
import QRCode.Proofs.Runs
import QRCode.Proofs.Products
import QRCode.Proofs.Division
import QRCode.Proofs.Filling
import QRCode.Proofs.Foreign
import QRCode.Proofs.PlacePenalty
import QRCode.Proofs.Walking
import QRCode.Proofs.Placing
import QRCode.Proofs.LeastVersion
import QRCode.Proofs.NarrowestMode
import QRCode.Proofs.SlotPositions
import QRCode.Proofs.EvenShares
import QRCode.Proofs.EncoderCalls
import QRCode.Proofs.Cutting
import QRCode.Proofs.MaskTrials
import QRCode.Proofs.Strokes
import QRCode.Proofs.PatternPasses
import QRCode.Proofs.MaskSequences
import QRCode.Proofs.Symmetry
import QRCode.Proofs.WholeChunks
import QRCode.Proofs.Telling
import QRCode.Proofs.Tables
