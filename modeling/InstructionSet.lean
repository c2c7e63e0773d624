import InstructionSet.Bits.ByteOrder
import InstructionSet.Decoder.Decode
import InstructionSet.Decoder.Encode
import InstructionSet.Description
import InstructionSet.Proofs.Decoder.Acceptance
import InstructionSet.Proofs.Decoder.BaseWord
import InstructionSet.Proofs.Decoder.Cache
import InstructionSet.Proofs.Decoder.Consistent
import InstructionSet.Proofs.Decoder.DeclarationOrder
import InstructionSet.Proofs.Decoder.Exact
import InstructionSet.Proofs.Decoder.Extension
import InstructionSet.Proofs.Decoder.FormatOrder
import InstructionSet.Proofs.Decoder.Leftovers
import InstructionSet.Proofs.Decoder.Locality
import InstructionSet.Proofs.Decoder.Reads
import InstructionSet.Proofs.Decoder.Reencoding
import InstructionSet.Proofs.Decoder.RoundTrip
import InstructionSet.Proofs.FieldTable.Scan
import InstructionSet.Proofs.Forest.Refinement
import InstructionSet.Proofs.Search.Numbers
import InstructionSet.Proofs.Validation.Report
import InstructionSet.Proofs.Forest.Answers
import InstructionSet.Proofs.Decoder.Unreachable
import InstructionSet.Proofs.Bits.Machine
import InstructionSet.Proofs.Bits.Accesses
import InstructionSet.Proofs.Decoder.LastWriter
import InstructionSet.Proofs.Decoder.Representable
import InstructionSet.Proofs.Decoder.SharedFields
import InstructionSet.Proofs.Description.Layouts
import InstructionSet.Proofs.Description.Numbers
import InstructionSet.Proofs.Decoder.Listing
import InstructionSet.Proofs.Bits.WordOrder
import InstructionSet.Proofs.Bits.Overrun
import InstructionSet.Proofs.Validation.Reuse
