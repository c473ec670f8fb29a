import PacketTrust.Bytes.Lemmas
import PacketTrust.Main
import PacketTrust.Proofs.Packet.SignedPortion
import PacketTrust.Proofs.Storage.Contents
import PacketTrust.Proofs.Validation.Hierarchy
import PacketTrust.Proofs.Validation.Replay
import PacketTrust.Signer
import PacketTrust.Time.Calendar
import PacketTrust.Proofs.Validation.Limits
import PacketTrust.Proofs.Validation.Alone
import PacketTrust.Proofs.Validation.Rules
import PacketTrust.Proofs.Validation.Reports
import PacketTrust.Proofs.Validation.Trust
import PacketTrust.Proofs.Validation.Provenance
import PacketTrust.Proofs.Validation.Undisturbed
import PacketTrust.Proofs.Validation.Completeness
import PacketTrust.Proofs.Validation.Solicited
import PacketTrust.Proofs.Text.Numeral
import PacketTrust.Proofs.Time.Calendar
import PacketTrust.Proofs.Time.Stamp
import PacketTrust.Proofs.Tlv.Runs
import PacketTrust.Proofs.Name.Wire
import PacketTrust.Proofs.Packet.Fields
import PacketTrust.Proofs.Packet.SignatureInfo
import PacketTrust.Proofs.Packet.RoundTrip
import PacketTrust.Proofs.Packet.Interest
import PacketTrust.Proofs.Validation.Alike
import PacketTrust.Proofs.Validation.Reuse
import PacketTrust.Storage.Removals
import PacketTrust.Proofs.Storage.Lifetimes
import PacketTrust.Proofs.Storage.Holders
import PacketTrust.Proofs.Storage.Readings
import PacketTrust.Proofs.Storage.Mirroring
import PacketTrust.Proofs.Storage.Searches
import PacketTrust.Proofs.Tlv.Numbers
import PacketTrust.Proofs.Name.Escape
import PacketTrust.Proofs.Name.Uri
import PacketTrust.Proofs.Validation.Remembering
import PacketTrust.Proofs.Validation.Keyed
import PacketTrust.Proofs.Name.Order
import PacketTrust.Proofs.Validation.Chains
import PacketTrust.Proofs.Validation.Repetition
import PacketTrust.Proofs.Bytes.Base64
import PacketTrust.Proofs.Packet.Issued
import PacketTrust.Proofs.Name.Carried
import PacketTrust.Proofs.Packet.Evolution
import PacketTrust.Proofs.Packet.Covered
import PacketTrust.Proofs.Packet.Kept
import PacketTrust.Proofs.Validation.RecordOrder
import PacketTrust.Proofs.Validation.Callbacks
import PacketTrust.Proofs.Packet.Signed
import PacketTrust.Proofs.Validation.Commands
import PacketTrust.Proofs.Tlv.Framing
import PacketTrust.Proofs.Options.Variables
import PacketTrust.Proofs.Options.Periods
