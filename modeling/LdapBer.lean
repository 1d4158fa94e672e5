import LdapBer.Main
import LdapBer.Format
import LdapBer.Grammar.Table
import LdapBer.Proofs.Decode.Chunks
import LdapBer.Proofs.Ber.Integer
import LdapBer.Proofs.Decode.Tree
import LdapBer.Proofs.Decode.Walk
import LdapBer.Proofs.Decode.Whole
import LdapBer.Proofs.Message.Syntax
import LdapBer.Proofs.Message.Accepts
import LdapBer.Proofs.Ber.Layout
import LdapBer.Proofs.Message.Encoding
import LdapBer.Proofs.Message.RoundTrip
import LdapBer.Proofs.Ber.Shortest
import LdapBer.Proofs.Ber.Room
import LdapBer.Proofs.Ber.Canonical
import LdapBer.Proofs.Decode.Parse
import LdapBer.Proofs.Decode.Pipeline
import LdapBer.Proofs.Message.Canonical
import LdapBer.Proofs.Message.Reencoding
import LdapBer.Proofs.Decode.Frames
import LdapBer.Proofs.Message.Room
import LdapBer.Proofs.Decode.Nesting
import LdapBer.Proofs.Message.Nesting
import LdapBer.Proofs.Decode.Deliveries
import LdapBer.Proofs.Decode.Runs
import LdapBer.Proofs.Decode.Retained
import LdapBer.Proofs.Decode.Calls
import LdapBer.Proofs.Decode.Limit
import LdapBer.Proofs.Decode.Faults
import LdapBer.Proofs.ControlValue.SortRequest
import LdapBer.Proofs.ControlValue.SyncInfo
import LdapBer.Proofs.Decode.Positions
import LdapBer.Proofs.Dump.Window
import LdapBer.Proofs.Dump.ChunkSize
import LdapBer.Proofs.Dump.Comparison
import LdapBer.Proofs.Oid.Binary
import LdapBer.Proofs.ControlValue.Encoding
import LdapBer.Proofs.ControlValue.RoundTrip
import LdapBer.Proofs.ControlValue.Reencoding
import LdapBer.Proofs.Oid.Dotted
import LdapBer.Proofs.Dn.Syntax
import LdapBer.Proofs.Dn.Parts
import LdapBer.Proofs.Dn.Accepts
import LdapBer.Proofs.Dn.RoundTrip
import LdapBer.Proofs.Dn.Normal
import LdapBer.Proofs.Ber.Header
import LdapBer.Proofs.Ber.Minimal
import LdapBer.Proofs.Ber.Writer
import LdapBer.Proofs.Message.Measuring
import LdapBer.Proofs.Text.Utf8
import LdapBer.Proofs.Text.Base64
import LdapBer.Proofs.Text.HexBlock
import LdapBer.Proofs.Options.Size
import LdapBer.Proofs.Options.Steps
