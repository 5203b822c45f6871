import LatticeSeries.FieldTable.Layout
import LatticeSeries.Main
import LatticeSeries.Recording
import LatticeSeries.Proofs.FieldHeaderCodec
import LatticeSeries.Proofs.HeaderCodec
import LatticeSeries.Proofs.Search
import LatticeSeries.Proofs.IndexBuild
import LatticeSeries.Proofs.Pieces
import LatticeSeries.Proofs.RowCodec
import LatticeSeries.Proofs.Opening
import LatticeSeries.Proofs.Decoding
import LatticeSeries.Proofs.RoundTrip
import LatticeSeries.Proofs.Canonical
import LatticeSeries.Proofs.TimeStepLookup
import LatticeSeries.Checked
import LatticeSeries.Proofs.CheckedBlock
import LatticeSeries.Proofs.CheckedLookup
import LatticeSeries.Proofs.Preamble
import LatticeSeries.Proofs.LimitFilter
import LatticeSeries.Proofs.Body
import LatticeSeries.Proofs.Joining
import LatticeSeries.Proofs.Truncation
import LatticeSeries.Proofs.XdrFaults
import LatticeSeries.Proofs.FieldHeaderGrammar
import LatticeSeries.Proofs.RecordLength
import LatticeSeries.Proofs.Arguments
import LatticeSeries.Proofs.TableText
import LatticeSeries.Proofs.SessionRun
import LatticeSeries.Proofs.NumeralCodec
import LatticeSeries.Proofs.CommandRun
import LatticeSeries.Proofs.CommandAgreement
import LatticeSeries.Proofs.IndexVerdict
import LatticeSeries.Proofs.BlockElements
import LatticeSeries.Proofs.NameIndex
import LatticeSeries.Proofs.LayoutPartition
import LatticeSeries.Xdr.Decoder
import LatticeSeries.Proofs.Utf8Faults
import LatticeSeries.Proofs.XdrText
import LatticeSeries.Proofs.XdrTranscript
import LatticeSeries.Proofs.SiteViews
import LatticeSeries.Proofs.NotANumber
import LatticeSeries.Proofs.RecordEquality
import LatticeSeries.Proofs.TableAlignment
import LatticeSeries.Proofs.OptionPlace
import LatticeSeries.Settings.Visitor
import LatticeSeries.Proofs.DistinctKeys
import LatticeSeries.Proofs.SettingsKeys
import LatticeSeries.Proofs.SettingsVisit
import LatticeSeries.Proofs.SettingsLoad
import LatticeSeries.Proofs.HeaderVerdict
import LatticeSeries.Proofs.ColumnCuts
