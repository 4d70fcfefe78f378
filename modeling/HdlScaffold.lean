import HdlScaffold.Main
import HdlScaffold.Proofs.Alignment
import HdlScaffold.Proofs.BlockSearch
import HdlScaffold.Proofs.Comments
import HdlScaffold.Proofs.FailedRuns
import HdlScaffold.Proofs.Footprint
import HdlScaffold.Proofs.Generation
import HdlScaffold.Proofs.HiddenPorts
import HdlScaffold.Proofs.Layout
import HdlScaffold.Proofs.Locality
import HdlScaffold.Proofs.Regeneration
import HdlScaffold.Proofs.Repetition
import HdlScaffold.Proofs.Signals
import HdlScaffold.Proofs.LineCuts
import HdlScaffold.Proofs.DeclarationLists
import HdlScaffold.Proofs.PortOrigins
import HdlScaffold.Proofs.DelimiterTokens
import HdlScaffold.Proofs.Columns
import HdlScaffold.Proofs.IntegerWidths
import HdlScaffold.Proofs.Descriptions
import HdlScaffold.Proofs.ParameterValues
import HdlScaffold.Proofs.SharedWidths
import HdlScaffold.Proofs.Timescales
import HdlScaffold.Proofs.Emission
import HdlScaffold.Proofs.SettingsFiles
import HdlScaffold.Proofs.PortOrder
import HdlScaffold.Proofs.FileNames
import HdlScaffold.Proofs.ReaderBounds
import HdlScaffold.Proofs.ArgumentGroups
import HdlScaffold.Proofs.Endings
