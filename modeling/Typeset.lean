import Typeset.Break.Spelling
import Typeset.Proofs.Joining
import Typeset.Proofs.Overflow
import Typeset.Proofs.PairRule
import Typeset.Proofs.Render
import Typeset.Proofs.Tags
import Typeset.Style.Reading
import Typeset.Proofs.Blocks
import Typeset.Proofs.Reflow
import Typeset.Proofs.Rows
import Typeset.Proofs.Abutting
import Typeset.Proofs.Hits
import Typeset.Proofs.BaseRuns
import Typeset.Proofs.WholeBases
import Typeset.Proofs.Alignment
import Typeset.Proofs.Boxes
import Typeset.Proofs.Extent
import Typeset.Proofs.KeptBreaks
import Typeset.Proofs.WiderLines
import Typeset.Proofs.Centring
import Typeset.Proofs.TurnedBases
import Typeset.Proofs.Rebreaking
import Typeset.Proofs.TurnedUnits
import Typeset.Proofs.Placement
import Typeset.Proofs.Groups
import Typeset.Proofs.Gaps
import Typeset.Proofs.Readings
import Typeset.Proofs.Schedule
import Typeset.Proofs.LinkRuns
import Typeset.Proofs.Spelling
import Typeset.Proofs.Remarking
import Typeset.Break.TableStore
import Typeset.Proofs.Tailoring
import Typeset.Proofs.Separation
import Typeset.Proofs.TextEdge
import Typeset.Proofs.Settings
