import Debase.Git.Combine
import Debase.Git.HunkRoundTrip
import Debase.Git.MergeSides
import Debase.Git.Planned
import Debase.Git.EditNop
import Debase.Git.Resolve
import Debase.Git.Reflog
import Debase.State.RepoDirs
import Debase.State.VersionLock
import Debase.State.Snapshots
import Debase.State.CleanSnapshots
import Debase.App.Reload
import Debase.App.Columns
import Debase.App.Protected
import Debase.App.Unharmed
import Debase.App.HitTest
import Debase.App.ConflictRun
import Debase.App.Startup
import Debase.Ui.ContentText
import Debase.Ui.LineWrapText
import Debase.Ui.TextEditing
import Debase.Ui.CommitPanel
