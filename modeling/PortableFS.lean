import PortableFS.Locks.Calm
import PortableFS.Writeback.Notifications
import PortableFS.Writeback.Refinement
import PortableFS.Restore.Convergence
import PortableFS.Sequencer.Safety
import PortableFS.Coherence.Deadlines
import PortableFS.ControlPlane.StoreDurability
import PortableFS.Archive.Ranges
import PortableFS.Hydrator.Agreement
import PortableFS.Auth.SingleUse
import PortableFS.LocalRoutes.Renames
import PortableFS.Mounts.Survival
import PortableFS.Cell.Releases
import PortableFS.Workspace.Clock
import PortableFS.Workspace.Gate
