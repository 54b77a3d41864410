import Hotserve.Backup.Proofs.Check
import Hotserve.Backup.Proofs.EnvNames
import Hotserve.Backup.Proofs.Exclude
import Hotserve.Backup.Proofs.Gone
import Hotserve.Backup.Proofs.Unit
import Hotserve.Box.Proofs.Baseline
import Hotserve.Box.Proofs.Reach
import Hotserve.Box.Proofs.Retention
import Hotserve.Box.Proofs.Secrets
import Hotserve.Box.Proofs.Sweep
import Hotserve.Box.Proofs.Unchanged
import Hotserve.Bundle.Proofs.Chain
import Hotserve.Bundle.Proofs.Commit
import Hotserve.Bundle.Proofs.Written
import Hotserve.Liveswap.Attribution
import Hotserve.Liveswap.Caps
import Hotserve.Liveswap.Health
import Hotserve.Liveswap.Limiter
import Hotserve.Liveswap.Proofs.Allowlist
import Hotserve.Liveswap.Proofs.Extract
import Hotserve.Liveswap.Proofs.Isolation
import Hotserve.Liveswap.Proofs.Releases
import Hotserve.Liveswap.Proofs.Reload
import Hotserve.Liveswap.Proofs.Sweep
import Hotserve.Liveswap.Proofs.Unowned
import Hotserve.Liveswap.Proofs.Watchdog
import Hotserve.Penaltybox.Proofs.Sweep
import Hotserve.Penaltybox.Words
import Hotserve.Restore.Proofs.Modes
