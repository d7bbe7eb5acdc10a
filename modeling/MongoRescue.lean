import MongoRescue.HA.Proof.Release
import MongoRescue.HA.Proof.Epochs
import MongoRescue.HA.Proof.Trust
import MongoRescue.HA.Proof.Names
import MongoRescue.HA.Proof.Retention
import MongoRescue.Oplog.Proof.Isolation
import MongoRescue.Oplog.Proof.Tally
import MongoRescue.Oplog.Proof.Catalog
import MongoRescue.Oplog.Proof.Counts
import MongoRescue.Oplog.Proof.Copy
import MongoRescue.PITR.Proof.ExactlyOnce
import MongoRescue.PITR.Proof.Windows
import MongoRescue.PITR.Proof.Transactions
import MongoRescue.Restore.Proof.Namespaces
import MongoRescue.InPlace.Proof.Recovery
import MongoRescue.Rotation.Proof.Recovery
import MongoRescue.Scheduler.Proof.Retention
import MongoRescue.Selection.Proof.Pattern
import MongoRescue.Selection.Proof.Resolve
import MongoRescue.Runs.Proof.Locks
import MongoRescue.Auth.Proof.SingleSignOn
import MongoRescue.Auth.Proof.Throttle
import MongoRescue.AuditLog.Proof.Beside
import MongoRescue.AuditLog.Proof.Coalesce
import MongoRescue.Redact.Proof.Secrets
import MongoRescue.Redact.Proof.Text
