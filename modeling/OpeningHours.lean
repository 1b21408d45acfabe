import OpeningHours.Cron.Reader
import OpeningHours.Hours
import OpeningHours.Point.Edit
import OpeningHours.Point.Index
import OpeningHours.Proofs.Hours.Cover
import OpeningHours.Proofs.Hours.Triggers
import OpeningHours.Proofs.Hours.Wait
import OpeningHours.Proofs.Spec.Union
import OpeningHours.Proofs.Hours.Equality
import OpeningHours.Proofs.Cron.Apart
import OpeningHours.Proofs.Hours.Partition
import OpeningHours.Proofs.Spec.Scan
import OpeningHours.Proofs.Spec.Strict
import OpeningHours.Proofs.Hours.Always
import OpeningHours.Proofs.Spec.Readable
import OpeningHours.Proofs.Hours.Failure
import OpeningHours.Proofs.Spec.Gap
import OpeningHours.Proofs.Point.Addition
import OpeningHours.Proofs.Point.Comparison
import OpeningHours.Proofs.Point.Phase
import OpeningHours.Proofs.Point.Session
import OpeningHours.Proofs.Cron.Union
import OpeningHours.Proofs.Cron.Grouping
import OpeningHours.Proofs.Spec.Boundary
import OpeningHours.Proofs.Spec.Expansion
import OpeningHours.Proofs.Hours.OneTrigger
import OpeningHours.Proofs.Cron.Listing
import OpeningHours.Proofs.Cron.Occurrence
import OpeningHours.Proofs.Point.Elapsed
import OpeningHours.Proofs.Period.Settled
import OpeningHours.Proofs.Period.Wrapping
import OpeningHours.Proofs.Point.Admission
