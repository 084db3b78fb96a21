import CronTimes.Session
import CronTimes.Reading
import CronTimes.JsonForm
import CronTimes.Proofs.NearestEvents
import CronTimes.Proofs.SearchDepth
import CronTimes.Proofs.DenseSchedules
import CronTimes.Proofs.OppositeRuns
import CronTimes.Proofs.SearchReports
import CronTimes.Proofs.CheckedLookups
import CronTimes.Proofs.DayTokens
import CronTimes.Proofs.FirstFault
import CronTimes.Proofs.CanonicalText
import CronTimes.Proofs.PickedDays
import CronTimes.Proofs.FiringLookups
import CronTimes.Proofs.EventRuns
import CronTimes.Proofs.FinalEvents
import CronTimes.Proofs.WeekdayCycle
import CronTimes.Proofs.MonthWeeks
import CronTimes.Proofs.RefusedMonths
import CronTimes.Proofs.UtcStamps
import CronTimes.Proofs.ProgressionTerms
import CronTimes.Proofs.FieldLookups
import CronTimes.Proofs.SessionRuns
