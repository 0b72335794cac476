import Echse.Bitint
import Echse.Snarf
import Echse.Refill
import Echse.Conns
import Echse.Event
import Echse.Evfilt
import Echse.Owner
import Echse.Chkpnt
import Echse.TaskPool
import Echse.Echsd
import Echse.Echsq
import Echse.Parser
import Echse.Icalify
import Echse.Tzob
import Echse.Tzraw
import Echse.Zones
import Echse.Evmux
import Echse.Http
import Echse.Task
import Echse.Echsx
import Echse.SnarfFld
import Echse.Dtlst
import Echse.Evrdat
import Echse.Intern
import Echse.CmdIcal
import Echse.Lib.Streams
import Echse.Lib.FillRuns
import Echse.Lib.FillTired
import Echse.Lib.FillSteady
import Echse.Lib.FillOrbit
import Echse.Lib.FillOrder
import Echse.Lib.Gregorian
import Echse.Lib.LikeMonths
import Echse.Lib.Computus
import Echse.Lib.Picks
import Echse.Lib.Walks
import Echse.Lib.YearDates
import Echse.Lib.Runs
import Echse.Lib.Spans
import Echse.Proofs.Calendar
import Echse.Proofs.Carry
import Echse.Proofs.Steps
import Echse.Proofs.Bitint
import Echse.Proofs.Snarf
import Echse.Proofs.Ranges
import Echse.Proofs.Room
import Echse.Proofs.Halt
import Echse.Proofs.Keys
import Echse.Proofs.Cands
import Echse.Proofs.Order
import Echse.Proofs.Conns
import Echse.Proofs.Evfilt
import Echse.Proofs.Chkpnt
import Echse.Proofs.Watchers
import Echse.Proofs.Children
import Echse.Proofs.MaxSimul
import Echse.Proofs.TaskTable
import Echse.Proofs.Pool
import Echse.Proofs.Slots
import Echse.Lib.Chain
import Echse.Proofs.Credentials
import Echse.Proofs.Cycle
import Echse.Proofs.Lines
import Echse.Proofs.Chunks
import Echse.Proofs.Wire
import Echse.Proofs.RrulText
import Echse.Proofs.RrulVals
import Echse.Proofs.RrulSets
import Echse.Proofs.RrulParts
import Echse.Proofs.RrulCodec
import Echse.Proofs.Stamps
import Echse.Proofs.Epoch
import Echse.Lib.Mux
import Echse.Lib.Probing
import Echse.Proofs.Evmux
import Echse.Proofs.Duration
import Echse.Proofs.Tzraw
import Echse.Proofs.DayNumbers
import Echse.Proofs.Rescale
import Echse.Proofs.Zones
import Echse.Proofs.TaskMap
import Echse.Proofs.Atomic
import Echse.Proofs.Easter
import Echse.Proofs.MonthDays
import Echse.Proofs.DenseDays
import Echse.Proofs.Horizon
import Echse.Proofs.Http
import Echse.Proofs.Echsx
import Echse.Proofs.Requests
import Echse.Proofs.Resched
import Echse.Proofs.Evrdat
import Echse.Proofs.Calendars
import Echse.Proofs.Replies
import Echse.Proofs.Inherit
import Echse.Proofs.Weekdays
import Echse.Proofs.Weeks
import Echse.Proofs.Divisors
import Echse.Lib.FillExact
import Echse.Proofs.Grid
import Echse.Proofs.Daily
import Echse.Proofs.Weekly
import Echse.Proofs.Delegate
import Echse.Proofs.MonthFill
import Echse.Proofs.MonthHorizon
import Echse.Proofs.Monthly
import Echse.Proofs.MonthSteps
import Echse.Proofs.Members
import Echse.Proofs.SetForms
import Echse.Proofs.Counted
import Echse.Proofs.YearSets
import Echse.Proofs.IsoWeeks
import Echse.Proofs.SetPos
import Echse.Proofs.Bdays
import Echse.Proofs.Readers
import Echse.Proofs.ShiftLists
import Echse.Proofs.Dtlst
import Echse.Proofs.PartOrder
import Echse.Proofs.ShiftSets
import Echse.Proofs.YearDays
import Echse.Proofs.Subday
import Echse.Proofs.EasterFill
import Echse.Proofs.DateText
import Echse.DtStrf
import Echse.Proofs.IdiffText
import Echse.Proofs.RangeText
import Echse.Proofs.Escapes
import Echse.Proofs.Nesting
import Echse.Lib.Search
import Echse.Memmem
import Echse.Proofs.Memmem
import Echse.Obarray
import Echse.Proofs.Stacks
import Echse.Proofs.Obarray
import Echse.Filter
import Echse.Lib.Cursors
import Echse.Proofs.Filter
import Echse.Proofs.PlainFilters
import Echse.Proofs.State
import Echse.Proofs.EnumLoop
import Echse.Proofs.Strlst
import Echse.Proofs.ZifCache
import Echse.Proofs.Fdprnt
import Echse.Proofs.UnrollIcal
import Echse.Proofs.UnrollSize
import Echse.Proofs.Chlds
