import ScheduleTransforms.Isl
import ScheduleTransforms.Tree
import ScheduleTransforms.Schedule
import ScheduleTransforms.Bands
import ScheduleTransforms.Tile
import ScheduleTransforms.Views
import ScheduleTransforms.Insert
import ScheduleTransforms.Active
import ScheduleTransforms.WellFormed
import ScheduleTransforms.Merge
import ScheduleTransforms.MergeChains
import ScheduleTransforms.Label
import ScheduleTransforms.Prefix
import ScheduleTransforms.Order
import ScheduleTransforms.Invariant
