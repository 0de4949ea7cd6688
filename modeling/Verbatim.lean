import Verbatim.Listener.Cascade
import Verbatim.Listener.Waiters
import Verbatim.Listener.Order
import Verbatim.Listener.Grace
import Verbatim.Input.Session
import Verbatim.Terminal.Rotation
import Verbatim.Terminal.KeptMost
import Verbatim.Terminal.Paired
import Verbatim.Terminal.BlankReads
import Verbatim.Terminal.Difference
import Verbatim.Terminal.Padding
import Verbatim.Core.HeldRuns
import Verbatim.Core.QueryRuns
import Verbatim.Core.FocusGroups
import Verbatim.Core.Removal
import Verbatim.ReaderRules.Histories
import Verbatim.Outpost.HandOver
import Verbatim.Outpost.Parked
import Verbatim.Outpost.Copies
import Verbatim.Outpost.IdleAnswers
import Verbatim.Outpost.GapRuns
import Verbatim.Outpost.Tokens
import Verbatim.Flood.Bursts
import Verbatim.Flood.Aligned
import Verbatim.Flood.Wakes
import Verbatim.Process.FrameStreams
import Verbatim.Outbound.Freed
import Verbatim.Audio.Tap
import Verbatim.Rops.Counting
