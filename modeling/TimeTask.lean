import TimeTask.Lib.Heap
import TimeTask.Types
import TimeTask.CycList
import TimeTask.ListHistory
import TimeTask.Lib.CString
import TimeTask.Names
import TimeTask.Binding
import TimeTask.Effects
import TimeTask.Lib.Files
import TimeTask.Log
import TimeTask.Reentry
import TimeTask.Release
import TimeTask.Rotation
import TimeTask.RoundTrip
import TimeTask.SectionNames
import TimeTask.Startup
import TimeTask.Teardown
import TimeTask.FinalNewline
import TimeTask.LibScan
import TimeTask.LogHandle
import TimeTask.LongLines
import TimeTask.Rejected
import TimeTask.Archive
import TimeTask.LibBuffers
import TimeTask.LogBuffers
import TimeTask.Boot
import TimeTask.Config
import TimeTask.FileHeap
import TimeTask.Launch
import TimeTask.LogHistory
import TimeTask.NodeSim
import TimeTask.Play
import TimeTask.Holdings
import TimeTask.Isolation
import TimeTask.Lib.Service
import TimeTask.Life
import TimeTask.LogLines
import TimeTask.StopInCall
import TimeTask.Ready
