import NdpOffload.Faasmspeed.Calls
import NdpOffload.Faasmspeed.Columns
import NdpOffload.Faasmspeed.Intervals
import NdpOffload.Faasmspeed.Monitoring
import NdpOffload.Faasmspeed.Progress
import NdpOffload.Faasmspeed.Scheduling
import NdpOffload.Faasmspeed.Skipping
import NdpOffload.Faultspeed.Concurrency
import NdpOffload.Faultspeed.Descriptors
import NdpOffload.Faultspeed.Faults
import NdpOffload.Faultspeed.LazyRestore
import NdpOffload.Faultspeed.Registration
import NdpOffload.Memspeed.HostBuffer
import NdpOffload.Memspeed.ListWalk
import NdpOffload.Memspeed.MramCopy
import NdpOffload.Memspeed.Transfers
import NdpOffload.Memspeed.WramCopy
import NdpOffload.NearMap.Classification
import NdpOffload.NearMap.Figures
import NdpOffload.NearMap.FirstPhase
import NdpOffload.NearMap.PageSize
import NdpOffload.NearMap.RoundTrip
import NdpOffload.NearMap.Summary
import NdpOffload.Statmon.Health
import NdpOffload.Statmon.Kinds
