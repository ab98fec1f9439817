import MeePdn.DataLayer.Freshness
import MeePdn.DataLayer.KeptViews
import MeePdn.DataLayer.Pod.MembershipView.Arrival
import MeePdn.DataLayer.Pod.MembershipView.Trace
import MeePdn.DataLayer.Pod.Sufficient
import MeePdn.PdnNode.Allowed
import MeePdn.PdnNode.Devices
import MeePdn.PdnStore.Covered
import MeePdn.PdnStore.Engine.Capacity
import MeePdn.PdnStore.Engine.Crossing
import MeePdn.PdnStore.Engine.InSession
import MeePdn.PdnStore.Engine.Landed
import MeePdn.PdnStore.Engine.News
import MeePdn.PdnStore.Engine.Report
import MeePdn.PdnStore.Engine.Slots
import MeePdn.PdnStore.Fs.Peers
import MeePdn.PdnStore.Fs.Query
import MeePdn.PdnStore.Merge
import MeePdn.PdnStore.Panics
